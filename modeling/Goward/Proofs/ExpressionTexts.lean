import Goward.Proofs.NestedTexts

/-!
# Texts of expressions

The Go expressions of values, calls and constructions, and the first lines of code objects, are made
of fixed texts, words and quoted texts, and of the names of packages. So a property of texts holds of
all of them if it holds of these pieces and passes to what is put together from them. Two properties
are of this kind: to have no newline, and to have nested brackets.
-/

namespace Goward

open Goward.Code Goward.Text

variable {o : Options} {ids : List String}

/-- A property of texts that are read from some open brackets to others. It holds of fixed texts on
one line, of words and of quoted texts, and of a text with another one behind it. -/
structure TextProperty where
  Holds : List BracketKind → List BracketKind → String → Prop
  literal : ∀ {p q l}, l.contains '\n' = false → Place.run? ⟨.code, p⟩ l = some ⟨.code, q⟩ →
    Holds p q (String.ofList l)
  word : ∀ {s}, Registry.isWord s = true → ∀ p, Holds p p s
  quote : ∀ s p, Holds p p (Text.quote s)
  append : ∀ {p q r a b}, Holds p q a → Holds q r b → Holds p r (a ++ b)

namespace TextProperty

/-- A property holds of a text wherever it stands in code. -/
def Throughout (T : TextProperty) (s : String) : Prop := ∀ p, T.Holds p p s

variable {T : TextProperty} {a b x : String} {xs : List String} {p : List BracketKind}

/-- A fixed text with nested brackets. -/
theorem fixed {l : List Char} (hline : l.contains '\n' = false)
    (hl : ∀ p, Place.run? ⟨.code, p⟩ l = some ⟨.code, p⟩) : T.Throughout (String.ofList l) :=
  fun p => T.literal hline (hl p)

theorem Throughout.append (ha : T.Throughout a) (hb : T.Throughout b) : T.Throughout (a ++ b) :=
  fun p => T.append (ha p) (hb p)

/-- A text between two fixed ones, which may open or close brackets around it. -/
theorem Throughout.between (h : T.Throughout a) {l r : List Char} {q t : List BracketKind}
    (hline : l.contains '\n' = false := by rfl) (hline' : r.contains '\n' = false := by rfl)
    (hopen : Place.run? ⟨.code, p⟩ l = some ⟨.code, q⟩ := by rfl)
    (hclose : Place.run? ⟨.code, q⟩ r = some ⟨.code, t⟩ := by rfl) :
    T.Holds p t (String.ofList l ++ a ++ String.ofList r) :=
  T.append (T.append (T.literal hline hopen) (h q)) (T.literal hline' hclose)

theorem join (h : ∀ x ∈ xs, T.Throughout x) : T.Throughout (String.join xs) :=
  join_induction (fixed rfl fun _ => rfl) .append h

theorem intercalate (ha : T.Throughout a) (h : ∀ x ∈ xs, T.Throughout x) :
    T.Throughout (a.intercalate xs) := intercalate_induction (fixed rfl fun _ => rfl) .append ha h

theorem commaList (h : ∀ x ∈ xs, T.Throughout x) : T.Throughout (commaList xs) :=
  intercalate (fixed rfl fun _ => rfl) h

theorem digits {s : String} (h : ∀ c ∈ s.toList, c.isDigit = true) : T.Throughout s := by
  refine T.word (List.all_eq_true.mpr fun c hc => ?_)
  simp [Char.isAlphanum, h c hc]

theorem nat (n : Nat) : T.Throughout (toString n) := digits isDigit_of_mem_toString

theorem int (n : Int) : T.Throughout (toString n) := by
  cases n with
  | ofNat k => exact nat k
  | negSucc k =>
    show T.Throughout ("-" ++ toString (k + 1))
    exact .append (fixed rfl fun _ => rfl) (nat _)

theorem scratch {t : Temp} (h : t.Scratch) : T.Throughout t.name := by
  obtain ⟨-, n, hname⟩ := h
  rw [hname]
  exact .append (fixed rfl fun _ => rfl) (digits Temp.isDigit_of_mem_number)

theorem item {items : Temp} (h : items.Scratch) (index : Nat) :
    T.Throughout (Value.item items index).text := by
  intro p
  exact T.append (T.append (T.append (scratch h p) (T.literal rfl rfl)) (nat index _))
    (T.literal rfl rfl)

theorem slotName (h : T.Throughout x) : T.Throughout (slotName x) :=
  .append (fixed rfl fun _ => rfl) h

theorem shared {s : String} (h : Registry.isSharable s = true) :
    T.Throughout (StringRef.shared s).text :=
  .append (fixed rfl fun _ => rfl) (T.word (Registry.isWord_of_isSharable h))

theorem stringRef {s : StringRef} (h : (Mention.string s).From o ids) : T.Throughout s.text := by
  cases s with
  | shared s => exact shared h
  | fresh s =>
    exact fun p => Throughout.between (T.quote s)

section Expressions

variable (hids : ∀ x ∈ ids, T.Throughout x)
  (hpackages : ∀ p : Package, p.From o ids → T.Throughout p.goName)

include hids in
theorem value {v : Value} (hm : ∀ m ∈ v.mentions, m.From o ids) (ht : ∀ t ∈ v.temps, t.Scratch) :
    T.Throughout v.text := by
  intro p
  cases v with
  | temp t => exact scratch (ht t (List.mem_singleton_self t)) p
  | slot x => exact slotName (hids x (hm _ (List.mem_singleton_self _))) p
  | str s => exact T.append (stringRef (hm _ (List.mem_singleton_self _)) p) (T.literal rfl rfl)
  | int n => exact (int n).between
  | noneObject => exact T.literal rfl rfl
  | item t index => exact item (ht t (List.mem_singleton_self t)) index p
  | verbatim s => exact (hm _ (List.mem_singleton_self _)).elim

include hids in
theorem values {vs : List Value} (hm : ∀ m ∈ vs.flatMap Value.mentions, m.From o ids)
    (ht : ∀ t ∈ vs.flatMap Value.temps, t.Scratch) : ∀ s ∈ vs.map Value.text, T.Throughout s := by
  intro s hs
  obtain ⟨v, hv, rfl⟩ := List.mem_map.mp hs
  exact value hids (fun m h => hm m (List.mem_flatMap.mpr ⟨v, hv, h⟩))
    fun t h => ht t (List.mem_flatMap.mpr ⟨v, hv, h⟩)

theorem runtime {fn : String} {args : List String} (hfn : T.Throughout fn)
    (hargs : ∀ a ∈ args, T.Throughout a) : T.Throughout (Call.runtime fn args) := by
  have hjoin : T.Throughout (String.join (args.map (", " ++ ·))) := by
    refine join fun s hs => ?_
    obtain ⟨a, ha, rfl⟩ := List.mem_map.mp hs
    exact .append (fixed rfl fun _ => rfl) (hargs a ha)
  intro p
  exact T.append (T.append (T.append (T.append (T.literal rfl rfl) (hfn p)) (T.literal rfl rfl))
    (hjoin _)) (T.literal rfl rfl)

theorem onArgs {fn : String} {args : List String} (hfn : T.Throughout fn)
    (hargs : ∀ a ∈ args, T.Throughout a) : T.Throughout (Call.onArgs fn args) := by
  intro p
  exact T.append (T.append (T.append (hfn p) (T.literal rfl rfl)) (commaList hargs _))
    (T.literal rfl rfl)

theorem opName (op : BinOp) : T.Throughout (opName op) := by
  cases op <;> exact fixed rfl fun _ => rfl

theorem names (names : Namespace) : T.Throughout names.text := by
  cases names <;> exact fixed rfl fun _ => rfl

include hids in
theorem closure {closure : Option String}
    (h : ∀ m ∈ closure.toList.map Mention.slot, m.From o ids) :
    T.Throughout ((closure.map Goward.slotName).getD "nil") := by
  cases closure with
  | none => exact fixed rfl fun _ => rfl
  | some x => exact slotName (hids x (h _ (List.mem_singleton_self _)))

theorem tieTarget {items : Temp} (h : items.Scratch) (index : Nat) :
    T.Throughout (Call.tieTarget items index) := by
  intro p
  exact (item h index).between

include hids hpackages in
theorem call {c : Call} (hm : ∀ m ∈ c.mentions, m.From o ids) (ht : ∀ t ∈ c.temps, t.Scratch) :
    T.Throughout c.text := by
  have hvalue (v : Value) (hm : ∀ m ∈ v.mentions, m.From o ids) (ht : ∀ t ∈ v.temps, t.Scratch) :
      T.Throughout v.text := value hids hm ht
  have hkey (key : StringRef) (h : (Mention.string key).From o ids) :
      T.Throughout key.text ∧ T.Throughout (Value.str key).text :=
    ⟨stringRef h, hvalue (.str key) (List.forall_mem_singleton.mpr h) (List.forall_mem_nil _)⟩
  have hnil : T.Throughout "nil" := fixed rfl fun _ => rfl
  cases c with
  | setItem names key v =>
    obtain ⟨hk, hv⟩ := List.forall_mem_cons.mp hm
    intro p
    exact T.append (T.append (T.append (T.append (T.append (TextProperty.names names p)
      (T.literal rfl rfl)) ((hkey key hk).2 _)) (T.literal rfl rfl)) (hvalue v hv ht _))
      (T.literal rfl rfl)
  | delVar names key =>
    have hk := hkey key (hm _ (List.mem_singleton_self _))
    refine runtime (fixed rfl fun _ => rfl) ?_
    simp [TextProperty.names, hk.1]
  | checkLocal x =>
    have hx := hids x (hm _ (List.mem_singleton_self _))
    refine runtime (fixed rfl fun _ => rfl)
      (List.forall_mem_cons.mpr ⟨slotName hx, List.forall_mem_singleton.mpr (T.quote x)⟩)
  | resolveGlobal key =>
    have hk := hkey key (hm _ (List.mem_singleton_self _))
    refine runtime (fixed rfl fun _ => rfl) ?_
    simp [TextProperty.names, hk.1]
  | resolveClass closure key =>
    obtain ⟨hclosure, hk⟩ := List.forall_mem_append.mp hm
    have hk := hkey key (hk _ (List.mem_singleton_self _))
    refine runtime (fixed rfl fun _ => rfl) ?_
    simp [TextProperty.names, hk.1, TextProperty.closure hids hclosure]
  | getAttr obj attr =>
    obtain ⟨hobj, hattr⟩ := List.forall_mem_append.mp hm
    have hattr := hkey attr (hattr _ (List.mem_singleton_self _))
    refine runtime (fixed rfl fun _ => rfl) ?_
    simp [hvalue obj hobj ht, hattr.1, hnil]
  | setAttr obj attr v =>
    obtain ⟨hobj, hrest⟩ := List.forall_mem_append.mp hm
    obtain ⟨hattr, hv⟩ := List.forall_mem_cons.mp hrest
    obtain ⟨htobj, htv⟩ := List.forall_mem_append.mp ht
    refine runtime (fixed rfl fun _ => rfl) ?_
    simp [hvalue obj hobj htobj, (hkey attr hattr).1, hvalue v hv htv]
  | invoke fn args =>
    obtain ⟨hfn, hargs⟩ := List.forall_mem_append.mp hm
    obtain ⟨htfn, htargs⟩ := List.forall_mem_append.mp ht
    exact onArgs (hvalue fn hfn htfn) (values hids hargs htargs)
  | binary op left right | inplace op left right =>
    obtain ⟨hleft, hright⟩ := List.forall_mem_append.mp hm
    obtain ⟨htleft, htright⟩ := List.forall_mem_append.mp ht
    have hop := opName (T := T) op
    refine runtime (by first | exact hop | exact .append (fixed rfl fun _ => rfl) hop) ?_
    simp [hvalue left hleft htleft, hvalue right hright htright]
  | isTrue v | iter v =>
    refine runtime (fixed rfl fun _ => rfl) ?_
    simp [hvalue v hm ht]
  | tie items n v =>
    obtain ⟨hitems, htv⟩ := List.forall_mem_cons.mp ht
    have htargets : ∀ s ∈ (List.range n).map (Call.tieTarget items), T.Throughout s := by
      intro s hs
      obtain ⟨index, -, rfl⟩ := List.mem_map.mp hs
      exact tieTarget hitems index
    refine runtime (fixed rfl fun _ => rfl)
      (List.forall_mem_cons.mpr ⟨fun p => ?_, List.forall_mem_singleton.mpr (hvalue v hm htv)⟩)
    exact (commaList htargets).between
  | importModule name packages =>
    have hcodes : ∀ s ∈ packages.map (·.goName ++ ".Code"), T.Throughout s := by
      intro s hs
      obtain ⟨p, hp, rfl⟩ := List.mem_map.mp hs
      exact .append (hpackages p (hm _ (List.mem_map_of_mem hp))) (fixed rfl fun _ => rfl)
    refine runtime (fixed rfl fun _ => rfl)
      (List.forall_mem_cons.mpr ⟨T.quote name, List.forall_mem_singleton.mpr fun p => ?_⟩)
    exact (commaList hcodes).between
  | wrapNative reflect package member =>
    obtain ⟨hreflect, hrest⟩ := List.forall_mem_cons.mp hm
    obtain ⟨hpackage, hmember⟩ := List.forall_mem_cons.mp hrest
    have hr := hpackages reflect hreflect
    have hp := hpackages package hpackage
    have hmember := hids member (hmember _ (List.mem_singleton_self _))
    refine runtime (fixed rfl fun _ => rfl) (List.forall_mem_singleton.mpr fun p => ?_)
    exact T.append (T.append (T.append (T.append (T.append (hr p) (T.literal rfl rfl)) (hp _))
      (T.literal rfl rfl)) (hmember _)) (T.literal rfl rfl)
  | setModule names module =>
    have hnames := scratch (T := T) (ht _ (List.mem_singleton_self _))
    have hmodule := (hkey module (hm _ (List.mem_singleton_self _))).2
    intro p
    exact T.append (T.append (T.append (hnames p) (T.literal rfl rfl)) (hmodule _))
      (T.literal rfl rfl)
  | evalCode code =>
    exact .append (scratch (ht _ (List.mem_singleton_self _))) (fixed rfl fun _ => rfl)
  | newClass name bases names =>
    obtain ⟨hbases, hnames⟩ := List.forall_mem_cons.mp ht
    have hnames := scratch (T := T) (hnames _ (List.mem_singleton_self _))
    have hname := hkey name (hm _ (List.mem_singleton_self _))
    have hobject : T.Throughout (names.name ++ ".ToObject()") := hnames.append (fixed rfl fun _ => rfl)
    refine onArgs (fixed rfl fun _ => rfl) ?_
    simp [hname.2, scratch hbases, hobject]

include hids in
theorem construction {k : Construction} (hm : ∀ m ∈ k.mentions, m.From o ids)
    (ht : ∀ t ∈ k.temps, t.Scratch) : T.Throughout k.text := by
  intro p
  cases k with
  | tuple elts | list elts =>
    have helts : T.Throughout (valueList elts) := commaList (values hids hm ht)
    exact helts.between
  | array n => exact (nat n).between
  | dict => exact T.literal rfl rfl
  | received => exact T.literal rfl rfl

end Expressions

/-! ### Code objects -/

theorem codeFlags (header : FunctionHeader) : T.Throughout (Layout.codeFlags header) := by
  have hjoin (flags : List String) (h : ∀ s ∈ flags, T.Throughout s) :
      T.Throughout (if flags.isEmpty then "0" else " | ".intercalate flags) := by
    split
    · exact fixed rfl fun _ => rfl
    · exact intercalate (fixed rfl fun _ => rfl) h
  refine hjoin _ fun s hs => ?_
  rcases List.mem_append.mp hs with hs | hs <;> split at hs
  · exact List.mem_singleton.mp hs ▸ fixed rfl fun _ => rfl
  · cases hs
  · exact List.mem_singleton.mp hs ▸ fixed rfl fun _ => rfl
  · cases hs

/-- The first line of a function ends in its block. -/
theorem frameFunction {args : String} (h : T.Throughout args) (p : List BracketKind) :
    T.Holds p (.curly :: p) (Layout.frameFunction args) :=
  h.between

theorem functionOpening (filename : String) (header : FunctionHeader) (p : List BracketKind) :
    T.Holds p (.curly :: .round :: p) (Layout.functionOpening filename header) := by
  have hparams : ∀ s ∈ header.params.map fun p => "\x7bName: " ++ Text.quote p ++ "\x7d",
      T.Throughout s := by
    intro s hs
    obtain ⟨x, -, rfl⟩ := List.mem_map.mp hs
    exact fun p => Throughout.between (T.quote x)
  refine T.append (T.append (T.append (T.append (T.append (T.append (T.append (T.append (T.append
    (T.literal rfl rfl) (T.quote _ _)) (T.literal rfl rfl)) (T.quote _ _)) (T.literal rfl rfl))
    (commaList hparams _)) (T.literal rfl rfl)) (codeFlags header _)) (T.literal rfl rfl)) ?_
  exact frameFunction (fixed rfl fun _ => rfl) _

theorem codeOpening (filename name : String) (p : List BracketKind) :
    T.Holds p (.curly :: .round :: p) (Layout.codeOpening filename name) := by
  refine T.append (T.append (T.append (T.append (T.append (T.literal rfl rfl) (T.quote _ _))
    (T.literal rfl rfl)) (T.quote _ _)) (T.literal rfl rfl)) ?_
  exact frameFunction (fixed rfl fun _ => rfl) _

end TextProperty

/-- Texts without a newline. -/
def TextProperty.oneLine : TextProperty where
  Holds _ _ s := OneLine s
  literal hline _ := .literal hline
  word h _ := Registry.oneLine_of_isWord h
  quote s _ := oneLine_quote s
  append ha hb := oneLine_append.mpr ⟨ha, hb⟩

/-- Texts that lead from some open brackets to others. -/
def TextProperty.nested : TextProperty where
  Holds p q s := Takes s p q
  literal _ hl := .literal hl
  word h := (without_of_all h).balanced
  quote := balanced_quote
  append := .append

namespace Code

theorem oneLine_slotName {x : String} (h : OneLine x) : OneLine (slotName x) :=
  TextProperty.slotName (T := .oneLine) (fun _ => h) []

theorem balanced_slotName {x : String} (h : Registry.isWord x = true) : Balanced (slotName x) :=
  TextProperty.slotName (T := .nested) (without_of_all h).balanced

section OneLine

variable (ho : o.OneLine) (hids : ∀ x ∈ ids, OneLine x)

include hids in
theorem Value.oneLine {v : Value} (hm : ∀ m ∈ v.mentions, m.From o ids)
    (ht : ∀ t ∈ v.temps, t.Scratch) : OneLine v.text :=
  TextProperty.value (T := .oneLine) (fun x hx _ => hids x hx) hm ht []

include ho hids in
theorem Call.oneLine {c : Call} (hm : ∀ m ∈ c.mentions, m.From o ids)
    (ht : ∀ t ∈ c.temps, t.Scratch) : OneLine c.text := by
  have hpackages (p : Package) (hp : p.From o ids) : OneLine p.goName :=
    (hp.oneLine ho.runtime ho.libroot hids).2
  exact TextProperty.call (T := .oneLine) (fun x hx _ => hids x hx) (fun p hp _ => hpackages p hp)
    hm ht []

include hids in
theorem Construction.oneLine {k : Construction} (hm : ∀ m ∈ k.mentions, m.From o ids)
    (ht : ∀ t ∈ k.temps, t.Scratch) : OneLine k.text :=
  TextProperty.construction (T := .oneLine) (fun x hx _ => hids x hx) hm ht []

end OneLine

section Nested

variable (ho : o.Inert) (hids : ∀ x ∈ ids, Registry.isWord x = true)

include hids in
theorem Value.balanced {v : Value} (hm : ∀ m ∈ v.mentions, m.From o ids)
    (ht : ∀ t ∈ v.temps, t.Scratch) : Balanced v.text :=
  TextProperty.value (T := .nested) (fun x hx => (without_of_all (hids x hx)).balanced) hm ht

include ho hids in
theorem Call.balanced {c : Call} (hm : ∀ m ∈ c.mentions, m.From o ids)
    (ht : ∀ t ∈ c.temps, t.Scratch) : Balanced c.text :=
  TextProperty.call (T := .nested) (fun x hx => (without_of_all (hids x hx)).balanced)
    (fun _ hp => (hp.nested ho hids).2) hm ht

include hids in
theorem Construction.balanced {k : Construction} (hm : ∀ m ∈ k.mentions, m.From o ids)
    (ht : ∀ t ∈ k.temps, t.Scratch) : Balanced k.text :=
  TextProperty.construction (T := .nested) (fun x hx => (without_of_all (hids x hx)).balanced) hm ht

end Nested

end Code

end Goward
