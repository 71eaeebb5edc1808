import Goward.Proofs.CodeRows

/-!
# Nested code

The file of a module that compiles has nested brackets. What is written for a body opens and closes
its brackets on different rows, so rows are followed from some open brackets to others. Laying a
text out changes nothing in this: every row begins in code, as literals and comments end with their
lines, and there blanks mean nothing.
-/

namespace Goward

open Goward.Code Goward.Layout Goward.Text

namespace Text

theorem notMem_codeMarks_of_isBlank {c : Char} (h : isBlank c = true) : c ∉ codeMarks := by
  have hmarks : codeMarks.any isBlank = false := by decide
  exact fun hmark => List.any_eq_false.mp hmarks c hmark h

namespace Place

variable {p q r : List BracketKind} {a b l : List Char}

/-- A row ends in code if it ends anywhere. -/
theorem mode_of_newline {s t : Place} (h : s.run? (l ++ ['\n']) = some t) : t.mode = .code := by
  rw [run?_append] at h
  obtain ⟨u, -, hu⟩ := Option.bind_eq_some_iff.mp h
  obtain ⟨mode, opened⟩ := u
  cases mode with
  | code | comment =>
    cases hu
    rfl
  | slash | string | escape => cases hu

/-- Rows that are read alike in front of rows that are. -/
theorem run?_row_congr (hrow : run? ⟨.code, p⟩ (a ++ ['\n']) = run? ⟨.code, p⟩ (b ++ ['\n']))
    {as bs : List Char} (hrest : ∀ q, run? ⟨.code, q⟩ as = run? ⟨.code, q⟩ bs) :
    run? ⟨.code, p⟩ (a ++ '\n' :: as) = run? ⟨.code, p⟩ (b ++ '\n' :: bs) := by
  have hsplit (l rest : List Char) : run? ⟨.code, p⟩ (l ++ '\n' :: rest) =
      (run? ⟨.code, p⟩ (l ++ ['\n'])).bind (·.run? rest) := by
    rw [← run?_append]
    simp
  rw [hsplit a, hsplit b, hrow]
  refine Option.bind_congr fun t ht => ?_
  obtain ⟨mode, opened⟩ := t
  obtain rfl : mode = .code := mode_of_newline ht
  exact hrest opened

theorem run?_chopReturn (l : List Char) (p : List BracketKind) :
    run? ⟨.code, p⟩ (chopReturn l ++ ['\n']) = run? ⟨.code, p⟩ (l ++ ['\n']) := by
  unfold chopReturn
  split
  · next hreturn =>
    obtain ⟨body, rfl⟩ : ∃ body, l = body ++ ['\r'] :=
      ⟨l.dropLast, (List.dropLast_append_getLast? '\r' hreturn).symm⟩
    rw [List.dropLast_concat, List.append_assoc, run?_append, run?_append]
    refine Option.bind_congr fun t _ => ?_
    obtain ⟨mode, opened⟩ := t
    cases mode <;> rfl
  · rfl

/-- A comment ends with its line. -/
theorem run?_comment (h : '\n' ∉ l) (p : List BracketKind) :
    run? ⟨.code, p⟩ ('/' :: '/' :: l ++ ['\n']) = some ⟨.code, p⟩ := by
  have hstays : run? ⟨.comment, p⟩ l = some ⟨.comment, p⟩ := by
    refine run?_stays fun c hc => ?_
    have hne : c ≠ '\n' := fun heq => h (heq ▸ hc)
    simp [next?, Mode.next?, hne, Mode.brackets, Bracket.stack?]
  have hslashes : run? ⟨.code, p⟩ ['/', '/'] = some ⟨.comment, p⟩ := rfl
  have hsplit : '/' :: '/' :: l ++ ['\n'] = ['/', '/'] ++ (l ++ ['\n']) := rfl
  rw [hsplit, run?_append, hslashes, Option.bind_some, run?_append, hstays]
  rfl

theorem run?_tabs (n : Nat) (l : List Char) (p : List BracketKind) :
    run? ⟨.code, p⟩ (List.replicate n '\t' ++ l) = run? ⟨.code, p⟩ l := by
  have htabs : ∀ c ∈ List.replicate n '\t', c ∉ codeMarks :=
    fun c hc => List.eq_of_mem_replicate hc ▸ by decide
  rw [run?_append, run?_code htabs, Option.bind_some]

/-- The rows of lines at a level are read like the lines. -/
theorem run?_laid (n : Nat) (ls : List (List Char)) (p : List BracketKind) :
    run? ⟨.code, p⟩ (unlines (Layout.laid n ls)) = run? ⟨.code, p⟩ (unlines ls) := by
  induction ls generalizing p with
  | nil => rfl
  | cons l rest ih =>
    cases hblank : l.all isBlank with
    | true =>
      have hrow : Layout.laid n (l :: rest) = Layout.laid n rest := by simp [Layout.laid, hblank]
      have hl : ∀ c ∈ l ++ ['\n'], c ∉ codeMarks := by
        refine List.forall_mem_append.mpr
          ⟨fun c hc => ?_, List.forall_mem_singleton.mpr (by decide)⟩
        exact notMem_codeMarks_of_isBlank (List.all_eq_true.mp hblank c hc)
      rw [hrow, ih, unlines_cons, ← List.singleton_append, ← List.append_assoc, run?_append,
        run?_code hl, Option.bind_some]
    | false =>
      have hrow : Layout.laid n (l :: rest) =
          (List.replicate n '\t' ++ l) :: Layout.laid n rest := by simp [Layout.laid, hblank]
      rw [hrow, unlines_cons, unlines_cons]
      refine run?_row_congr ?_ ih
      rw [List.append_assoc, run?_tabs]

/-- The lines of a text are read like the text with a newline behind it. -/
theorem run?_lines (s : List Char) (p : List BracketKind) :
    run? ⟨.code, p⟩ (unlines (lines s)) = run? ⟨.code, p⟩ (s ++ ['\n']) := by
  obtain ⟨first, last, hpieces⟩ := (List.eq_nil_or_concat (s.splitOn '\n')).resolve_left
    (List.splitOn_ne_nil _ _)
  rw [List.concat_eq_append] at hpieces
  have htext : s ++ ['\n'] = unlines first ++ (last ++ ['\n']) := by
    have hs : ['\n'].intercalate (s.splitOn '\n') = s := List.intercalate_splitOn '\n'
    rw [hpieces, intercalate_append first (List.cons_ne_nil _ _), List.intercalate_singleton] at hs
    rw [← hs, List.append_assoc]
  have hlines : unlines (lines s) = unlines (first.map chopReturn) ++
      unlines (if last = [] then [] else [last]) := by
    rw [← unlines_append, lines, hpieces]
    simp [List.filter_cons]
  rw [hlines, htext]
  clear hlines htext hpieces
  induction first generalizing p with
  | nil =>
    split
    · next hlast =>
      subst hlast
      rfl
    · simp
  | cons l rest ih =>
    rw [List.map_cons, unlines_cons, unlines_cons, List.append_assoc, List.append_assoc]
    exact run?_row_congr (run?_chopReturn l p) ih

end Place

end Text

namespace Layout

/-- Operations of which the rows lead from some open brackets to others, at any level. -/
def Leads (ops : List Op) (p q : List BracketKind) : Prop :=
  ∀ n, Place.run? ⟨.code, p⟩ (unlines (Op.rowsAll ops n).1) = some ⟨.code, q⟩

/-- Operations of which the rows have nested brackets, wherever they stand in code. -/
def Closed (ops : List Op) : Prop := ∀ p, Leads ops p p

variable {a b ops : List Op} {s : String} {p q r : List BracketKind}

namespace Leads

theorem nil : Leads [] p p := fun _ => rfl

theorem append (ha : Leads a p q) (hb : Leads b q r) : Leads (a ++ b) p r := by
  intro n
  rw [Op.rowsAll_append, unlines_append, Place.run?_append, ha n]
  exact hb _

theorem cons {op : Op} (h : Leads [op] p q) (hops : Leads ops q r) : Leads (op :: ops) p r :=
  h.append hops

theorem within (shift : Int) (h : Leads ops p q) : Leads [.within shift ops] p q := by
  intro n
  rw [Op.rowsAll, Op.rowsAll, List.append_nil]
  exact h _

/-- A fragment that ends in code once its last line ends. -/
theorem put {f : Fragment}
    (h : Place.run? ⟨.code, p⟩ (f.text.toList ++ ['\n']) = some ⟨.code, q⟩) :
    Leads [.put f] p q := by
  intro n
  rw [Op.rowsAll, Op.rowsAll, List.append_nil, Op.rows, Place.run?_laid, Place.run?_lines, h]

theorem text {f : Fragment} (h : Takes f.text p q) : Leads [.put f] p q := by
  refine put ?_
  rw [Place.run?_append, h]
  rfl

theorem raw (h : Takes s p q) : Leads [.raw s] p q := text h

/-- A fixed text. -/
theorem fixed {l : List Char} (h : Place.run? ⟨.code, p⟩ l = some ⟨.code, q⟩) :
    Leads [.raw (String.ofList l)] p q := raw (.literal h)

/-- Operations between a text that opens brackets and one that closes them. -/
theorem block {t : String} (shift : Int) (hs : Takes s p q) (h : Closed ops) (ht : Takes t q r) :
    Leads [.raw s, .within shift ops, .raw t] p r :=
  .cons (.raw hs) (.cons (.within shift (h q)) (.raw ht))

/-- The text of operations, written into another text. -/
theorem rendered (k : Nat) (h : Leads ops p q) : Leads [.raw (render k ops)] p q := by
  refine raw ?_
  rw [Takes, render_eq_rows, String.toList_ofList]
  exact h k

end Leads

namespace Closed

theorem append (ha : Closed a) (hb : Closed b) : Closed (a ++ b) := fun p => (ha p).append (hb p)

theorem cons {op : Op} (h : Closed [op]) (hops : Closed ops) : Closed (op :: ops) := h.append hops

theorem raw (h : Balanced s) : Closed [.raw s] := fun p => .raw (h p)

theorem fixed {l : List Char} (h : ∀ p, Place.run? ⟨.code, p⟩ l = some ⟨.code, p⟩) :
    Closed [.raw (String.ofList l)] := fun p => .fixed (h p)

theorem rendered (k : Nat) (h : Closed ops) : Closed [.raw (render k ops)] :=
  fun p => (h p).rendered k

theorem flatMap {α : Type} {f : α → List Op} {xs : List α} (h : ∀ x ∈ xs, Closed (f x)) :
    Closed (xs.flatMap f) := by
  induction xs with
  | nil => exact fun _ => .nil
  | cons x rest ih =>
    rw [List.flatMap_cons]
    exact (h x List.mem_cons_self).append (ih fun y hy => h y (List.mem_cons_of_mem _ hy))

theorem map {α : Type} {f : α → Op} {xs : List α} (h : ∀ x ∈ xs, Closed [f x]) :
    Closed (xs.map f) := by
  rw [List.map_eq_flatMap]
  exact flatMap h

end Closed

theorem balanced_jump (n : Nat) : Balanced (jump n) :=
  .append (.literal fun _ => rfl) (balanced_toString n)

namespace Closed

theorem dispatch (checkpoints : List Nat) {body : String} (h : Closed [.raw body]) :
    Closed (Op.dispatch checkpoints body) := by
  have hentries : Closed (checkpoints.map fun (n : Nat) =>
      .raw ("case " ++ toString n ++ ": goto Label" ++ toString n)) := by
    refine map fun n _ => raw fun p => ?_
    exact .append (.append (.append (.literal rfl) (balanced_toString n _)) (.literal rfl))
      (balanced_toString n _)
  refine fun p => .block 1 (.literal rfl) (fun p => ?_) (.literal rfl)
  refine .append (.append (.cons (.fixed rfl) (.fixed rfl)) (hentries _)) ?_
  exact .cons (.fixed rfl) (.cons (.fixed rfl) (.within (-1) (h _)))

theorem resumable (checkpoints : List Nat) {code : List Op} (h : Closed code) :
    Closed (resumable checkpoints code) :=
  append (append (cons (fixed fun _ => rfl) (fixed fun _ => rfl))
    (dispatch checkpoints (h.rendered 1))) (fixed fun _ => rfl)

theorem declarations {temps : List Temp} (h : ∀ t ∈ temps, t.Scratch) :
    Closed (declarations temps) := by
  refine append (cons (fixed fun _ => rfl) (fixed fun _ => rfl)) (flatMap fun t ht => ?_)
  obtain ⟨hname, htype⟩ := (h t ht).balanced
  refine cons (raw fun p => ?_) (raw (.append (.literal fun _ => rfl) hname))
  exact .append (.append (.append (.literal rfl) (hname _)) (.literal rfl)) (htype _)

theorem slotDeclaration {x : String} (h : Registry.isWord x = true) (init : SlotInit) :
    Closed (slotDeclaration x init) := by
  have hslot := balanced_slotName h
  have hinit : Balanced init.text := by
    cases init with
    | unbound => exact .literal fun _ => rfl
    | argument index =>
      intro p
      exact .append (.append (.literal rfl) (balanced_toString index _)) (.literal rfl)
  refine cons (raw fun p => ?_) (raw (.append (.literal fun _ => rfl) hslot))
  exact .append (.append (.append (.literal rfl) (hslot _)) (.literal rfl)) (hinit _)

theorem functionBody {header : FunctionHeader} {temps : List Temp} {run : String}
    (hslots : ∀ s ∈ header.slots, Registry.isWord s.1 = true) (htemps : ∀ t ∈ temps, t.Scratch)
    (h : Closed [.raw run]) : Closed (functionBody header temps run) := by
  refine append (append (flatMap fun s hs => slotDeclaration (hslots s hs) s.2)
    ((declarations htemps).rendered 0)) ?_
  split
  · exact fun p => .block 1 (.literal rfl) h (.literal rfl)
  · exact h

end Closed

/-! ### Fragments -/

theorem balanced_checked {targets call : String} (ht : Balanced targets) (hc : Balanced call) :
    Balanced (Fragment.checked targets call) := by
  intro p
  exact .append (.append (.append (.append (.literal rfl) (ht _)) (.literal rfl)) (hc _))
    (.literal rfl)

/-- A line of the source stands behind two slashes, so there is nothing in it to read. -/
theorem Closed.sourceLine (number : Nat) {line : String} (h : OneLine line) :
    Closed [.put (.sourceLine number line)] := by
  intro p
  obtain ⟨rest, hrest⟩ : ∃ rest, (Fragment.sourceLine number line).text.toList =
      '/' :: '/' :: rest :=
    ⟨_, by simp only [Fragment.sourceLine, Fragment.text, String.toList_append]; rfl⟩
  have hline : '\n' ∉ (Fragment.sourceLine number line).text.toList := oneLine_sourceLine number h
  refine .put ?_
  rw [hrest] at hline ⊢
  exact Place.run?_comment (fun hn => hline (by simp [hn])) p

section Instructions

variable {o : Options} {ids : List String} (ho : o.Inert)
  (hids : ∀ x ∈ ids, Registry.isWord x = true)

include ho hids in
theorem closed_action {act : Action} (hm : ∀ m ∈ act.mentions, m.From o ids)
    (ht : ∀ t ∈ act.temps, t.Scratch) : Closed (act.fragment?.toList.map .put) := by
  cases act with
  | sourceLine number line => exact .sourceLine number (hm _ (List.mem_singleton_self _))
  | acquire _ | release _ => exact fun _ => .nil
  | perform c =>
    have hc := c.balanced ho hids hm ht
    exact fun p => .text (balanced_checked (.literal fun _ => rfl) hc p)
  | store dst c =>
    obtain ⟨hdst, htc⟩ := List.forall_mem_cons.mp ht
    have htargets : Balanced (dst.name ++ ", πE") := hdst.balanced.1.append (.literal fun _ => rfl)
    exact fun p => .text (balanced_checked htargets (c.balanced ho hids hm htc) p)
  | discard c =>
    have hc := c.balanced ho hids hm ht
    have htargets : Balanced ("_" ++ ", πE") :=
      .append (.literal fun _ => rfl) (.literal fun _ => rfl)
    exact fun p => .text (balanced_checked htargets hc p)
  | construct dst k =>
    obtain ⟨hdst, htk⟩ := List.forall_mem_cons.mp ht
    exact .raw (.append (.append hdst.balanced.1 (.literal fun _ => rfl)) (k.balanced hids hm htk))
  | setSlot x v =>
    obtain ⟨hx, hv⟩ := List.forall_mem_cons.mp hm
    exact .raw (.append (.append (balanced_slotName (hids x hx)) (.literal fun _ => rfl))
      (v.balanced hids hv ht))
  | clearSlot x =>
    have hx := hids x (hm _ (List.mem_singleton_self _))
    exact .raw (.append (.append (balanced_slotName hx) (.literal fun _ => rfl))
      (.literal fun _ => rfl))

theorem closed_codeOps {filename : String} {code : List Instr}
    (h : ∀ i ∈ code, Closed (instrOps filename i)) : Closed (codeOps filename code) := by
  induction code with
  | nil => exact fun _ => .nil
  | cons i rest ih =>
    rw [codeOps]
    exact (h i List.mem_cons_self).append (ih fun j hj => h j (List.mem_cons_of_mem _ hj))

include ho hids in
/-- The rows of an instruction, with those of the bodies nested in it. -/
theorem closed_instr {i : Instr} (h : i.From o ids) (filename : String) :
    Closed (instrOps filename i) := by
  induction h with
  | @mk i hm ht htemps _ ih =>
    cases i with
    | action act => exact closed_action ho hids hm ht
    | label n =>
      intro p
      exact .text (.append (.append (.literal rfl) (balanced_toString n _)) (.literal rfl))
    | goto n => exact .raw (balanced_jump n)
    | gotoUnless cond n =>
      have hcond := (ht cond (List.mem_singleton_self _)).balanced.1
      intro p
      exact .raw (.append (.append (.append (.append (.literal rfl) (hcond _)) (.literal rfl))
        (balanced_jump n _)) (.literal rfl))
    | next item iterator n =>
      obtain ⟨hitem, hiterator⟩ := List.forall_mem_cons.mp ht
      have hiterator := (hiterator _ (List.mem_singleton_self _)).balanced.1
      intro p
      exact .raw (.append (.append (.append (.append (.append (.append (.append (.append
        (.literal rfl) (hitem.balanced.1 _)) (.literal rfl)) (hiterator _)) (.literal rfl))
        (.literal rfl)) (.literal rfl)) (balanced_jump n _)) (.literal rfl))
    | pushCheckpoint n =>
      intro p
      exact .raw (.append (.append (.literal rfl) (balanced_toString n _)) (.literal rfl))
    | ret v =>
      cases v with
      | none => exact .fixed fun _ => rfl
      | some v =>
        exact .raw (.append (.append (.literal fun _ => rfl) (v.balanced hids hm ht))
          (.literal fun _ => rfl))
    | function dst header temps checkpoints body =>
      have hdst := (ht dst (List.mem_singleton_self _)).balanced.1
      have hslots : ∀ s ∈ header.slots, Registry.isWord s.1 = true := fun s hs =>
        hids _ (hm _ (List.mem_map_of_mem hs))
      have hrun := ((closed_codeOps (ih temps body rfl)).resumable checkpoints).rendered 0
      intro p
      rw [instrOps]
      have hopen : Takes (dst.name ++ " = πg.NewFunction(" ++ functionOpening filename header) p
          (.curly :: .round :: .round :: p) :=
        .append (.append (hdst _) (.literal rfl)) (TextProperty.functionOpening (T := .nested) _ _ _)
      exact .block 1 hopen (hrun.functionBody hslots (htemps temps body rfl)) (.literal rfl)
    | classBody dst name names temps checkpoints body =>
      obtain ⟨hdst, hnames⟩ := List.forall_mem_cons.mp ht
      have hnames := (hnames _ (List.mem_singleton_self _)).balanced.1
      have hrun := ((closed_codeOps (ih temps body rfl)).resumable checkpoints).rendered 0
      have htemps := (Closed.declarations (htemps temps body rfl)).rendered 0
      have hbody : Closed [.raw ("πClass := " ++ names.name), .raw "_ = πClass",
          .raw (render 0 (declarations temps)),
          .raw (render 0 (resumable checkpoints (codeOps filename body)))] :=
        .cons (.raw (.append (.literal fun _ => rfl) hnames))
          (.cons (.fixed fun _ => rfl) (.cons htemps hrun))
      intro p
      rw [instrOps]
      have hopen : Takes (dst.name ++ " = " ++ codeOpening filename name) p
          (.curly :: .round :: p) :=
        .append (.append (hdst.balanced.1 _) (.literal rfl))
          (TextProperty.codeOpening (T := .nested) _ _ _)
      exact .block 1 hopen hbody (.literal rfl)

end Instructions

end Layout

section Modules

variable {o : Options} {ids : List String}

/-- The last component of a path has no slash, so it stands for itself in code. -/
theorem Options.Inert.balanced_packageName (h : o.Inert) : Balanced o.packageName := by
  have hslash : '/' ∉ o.packageName.toList := by
    rw [Options.packageName, String.toList_ofList, List.getLastD_eq_getLast?]
    cases hlast : (o.fullPackageName.toList.splitOn '/').getLast? with
    | none => exact List.not_mem_nil
    | some last => exact not_mem_of_mem_splitOn (List.mem_of_getLast? hlast)
  have hmarks : codeMarks ⊆ '/' :: reserved := by decide
  exact ((h.packageName.cons hslash).mono hmarks).balanced

variable (ho : o.Inert) (hids : ∀ x ∈ ids, Registry.isWord x = true)

include ho hids in
theorem closed_imports {packages : List Package} (h : ∀ p ∈ packages, p.From o ids) :
    Closed (Op.imports packages) := by
  unfold Op.imports
  split
  · exact fun _ => .nil
  · refine fun _ => .block 1 (.literal rfl) (.map fun p hp => .raw ?_) (.literal rfl)
    obtain ⟨hname, hgoName⟩ := (h p (sortByKey_perm.mem_iff.mp hp)).nested ho hids
    have hstring : stringMarks ⊆ reserved := by decide
    have hquote : " \"" = " " ++ "\"" := by rw [← String.ofList_append]; rfl
    have htext : p.goName ++ " \"" ++ p.name ++ "\"" =
        p.goName ++ " " ++ ("\"" ++ p.name ++ "\"") := by
      rw [hquote]
      simp only [String.append_assoc]
    rw [htext]
    exact .append (hgoName.append (.literal fun _ => rfl)) (hname.mono hstring).balanced_quoted

theorem closed_stringDeclaration {s : String} (h : Registry.isSharable s = true) :
    Closed [LoweredModule.stringDeclaration s] := by
  refine .raw fun p => ?_
  have hname : Balanced (StringRef.shared s).text := TextProperty.shared (T := .nested) h
  exact .append (.append (.append (.append (.literal rfl) (hname p)) (.literal rfl))
    (balanced_quote s _)) (.literal rfl)

include ho hids in
theorem LoweredModule.closed_ops {m : LoweredModule}
    (himports : ∀ p ∈ m.registry.imports, p.From o ids)
    (hstrings : ∀ s ∈ m.registry.strings, Registry.isSharable s = true)
    (htemps : ∀ t ∈ m.temps, t.Scratch) (hcode : ∀ i ∈ (Step.linearAll m.body {}).1, i.From o ids) :
    Closed (m.ops o) := by
  have hcode : Closed (codeOps o.filename (Step.linearAll m.body {}).1) :=
    closed_codeOps fun i hi => closed_instr ho hids (hcode i hi) o.filename
  have hrun := (hcode.resumable (Step.linearAll m.body {}).2.checkpoints).rendered 0
  have hdeclared := (Closed.declarations htemps).rendered 0
  have hregister : Closed [.raw ("πg.RegisterModule(" ++ quote o.moduleName ++ ", Code)")] :=
    .raw fun p => .append (.append (.literal rfl) (balanced_quote _ _)) (.literal rfl)
  have hinit : Closed (m.initOps o) := by
    intro p
    have hopen : Takes ("Code = " ++ codeOpening o.filename "<module>") p (.curly :: .round :: p) :=
      .append (.literal rfl) (TextProperty.codeOpening (T := .nested) _ _ _)
    have hclose : Takes "\x7d)" (.curly :: .round :: p) p := .literal rfl
    exact (Leads.block 1 hopen (hdeclared.cons hrun) hclose).append (hregister p)
  have hpackage : Closed [.raw ("package " ++ o.packageName)] :=
    .raw (.append (.literal fun _ => rfl) ho.balanced_packageName)
  have hstrings : Closed (m.registry.strings.map stringDeclaration) :=
    .map fun s hs => closed_stringDeclaration (hstrings s hs)
  refine .append ((hpackage.append (closed_imports ho hids himports)).append hstrings) ?_
  exact .cons (.fixed fun _ => rfl) fun _ => .block 1 (.literal rfl) hinit (.literal rfl)

include ho hids in
/-- The file of a module made of admissible parts is delimited. -/
theorem LoweredModule.delimited_text {m : LoweredModule}
    (himports : ∀ p ∈ m.registry.imports, p.From o ids)
    (hstrings : ∀ s ∈ m.registry.strings, Registry.isSharable s = true)
    (htemps : ∀ t ∈ m.temps, t.Scratch) (hcode : ∀ i ∈ (Step.linearAll m.body {}).1, i.From o ids) :
    Delimited (m.text o) := by
  refine Takes.delimited ?_
  rw [Takes, LoweredModule.text, render_eq_rows, String.toList_ofList]
  exact LoweredModule.closed_ops ho hids himports hstrings htemps hcode [] 0

/-- The Go file of a module that compiles is delimited, whatever its string literals and the name of
its file are, if the identifiers are words and the options are inert, and if the lines of the source
have offsets that fit. -/
theorem compile_delimited {source : Option String} {body : List Stmt} {text : String}
    (h : compile o source body = .ok text) (ho : o.Inert)
    (hids : ∀ x ∈ Stmt.identifiersOfBody body, Registry.isWord x = true)
    (hsource : ∀ s ∈ source, LineMap.Addressable s) : Delimited text := by
  obtain ⟨m, -, rfl, himports, hstrings, htemps, hcode⟩ := compile_provenance h hsource
  exact LoweredModule.delimited_text ho hids himports hstrings htemps hcode

end Modules

/-- A generator of a text with a quote and brackets without partners. -/
def Stmt.yieldsBrackets : List Stmt :=
  [.mk ⟨0, 32⟩ (.functionDef "f" ⟨[⟨"a", ⟨6, 1⟩⟩], none, none⟩
    [.mk ⟨20, 12⟩ (.expr (.yield (some (.str "\x7d\")["))))])]

/-- The brackets of its text and of its comment, and those of the name of the file, are no brackets
of the Go file. -/
theorem compile_delimited_yieldsBrackets :
    ∃ text, compile { filename := "(\".py" } (some "def f(a): # \x7b[(\n    yield '\x7d\")['\n")
      Stmt.yieldsBrackets = .ok text ∧ Delimited text := by
  obtain ⟨text, htext⟩ : ∃ text, compile { filename := "(\".py" }
      (some "def f(a): # \x7b[(\n    yield '\x7d\")['\n") Stmt.yieldsBrackets = .ok text :=
    Build.ok_of_toBool (by decide +kernel)
  have ho : Options.Inert { filename := "(\".py" } := ⟨.literal rfl, .literal rfl, .literal rfl⟩
  have hids : ∀ x ∈ Stmt.identifiersOfBody Stmt.yieldsBrackets, Registry.isWord x = true := by
    decide
  have hsource : ∀ s ∈ some "def f(a): # \x7b[(\n    yield '\x7d\")['\n", LineMap.Addressable s := by
    rintro _ ⟨⟩
    decide +kernel
  exact ⟨text, htext, compile_delimited htext ho hids hsource⟩

/-- A stray row cannot be read: its literal is not closed. -/
theorem Stray.bracketsFrom_eq_none {row : List Char} (h : Stray row) :
    bracketsFrom? .code row = none := by
  obtain ⟨n, rfl⟩ := h
  induction n with
  | zero => decide
  | succ n ih =>
    have htab : Mode.next? .code '\t' = some .code := rfl
    rw [List.replicate_succ, List.cons_append, bracketsFrom?, htab, Option.bind_eq_bind,
      Option.bind_some, ih]
    rfl

theorem Stray.not_delimited {text : String} (h : ∃ row ∈ text.toList.splitOn '\n', Stray row) :
    ¬Delimited text := by
  intro hdelimited
  obtain ⟨row, hmem, hrow⟩ := h
  have hread := hdelimited.lines row hmem
  rw [hrow.bracketsFrom_eq_none] at hread
  exact absurd hread (by decide)

/-- In the file for a source that is too long, a literal is opened and not closed on its line. -/
theorem compile_overlong_not_delimited : Options.Inert {} ∧
    (∀ x ∈ Stmt.identifiersOfBody Stmt.placed, Registry.isWord x = true) ∧
    ∃ text, compile {} (some LineMap.overlong) Stmt.placed = .ok text ∧ ¬Delimited text := by
  obtain ⟨text, htext, hrow⟩ := compile_overlong
  exact ⟨⟨.literal rfl, .literal rfl, .literal rfl⟩, nofun, text, htext, Stray.not_delimited hrow⟩

end Goward
