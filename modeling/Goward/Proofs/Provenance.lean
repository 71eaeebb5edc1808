import Goward.Proofs.FlatCode
import Goward.Proofs.Identifiers
import Goward.Proofs.NameReads
import Goward.Proofs.ScratchUse
import Goward.Proofs.SourceLines

/-!
# Provenance

Where the pieces of generated code come from. What code shows in its own words is a slot or a member
under an identifier of the module, a shared string, a package with a path made of identifiers and
options, a numbered scratch variable of one of a few types, or a line of the source. Anything else
is quoted.
-/

namespace Goward

open Goward.Build Goward.Code

/-- A package that a unit with the given identifiers may import. -/
def Package.From (o : Options) (ids : List String) (p : Package) : Prop :=
  ∃ path, p = Registry.packageFor o path ∧ (path = Package.runtimeName ∨ path = "reflect" ∨
    PathFrom ids path ∨ ∃ below, path = o.libroot ++ "/" ++ below ∧ PathFrom ids below)

/-- A scratch variable as pools make them. -/
def Temp.Scratch (t : Temp) : Prop :=
  t.type ∈ Temp.types ∧ ∃ n, t.name = (Temp.numbered n t.type).name

/-- What the code of a unit with the given identifiers may mention. -/
def Code.Mention.From (o : Options) (ids : List String) : Mention → Prop
  | slot x | member x => x ∈ ids
  | string (.shared s) => Registry.isSharable s = true
  | string (.fresh _) => True
  | package p => p.From o ids
  | scratch type => type ∈ Temp.types
  | line s => '\n' ∉ s.toList
  | verbatim _ => False

/-- What the text of an instruction mentions besides scratch variables. -/
def Code.Instr.mentions : Instr → List Mention
  | .action a => a.mentions
  | .ret v => (v.map Value.mentions).getD []
  | .function _ header _ _ _ => header.slots.map (.slot ·.1)
  | .label _ | .goto _ | .gotoUnless _ _ | .next _ _ _ | .pushCheckpoint _
  | .classBody _ _ _ _ _ _ => []

/-- The body that an instruction nests: the scratch variables that it declares, and its code. -/
def Code.Instr.body? : Instr → Option (List Temp × List Instr)
  | .function _ _ temps _ body | .classBody _ _ _ temps _ body => some (temps, body)
  | .action _ | .ret _ | .label _ | .goto _ | .gotoUnless _ _ | .next _ _ _ | .pushCheckpoint _ =>
    none

/-- An instruction in the code of a unit with the given identifiers, with the instructions of the
bodies nested in it. -/
inductive Code.Instr.From (o : Options) (ids : List String) : Instr → Prop
  | mk {i : Instr} : (∀ m ∈ i.mentions, m.From o ids) → (∀ t ∈ i.temps, t.Scratch) →
    (∀ temps body, i.body? = some (temps, body) → ∀ t ∈ temps, t.Scratch) →
    (∀ temps body, i.body? = some (temps, body) → ∀ j ∈ body, Instr.From o ids j) →
    Instr.From o ids i

namespace Code.Step

variable {s : Step} {i : Instr} {code : List Step} {l : Labels}

/-- The instructions of linear code that do more than pass control on are those of the single
steps. -/
theorem exists_mem_flatAll (h : i ∈ (linearAll code l).1) (hi : i.isControl = false) :
    ∃ s ∈ flatAll false code, s.instr? = some i := by
  have hplain : i ∈ Instr.plain (linearAll code l).1 := List.mem_filter.mpr ⟨h, by rw [hi]; rfl⟩
  rw [plain_linearAll] at hplain
  exact List.mem_filterMap.mp hplain

theorem mentions_of_instr (h : s.instr? = some i) (hs : s.isDefinition = false) :
    i.mentions = s.mentions := by
  cases s with
  | action _ | suspend _ | ret _ =>
    cases h
    rfl
  | function _ _ _ _ | classBody _ _ _ _ _ => cases hs
  | breakLoop | continueLoop | branch _ _ _ _ | whileLoop _ _ _ _ | forLoop _ _ _ _ _ => cases h

theorem mem_mentionsOf_of_action {a : Action} {m : Mention}
    (h : .action a ∈ (linearAll code l).1) (hm : m ∈ a.mentions) : m ∈ mentionsOf false code := by
  obtain ⟨s, hs, hinstr⟩ := exists_mem_flatAll h rfl
  refine List.mem_flatMap.mpr ⟨s, hs, ?_⟩
  cases s with
  | action _ =>
    cases hinstr
    exact hm
  | suspend _ | ret _ | function _ _ _ _ | classBody _ _ _ _ _ | breakLoop | continueLoop
  | branch _ _ _ _ | whileLoop _ _ _ _ | forLoop _ _ _ _ _ => cases hinstr

/-- A definition is flat, and at any depth it holds its body. -/
theorem mentionsOf_body {b : CodeBody} (hs : s ∈ flatAll false code) (hb : s.body? = some b) :
    mentionsOf true b.code ⊆ mentionsOf true code := by
  have hinner : flatAll true b.code ⊆ s.flat true := by
    cases s with
    | function _ _ _ _ | classBody _ _ _ _ _ =>
      cases hb
      exact fun x hx => List.mem_cons_of_mem _ hx
    | action _ | suspend _ | ret _ | breakLoop | continueLoop | branch _ _ _ _ | whileLoop _ _ _ _
    | forLoop _ _ _ _ _ => cases hb
  intro m hm
  obtain ⟨t, ht, hm⟩ := List.mem_flatMap.mp hm
  exact List.mem_flatMap.mpr ⟨t, flatAll_subset code hs (hinner ht), hm⟩

end Code.Step

theorem Pool.temps_of_serve {p q : Pool} {i : Instr} {v : Temp} (h : p.serve i = some q)
    (hv : v ∈ q.temps) : v ∈ p.temps ∨ i = .action (.acquire v) := by
  unfold serve at h
  split at h
  · split at h
    · next hw =>
      cases h
      exact (mem_temps_alloc.mp hv).imp_right fun hv => by rw [hv, hw]
    · cases h
  · unfold free at h
    split at h
    · cases h
      rw [temps_mark] at hv
      exact .inl hv
    · cases h
  · split at h
    · cases h
      exact .inl hv
    · cases h

/-- A pool makes its variables as they begin to be in use. -/
theorem Pool.acquired_of_serveAll {p q : Pool} {code : List Instr} {v : Temp}
    (h : p.serveAll code = some q) (hv : v ∈ q.temps) :
    v ∈ p.temps ∨ .action (.acquire v) ∈ code := by
  induction code generalizing p with
  | nil =>
    rw [serveAll_nil] at h
    cases h
    exact .inl hv
  | cons i rest ih =>
    rw [serveAll_cons] at h
    obtain ⟨r, hserve, hrest⟩ := Option.bind_eq_some_iff.mp h
    rcases ih hrest with hv | hv
    · refine (temps_of_serve hserve hv).imp_right ?_
      rintro rfl
      exact List.mem_cons_self
    · exact .inr (List.mem_cons_of_mem _ hv)

/-- The scratch variables of a body that was lowered, if those that begin to be in use have one of
the types. -/
theorem CodeBody.Lowered.scratch {b : CodeBody} (h : b.Lowered)
    (htypes : ∀ type, .scratch type ∈ Step.mentionsOf false b.code → type ∈ Temp.types) :
    (∀ t ∈ b.temps, t.Scratch) ∧ ∀ i ∈ (Step.linearAll b.code {}).1, ∀ t ∈ i.temps, t.Scratch := by
  obtain ⟨p, hvalid, htemps, -, horderly⟩ := h.orderly
  have hserves := horderly.serves {}
  have hscratch : ∀ t ∈ p.temps, t.Scratch := by
    intro t ht
    obtain ⟨n, -, hn⟩ := hvalid.numbered t ht
    refine ⟨htypes _ ?_, n, hn⟩
    rcases Pool.acquired_of_serveAll hserves ht with ht | ht
    · cases ht
    · exact Step.mem_mentionsOf_of_action ht (List.mem_singleton_self _)
  refine ⟨fun t ht => hscratch t (htemps ▸ ht), fun i hi t ht => ?_⟩
  exact hscratch t (Pool.mem_temps_of_serveAll hserves hi ht)

/-! ### Bodies -/

/-- What holds of all requests holds of those of a body that is entered. -/
theorem Request.All.entered {P : Request → Prop} {reqs inner : List Request} {kind : ScopeKind}
    (h : Request.All P reqs) (hmem : (kind, inner) ∈ reqs.filterMap (·.entered?)) :
    P (.enter kind inner) ∧ Request.All P inner := by
  obtain ⟨q, hq, hentered⟩ := List.mem_filterMap.mp hmem
  have hdeep : q.deep ⊆ deepAll reqs := by
    rw [deepAll_eq_flatMap]
    exact fun p hp => List.mem_flatMap.mpr ⟨q, hq, hp⟩
  cases q with
  | enter _ _ =>
    cases hentered
    exact ⟨h _ (hdeep List.mem_cons_self), fun p hp => h p (hdeep (List.mem_cons_of_mem _ hp))⟩
  | read _ | store _ | delete _ | text _ | library _ | native _ _ | member _ => cases hentered

section Bodies

variable {o : Options} {ids : List String}

/-- The functions around some code have records of given names only. -/
def ScopeChain.From (ids : List String) (c : ScopeChain) : Prop :=
  ∀ f, .function f ∈ c → ∀ v ∈ f.vars.toList, v.name ∈ ids

/-- What code mentions at any depth apart from slots. -/
def Code.Step.MentionsFrom (o : Options) (ids : List String) (code : List Step) : Prop :=
  ∀ m ∈ mentionsOf true code, (∀ x, m ≠ .slot x) → m.From o ids

theorem Captures.mem_of_from {c : ScopeChain} {g : List (List String)} {x : String}
    (h : Captures c g x) (hc : c.From ids) : x ∈ ids := by
  obtain ⟨inner, f, outer, k, rfl, -, hfind, -, -⟩ := h
  obtain ⟨v, hv, -⟩ := Option.map_eq_some_iff.mp hfind
  have hname : v.name = x := by simpa using List.find?_some hv
  exact hname ▸ hc f (by simp) v (List.mem_of_find?_eq_some hv)

theorem VarMap.mem_names_of_slots {m : VarMap} {s : String × SlotInit} (h : s ∈ m.slots) :
    ∃ v ∈ m.toList, v.name = s.1 := by
  obtain ⟨v, hv, hslot⟩ := List.mem_filterMap.mp h
  obtain ⟨_, -, rfl⟩ := Option.map_eq_some_iff.mp hslot
  exact ⟨v, hv, rfl⟩

theorem ScopeChain.From.cons {c : ScopeChain} (h : c.From ids) {kind : ScopeKind}
    {body : List Request} (hkind : (Request.enter kind body).From ids) :
    ScopeChain.From ids (kind :: c) := by
  intro f hf
  rcases List.mem_cons.mp hf with rfl | hf
  · exact hkind
  · exact h f hf

mutual

/-- The provenance of the code of a body, from that of its requests. -/
theorem Resolves.provenance {c : ScopeChain} {g : List (List String)} {reqs : List Request}
    {code : List Step} {temps : List Temp} : Resolves c g reqs code → c.From ids →
    Request.All (·.From ids) reqs → Step.MentionsFrom o ids code →
    CodeBody.Lowered ⟨temps, code⟩ →
    (∀ t ∈ temps, t.Scratch) ∧ ∀ i ∈ (Step.linearAll code {}).1, i.From o ids
  | .body _ hslots hdefinitions => fun hc hreqs hm hlowered => by
    obtain ⟨p, -, -, -, horderly⟩ := hlowered.orderly
    have hflat := Step.mentionsOf_subset code
    obtain ⟨htemps, hscratch⟩ := hlowered.scratch fun type htype => hm _ (hflat htype) nofun
    refine ⟨htemps, fun i hi => ?_⟩
    cases hcontrol : i.isControl with
    | true =>
      cases i with
      | label _ | goto _ | gotoUnless _ _ | next _ _ _ | pushCheckpoint _ =>
        exact .mk nofun (hscratch _ hi) nofun nofun
      | action _ | ret _ | function _ _ _ _ _ | classBody _ _ _ _ _ _ => cases hcontrol
    | false =>
      obtain ⟨s, hs, hinstr⟩ := Step.exists_mem_flatAll hi hcontrol
      cases hdef : s.isDefinition with
      | true =>
        refine hdefinitions.provenance hc (fun kind inner h => hreqs.entered h)
          (fun s hs b hb => ?_) s (List.mem_filter.mpr ⟨hs, hdef⟩) i hinstr (hscratch i hi)
        have hs := List.mem_of_mem_filter hs
        exact ⟨(horderly.steps s (Step.occurs_of_mem_flatAll code hs)).body b hb,
          fun m hmem => hm m (Step.mentionsOf_body hs hb hmem)⟩
      | false =>
        have hmentions := Step.mentions_of_instr hinstr hdef
        refine .mk (fun m hmem => ?_) (hscratch i hi) ?_ ?_
        · have hmem : m ∈ Step.mentionsOf false code :=
            List.mem_flatMap.mpr ⟨s, hs, hmentions ▸ hmem⟩
          by_cases hslot : ∃ x, m = .slot x
          · obtain ⟨x, rfl⟩ := hslot
            exact (hslots x hmem).mem_of_from hc
          · exact hm m (hflat hmem) fun x hx => hslot ⟨x, hx⟩
        all_goals
          intro temps body hbody
          cases s <;> cases hinstr <;> cases hdef <;> cases hbody

theorem ResolvesAll.provenance {c : ScopeChain} {g : List (List String)}
    {entered : List (ScopeKind × List Request)} {steps : List Step} :
    ResolvesAll c g entered steps → c.From ids →
    (∀ kind inner, (kind, inner) ∈ entered →
      (Request.enter kind inner).From ids ∧ Request.All (·.From ids) inner) →
    (∀ s ∈ steps, ∀ b, s.body? = some b → b.Lowered ∧ Step.MentionsFrom o ids b.code) →
    ∀ s ∈ steps, ∀ i, s.instr? = some i → (∀ t ∈ i.temps, t.Scratch) → i.From o ids
  | .nil => fun _ _ _ _ hs => nomatch hs
  | .function hslots hbody hrest => fun hc hentered hsteps s hs i hi ht => by
    rcases List.mem_cons.mp hs with rfl | hs
    · obtain ⟨hkind, hinner⟩ := hentered _ _ List.mem_cons_self
      obtain ⟨hlowered, hmentions⟩ := hsteps _ List.mem_cons_self _ rfl
      obtain ⟨htemps, hcode⟩ := hbody.provenance (hc.cons hkind) hinner hmentions hlowered
      cases hi
      refine .mk (fun m hm => ?_) ht ?_ ?_
      · obtain ⟨slot, hslot, rfl⟩ := List.mem_map.mp hm
        obtain ⟨v, hv, hname⟩ := VarMap.mem_names_of_slots (hslots ▸ hslot)
        exact hname ▸ hkind v hv
      · intro _ _ h
        cases h
        exact htemps
      · intro _ _ h
        cases h
        exact hcode
    · exact hrest.provenance hc (fun kind inner h => hentered kind inner (List.mem_cons_of_mem _ h))
        (fun s hs => hsteps s (List.mem_cons_of_mem _ hs)) s hs i hi ht
  | .classBody hbody hrest => fun hc hentered hsteps s hs i hi ht => by
    rcases List.mem_cons.mp hs with rfl | hs
    · obtain ⟨hkind, hinner⟩ := hentered _ _ List.mem_cons_self
      obtain ⟨hlowered, hmentions⟩ := hsteps _ List.mem_cons_self _ rfl
      obtain ⟨htemps, hcode⟩ := hbody.provenance (hc.cons hkind) hinner hmentions hlowered
      cases hi
      refine .mk nofun ht ?_ ?_
      · intro _ _ h
        cases h
        exact htemps
      · intro _ _ h
        cases h
        exact hcode
    · exact hrest.provenance hc (fun kind inner h => hentered kind inner (List.mem_cons_of_mem _ h))
        (fun s hs => hsteps s (List.mem_cons_of_mem _ hs)) s hs i hi ht

end

end Bodies

/-- The packages of a unit are its runtime and those that its requests ask for. -/
theorem Request.package_from {o : Options} {ids : List String} {reqs : List Request} {p : Package}
    {used : Bool} (h : Request.All (·.From ids) reqs)
    (hp : (p, used) ∈ Request.packagesOfAll o reqs) : p.From o ids := by
  obtain ⟨q, hq, hpackage⟩ := List.mem_filterMap.mp hp
  have hfrom := h q hq
  cases q with
  | library path =>
    cases hpackage
    exact ⟨_, rfl, .inr (.inr (.inr ⟨path, rfl, hfrom⟩))⟩
  | native path _ =>
    cases hpackage
    exact ⟨path, rfl, .inr (hfrom.imp_right .inl)⟩
  | read _ | store _ | delete _ | text _ | member _ | enter _ _ => cases hpackage

theorem Registry.packageFor_runtimeName (o : Options) :
    packageFor o Package.runtimeName = ⟨o.runtime, Package.runtimeAlias⟩ := by
  rw [packageFor, if_pos rfl, packageAt, if_pos rfl]

theorem lowerModule_lowered {cx : Context} {body : List Stmt} {m : LoweredModule}
    (h : lowerModule cx body = .ok m) : CodeBody.Lowered ⟨m.temps, m.body⟩ := by
  unfold lowerModule at h
  cases hr : (bodyWithEnd false (lowerBody cx ScopeTree.moduleId false body)).run
      (initialTree cx.options) with
  | error e => simp [hr, Bind.bind, Except.bind] at h
  | ok r =>
    obtain rfl : _ = m := by simpa [hr, Bind.bind, Except.bind, pure, Except.pure] using h
    exact ⟨cx, _, false, body, _, r, (initialTree_reached cx.options).sound _
      (initialTree_isSome cx.options), initialTree_resources cx.options, hr, rfl⟩

/-- The packages of a module that compiles are its runtime and those that it asks for. -/
theorem compile_packages_from {o : Options} {source : Option String} {body : List Stmt}
    {text : String} (h : compile o source body = .ok text) :
    ∃ m, lowerModule ⟨o, source.map .ofText⟩ body = .ok m ∧ text = m.text o ∧
      ∀ p ∈ m.registry.imports, p.From o (Stmt.identifiersOfBody body) := by
  obtain ⟨m, hm, htext, ha, -⟩ := compile_answers h
  refine ⟨m, hm, htext, fun p hp => ?_⟩
  rcases (ha.imports p).mp hp with hp | ⟨used, hp⟩
  · obtain rfl := List.mem_singleton.mp hp
    exact ⟨Package.runtimeName, (Registry.packageFor_runtimeName o).symm, .inl rfl⟩
  · exact Request.package_from (Stmt.requestsOfBody_from o.moduleName body) hp

/-- The provenance of the code of a module that compiles, and of what it declares, if the offsets of
the lines of its source fit. -/
theorem compile_provenance {o : Options} {source : Option String} {body : List Stmt} {text : String}
    (h : compile o source body = .ok text) (hsource : ∀ s ∈ source, LineMap.Addressable s) :
    ∃ m, lowerModule ⟨o, source.map .ofText⟩ body = .ok m ∧ text = m.text o ∧
      (∀ p ∈ m.registry.imports, p.From o (Stmt.identifiersOfBody body)) ∧
      (∀ s ∈ m.registry.strings, Registry.isSharable s = true) ∧
      (∀ t ∈ m.temps, t.Scratch) ∧
      ∀ i ∈ (Step.linearAll m.body {}).1, i.From o (Stmt.identifiersOfBody body) := by
  obtain ⟨m, hm, htext, himports⟩ := compile_packages_from h
  obtain ⟨m', hm', -, ha, -⟩ := compile_answers h
  obtain rfl : m = m' := Except.ok.inj (hm.symm.trans hm')
  have hreqs := Stmt.requestsOfBody_from o.moduleName body
  have hstrings : ∀ s ∈ m.registry.strings, Registry.isSharable s = true := by
    intro s hs
    rcases (ha.strings s).mp hs with hs | hs
    · cases hs
    · exact hs.1
  have hmentions : Step.MentionsFrom o (Stmt.identifiersOfBody body) m.body := by
    intro mention hmem hslot
    have hknown := ha.known mention hmem
    rcases mention with x | (s | s) | p | name | type | s | s
    · exact absurd rfl (hslot x)
    · exact hstrings s hknown
    · trivial
    · exact himports p hknown
    · exact hreqs _ (ha.members name hmem)
    · exact hknown
    · obtain ⟨_, hs, n, rfl⟩ := hknown
      obtain ⟨s, hgiven, rfl⟩ := Option.map_eq_some_iff.mp hs
      exact SourceText.not_mem_lineAt (hsource s hgiven) n
    · exact hknown
  obtain ⟨htemps, hcode⟩ := (ha.resolves (ScopeTree.At.initial o).classified).provenance
    (fun f hf => nomatch List.mem_singleton.mp hf) hreqs hmentions
    (lowerModule_lowered hm)
  exact ⟨m, hm, htext, himports, hstrings, htemps, hcode⟩

end Goward
