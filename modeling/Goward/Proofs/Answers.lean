import Goward.Proofs.LoweringLeases
import Goward.Proofs.Resolution

/-!
# Answers to requests

What lowering does for the requests of a piece of syntax. The code looks the names up that are read,
in order and as the chain of scopes says; it makes the code of one nested body after another, for
each body that is entered; what it mentions is held in a slot or has been registered; and the
registry grows by what was asked for, and by nothing else.
-/

namespace Goward

open Goward.Build Goward.Code

/-- A scope in a tree that arises while code is generated, with its chain. -/
structure ScopeTree.At (o : Options) (c : ScopeChain) (id : Nat) (t : ScopeTree) : Prop where
  arises : t.Arises o
  inTree : (t.scope? id).isSome
  chain : t.chain id = c
  classified : c.Classified

/-- The types that scratch variables have. -/
def Temp.types : List String := [objectType, arrayType, "bool", "*πg.Dict", "*πg.Code"]

/-- What a value or a plain step may mention in a scope: a slot that the nearest function with a
record of the name holds, but no member of a Go package. -/
def Code.Mention.Held (c : ScopeChain) : Mention → Prop
  | slot x => c.inSlot x = true
  | member _ => False
  | string _ | package _ | scratch _ | line _ | verbatim _ => True

/-- A mentioned string or package has been registered, and a comment holds a line of the source. No
expression is mentioned by its text alone. -/
def Code.Mention.Known (cx : Context) (r : Registry) : Mention → Prop
  | string (.shared s) => s ∈ r.strings
  | package p => p ∈ r.imports
  | scratch type => type ∈ Temp.types
  | line s => ∃ source, cx.source = some source ∧ ∃ n, s = source.lineAt n
  | verbatim _ => False
  | string (.fresh _) | slot _ | member _ => True

/-- A mention in a scope of a unit with the given registry. -/
def Code.Mention.Fits (cx : Context) (c : ScopeChain) (r : Registry) (m : Mention) : Prop :=
  m.Held c ∧ m.Known cx r

/-- A value in a scope of a unit with the given registry. -/
def Code.Value.Fits (cx : Context) (c : ScopeChain) (r : Registry) (v : Value) : Prop :=
  ∀ m ∈ v.mentions, m.Fits cx c r

/-- A registry holds what another one holds. -/
structure Registry.Extends (r r' : Registry) : Prop where
  strings : r.strings ⊆ r'.strings
  imports : r.imports ⊆ r'.imports

namespace Registry.Extends

variable {cx : Context} {r r' r'' : Registry} {c : ScopeChain}

theorem refl (r : Registry) : r.Extends r := ⟨List.Subset.refl _, List.Subset.refl _⟩

theorem trans (h : r.Extends r') (h' : r'.Extends r'') : r.Extends r'' :=
  ⟨List.Subset.trans h.strings h'.strings, List.Subset.trans h.imports h'.imports⟩

theorem known (h : r.Extends r') {m : Mention} (hm : m.Known cx r) : m.Known cx r' := by
  rcases m with x | (s | s) | p | name | type | s | s
  · trivial
  · exact h.strings hm
  · trivial
  · exact h.imports hm
  · trivial
  · exact hm
  · exact hm
  · exact hm

theorem fits (h : r.Extends r') {v : Value} (hv : v.Fits cx c r) : v.Fits cx c r' :=
  fun m hm => ⟨(hv m hm).1, h.known (hv m hm).2⟩

end Registry.Extends

/-! ### Code that answers requests -/

/-- Code that answers requests, with the registries before and after it. -/
structure Answers (cx : Context) (c : ScopeChain) (reqs : List Request) (code : List Step)
    (r r' : Registry) : Prop where
  lookups : Step.lookupsOf code = reqs.flatMap (·.lookups c)
  held : ∀ x, .slot x ∈ Step.mentionsOf false code → c.inSlot x = true
  definitions : ResolvesAll c (c.map (·.declared)) (reqs.filterMap (·.entered?))
    (Step.definitionsOf code)
  known : ∀ m ∈ Step.mentionsOf true code, m.Known cx r'
  members : ∀ name, .member name ∈ Step.mentionsOf true code → .member name ∈ Request.deepAll reqs
  strings : ∀ s, s ∈ r'.strings ↔
    s ∈ r.strings ∨ Registry.isSharable s = true ∧ s ∈ Request.stringsOfAll c reqs
  imports : ∀ p, p ∈ r'.imports ↔ p ∈ r.imports ∨
    ∃ used, (p, used) ∈ Request.packagesOfAll cx.options reqs
  used : ∀ p, (p, true) ∈ Request.packagesOfAll cx.options reqs →
    .package p ∈ Step.mentionsOf true code

namespace Answers

variable {cx : Context} {c : ScopeChain} {reqs qs : List Request} {code a b : List Step}
  {r r' r'' : Registry}

theorem grows (h : Answers cx c reqs code r r') : r.Extends r' :=
  ⟨fun s hs => (h.strings s).mpr (.inl hs), fun p hp => (h.imports p).mpr (.inl hp)⟩

theorem nil (r : Registry) : Answers cx c [] [] r r where
  lookups := rfl
  held := nofun
  definitions := .nil
  known := nofun
  members := nofun
  strings s := by simp [Request.stringsOfAll]
  imports p := by simp [Request.packagesOfAll, Request.deepAll]
  used := nofun

theorem append (ha : Answers cx c reqs a r r') (hb : Answers cx c qs b r' r'') :
    Answers cx c (reqs ++ qs) (a ++ b) r r'' where
  lookups := by rw [Step.lookupsOf_append, ha.lookups, hb.lookups, List.flatMap_append]
  held x hx := by
    rw [Step.mentionsOf_append] at hx
    exact (List.mem_append.mp hx).elim (ha.held x) (hb.held x)
  definitions := by
    rw [Step.definitionsOf_append, List.filterMap_append]
    exact ha.definitions.append hb.definitions
  known m hm := by
    rw [Step.mentionsOf_append] at hm
    exact (List.mem_append.mp hm).elim (fun h => hb.grows.known (ha.known m h)) (hb.known m)
  members name hm := by
    rw [Step.mentionsOf_append] at hm
    rw [Request.deepAll_append]
    exact List.mem_append.mpr ((List.mem_append.mp hm).imp (ha.members name) (hb.members name))
  strings s := by
    rw [hb.strings, ha.strings, Request.stringsOfAll_append, List.mem_append, and_or_left, or_assoc]
  imports p := by
    simp only [hb.imports, ha.imports, Request.packagesOfAll_append, List.mem_append, exists_or,
      or_assoc]
  used p hp := by
    rw [Request.packagesOfAll_append] at hp
    rw [Step.mentionsOf_append]
    exact List.mem_append.mpr ((List.mem_append.mp hp).imp (ha.used p) (hb.used p))

/-- Only the single steps of code count. -/
theorem control (h : Answers cx c reqs a r r')
    (hflat : ∀ deep, Step.flatAll deep b = Step.flatAll deep a) : Answers cx c reqs b r r' where
  lookups := by
    rw [Step.lookupsOf, hflat]
    exact h.lookups
  held x hx := by
    rw [Step.mentionsOf, hflat] at hx
    exact h.held x hx
  definitions := by
    rw [Step.definitionsOf, hflat]
    exact h.definitions
  known m hm := by
    rw [Step.mentionsOf, hflat] at hm
    exact h.known m hm
  members name hm := by
    rw [Step.mentionsOf, hflat] at hm
    exact h.members name hm
  strings := h.strings
  imports := h.imports
  used p hp := by
    rw [Step.mentionsOf, hflat]
    exact h.used p hp

/-- A single step without a nested body. What its requests hand out is registered between the two
registries. -/
theorem step {s : Step} (hflat : ∀ deep, s.flat deep = [s]) (hdef : s.isDefinition = false)
    (hentered : reqs.filterMap (·.entered?) = []) (hlookups : s.lookups = reqs.flatMap (·.lookups c))
    (hheld : ∀ x, .slot x ∈ s.mentions → c.inSlot x = true) (hknown : ∀ m ∈ s.mentions, m.Known cx r')
    (hmembers : ∀ name, .member name ∈ s.mentions → .member name ∈ Request.deepAll reqs)
    (hstrings : ∀ x, x ∈ r'.strings ↔
      x ∈ r.strings ∨ Registry.isSharable x = true ∧ x ∈ Request.stringsOfAll c reqs)
    (hpackages : Request.packagesOfAll cx.options reqs = []) (himports : r'.imports = r.imports) :
    Answers cx c reqs [s] r r' := by
  have hmentions (deep : Bool) : Step.mentionsOf deep [s] = s.mentions := by
    rw [Step.mentionsOf, Step.flatAll_single, hflat, List.flatMap_singleton]
  refine ⟨?_, fun x h => hheld x (hmentions false ▸ h), ?_, fun m h => hknown m (hmentions true ▸ h),
    fun name h => hmembers name (hmentions true ▸ h), hstrings, fun p => ?_, fun p hp => ?_⟩
  · rw [Step.lookupsOf, Step.flatAll_single, hflat, List.flatMap_singleton, hlookups]
  · rw [hentered, Step.definitionsOf, Step.flatAll_single, hflat, List.filter_singleton, hdef]
    exact .nil
  · simp [himports, hpackages]
  · rw [hpackages] at hp
    cases hp

/-- A single step without a nested body that mentions no member of a Go package. -/
theorem single {s : Step} (hflat : ∀ deep, s.flat deep = [s]) (hdef : s.isDefinition = false)
    (hentered : reqs.filterMap (·.entered?) = [])
    (hpackages : Request.packagesOfAll cx.options reqs = [])
    (hlookups : s.lookups = reqs.flatMap (·.lookups c)) (hm : ∀ m ∈ s.mentions, m.Fits cx c r')
    (hstrings : ∀ x, x ∈ r'.strings ↔
      x ∈ r.strings ∨ Registry.isSharable x = true ∧ x ∈ Request.stringsOfAll c reqs)
    (himports : r'.imports = r.imports) : Answers cx c reqs [s] r r' :=
  step hflat hdef hentered hlookups (fun _ hx => (hm _ hx).1) (fun m h => (hm m h).2)
    (fun _ h => (hm _ h).1.elim) hstrings hpackages himports

/-- A scratch variable begins to be in use. -/
theorem acquire {v : Temp} (hv : v.type ∈ Temp.types) :
    Answers cx c [] [.action (.acquire v)] r r := by
  refine single (fun _ => rfl) rfl rfl rfl rfl (fun m hm => ?_) (fun _ => ?_) rfl
  · obtain rfl := List.mem_singleton.mp hm
    exact ⟨trivial, hv⟩
  · simp [Request.stringsOfAll]

/-- Packages that have been handed out turn out to be used. -/
theorem use (h : Answers cx c reqs code r r')
    (hlookups : reqs.flatMap (·.lookups c) = qs.flatMap (·.lookups c))
    (hentered : reqs.filterMap (·.entered?) = qs.filterMap (·.entered?))
    (hstrings : Request.stringsOfAll c reqs = Request.stringsOfAll c qs)
    (hmembers : ∀ name, .member name ∈ Request.deepAll reqs → .member name ∈ Request.deepAll qs)
    (hpackages : (Request.packagesOfAll cx.options reqs).map (·.1) =
      (Request.packagesOfAll cx.options qs).map (·.1))
    (hused : ∀ p, (p, true) ∈ Request.packagesOfAll cx.options qs →
      .package p ∈ Step.mentionsOf true code) :
    Answers cx c qs code r r' where
  lookups := h.lookups.trans hlookups
  held := h.held
  definitions := hentered ▸ h.definitions
  known := h.known
  members name hm := hmembers name (h.members name hm)
  strings := hstrings ▸ h.strings
  imports p := by
    have hmem (qs : List Request) : (∃ used, (p, used) ∈ Request.packagesOfAll cx.options qs) ↔
        p ∈ (Request.packagesOfAll cx.options qs).map (·.1) := by simp
    rw [h.imports, hmem, hmem, hpackages]
  used := hused

/-- What has been handed out is not handed out again. -/
theorem settled (h : Answers cx c reqs code r r') (hr : r'.Extends r'') :
    Answers cx c reqs code r'' r'' where
  lookups := h.lookups
  held := h.held
  definitions := h.definitions
  known m hm := hr.known (h.known m hm)
  members := h.members
  strings s := by
    refine ⟨.inl, Or.rec id fun hs => ?_⟩
    exact hr.strings ((h.strings s).mpr (.inr hs))
  imports p := by
    refine ⟨.inl, Or.rec id fun hp => ?_⟩
    exact hr.imports ((h.imports p).mpr (.inr hp))
  used := h.used

/-- What a request hands out may have been registered before. -/
theorem prepaid {q : Request} (h : Answers cx c (q :: qs) code r' r'')
    (hstrings : ∀ s, s ∈ r'.strings ↔
      s ∈ r.strings ∨ Registry.isSharable s = true ∧ s ∈ q.strings c)
    (himports : ∀ p, p ∈ r'.imports ↔
      p ∈ r.imports ∨ ∃ used, (p, used) ∈ Request.packagesOfAll cx.options [q]) :
    Answers cx c (q :: qs) code r r'' where
  lookups := h.lookups
  held := h.held
  definitions := h.definitions
  known := h.known
  members := h.members
  strings s := by
    rw [h.strings, hstrings, Request.stringsOfAll, List.mem_append]
    tauto
  imports p := by
    rw [h.imports, Request.packagesOfAll_cons, himports]
    simp only [List.mem_append, exists_or]
    tauto
  used := h.used

/-- The code of a body as the scope around it sees it. -/
theorem resolves (h : Answers cx c reqs code r r') (hc : c.Classified) :
    Resolves c (c.map (·.declared)) reqs code :=
  .body h.lookups (fun x hx => hc.captures (h.held x hx)) h.definitions

/-- A step that makes the code of a nested body. -/
theorem enter {kind : ScopeKind} {s : Step} (h : Answers cx (kind :: c) reqs code r r)
    (hflat : ∀ deep, s.flat deep = s :: if deep then Step.flatAll deep code else [])
    (hdef : s.isDefinition = true) (hmentions : s.mentions = []) (hlookups : s.lookups = [])
    (hresolves : ResolvesAll c (c.map (·.declared)) [(kind, reqs)] [s]) :
    Answers cx c [.enter kind reqs] [s] r r := by
  have houter : Step.mentionsOf false [s] = [] := by
    simp [Step.mentionsOf, Step.flatAll_single, hflat, hmentions]
  have hinner : Step.mentionsOf true [s] = Step.mentionsOf true code := by
    rw [Step.mentionsOf, Step.flatAll_single, hflat, if_pos rfl, List.flatMap_cons, hmentions]
    rfl
  refine ⟨?_, fun x hx => ?_, ?_, hinner ▸ h.known, fun name hm => ?_, fun s => ?_, fun p => ?_,
    fun p hp => ?_⟩
  · rw [Step.lookupsOf, Step.flatAll_single, hflat]
    simp [hlookups, Request.lookups]
  · rw [houter] at hx
    cases hx
  · rw [Step.definitionsOf, Step.flatAll_single, hflat]
    simpa [hdef, Request.entered?] using hresolves
  · rw [Request.deepAll_enter]
    exact List.mem_cons_of_mem _ (h.members name (hinner ▸ hm))
  · rw [Request.stringsOfAll, Request.strings, Request.stringsOfAll, List.append_nil]
    exact h.strings s
  · rw [Request.packagesOfAll_enter]
    exact h.imports p
  · rw [Request.packagesOfAll_enter] at hp
    exact hinner ▸ h.used p hp

end Answers

end Goward
