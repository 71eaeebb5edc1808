import Goward.Proofs.Classification
import Goward.Proofs.Requests

/-!
# Resolution of names

How the names that a body reads are found. The nearest function that knows a name decides where it
lives. If that is in a slot, then the Go function for that function declares the slot, and no Go
function between it and the place where the slot is mentioned declares one for the same name, so the
Go code means the same variable.
-/

namespace Goward

open Goward.Code

/-- The classification of every function in the chain lists each name once. -/
def ScopeChain.Classified (c : ScopeChain) : Prop :=
  ∀ f, .function f ∈ c → f.vars.Distinct

/-- The names that the Go function for the body of a scope declares slots for. -/
def ScopeKind.declared : ScopeKind → List String
  | .function f => f.vars.slots.map (·.1)
  | .module | .classBody _ => []

/-- The slot of a name is that of the nearest function with a record of the name, which has it as a
local name or a parameter; and the Go function for this function is the innermost one that declares
the slot. The chain of scopes and the names for which the Go functions around the code declare slots
are listed from the inside out, and each scope has one Go function. -/
def Captures (c : ScopeChain) (g : List (List String)) (x : String) : Prop :=
  ∃ inner f outer k, c = inner ++ .function f :: outer ∧ (∀ s ∈ inner, s.lookup? x = none) ∧
    f.vars.find? x = some k ∧ k ≠ .global ∧ g.findIdx? (·.contains x) = some inner.length

mutual

/-- The code of a body, and of all bodies nested in it, in a chain of scopes and inside Go functions
that declare slots: names are looked up as the requests demand, in order, and every slot that is
mentioned is that of the nearest scope that knows the name. -/
inductive Resolves : ScopeChain → List (List String) → List Request → List Step → Prop
  | body {c : ScopeChain} {g : List (List String)} {reqs : List Request} {code : List Step} :
    Step.lookupsOf code = reqs.flatMap (·.lookups c) →
    (∀ x, .slot x ∈ Step.mentionsOf false code → Captures c g x) →
    ResolvesAll c g (reqs.filterMap (·.entered?)) (Step.definitionsOf code) →
    Resolves c g reqs code

/-- The bodies that are entered, one after another, and the steps that make their code. The Go
function for the body of a function declares the slots that its header lists. -/
inductive ResolvesAll : ScopeChain → List (List String) → List (ScopeKind × List Request) →
    List Step → Prop
  | nil {c : ScopeChain} {g : List (List String)} : ResolvesAll c g [] []
  | function {c : ScopeChain} {g : List (List String)} {f : FunctionVars} {inner : List Request}
    {dst : Temp} {header : FunctionHeader} {temps : List Temp} {body : List Step}
    {rest : List (ScopeKind × List Request)} {steps : List Step} :
    header.slots = f.vars.slots →
    Resolves (.function f :: c) (header.slots.map (·.1) :: g) inner body →
    ResolvesAll c g rest steps →
    ResolvesAll c g ((.function f, inner) :: rest) (.function dst header temps body :: steps)
  | classBody {c : ScopeChain} {g : List (List String)} {globals : List String}
    {inner : List Request} {dst : Temp} {name : String} {names : Temp} {temps : List Temp}
    {body : List Step} {rest : List (ScopeKind × List Request)} {steps : List Step} :
    Resolves (.classBody globals :: c) ([] :: g) inner body →
    ResolvesAll c g rest steps →
    ResolvesAll c g ((.classBody globals, inner) :: rest)
      (.classBody dst name names temps body :: steps)

end

theorem ResolvesAll.append {c : ScopeChain} {g : List (List String)}
    {as bs : List (ScopeKind × List Request)} {ss ts : List Step} (ha : ResolvesAll c g as ss)
    (hb : ResolvesAll c g bs ts) : ResolvesAll c g (as ++ bs) (ss ++ ts) := by
  induction as generalizing ss with
  | nil =>
    cases ha
    exact hb
  | cons a rest ih =>
    cases ha with
    | function hslots hbody hrest => exact .function hslots hbody (ih hrest)
    | classBody hbody hrest => exact .classBody hbody (ih hrest)

theorem VarMap.mem_slots_iff {m : VarMap} (h : m.Distinct) (x : String) :
    x ∈ m.slots.map (·.1) ↔ ∃ k, m.find? x = some k ∧ k ≠ .global := by
  rw [Distinct] at h
  rw [find?, slots]
  generalize m.toList = vs at h
  induction vs with
  | nil => simp
  | cons v rest ih =>
    rw [List.map_cons, List.nodup_cons] at h
    have ih := ih h.2
    by_cases hv : v.name = x
    · have hrest : x ∉ (rest.filterMap fun v => v.kind.init?.map (v.name, ·)).map (·.1) := by
        intro hmem
        obtain ⟨_, hs, rfl⟩ := List.mem_map.mp hmem
        obtain ⟨w, hw, hslot⟩ := List.mem_filterMap.mp hs
        obtain ⟨init, -, rfl⟩ := Option.map_eq_some_iff.mp hslot
        exact h.1 (hv ▸ List.mem_map_of_mem hw)
      have hfind : (v :: rest).find? (·.name == x) = some v :=
        List.find?_cons_of_pos (beq_iff_eq.mpr hv)
      have hinit : v.kind.init? = none ↔ v.kind = .global := by
        cases v.kind <;> simp [VarKind.init?]
      rw [hfind, List.filterMap_cons]
      cases hk : v.kind.init? with
      | none => simpa [hinit.mp hk] using hrest
      | some init => simpa [hv, hk] using mt hinit.mpr
    · have hfind : (v :: rest).find? (·.name == x) = rest.find? (·.name == x) :=
        List.find?_cons_of_neg (by simpa using hv)
      rw [hfind, ← ih, List.filterMap_cons]
      cases v.kind.init? with
      | none => rfl
      | some init => simp [Ne.symm hv]

/-- The Go function for the nearest function with a record of a name declares its slot, and those for
the scopes inside of it do not. -/
theorem ScopeChain.Classified.captures {c : ScopeChain} (hc : c.Classified) {x : String}
    (hx : c.inSlot x = true) : Captures c (c.map (·.declared)) x := by
  obtain ⟨inner, f, outer, k, rfl, hinner, hf, hk⟩ := inSlot_iff.mp hx
  refine ⟨inner, f, outer, k, rfl, hinner, hf, hk, ?_⟩
  have hdeclares : (ScopeKind.function f).declared.contains x = true := by
    rw [List.contains_iff_mem, ScopeKind.declared, VarMap.mem_slots_iff (hc f (by simp))]
    exact ⟨k, hf, hk⟩
  have hsilent : (inner.map (·.declared)).findIdx? (·.contains x) = none := by
    rw [List.findIdx?_eq_none_iff]
    intro names hnames
    obtain ⟨s, hs, rfl⟩ := List.mem_map.mp hnames
    rw [Bool.eq_false_iff, ne_eq, List.contains_iff_mem]
    intro hmem
    cases s with
    | module | classBody _ => cases hmem
    | function g =>
      obtain ⟨k', hfind, -⟩ := (VarMap.mem_slots_iff (hc g (by simp [hs])) x).mp hmem
      have hnone := hinner _ hs
      rw [ScopeKind.lookup?, hfind] at hnone
      cases hnone
  rw [List.map_append, List.findIdx?_append, hsilent, List.map_cons, List.findIdx?_cons, hdeclares]
  simp

end Goward
