import Mathlib.Data.List.Sort
import Mathlib.Tactic.TFAE
import Goward.Proofs.StringHistory

/-!
# The order of registration

What of a registry depends on the order in which it was asked. A path stands for the package that
the first request for it asks for. Requests for the same path ask for the same package, with one
exception: the runtime has its short name if it is asked for by its reserved name, and a name made
from its path if it is asked for by that. So the order shows in the package of the runtime only, and
only by how that is asked for first.
-/

namespace Goward

namespace Text

/-- An element that is put into a list is found where it would be found at the end, if nothing in the
list is found before it there. -/
theorem find?_insertByKey {α : Type} {key : α → String} {x : α} {xs : List α} {q : α → Bool}
    (h : q x = true → ∀ y ∈ xs, q y = false) :
    (insertByKey key x xs).find? q = (xs ++ [x]).find? q := by
  induction xs with
  | nil => rfl
  | cons y rest ih =>
    rw [insertByKey]
    split
    · cases hx : q x with
      | true =>
        have hnone : (y :: rest).find? q = none :=
          List.find?_eq_none.mpr fun z hz => Bool.eq_false_iff.mp (h hx z hz)
        rw [List.find?_cons_of_pos hx, List.find?_append, hnone, List.find?_cons_of_pos hx]
        rfl
      | false =>
        have hx : ¬q x = true := Bool.eq_false_iff.mp hx
        rw [List.find?_cons_of_neg hx, List.find?_append, List.find?_cons_of_neg hx]
        exact Option.or_none.symm
    · rw [List.cons_append, List.find?_cons, List.find?_cons,
        ih fun hx z hz => h hx z (List.mem_cons_of_mem _ hz)]

end Text

namespace Registry

variable {o : Options} {r : Registry} {ops a b : List RegistryOp} {op : RegistryOp}
  {path s : String} {p : Package} {g g' : Registered}

/-- A package is found under its path from its registration on, unless another one was before. -/
theorem find?_register (r : Registry) (p : Package) (path : String) :
    (r.register p).2.find? path = (r.find? path).or ([p].find? (·.name == path)) := by
  rw [register]
  cases hfind : r.find? p.name with
  | some known =>
    by_cases hp : p.name = path
    · rw [← hp, hfind]
      rfl
    · simp [hp]
  | none =>
    rw [find?, find?, ← List.find?_append]
    refine Text.find?_insertByKey fun hp q hq => ?_
    rw [← beq_iff_eq.mp hp]
    exact Bool.eq_false_iff.mpr (List.find?_eq_none.mp hfind q hq)

/-- What is kept under a path is what the first request for it asks for. -/
theorem find?_after (o : Options) (ops : List RegistryOp) (path : String) :
    (stateAfter serve (.ofOptions o) ops).find? path =
      (ops.find? (·.path? o == some path)).bind (·.package? o) := by
  have hasked : (stateAfter serve (.ofOptions o) ops).find? path =
      (ops.filterMap (·.package? o)).find? (·.name == path) := by
    induction ops using List.reverseRecOn with
    | nil => rfl
    | append_singleton ops op ih =>
      have hr := records o ops
      rw [stateAfter_concat, List.filterMap_append, List.find?_append, ← ih, List.filterMap_cons,
        List.filterMap_nil]
      cases hp : op.package? o with
      | some p => rw [serve_of_package? hr.runtime hr.libroot hp, find?_register]
      | none =>
        cases op with
        | addImport _ | addNative _ => cases hp
        | intern s =>
          rw [find?, serve, (intern_keeps _ s).2.2]
          exact Option.or_none.symm
  have hmeans : (fun op : RegistryOp => (op.package? o).any (·.name == path)) =
      (·.path? o == some path) := by
    funext op
    rw [RegistryOp.path?_eq]
    cases op.package? o <;> rfl
  rw [hasked, List.find?_filterMap, hmeans]

/-- The path of the runtime is asked for, and first by its reserved name. -/
def RuntimeByName (o : Options) (ops : List RegistryOp) : Prop :=
  ops.find? (·.path? o == some o.runtime) = some (.addNative Package.runtimeName)

instance : Decidable (RuntimeByName o ops) := inferInstanceAs (Decidable (_ = _))

/-- The package that is kept under a path after some requests, if the path is asked for at all. -/
def packageAfter (o : Options) (ops : List RegistryOp) (path : String) : Package :=
  if path = o.runtime ∧ RuntimeByName o ops then ⟨o.runtime, Package.runtimeAlias⟩ else .ofPath path

theorem path?_runtimeName (o : Options) :
    (RegistryOp.addNative Package.runtimeName).path? o = some o.runtime := by
  rw [RegistryOp.path?, if_pos rfl]

theorem package?_of_first (h : ops.find? (·.path? o == some path) = some op) :
    op.package? o = some (packageAfter o ops path) := by
  have hpath : op.path? o = some path := by simpa using List.find?_some h
  unfold packageAfter
  split
  · next hruntime =>
    obtain ⟨rfl, hname⟩ := hruntime
    obtain rfl := Option.some_inj.mp (h.symm.trans hname)
    rw [RegistryOp.package?, if_pos rfl]
  · next hother =>
    cases op with
    | addImport below =>
      obtain rfl := Option.some_inj.mp hpath
      rfl
    | addNative given =>
      have hgiven : given ≠ Package.runtimeName := by
        rintro rfl
        obtain rfl := Option.some_inj.mp ((path?_runtimeName o).symm.trans hpath)
        exact hother ⟨rfl, h⟩
      rw [RegistryOp.path?, if_neg hgiven] at hpath
      obtain rfl := Option.some_inj.mp hpath
      rw [RegistryOp.package?, if_neg hgiven]
    | intern _ => cases hpath

theorem eq_packageAfter (hp : p ∈ (stateAfter serve (.ofOptions o) ops).imports) :
    p = packageAfter o ops p.name := by
  have hfind := (records o ops).ordered.find?_eq_some_iff.mpr ⟨hp, rfl⟩
  rw [find?_after] at hfind
  obtain ⟨op, hfirst, hop⟩ := Option.bind_eq_some_iff.mp hfind
  exact Option.some_inj.mp (hop.symm.trans (package?_of_first hfirst))

theorem packageAfter_runtime :
    packageAfter o ops o.runtime = ⟨o.runtime, Package.runtimeAlias⟩ ↔ RuntimeByName o ops := by
  unfold packageAfter
  constructor
  · intro heq
    by_contra hname
    rw [if_neg fun h => hname h.2] at heq
    exact Package.ofPath_goName_ne _ (congrArg Package.goName heq)
  · exact fun hname => if_pos ⟨rfl, hname⟩

theorem answer_package (h : (op, g) ∈ transcript serve (.ofOptions o) ops)
    (hpath : op.path? o = some path) : g = .package (packageAfter o ops path) := by
  obtain ⟨p, hp, rfl, rfl⟩ := (records o ops).answered op g path h hpath
  rw [← eq_packageAfter hp]

theorem answer_string (h : (.intern s, g) ∈ transcript serve (.ofOptions o) ops) :
    g = .string (.of s) := by
  obtain ⟨earlier, hanswer⟩ := exists_of_mem_transcript h
  exact hanswer.trans (congrArg Registered.string (intern_eq _ s))

theorem exists_answer (h : op ∈ ops) : ∃ g, (op, g) ∈ transcript serve (.ofOptions o) ops := by
  rw [← map_fst_transcript serve (.ofOptions o) ops] at h
  obtain ⟨⟨op, g⟩, hmem, rfl⟩ := List.mem_map.mp h
  exact ⟨g, hmem⟩

/-! ### The same requests in another order -/

/-- Requests that occur in two histories have the same answers in both. -/
def SameAnswers (h h' : RegistryHistory) : Prop :=
  ∀ op g g', (op, g) ∈ h → (op, g') ∈ h' → g = g'

theorem SameAnswers.symm {h h' : RegistryHistory} (hsame : SameAnswers h h') : SameAnswers h' h :=
  fun op g g' hg hg' => (hsame op g' g hg' hg).symm

/-- Two registries and their histories agree, the package of the runtime apart. -/
structure AgreeApart (o : Options) (r r' : Registry) (h h' : RegistryHistory) : Prop where
  strings : r.strings = r'.strings
  /-- There is a package for the same paths. -/
  paths : r.imports.map (·.name) = r'.imports.map (·.name)
  packages : ∀ path, path ≠ o.runtime → r.find? path = r'.find? path
  answers : ∀ op g g', op.path? o ≠ some o.runtime → (op, g) ∈ h → (op, g') ∈ h' → g = g'

theorem packageAfter_of_ne (ops : List RegistryOp) (h : path ≠ o.runtime) :
    packageAfter o ops path = .ofPath path := if_neg fun hruntime => h hruntime.1

theorem packageAfter_congr (hname : RuntimeByName o a ↔ RuntimeByName o b) (path : String) :
    packageAfter o a path = packageAfter o b path := by
  unfold packageAfter
  simp only [hname]

/-- The packages follow from the paths that are asked for. -/
theorem imports_eq_map (o : Options) (ops : List RegistryOp) :
    (stateAfter serve (.ofOptions o) ops).imports =
      ((stateAfter serve (.ofOptions o) ops).imports.map (·.name)).map (packageAfter o ops) := by
  rw [List.map_map]
  exact (List.map_id _).symm.trans (List.map_congr_left fun p hp => eq_packageAfter hp)

theorem find?_eq_ite (o : Options) (ops : List RegistryOp) (path : String) :
    (stateAfter serve (.ofOptions o) ops).find? path =
      if path ∈ (stateAfter serve (.ofOptions o) ops).imports.map (·.name) then
        some (packageAfter o ops path)
      else none := by
  split
  · next hmem =>
    obtain ⟨p, hp, rfl⟩ := List.mem_map.mp hmem
    rw [(records o ops).ordered.find?_eq_some_iff.mpr ⟨hp, rfl⟩, ← eq_packageAfter hp]
  · next hmem =>
    refine List.find?_eq_none.mpr fun p hp hname => hmem ?_
    exact beq_iff_eq.mp hname ▸ List.mem_map_of_mem hp

section SameRequests

variable (h : ∀ op, op ∈ a ↔ op ∈ b)

include h

theorem strings_congr (o : Options) : (stateAfter serve (.ofOptions o) a).strings =
    (stateAfter serve (.ofOptions o) b).strings := by
  have hascending (ops : List RegistryOp) :
      (stateAfter serve (.ofOptions o) ops).strings.Pairwise (· < ·) := by
    simpa [Text.Ascending] using (records o ops).ordered.strings
  refine List.Pairwise.eq_of_mem_iff (hascending a) (hascending b) fun s => ?_
  rw [mem_strings_after, mem_strings_after, h]

theorem paths_congr (o : Options) : (stateAfter serve (.ofOptions o) a).imports.map (·.name) =
    (stateAfter serve (.ofOptions o) b).imports.map (·.name) := by
  refine List.Pairwise.eq_of_mem_iff (records o a).ordered.imports (records o b).ordered.imports
    fun path => ?_
  rw [(records o a).follows.paths, (records o b).follows.paths, map_fst_transcript,
    map_fst_transcript]
  exact exists_congr fun op => and_congr_left fun _ => h op

theorem agreeApart (o : Options) :
    AgreeApart o (stateAfter serve (.ofOptions o) a) (stateAfter serve (.ofOptions o) b)
      (transcript serve (.ofOptions o) a) (transcript serve (.ofOptions o) b) where
  strings := strings_congr h o
  paths := paths_congr h o
  packages path hne := by
    rw [find?_eq_ite, find?_eq_ite, paths_congr h, packageAfter_of_ne a hne,
      packageAfter_of_ne b hne]
  answers op g g' hne hg hg' := by
    cases hpath : op.path? o with
    | some path =>
      have hne : path ≠ o.runtime := fun heq => hne (hpath.trans (congrArg some heq))
      rw [answer_package hg hpath, answer_package hg' hpath, packageAfter_of_ne a hne,
        packageAfter_of_ne b hne]
    | none =>
      cases op with
      | addImport _ | addNative _ => cases hpath
      | intern s => rw [answer_string hg, answer_string hg']

theorem state_congr (hname : RuntimeByName o a ↔ RuntimeByName o b) :
    stateAfter serve (.ofOptions o) a = stateAfter serve (.ofOptions o) b := by
  have himports : (stateAfter serve (.ofOptions o) a).imports =
      (stateAfter serve (.ofOptions o) b).imports := by
    rw [imports_eq_map o a, imports_eq_map o b, paths_congr h]
    exact List.map_congr_left fun path _ => packageAfter_congr hname path
  have hstate (ops : List RegistryOp) : stateAfter serve (.ofOptions o) ops =
      ⟨o.runtime, o.libroot, (stateAfter serve (.ofOptions o) ops).imports,
        (stateAfter serve (.ofOptions o) ops).strings⟩ := by
    rw [← (records o ops).runtime, ← (records o ops).libroot]
  rw [hstate a, hstate b, himports, strings_congr h]

theorem sameAnswers_of_runtime (hname : RuntimeByName o a ↔ RuntimeByName o b) :
    SameAnswers (transcript serve (.ofOptions o) a) (transcript serve (.ofOptions o) b) := by
  intro op g g' hg hg'
  by_cases hpath : op.path? o = some o.runtime
  · rw [answer_package hg hpath, answer_package hg' hpath, packageAfter_congr hname]
  · exact (agreeApart h o).answers op g g' hpath hg hg'

/-- If the same requests have the same answers, the runtime is asked for by its name first in both. -/
theorem runtimeByName_of_sameAnswers (hsame : SameAnswers (transcript serve (.ofOptions o) a)
    (transcript serve (.ofOptions o) b)) (hname : RuntimeByName o a) : RuntimeByName o b := by
  have hmem : .addNative Package.runtimeName ∈ a := List.mem_of_find?_eq_some hname
  obtain ⟨g, hg⟩ := exists_answer (o := o) hmem
  obtain ⟨g', hg'⟩ := exists_answer (o := o) ((h _).mp hmem)
  have heq := hsame _ g g' hg hg'
  rw [answer_package hg (path?_runtimeName o), answer_package hg' (path?_runtimeName o),
    Registered.package.injEq] at heq
  exact packageAfter_runtime.mp (heq.symm.trans (packageAfter_runtime.mpr hname))

end SameRequests

theorem runtimeByName_iff_mem : RuntimeByName o ops ↔
    ⟨o.runtime, Package.runtimeAlias⟩ ∈ (stateAfter serve (.ofOptions o) ops).imports := by
  constructor
  · intro hname
    obtain ⟨g, hg⟩ := exists_answer (o := o) (List.mem_of_find?_eq_some hname)
    obtain ⟨p, hp, -, hpname⟩ := (records o ops).answered _ g _ hg (path?_runtimeName o)
    rw [eq_packageAfter hp, hpname, packageAfter_runtime.mpr hname] at hp
    exact hp
  · exact fun hmem => packageAfter_runtime.mp (eq_packageAfter hmem).symm

/-- The order of registration shows in the package of the runtime only. The same requests in any
order and number leave the same strings and, for every other path, the same package, and are answered
alike; in full they leave the same registry and are answered alike exactly if the runtime is asked
for by its reserved name first in both orders or in neither. -/
theorem registration_order (o : Options) {a b : List RegistryOp} (h : ∀ op, op ∈ a ↔ op ∈ b) :
    AgreeApart o (stateAfter serve (.ofOptions o) a) (stateAfter serve (.ofOptions o) b)
      (transcript serve (.ofOptions o) a) (transcript serve (.ofOptions o) b) ∧
    List.TFAE [RuntimeByName o a ↔ RuntimeByName o b,
      stateAfter serve (.ofOptions o) a = stateAfter serve (.ofOptions o) b,
      SameAnswers (transcript serve (.ofOptions o) a) (transcript serve (.ofOptions o) b)] ∧
    ∀ g, (.addNative Package.runtimeName, g) ∈ transcript serve (.ofOptions o) a →
      (g = .package ⟨o.runtime, Package.runtimeAlias⟩ ↔ RuntimeByName o a) := by
  refine ⟨agreeApart h o, ?_, fun g hg => ?_⟩
  · tfae_have 1 → 2 := state_congr h
    tfae_have 2 → 1 := fun heq => by rw [runtimeByName_iff_mem, runtimeByName_iff_mem, heq]
    tfae_have 1 → 3 := sameAnswers_of_runtime h
    tfae_have 3 → 1 := fun hsame => ⟨runtimeByName_of_sameAnswers h hsame,
      runtimeByName_of_sameAnswers (fun op => (h op).symm) hsame.symm⟩
    tfae_finish
  · rw [answer_package hg (path?_runtimeName o), Registered.package.injEq, packageAfter_runtime]

theorem registration_order_byName :
    let a : List RegistryOp := [.addNative "grumpy", .intern "x", .addImport "os",
      .addNative "github.com/google/grumpy/runtime"]
    let b : List RegistryOp := [.addImport "os", .addNative "grumpy", .addNative "grumpy",
      .addNative "github.com/google/grumpy/runtime", .intern "x"]
    (∀ op, op ∈ a ↔ op ∈ b) ∧ (RuntimeByName {} a ↔ RuntimeByName {} b) ∧
      stateAfter serve (.ofOptions {}) a = stateAfter serve (.ofOptions {}) b := by
  intro a b
  have h : ∀ op, op ∈ a ↔ op ∈ b := by
    intro op
    simp only [a, b, List.mem_cons, List.not_mem_nil, or_false]
    tauto
  have hname : RuntimeByName {} a ↔ RuntimeByName {} b := by decide
  exact ⟨h, hname, ((registration_order {} h).2.1.out 0 1).mp hname⟩

/-- The path of the runtime, and then its reserved name. -/
def pathThenName : List RegistryOp :=
  [.addNative ({} : Options).runtime, .addNative Package.runtimeName]

/-- The order shows: behind a request for its path the runtime has a name made from the path, also
if it is asked for by its reserved name, and otherwise it has the short name. -/
theorem registration_order_shows :
    (∀ op, op ∈ pathThenName ↔ op ∈ pathThenName.reverse) ∧
    (stateAfter serve (.ofOptions {}) pathThenName).imports ≠
      (stateAfter serve (.ofOptions {}) pathThenName.reverse).imports ∧
    ¬SameAnswers (transcript serve (.ofOptions {}) pathThenName)
      (transcript serve (.ofOptions {}) pathThenName.reverse) ∧
    (.addNative "grumpy", .package ⟨"github.com/google/grumpy/runtime",
      "π_github.comΓgoogleΓgrumpyΓruntime"⟩) ∈ transcript serve (.ofOptions {}) pathThenName := by
  have hanswer : (.addNative "grumpy", .package ⟨"github.com/google/grumpy/runtime",
      "π_github.comΓgoogleΓgrumpyΓruntime"⟩) ∈ transcript serve (.ofOptions {}) pathThenName := by
    decide
  have hshort : (.addNative "grumpy", .package ⟨"github.com/google/grumpy/runtime", "πg"⟩) ∈
      transcript serve (.ofOptions {}) pathThenName.reverse := by
    decide
  refine ⟨fun op => List.mem_reverse.symm, by decide, fun hsame => ?_, hanswer⟩
  exact absurd (hsame _ _ _ hanswer hshort) (by decide)

end Registry

end Goward
