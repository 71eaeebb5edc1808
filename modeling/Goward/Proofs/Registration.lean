import Goward.Proofs.Order
import Goward.Proofs.ScopeChain

/-!
# Registration

What the registry of a unit holds. A package has the name that the options and its path give it,
whatever was registered before, because the support runtime is registered first of all; and the
reference to a string shows the string. Packages and strings are kept in strictly ascending order,
each of them once.
-/

namespace Goward

/-- The reference to a string. -/
def StringRef.of (s : String) : StringRef :=
  if Registry.isSharable s then .shared s else .fresh s

namespace Registry

variable {o : Options} {r : Registry}

theorem intern_eq (r : Registry) (s : String) : (r.intern s).1 = .of s := by
  unfold Registry.intern StringRef.of
  split <;> rfl

theorem intern_keeps (r : Registry) (s : String) : (r.intern s).2.runtime = r.runtime ∧
    (r.intern s).2.libroot = r.libroot ∧ (r.intern s).2.imports = r.imports := by
  unfold Registry.intern
  split
  · split <;> exact ⟨rfl, rfl, rfl⟩
  · exact ⟨rfl, rfl, rfl⟩

/-! ### Packages -/

/-- Either the path of a package is registered, and nothing changes, or the package is put in. -/
theorem register_cases (r : Registry) (p : Package) :
    (∃ known ∈ r.imports, known.name = p.name ∧ r.register p = (known, r)) ∨
      (∀ q ∈ r.imports, q.name ≠ p.name) ∧
        r.register p = (p, { r with imports := Text.insertByKey (·.name) p r.imports }) := by
  rw [Registry.register]
  cases hfind : r.find? p.name with
  | some known =>
    exact .inl ⟨known, List.mem_of_find?_eq_some hfind, by simpa using List.find?_some hfind, rfl⟩
  | none =>
    refine .inr ⟨fun q hq hname => ?_, rfl⟩
    exact List.find?_eq_none.mp hfind q hq (beq_iff_eq.mpr hname)

theorem name_register (r : Registry) (p : Package) : (r.register p).1.name = p.name := by
  obtain ⟨known, -, hname, heq⟩ | ⟨-, heq⟩ := r.register_cases p
  · rw [heq, hname]
  · rw [heq]

/-- The packages of a unit after one was registered; the answer is among them. -/
theorem mem_imports_register {r : Registry} {p q : Package} :
    q ∈ (r.register p).2.imports ↔ q ∈ r.imports ∨ q = (r.register p).1 := by
  obtain ⟨known, hmem, -, heq⟩ | ⟨-, heq⟩ := r.register_cases p
  · rw [heq]
    exact ⟨.inl, Or.rec id fun hq => hq ▸ hmem⟩
  · rw [heq, (Text.insertByKey_perm _ _ _).mem_iff, List.mem_cons, or_comm]

theorem register_keeps (r : Registry) (p : Package) : (r.register p).2.runtime = r.runtime ∧
    (r.register p).2.libroot = r.libroot ∧ (r.register p).2.strings = r.strings := by
  obtain ⟨known, -, -, heq⟩ | ⟨-, heq⟩ := r.register_cases p <;> rw [heq] <;> exact ⟨rfl, rfl, rfl⟩

/-- The package that every unit with the given options has under a path. -/
def packageAt (o : Options) (path : String) : Package :=
  if path = o.runtime then ⟨o.runtime, Package.runtimeAlias⟩ else .ofPath path

theorem name_packageAt (o : Options) (path : String) : (packageAt o path).name = path := by
  unfold packageAt
  split
  · next hruntime => exact hruntime.symm
  · rfl

/-- The package that is asked for by a path. -/
def packageFor (o : Options) (path : String) : Package :=
  packageAt o (if path = Package.runtimeName then o.runtime else path)

/-- A registry that answers as the options say, whatever has been registered so far. -/
structure Canonical (o : Options) (r : Registry) : Prop where
  runtime : r.runtime = o.runtime
  libroot : r.libroot = o.libroot
  /-- The runtime has been registered. -/
  registered : packageAt o o.runtime ∈ r.imports
  packages : ∀ p ∈ r.imports, p = packageAt o p.name

namespace Canonical

/-- A package is registered under the name that the options and its path give it. -/
theorem register (h : r.Canonical o) (path : String) {p : Package} (hname : p.name = path)
    (hp : path ≠ o.runtime → p = packageAt o path) :
    (r.register p).1 = packageAt o path ∧ (r.register p).2.Canonical o ∧
      ∀ q, q ∈ (r.register p).2.imports ↔ q ∈ r.imports ∨ q = packageAt o path := by
  subst hname
  have hanswer : (r.register p).1 = packageAt o p.name := by
    obtain ⟨known, hmem, hname, heq⟩ | ⟨hnew, heq⟩ := r.register_cases p
    · rw [heq, ← hname]
      exact h.packages known hmem
    · rw [heq]
      exact hp fun hruntime => hnew _ h.registered ((name_packageAt o _).trans hruntime.symm)
  have hmem (q : Package) :
      q ∈ (r.register p).2.imports ↔ q ∈ r.imports ∨ q = packageAt o p.name := by
    rw [mem_imports_register, hanswer]
  obtain ⟨hruntime, hlibroot, -⟩ := r.register_keeps p
  refine ⟨hanswer, ⟨hruntime.trans h.runtime, hlibroot.trans h.libroot,
    (hmem _).mpr (.inl h.registered), fun q hq => ?_⟩, hmem⟩
  rcases (hmem q).mp hq with hq | rfl
  · exact h.packages q hq
  · rw [name_packageAt]

/-- A request for a package is answered in the same way in every unit. -/
theorem addNative (h : r.Canonical o) (path : String) :
    (r.addNative path).1 = packageFor o path ∧ (r.addNative path).2.Canonical o ∧
      ∀ q, q ∈ (r.addNative path).2.imports ↔ q ∈ r.imports ∨ q = packageFor o path := by
  rw [Registry.addNative, packageFor, h.runtime]
  split
  · exact h.register _ rfl (absurd rfl)
  · exact h.register _ rfl fun hne => (if_neg hne).symm

theorem intern (h : r.Canonical o) (s : String) : (r.intern s).2.Canonical o := by
  obtain ⟨hruntime, hlibroot, himports⟩ := r.intern_keeps s
  refine ⟨hruntime.trans h.runtime, hlibroot.trans h.libroot, ?_, ?_⟩
  · rw [himports]
    exact h.registered
  · rw [himports]
    exact h.packages

end Canonical

/-- The strings of a unit after a request for a reference. -/
theorem mem_strings_intern (r : Registry) (s x : String) :
    x ∈ (r.intern s).2.strings ↔ x ∈ r.strings ∨ isSharable x = true ∧ x = s := by
  have hsharable : isSharable x = true ∧ x = s ↔ isSharable s = true ∧ x = s :=
    and_congr_left fun hx => hx ▸ Iff.rfl
  rw [hsharable]
  unfold Registry.intern
  split
  · next hs =>
    simp only [hs, true_and]
    split
    · next hshared =>
      have hmem : s ∈ r.strings := List.contains_iff_mem.mp hshared
      exact ⟨.inl, Or.rec id fun hx => hx ▸ hmem⟩
    · rw [(Text.insertByKey_perm _ _ _).mem_iff, List.mem_cons, or_comm]
  · next hs => simp only [hs, Bool.false_eq_true, false_and, or_false]

theorem strings_addNative (r : Registry) (path : String) :
    (r.addNative path).2.strings = r.strings := by
  unfold Registry.addNative
  split <;> exact (r.register_keeps _).2.2

/-- The runtime is the first package of a unit. -/
theorem canonical_initialTree (o : Options) : (initialTree o).registry.Canonical o where
  runtime := rfl
  libroot := rfl
  registered := by
    rw [packageAt, if_pos rfl]
    exact List.mem_singleton.mpr rfl
  packages p hp := by
    obtain rfl := List.mem_singleton.mp hp
    exact (if_pos rfl).symm

/-- Packages in the order of their paths and strings in order, each of them once. -/
structure Ordered (r : Registry) : Prop where
  imports : Text.Ascending (·.name) r.imports
  strings : Text.Ascending id r.strings

namespace Ordered

theorem register (h : r.Ordered) (p : Package) : (r.register p).2.Ordered := by
  obtain ⟨known, -, -, heq⟩ | ⟨hnew, heq⟩ := r.register_cases p
  · rw [heq]
    exact h
  · rw [heq]
    exact ⟨h.imports.insertByKey hnew, h.strings⟩

theorem addNative (h : r.Ordered) (path : String) : (r.addNative path).2.Ordered := by
  unfold Registry.addNative
  split <;> exact h.register _

theorem intern (h : r.Ordered) (s : String) : (r.intern s).2.Ordered := by
  unfold Registry.intern
  split
  · split
    · exact h
    · next hnew =>
      refine ⟨h.imports, h.strings.insertByKey fun x hx hname => ?_⟩
      obtain rfl : x = s := hname
      exact hnew (List.contains_iff_mem.mpr hx)
  · exact h

/-- A path stands for the package that has it. -/
theorem find?_eq_some_iff (h : r.Ordered) {path : String} {p : Package} :
    r.find? path = some p ↔ p ∈ r.imports ∧ p.name = path := by
  constructor
  · intro hfind
    exact ⟨List.mem_of_find?_eq_some hfind, by simpa using List.find?_some hfind⟩
  · rintro ⟨hmem, rfl⟩
    obtain ⟨q, hq⟩ : ∃ q, r.find? p.name = some q :=
      Option.isSome_iff_exists.mp (List.find?_isSome.mpr ⟨p, hmem, beq_self_eq_true _⟩)
    have hname : q.name = p.name := by simpa using List.find?_some hq
    rw [hq, List.inj_on_of_nodup_map (h.imports.imp ne_of_lt) (List.mem_of_find?_eq_some hq) hmem
      hname]

end Ordered

theorem ordered_initialTree (o : Options) : (initialTree o).registry.Ordered where
  imports := List.pairwise_singleton _ _
  strings := .nil

end Registry

theorem ScopeTree.Arises.canonical {o : Options} {t : ScopeTree} (h : t.Arises o) :
    t.registry.Canonical o := by
  induction h with
  | initial => exact Registry.canonical_initialTree o
  | push _ _ _ _ ih | alloc _ _ _ ih => exact ih
  | free _ hu ih =>
    obtain ⟨q, -, rfl⟩ := free_ok hu
    exact ih
  | addImport path _ ih => exact (ih.addNative _).2.1
  | addNative path _ ih => exact (ih.addNative path).2.1
  | intern s _ ih => exact ih.intern s

theorem ScopeTree.Arises.ordered {o : Options} {t : ScopeTree} (h : t.Arises o) :
    t.registry.Ordered := by
  induction h with
  | initial => exact Registry.ordered_initialTree o
  | push _ _ _ _ ih | alloc _ _ _ ih => exact ih
  | free _ hu ih =>
    obtain ⟨q, -, rfl⟩ := free_ok hu
    exact ih
  | addImport path _ ih => exact ih.addNative _
  | addNative path _ ih => exact ih.addNative path
  | intern s _ ih => exact ih.intern s

end Goward
