import Goward.Proofs.PackageRows

/-!
# Declarations

The file of a module declares what its code refers to. In front of the code stand the packages that
were handed out while it was generated and the shared strings, in ascending order and each of them
once; no row of the code is another declaration of a string. What is imported is mentioned in the
code, unless a Go package is imported without any of its members.
-/

namespace Goward

open Goward.Code Goward.Layout Goward.Text

theorem Registry.lt_of_isWord {c : Char} (h : (c.isAlphanum || c == '_') = true) :
    c.toNat < 128 := by
  rw [Bool.or_eq_true, beq_iff_eq] at h
  rcases h with h | rfl
  · change (decide ('A'.val ≤ c.val ∧ c.val ≤ 'Z'.val) || ('a'.val ≤ c.val && c.val ≤ 'z'.val) ||
      ('0'.val ≤ c.val && c.val ≤ '9'.val)) = true at h
    simp only [Bool.or_eq_true, Bool.and_eq_true, decide_eq_true_eq, UInt32.le_iff_toNat_le] at h
    have hZ : 'Z'.val.toNat = 90 := rfl
    have hz : 'z'.val.toNat = 122 := rfl
    have h9 : '9'.val.toNat = 57 := rfl
    have hc : c.toNat = c.val.toNat := rfl
    omega
  · decide

/-- The line that imports a package: its alias and its path. -/
def Package.importLine (p : Package) : String := "\t" ++ p.goName ++ " \"" ++ p.name ++ "\""

namespace Layout

/-- Operations that write the given lines at the level where they start. -/
def Writes (ops : List Op) (ls : List String) : Prop :=
  ∀ n, Op.rowsAll ops n = (ls.map fun l => List.replicate n '\t' ++ l.toList, n)

namespace Writes

theorem nil : Writes [] [] := fun _ => rfl

theorem append {a b : List Op} {ls ms : List String} (ha : Writes a ls) (hb : Writes b ms) :
    Writes (a ++ b) (ls ++ ms) := by
  intro n
  rw [Op.rowsAll_append, ha n, hb n, List.map_append]

theorem line {s : String} {c : Char} (h : OneLine s) (hs : Begins c s)
    (hblank : isBlank c = false := by decide) : Writes [.raw s] [s] := by
  intro n
  have hc : c ∈ s.toList := List.mem_of_mem_head? hs
  rw [Op.rowsAll, Op.rowsAll, Op.raw, Op.rows, List.append_nil]
  exact Prod.ext (laid_line h hc hblank n) rfl

theorem map {α : Type} {f : α → Op} {g : α → String} {xs : List α}
    (h : ∀ x ∈ xs, Writes [f x] [g x]) : Writes (xs.map f) (xs.map g) := by
  induction xs with
  | nil => exact nil
  | cons x rest ih =>
    exact (h x List.mem_cons_self).append (ih fun y hy => h y (List.mem_cons_of_mem _ hy))

/-- Lines one level further to the right. -/
theorem within {ops : List Op} {ls : List String} (h : Writes ops ls) :
    Writes [.within 1 ops] (ls.map ("\t" ++ ·)) := by
  intro n
  rw [Op.rowsAll, Op.rowsAll, Op.rows, List.append_nil]
  have hlevel : ((n : Int) + 1).toNat = n + 1 := by omega
  rw [hlevel, h, List.map_map]
  refine Prod.ext (List.map_congr_left fun l _ => ?_) rfl
  simp [String.toList_append, List.replicate_succ']

end Writes

end Layout

theorem Text.subset_of_mem_splitOn {c : Char} {s l : List Char} (h : l ∈ s.splitOn c) : l ⊆ s := by
  induction s generalizing l with
  | nil =>
    rw [List.splitOn_nil, List.mem_singleton] at h
    exact h ▸ List.Subset.refl _
  | cons d s ih =>
    rw [List.splitOn_cons_eq_if_modifyHead] at h
    split at h
    · rcases List.mem_cons.mp h with rfl | h
      · exact List.nil_subset _
      · exact List.subset_cons_of_subset _ (ih h)
    · obtain ⟨piece, pieces, hpieces⟩ := List.exists_cons_of_ne_nil (List.splitOn_ne_nil c s)
      rw [hpieces] at h ih
      rcases List.mem_cons.mp h with rfl | h
      · exact List.cons_subset_cons d (ih List.mem_cons_self)
      · exact List.subset_cons_of_subset _ (ih (List.mem_cons_of_mem _ h))

theorem Options.OneLine.packageName {o : Options} (h : o.OneLine) : Text.OneLine o.packageName := by
  rw [Text.OneLine, Options.packageName, String.toList_ofList, List.getLastD_eq_getLast?]
  intro hn
  cases hlast : (o.fullPackageName.toList.splitOn '/').getLast? with
  | none => simp [hlast] at hn
  | some last =>
    rw [hlast] at hn
    exact h.fullPackageName (subset_of_mem_splitOn (List.mem_of_getLast? hlast) hn)

theorem Package.From.begins {o : Options} {ids : List String} {p : Package} (h : p.From o ids) :
    Begins 'π' p.goName := by
  have hpackage (path : String) : Begins 'π' (Registry.packageAt o path).goName := by
    unfold Registry.packageAt
    split
    · exact .literal
    · exact .append .literal _
  obtain ⟨path, rfl, -⟩ := h
  exact hpackage _

namespace LoweredModule

variable {m : LoweredModule} {o : Options} {ids : List String}

/-- The operations that write the code. -/
def initializer (m : LoweredModule) (o : Options) : List Op :=
  [.raw "var Code *πg.Code", .raw "func init() \x7b", .within 1 (m.initOps o), .raw "\x7d"]

/-- The rows of the code. -/
def codeRows (m : LoweredModule) (o : Options) : List (List Char) :=
  (Op.rowsAll (m.initializer o) 0).1

/-- The import declaration of a module: its packages in the order of their paths. -/
theorem writes_imports (hruntime : OneLine o.runtime) (hlibroot : OneLine o.libroot)
    (hids : ∀ x ∈ ids, OneLine x) (himports : ∀ p ∈ m.registry.imports, p.From o ids)
    (hne : m.registry.imports ≠ []) (hordered : m.registry.Ordered) :
    Writes (Op.imports m.registry.imports)
      (["import ("] ++ m.registry.imports.map Package.importLine ++ [")"]) := by
  have hentries : Writes (m.registry.imports.map fun p =>
      .raw (p.goName ++ " \"" ++ p.name ++ "\""))
      (m.registry.imports.map fun p => p.goName ++ " \"" ++ p.name ++ "\"") := by
    refine .map fun p hp => .line ?_ ((((himports p hp).begins.append _).append _).append _)
    obtain ⟨hname, hgoName⟩ := (himports p hp).oneLine hruntime hlibroot hids
    simp only [oneLine_append]
    exact ⟨⟨⟨hgoName, .literal rfl⟩, hname⟩, .literal rfl⟩
  have hlines : (m.registry.imports.map fun p => p.goName ++ " \"" ++ p.name ++ "\"").map
      ("\t" ++ ·) = m.registry.imports.map Package.importLine := by
    rw [List.map_map]
    refine List.map_congr_left fun p _ => ?_
    simp [Package.importLine, String.append_assoc]
  rw [Op.imports, if_neg (by simpa using hne), hordered.imports.sortByKey_eq, ← hlines]
  exact .append (.append (.line (c := 'i') (.literal rfl) .literal) hentries.within)
    (.line (c := ')') (.literal rfl) .literal)

end LoweredModule

/-! ### Modules -/

/-- Every import from a Go package has a clause with a name. -/
def Stmt.NamesNativeMembers (body : List Stmt) : Prop :=
  ∀ path names level, .importsFrom path names level ∈ Stmt.partsOfBody body →
    path.isNative = true → ∃ a ∈ names, a.path.parts ≠ []

/-- An import from a Go package asks for the package and for reflection. -/
theorem native_mem_importFromRequests {path : ModulePath} {names : List Alias} {native : String}
    {used : Bool} (h : .native native used ∈ importFromRequests path names) :
    path.isNative = true ∧ used = !(names.filterMap (·.member?)).isEmpty := by
  unfold importFromRequests at h
  split at h
  · next hnative =>
    refine ⟨hnative, ?_⟩
    rcases List.mem_append.mp h with h | h
    · rcases List.mem_cons.mp h with h | h
      · exact (Request.native.inj h).2
      · exact (Request.native.inj (List.mem_singleton.mp h)).2
    · obtain ⟨m, -, h⟩ := List.mem_flatMap.mp h
      simp at h
  · rcases List.mem_append.mp h with h | h
    · obtain ⟨_, -, h⟩ := List.mem_map.mp h
      cases h
    · obtain ⟨m, -, h⟩ := List.mem_flatMap.mp h
      simp at h

/-- Only used packages are asked for if every import from a Go package names a member. -/
theorem Stmt.NamesNativeMembers.used {o : Options} {module : String} {body : List Stmt}
    (h : Stmt.NamesNativeMembers body) {p : Package} {used : Bool}
    (hp : (p, used) ∈ Request.packagesOfAll o (Stmt.requestsOfBody module body)) : used = true := by
  have hall : Request.All (fun q => ∀ native used, q = .native native used → used = true)
      (Stmt.requestsOfBody module body) := by
    refine Stmt.requestsOfBody_all (fun q hq native used heq => ?_) module body fun k hk => ?_
    · subst heq
      exact hq.elim
    · unfold StmtKind.Admits
      split
      · rintro a - q hq native used rfl
        obtain ⟨_, -, hq⟩ := List.mem_map.mp hq
        cases hq
      · next path names level =>
        rintro q hq native used rfl
        obtain ⟨hnative, rfl⟩ := native_mem_importFromRequests hq
        obtain ⟨a, ha, hparts⟩ := h path names level hk hnative
        obtain ⟨name, hlast⟩ : ∃ name, a.path.last? = some name :=
          ⟨_, List.getLast?_eq_some_getLast hparts⟩
        have hmember : (name, a.asName.getD name) ∈ names.filterMap (·.member?) :=
          List.mem_filterMap.mpr ⟨a, ha, Option.map_eq_some_iff.mpr ⟨name, hlast, rfl⟩⟩
        rw [Bool.not_eq_true', List.isEmpty_eq_false_iff]
        exact List.ne_nil_of_mem hmember
      · exact nofun
      · exact nofun
      · trivial
  obtain ⟨q, hq, hpackage⟩ := List.mem_filterMap.mp hp
  cases q with
  | library _ =>
    cases hpackage
    rfl
  | native path _ =>
    cases hpackage
    exact hall _ hq path used rfl
  | read _ | store _ | delete _ | text _ | member _ | enter _ _ => cases hpackage

end Goward
