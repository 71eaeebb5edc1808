import Goward.Proofs.Compilation
import Goward.Proofs.LoweringLeases

/-!
# Balance of scratch variables and loops

Every statement gives back the scratch variables that it takes and closes the loops that it opens,
and an expression leaves in use the variable that its value is. So no module fails because a scratch
variable is given back that is not in use.
-/

namespace Goward

open Goward.Build Goward.Code

/-- The scopes of a tree have in use what they had before, and their open loops are the same. The
scopes that are new have neither. -/
structure ScopeTree.Balanced (t u : ScopeTree) : Prop where
  inUse : ∀ i, (t.scope? i).isSome → ∀ v, u.InUse i v ↔ t.InUse i v
  loops : ∀ i, (t.scope? i).isSome → (u.resources i).labels.loops = (t.resources i).labels.loops
  entered : ∀ i, ¬(t.scope? i).isSome → (∀ v, ¬u.InUse i v) ∧ (u.resources i).labels.loops = []

/-- Whatever loops are open, code leaves the same ones open, and each body that it nests, at any
depth, ends with none. -/
structure Code.ClosesLoops (code : List Step) : Prop where
  own : ∀ l, (Step.linearAll code l).2.loops = l.loops
  nested : ∀ (s : Step) b c, s.Occurs code → s.body? = some b → CodeBody.Within c b →
    (Step.linearAll c.code {}).2.loops = []

/-- What an expression takes into use in a scope: its value is a scratch variable that was not in
use and now is, or it is the slot of a name or a literal. Nothing else changes. -/
def ScopeTree.Takes (t : ScopeTree) (id : Nat) (v : Value) (u : ScopeTree) : Prop :=
  match v with
  | .temp w => ¬t.InUse id w ∧ ∀ x, u.InUse id x ↔ t.InUse id x ∨ x = w
  | .slot _ | .str _ | .int _ => ∀ x, u.InUse id x ↔ t.InUse id x
  | .noneObject | .item _ _ | .verbatim _ => False

namespace ScopeTree

variable {t u : ScopeTree} {id : Nat}

/-- Work in one scope is balanced if that scope has the same in use afterwards. -/
theorem Aside.balanced (h : t.Aside id u) (hheld : u.held id = t.held id) : t.Balanced u := by
  refine ⟨fun i hi v => ?_, fun i hi => ?_, fun i hi => ?_⟩
  · by_cases hid : i = id
    · subst hid
      rw [← mem_held, ← mem_held, hheld]
    · rw [InUse, InUse, h.kept i hid hi]
  · by_cases hid : i = id
    · subst hid
      rw [h.labels]
    · rw [h.kept i hid hi]
  · obtain ⟨hnone, hlabels⟩ := h.settled i hi
    refine ⟨fun v hv => ?_, congrArg (·.loops) hlabels⟩
    rw [← mem_held, hnone] at hv
    exact Multiset.notMem_zero v hv

end ScopeTree

namespace Build

variable {t : ScopeTree} {id : Nat}

theorem lowerStmt_balanced {cx : Context} {inLoop : Bool} {s : Stmt} {r : Built Unit}
    (ht : t.Sound id) (hr : (lowerStmt cx id inLoop s).run t = .ok r) :
    t.Balanced r.tree ∧ ClosesLoops r.code := by
  obtain ⟨-, hfinal, haside, horderly⟩ := (lowerStmt_leases cx id inLoop s).of_run ht hr
  have hbalanced := haside.balanced (hfinal.trans (Multiset.zero_add _))
  refine ⟨hbalanced, fun l => ?_, fun o b c ho hb hc => ?_⟩
  · obtain ⟨hwf, -⟩ := Stmt.interpret_renders cx id (fun _ => false) inLoop s t r hr
    exact (Step.linearAll_advances (fun o ho => (hwf o ho).advances) l).loops
  · exact (((horderly.steps o ho).body b hb).within hc).loops

/-- An expression leaves in use the variable that its value is, which was not in use before. -/
theorem lowerExpr_takes {e : Expr} {r : Built Value} (ht : t.Sound id)
    (hr : (lowerExpr id e).run t = .ok r) : t.Takes id r.value r.tree := by
  obtain ⟨hsound, hfinal, -⟩ := (lowerExpr_leases id e).of_run ht hr
  have hresult := lowerExpr_result id e t r hr
  cases hv : r.value with
  | temp w =>
    rw [hv, Value.held_temp, Multiset.singleton_add] at hfinal
    refine ⟨fun hw => ?_, fun x => ?_⟩
    · have hnodup : (r.tree.held id).Nodup := hsound.pool.held_nodup
      rw [hfinal, Multiset.nodup_cons] at hnodup
      exact hnodup.1 (ScopeTree.mem_held.mpr hw)
    · rw [← ScopeTree.mem_held, hfinal, Multiset.mem_cons, ScopeTree.mem_held, or_comm]
  | slot _ | str _ | int _ =>
    intro x
    rw [hv] at hfinal
    rw [← ScopeTree.mem_held, hfinal, ← ScopeTree.mem_held]
    exact Iff.of_eq (congrArg (x ∈ ·) (Multiset.zero_add _))
  | noneObject | item _ _ | verbatim _ =>
    rw [hv] at hresult
    exact hresult

end Build

/-- Scratch variables and loops balance. Wherever generation of code has come to, a statement leaves
in use in every scope what was, with the same loops open, and leaves nothing behind in the scopes
that it enters; an expression takes exactly the scratch variable that its value is. So no module
fails because a scratch variable is given back that is not in use. -/
theorem scratch_balance :
    (∀ t id, ScopeTree.Reached t → (t.scope? id).isSome →
      (∀ cx inLoop s r, (lowerStmt cx id inLoop s).run t = .ok r →
        t.Balanced r.tree ∧ ClosesLoops r.code) ∧
      ∀ e r, (lowerExpr id e).run t = .ok r → t.Takes id r.value r.tree) ∧
    ∀ o source body e v, compile o source body = .error e → e.cause ≠ .tempNotInUse v := by
  constructor
  · intro t id hreached hid
    have ht := hreached.sound id hid
    exact ⟨fun cx inLoop s r hr => lowerStmt_balanced ht hr, fun e r hr => lowerExpr_takes ht hr⟩
  · intro o source body e v he
    have hbody := bodyWithEnd_balances false
      (lowerBody_leases { options := o, source := source.map .ofText } ScopeTree.moduleId false
        body).toBalances
    have ht := (initialTree_reached o).sound ScopeTree.moduleId (initialTree_isSome o)
    exact hbody.of_error (initialTree o) 0 e v ht rfl (compile_error he)

/-- A module with a scratch variable in use. -/
def ScopeTree.withTemp : ScopeTree := ((ofOptions {}).alloc moduleId "bool").2

/-- Defines a class in each round of a loop, and in its body leaves another loop. -/
def Stmt.definingLoop : Stmt :=
  .mk .nowhere (.forEach (.name "x") (.name "y")
    [.mk .nowhere (.classDef "C" [.name "x"]
      [.mk .nowhere (.whileLoop (.name "z") [.mk .nowhere .breakLoop] [])])] [])

theorem scratch_balance_class :
    (∃ r, (lowerStmt { options := {}, source := none } 0 false Stmt.definingLoop).run .withTemp =
      .ok r ∧ ScopeTree.withTemp.Balanced r.tree ∧ ClosesLoops r.code) ∧
    (∃ r, (lowerExpr 0 (.call (.name "f") [.int 1])).run .withTemp = .ok r ∧
      ScopeTree.withTemp.Takes 0 r.value r.tree) ∧
    ∃ e, compile {} none [.mk .nowhere (.ret none)] = .error e ∧
      ∀ v, e.cause ≠ .tempNotInUse v := by
  have hreached : ScopeTree.withTemp.Reached := .alloc _ _ (.ofOptions {})
  obtain ⟨hbalance, hcompile⟩ := scratch_balance
  obtain ⟨hstmt, hexpr⟩ := hbalance .withTemp 0 hreached rfl
  obtain ⟨r, hr⟩ : ∃ r, (lowerStmt { options := {}, source := none } 0 false
      Stmt.definingLoop).run .withTemp = .ok r := ok_of_toBool (by decide +kernel)
  obtain ⟨r', hr'⟩ : ∃ r, (lowerExpr 0 (.call (.name "f") [.int 1])).run .withTemp = .ok r :=
    ok_of_toBool (by decide +kernel)
  exact ⟨⟨r, hr, hstmt _ _ _ r hr⟩, ⟨r', hr', hexpr _ r' hr'⟩, _, rfl,
    fun v => hcompile {} none [.mk .nowhere (.ret none)] _ v rfl⟩

end Goward
