import Goward.Lowering.Stmt
import Goward.Proofs.Build

/-!
# Properties of lowering

What lowering puts together from single actions and changes of resources has every property that
those have and that passes to builds in a row. Expressions may suspend besides, which is asked for
separately.
-/

namespace Goward

open Goward.Build Goward.Code

namespace Build

namespace PlainProperty

variable {Q : {α : Type} → Build α → Prop}

theorem constructFrom (h : PlainProperty Q) (id : Nat) (k : Construction) (operands : List Value) :
    Q (constructFrom id k operands) :=
  h.bind (h.acquire id _) fun _ => h.bind (h.plain _ rfl) fun _ =>
    h.bind (h.releaseAll id operands) fun _ => h.pure _

theorem callWith (h : PlainProperty Q) (id : Nat) (c : Call) (operands : List Value) :
    Q (callWith id c operands) :=
  h.bind (h.callInto id _ c) fun _ => h.bind (h.releaseAll id operands) fun _ => h.pure _

theorem declaredTemps (h : PlainProperty Q) (id : Nat) : Q (declaredTemps id) :=
  h.bind h.tree fun _ => h.pure _

theorem annotate (h : PlainProperty Q) (cx : Context) (span : Span) : Q (annotate cx span) := by
  unfold Build.annotate
  split
  · exact h.pure ()
  · split
    · exact h.pure ()
    · exact h.plain _ rfl

theorem releaseTest (h : PlainProperty Q) (id : Nat) (tested : Value × Temp) :
    Q (releaseTest id tested) :=
  h.bind (h.releaseValue id _) fun _ => h.release id _

theorem addPackages (h : PlainProperty Q) (parts : List String) :
    ∀ before, Q (addPackages before parts) := by
  induction parts with
  | nil => exact fun _ => h.pure _
  | cons part rest ih =>
    exact fun before => h.bind (h.addImport _) fun _ => h.bind (ih _) fun _ => h.pure _

end PlainProperty

namespace Property

variable {Q : {α : Type} → Build α → Prop}

theorem deleteAll (h : Property Q) (id : Nat) : (es : List Expr) → Q (deleteAll id es)
  | [] => h.pure ()
  | .name x :: rest => h.bind (h.deleteName id x) fun _ => h.deleteAll id rest
  | .str _ :: _ | .int _ :: _ | .tuple _ :: _ | .list _ :: _ | .attr _ _ :: _ | .call _ _ :: _
  | .binop _ _ _ :: _ | .yield _ :: _ => h.fail (by simp [yieldOutside])

theorem loadModule (h : Property Q) (id : Nat) (path : ModulePath) : Q (loadModule id path) :=
  h.bind (h.require _ (by simp [yieldOutside])) fun _ => h.bind (h.addPackages _ _) fun _ =>
    h.callInto id _ _

theorem importModule (h : Property Q) (id : Nat) (a : Alias) : Q (importModule id a) := by
  refine h.bind (h.loadModule id a.path) fun modules => ?_
  split
  · exact h.bind (h.storeName id _ _) fun _ => h.release id _
  · exact h.bind (h.storeName id _ _) fun _ => h.release id _
  · exact h.bind (h.fail (by simp [yieldOutside])) fun _ => h.release id _

theorem importMember (h : Property Q) (id : Nat) (x : String) (c : Call) :
    Q (importMember id x c) :=
  h.bind (h.callInto id _ c) fun _ => h.bind (h.storeName id x _) fun _ => h.release id _

theorem importMembers (h : Property Q) (id : Nat) (module : Value) (names : List Alias) :
    Q (importMembers id module names) := by
  induction names with
  | nil => exact h.pure ()
  | cons a rest ih =>
    unfold Build.importMembers
    split
    · exact ih
    · exact h.bind (h.intern _) fun _ => h.bind (h.importMember id _ _) fun _ => ih

theorem importNativeMembers (h : Property Q) (id : Nat) (reflect package : Package)
    (names : List Alias) : Q (importNativeMembers id reflect package names) := by
  induction names with
  | nil => exact h.pure ()
  | cons a rest ih =>
    unfold Build.importNativeMembers
    split
    · exact ih
    · exact h.bind (h.importMember id _ _) fun _ => ih

theorem importFrom (h : Property Q) (id : Nat) (path : ModulePath) (names : List Alias)
    (level : Nat) : Q (importFrom id path names level) := by
  refine h.bind (h.require _ (by simp [yieldOutside])) fun _ => ?_
  split
  · exact h.bind (h.require _ (by simp [yieldOutside, nativeRoot])) fun _ =>
      h.bind (h.addNative _) fun _ => h.bind (h.addNative _) fun _ =>
        h.importNativeMembers id _ _ _
  · exact h.bind (h.loadModule id path) fun _ => h.bind (h.importMembers id _ _) fun _ =>
      h.release id _

theorem importModules (h : Property Q) (id : Nat) (names : List Alias) :
    Q (importModules id names) := by
  induction names with
  | nil => exact h.pure ()
  | cons a rest ih => exact h.bind (h.importModule id a) fun _ => ih

end Property

/-- A property of builds that all parts of the evaluation of expressions have: changes of resources,
actions that are not on slots, and suspensions. -/
structure EvaluationProperty (Q : {α : Type} → Build α → Prop) : Prop extends PlainProperty Q where
  requireGenerator : ∀ id, Q (requireGenerator id)
  emitSuspend : ∀ v, Q (emit (.suspend v))

namespace EvaluationProperty

variable {Q : {α : Type} → Build α → Prop}

theorem suspend (h : EvaluationProperty Q) (id : Nat) (v : Value) : Q (suspend id v) :=
  h.bind (h.emitSuspend v) fun _ => h.bind (h.releaseValue id v) fun _ => h.constructFrom id _ _

mutual

theorem lowerExpr (h : EvaluationProperty Q) (id : Nat) : (e : Expr) → Q (lowerExpr id e)
  | .name x => h.readName id x
  | .str s => h.bind (h.intern s) fun _ => h.pure _
  | .int _ => h.pure _
  | .tuple elts => h.bind (h.lowerExprs id elts) fun _ => h.constructFrom id _ _
  | .list elts => h.bind (h.lowerExprs id elts) fun _ => h.constructFrom id _ _
  | .attr obj _ =>
    h.bind (h.lowerExpr id obj) fun _ => h.bind (h.intern _) fun _ => h.callWith id _ _
  | .call fn args =>
    h.bind (h.lowerExpr id fn) fun _ => h.bind (h.lowerExprs id args) fun _ => h.callWith id _ _
  | .binop left _ right =>
    h.bind (h.lowerExpr id left) fun _ => h.bind (h.lowerExpr id right) fun _ => h.callWith id _ _
  | .yield none => h.bind (h.requireGenerator id) fun _ => h.suspend id _
  | .yield (some value) =>
    h.bind (h.requireGenerator id) fun _ => h.bind (h.lowerExpr id value) fun _ => h.suspend id _

theorem lowerExprs (h : EvaluationProperty Q) (id : Nat) :
    (es : List Expr) → Q (lowerExprs id es)
  | [] => h.pure _
  | e :: rest => h.bind (h.lowerExpr id e) fun _ => h.bind (h.lowerExprs id rest) fun _ => h.pure _

end

theorem lowerTest (h : EvaluationProperty Q) (id : Nat) (test : Expr) : Q (lowerTest id test) :=
  h.bind (h.lowerExpr id test) fun _ => h.bind (h.callInto id _ _) fun _ => h.pure _

end EvaluationProperty

/-- A property of builds that suspending has as well. -/
structure SuspendProperty (Q : {α : Type} → Build α → Prop) : Prop extends
  ActionProperty Q, EvaluationProperty Q

/-- A property of builds that both failing and suspending have. -/
structure ExprProperty (Q : {α : Type} → Build α → Prop) : Prop extends
  Property Q, SuspendProperty Q

namespace ExprProperty

variable {Q : {α : Type} → Build α → Prop}

theorem unpack (h : ExprProperty Q) (id : Nat) (v : Value) (n : Nat) {store : Temp → Build Unit}
    (hs : ∀ items, Q (store items)) : Q (unpack id v n store) :=
  h.bind (h.acquire id _) fun items => h.bind (h.act _) fun _ => h.bind (h.act _) fun _ =>
    h.bind (hs items) fun _ => h.release id items

mutual

theorem storeInto (h : ExprProperty Q) (id : Nat) (v : Value) : (e : Expr) → Q (storeInto id v e)
  | .name x => h.storeName id x v
  | .attr obj _ =>
    h.bind (h.lowerExpr id obj) fun _ => h.bind (h.intern _) fun _ => h.bind (h.act _) fun _ =>
      h.releaseValue id _
  | .tuple elts => h.unpack id v _ fun items => h.storeItems id items 0 elts
  | .list elts => h.unpack id v _ fun items => h.storeItems id items 0 elts
  | .str _ | .int _ | .call _ _ | .binop _ _ _ | .yield _ => h.fail (by simp [yieldOutside])

theorem storeItems (h : ExprProperty Q) (id : Nat) (items : Temp) :
    (index : Nat) → (es : List Expr) → Q (storeItems id items index es)
  | _, [] => h.pure _
  | index, e :: rest =>
    h.bind (h.storeInto id _ e) fun _ => h.storeItems id items (index + 1) rest

end

theorem storeIntoAll (h : ExprProperty Q) (id : Nat) (v : Value) (es : List Expr) :
    Q (storeIntoAll id v es) := by
  induction es with
  | nil => exact h.pure _
  | cons e rest ih => exact h.bind (h.storeInto id v e) fun _ => ih

theorem updateName (h : ExprProperty Q) (id : Nat) (x : String) (op : BinOp) (value : Expr) :
    Q (updateName id x op value) :=
  h.bind (h.readName id x) fun _ => h.bind (h.lowerExpr id value) fun _ =>
    h.bind (h.callInto id _ _) fun _ => h.bind (h.releaseAll id _) fun _ =>
      h.bind (h.storeName id x _) fun _ => h.release id _

end ExprProperty

end Build

end Goward
