import Goward.Proofs.Properties

/-!
# What lowering does to the scope tree

Lowering changes the tree by handing out and taking back scratch variables, by registering strings
and packages and by entering scopes, and in no other way. So a relation that these changes respect
holds between the trees before and after any piece of lowering.
-/

namespace Goward

open Goward.Build Goward.Code

variable {R : ScopeTree → ScopeTree → Prop}

theorem Build.TreeRelation.keeps (hR : TreeRelation R) : ExprProperty (Keeps R) where
  pure := .pure hR
  bind := .bind hR
  fail _ := .fail _
  tree := .tree hR
  act := .act hR
  alloc id type := .onTree fun t => hR.alloc t id type
  free id v := by
    intro t r h
    obtain ⟨u, hfree, rfl⟩ := run_free_ok.mp h
    exact hR.free hfree
  intern s := .onTree fun t => hR.intern t s
  addImport path := .onTree fun t => hR.addImport t path
  addNative path := .onTree fun t => hR.addNative t path
  requireGenerator id := .bind hR (.tree hR) fun _ => .require hR _ _
  emitSuspend v := .emit hR _

theorem lowerReturn_keeps (hR : TreeRelation R) (id : Nat) (value : Option Expr) :
    Keeps R (lowerReturn id value) := by
  refine .bind hR (.tree hR) fun t => ?_
  split
  · exact .fail _
  · split
    · exact .emit hR _
    · exact .fail _
    · exact .emit hR _
    · exact .bind hR (hR.keeps.lowerExpr id _) fun _ => .bind hR (.emit hR _) fun _ =>
        hR.keeps.releaseValue id _

theorem bodyWithEnd_keeps (hR : TreeRelation R) (returnsNone : Bool) {body : Build Unit}
    (hb : Keeps R body) : Keeps R (bodyWithEnd returnsNone body) :=
  .codeOf (.bind hR hb fun _ => .emit hR _)

theorem defineFunction_keeps (hR : TreeRelation R) (id : Nat) (name : String)
    (params : Parameters) (f : FunctionVars) {body : Nat → Build Unit}
    (hb : ∀ inner, Keeps R (body inner)) : Keeps R (defineFunction id name params f body) :=
  .bind hR (.onTree fun t => hR.push t id name _) fun inner =>
    .bind hR (bodyWithEnd_keeps hR _ (hb inner)) fun _ =>
      .bind hR (hR.keeps.declaredTemps inner) fun _ => .bind hR (hR.keeps.acquire id _) fun _ =>
        .bind hR (.emit hR _) fun _ => .bind hR (hR.keeps.storeName id name _) fun _ =>
          hR.keeps.release id _

theorem defineClass_keeps (hR : TreeRelation R) (cx : Context) (id : Nat) (name : String)
    (bases : List Expr) (vars : VarMap) {body : Nat → Build Unit}
    (hb : ∀ inner, Keeps R (body inner)) : Keeps R (defineClass cx id name bases vars body) :=
  .bind hR (hR.keeps.lowerExprs id bases) fun vs => .bind hR (hR.keeps.acquire id _) fun _ =>
    .bind hR (.act hR _) fun _ => .bind hR (hR.keeps.releaseAll id vs) fun _ =>
      .bind hR (hR.keeps.acquire id _) fun _ => .bind hR (.act hR _) fun _ =>
        .bind hR (hR.keeps.intern _) fun _ => .bind hR (.act hR _) fun _ =>
          .bind hR (.onTree fun t => hR.push t id name _) fun inner =>
            .bind hR (bodyWithEnd_keeps hR _ (hb inner)) fun _ =>
              .bind hR (hR.keeps.declaredTemps inner) fun _ =>
                .bind hR (hR.keeps.acquire id _) fun _ => .bind hR (.emit hR _) fun _ =>
                  .bind hR (.act hR _) fun _ => .bind hR (hR.keeps.intern _) fun _ =>
                    .bind hR (hR.keeps.callInto id _ _) fun _ =>
                      .bind hR (hR.keeps.storeName id name _) fun _ => hR.keeps.releaseAll id _

mutual

theorem lowerStmt_keeps (hR : TreeRelation R) (cx : Context) (id : Nat) (inLoop : Bool) :
    (s : Stmt) → Keeps R (lowerStmt cx id inLoop s)
  | .mk span kind =>
    .bind hR (hR.keeps.annotate cx span) fun _ => .locate (lowerKind_keeps hR cx id inLoop kind)

theorem lowerKind_keeps (hR : TreeRelation R) (cx : Context) (id : Nat) (inLoop : Bool) :
    (kind : StmtKind) → Keeps R (lowerKind cx id inLoop kind)
  | .assign targets value =>
    .bind hR (hR.keeps.lowerExpr id value) fun _ =>
      .bind hR (hR.keeps.storeIntoAll id _ targets) fun _ => hR.keeps.releaseValue id _
  | .augAssign (.name x) op value => hR.keeps.updateName id x op value
  | .augAssign (.str _) _ _ | .augAssign (.int _) _ _ | .augAssign (.tuple _) _ _
  | .augAssign (.list _) _ _ | .augAssign (.attr _ _) _ _ | .augAssign (.call _ _) _ _
  | .augAssign (.binop _ _ _) _ _ | .augAssign (.yield _) _ _ => .fail _
  | .delete targets => hR.keeps.deleteAll id targets
  | .global _ => .pure hR _
  | .imports names => hR.keeps.importModules id names
  | .importsFrom path names level => hR.keeps.importFrom id path names level
  | .functionDef name params body =>
    .bind hR (.lift hR _) fun f => defineFunction_keeps hR id name params f fun inner =>
      lowerBody_keeps hR cx inner false body
  | .classDef name bases body =>
    .bind hR (.lift hR _) fun vars => defineClass_keeps hR cx id name bases vars fun inner =>
      lowerBody_keeps hR cx inner false body
  | .forEach target iter body orelse =>
    .bind hR (hR.keeps.lowerExpr id iter) fun _ => .bind hR (hR.keeps.callInto id _ _) fun _ =>
      .bind hR (hR.keeps.releaseValue id _) fun _ => .bind hR (hR.keeps.acquire id _) fun _ =>
        .bind hR (.codeOf (.bind hR (hR.keeps.storeInto id _ target) fun _ =>
          hR.keeps.release id _)) fun _ =>
          .bind hR (.codeOf (lowerBody_keeps hR cx id true body)) fun _ =>
            .bind hR (lowerElse_keeps hR cx id inLoop orelse) fun _ =>
              .bind hR (.emit hR _) fun _ => hR.keeps.release id _
  | .whileLoop test body orelse =>
    .bind hR (.collect (hR.keeps.lowerTest id test)) fun _ =>
      .bind hR (.codeOf (.bind hR (hR.keeps.releaseTest id _) fun _ =>
        lowerBody_keeps hR cx id true body)) fun _ =>
          .bind hR (lowerElse_keeps hR cx id inLoop orelse) fun _ => .emit hR _
  | .branch test body orelse =>
    .bind hR (.collect (hR.keeps.lowerTest id test)) fun _ =>
      .bind hR (.codeOf (.bind hR (hR.keeps.releaseTest id _) fun _ =>
        lowerBody_keeps hR cx id inLoop body)) fun _ =>
          .bind hR (lowerElse_keeps hR cx id inLoop orelse) fun _ => .emit hR _
  | .withItems _ _ => .fail _
  | .tryExcept _ _ _ _ => .fail _
  | .ret value => lowerReturn_keeps hR id value
  | .expr value => .bind hR (hR.keeps.lowerExpr id value) fun _ => hR.keeps.releaseValue id _
  | .breakLoop => by
    unfold lowerKind
    split
    · exact .emit hR _
    · exact .fail _
  | .continueLoop => by
    unfold lowerKind
    split
    · exact .emit hR _
    · exact .fail _
  | .pass => .pure hR _

theorem lowerElse_keeps (hR : TreeRelation R) (cx : Context) (id : Nat) (inLoop : Bool) :
    (body : List Stmt) → Keeps R (lowerElse cx id inLoop body)
  | [] => .pure hR _
  | s :: rest =>
    .bind hR (.codeOf (.bind hR (lowerStmt_keeps hR cx id inLoop s) fun _ =>
      lowerBody_keeps hR cx id inLoop rest)) fun _ => .pure hR _

theorem lowerBody_keeps (hR : TreeRelation R) (cx : Context) (id : Nat) (inLoop : Bool) :
    (body : List Stmt) → Keeps R (lowerBody cx id inLoop body)
  | [] => .pure hR _
  | s :: rest =>
    .bind hR (lowerStmt_keeps hR cx id inLoop s) fun _ => lowerBody_keeps hR cx id inLoop rest

end

end Goward
