import Goward.Module
import Goward.Proofs.Scratch

/-!
# Compilation

A module compiles if the code of its body can be built from the initial tree, and fails with the
error of that build if not. In the initial tree the module has handed out nothing yet.
-/

namespace Goward

open Goward.Build

theorem initialTree_reached (o : Options) : (initialTree o).Reached :=
  .addNative Package.runtimeName (.ofOptions o)

theorem initialTree_isSome (o : Options) :
    ((initialTree o).scope? ScopeTree.moduleId).isSome := rfl

theorem initialTree_resources (o : Options) :
    (initialTree o).resources ScopeTree.moduleId = {} := rfl

theorem compile_ok {o : Options} {source : Option String} {body : List Stmt} {text : String}
    (h : compile o source body = .ok text) :
    ∃ r, (bodyWithEnd false (lowerBody { options := o, source := source.map .ofText }
        ScopeTree.moduleId false body)).run (initialTree o) = .ok r ∧
      text = LoweredModule.text
        ⟨r.tree.registry, (r.tree.resources ScopeTree.moduleId).pool.temps, r.value⟩ o := by
  unfold compile lowerModule at h
  cases hr : (bodyWithEnd false (lowerBody { options := o, source := source.map .ofText }
    ScopeTree.moduleId false body)).run (initialTree o) with
  | error e => simp [hr, Bind.bind, Except.bind] at h
  | ok r =>
    refine ⟨r, rfl, ?_⟩
    simpa [hr, Bind.bind, Except.bind, pure, Except.pure, eq_comm] using h

theorem compile_error {o : Options} {source : Option String} {body : List Stmt} {e : Error}
    (h : compile o source body = .error e) :
    (bodyWithEnd false (lowerBody { options := o, source := source.map .ofText }
      ScopeTree.moduleId false body)).run (initialTree o) = .error e := by
  unfold compile lowerModule at h
  cases hr : (bodyWithEnd false (lowerBody { options := o, source := source.map .ofText }
    ScopeTree.moduleId false body)).run (initialTree o) with
  | error e' => simpa [hr, Bind.bind, Except.bind] using h
  | ok r => simp [hr, Bind.bind, Except.bind, pure, Except.pure] at h

end Goward
