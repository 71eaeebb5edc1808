import Goward.Proofs.StatementAnswers

/-!
# Names land on the right variable

A module that compiles answers the requests of its statements, from the empty registry on. So every
read of a name, at any depth, goes through the slot that the nearest function with a record of the
name holds it in, or through the names of a class or the module; and where the code mentions a slot,
the Go function of that nearest function is the one that declares it.
-/

namespace Goward

open Goward.Build Goward.Code

theorem ScopeTree.At.initial (o : Options) :
    (initialTree o).At o [.module] ScopeTree.moduleId where
  arises := .initial
  inTree := initialTree_isSome o
  chain := ScopeTree.chain_initialTree o
  classified _ h := nomatch List.mem_singleton.mp h

/-- The code of a module that compiles answers the requests of its statements, and its registry is
in order. -/
theorem compile_answers {o : Options} {source : Option String} {body : List Stmt} {text : String}
    (h : compile o source body = .ok text) :
    ∃ m, lowerModule ⟨o, source.map .ofText⟩ body = .ok m ∧ text = m.text o ∧
      Answers ⟨o, source.map .ofText⟩ [.module] (Stmt.requestsOfBody o.moduleName body) m.body
        (initialTree o).registry m.registry ∧ m.registry.Ordered := by
  obtain ⟨r, hr, rfl⟩ := compile_ok h
  refine ⟨⟨r.tree.registry, (r.tree.resources ScopeTree.moduleId).pool.temps, r.value⟩, ?_, rfl, ?_⟩
  · simp [lowerModule, hr, Bind.bind, Except.bind, Pure.pure, Except.pure]
  · have hend : Asks ⟨o, source.map .ofText⟩ [.module] ScopeTree.moduleId (initialTree o).registry
        (do
          lowerBody ⟨o, source.map .ofText⟩ ScopeTree.moduleId false body
          emit (.ret none)) (Stmt.requestsOfBody o.moduleName body) fun _ _ => True :=
      (lowerBody_asks _ _ _ false body).andThen fun _ _ _ _ =>
        .emit (fun _ => rfl) rfl rfl nofun
    obtain ⟨ht, -, ha⟩ := Gathers.codeOf hend _ r (.initial o) (.refl _) hr
    exact ⟨ha, ht.arises.ordered⟩

/-- Name reads land on the right variable. In a module that compiles the code of every body, at any
depth of functions and classes, looks up the names that the body reads, in the order of the source:
through the slot if the nearest function with a record of the name has it as a local name or a
parameter, or through the class where the body is one, and otherwise among the names of the module.
Wherever the code mentions a slot, the innermost Go function that declares one for the name is that
of the nearest function with a record of it. -/
theorem names_resolve {o : Options} {source : Option String} {body : List Stmt} {text : String}
    (h : compile o source body = .ok text) :
    ∃ m, lowerModule ⟨o, source.map .ofText⟩ body = .ok m ∧ text = m.text o ∧
      Resolves [.module] [[]] (Stmt.requestsOfBody o.moduleName body) m.body := by
  obtain ⟨m, hm, htext, ha, -⟩ := compile_answers h
  exact ⟨m, hm, htext, ha.resolves (ScopeTree.At.initial o).classified⟩

/-- Defines a function with a class inside, whose body and whose method read the parameter. -/
def Stmt.nestedReader : Stmt :=
  .mk .nowhere (.functionDef "f" ⟨[⟨"x", .nowhere⟩], none, none⟩
    [.mk .nowhere (.classDef "C" []
      [.mk .nowhere (.expr (.name "x")),
        .mk .nowhere (.functionDef "g" ⟨[], none, none⟩
          [.mk .nowhere (.ret (some (.name "x")))])])])

theorem names_resolve_nested :
    ∃ text m, compile {} none [.nestedReader] = .ok text ∧
      lowerModule ⟨{}, none⟩ [.nestedReader] = .ok m ∧
      Resolves [.module] [[]] (Stmt.requestsOfBody "__main__" [.nestedReader]) m.body := by
  obtain ⟨text, htext⟩ : ∃ text, compile {} none [.nestedReader] = .ok text :=
    ok_of_toBool (by decide +kernel)
  obtain ⟨m, hm, -, hresolves⟩ := names_resolve htext
  exact ⟨text, m, htext, hm, hresolves⟩

end Goward
