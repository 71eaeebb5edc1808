import Goward.Proofs.Compilation
import Goward.Proofs.LoweringLeases
import Goward.Proofs.Writing

/-!
# Use of scratch variables

What the code of a body mentions is in use where it is mentioned, and is declared once. A pool that
is empty at first follows the code and hands out exactly the variables that the code says it takes;
so this is about the order in which the code is put down, across loops and suspensions.
-/

namespace Goward

open Goward.Build Goward.Code Goward.Layout

namespace Pool

variable {p q : Pool} {code : List Instr} {v : Temp}

theorem temps_serve {i : Instr} (h : p.serve i = some q) : p.temps ⊆ q.temps := by
  unfold serve at h
  split at h
  · split at h
    · cases h
      exact fun w hw => mem_temps_alloc.mpr (.inl hw)
    · cases h
  · rename_i v
    unfold free at h
    split at h
    · cases h
      rw [temps_mark]
      exact List.Subset.refl _
    · cases h
  · split at h
    · cases h
      exact List.Subset.refl _
    · cases h

/-- A pool that serves code keeps the variables that it has made. -/
theorem temps_serveAll (h : p.serveAll code = some q) : p.temps ⊆ q.temps := by
  induction code generalizing p with
  | nil =>
    rw [serveAll_nil] at h
    cases h
    exact List.Subset.refl _
  | cons i rest ih =>
    rw [serveAll_cons] at h
    obtain ⟨r, hserve, hrest⟩ := Option.bind_eq_some_iff.mp h
    exact List.Subset.trans (temps_serve hserve) (ih hrest)

/-- What served code mentions has been made by then. -/
theorem mem_temps_of_serveAll {i : Instr} (h : p.serveAll code = some q) (hi : i ∈ code)
    (hv : v ∈ i.temps) : v ∈ q.temps := by
  obtain ⟨before, after, rfl⟩ := List.append_of_mem hi
  obtain ⟨r, s, -, hserve, hafter⟩ := serveAll_split h
  exact temps_serveAll hafter (temps_serve hserve (mem_temps_of_isInUse (inUse_of_serve hserve hv)))

end Pool

/-- How a body uses its scratch variables. -/
structure CodeBody.UsesScratch (b : CodeBody) : Prop where
  /-- A pool that is empty at first follows the code to its end. It has then made the variables that
  the body declares, and none is in use. -/
  served : ∃ p, Pool.serveAll {} (Step.linearAll b.code {}).1 = some p ∧ p.temps = b.temps ∧
    ∀ v, p.isInUse v = false
  /-- Where a variable begins to be in use, the pool hands it out for its type. -/
  handedOut : ∀ before v after,
    (Step.linearAll b.code {}).1 = before ++ .action (.acquire v) :: after →
    ∃ p, Pool.serveAll {} before = some p ∧ (p.alloc v.type).1 = v
  /-- What an instruction mentions is in use when it is put down. -/
  inUse : ∀ before i after, (Step.linearAll b.code {}).1 = before ++ i :: after →
    ∃ p, Pool.serveAll {} before = some p ∧ ∀ v ∈ i.temps, p.isInUse v = true
  /-- What an instruction mentions is declared once, with its type. -/
  declared : ∀ i ∈ (Step.linearAll b.code {}).1, ∀ v ∈ i.temps,
    DeclaresOnce (declarations b.temps) v
  /-- Nothing inside of a `for` loop is handed its iterator. -/
  iterator : ∀ iterator item bind body orelse,
    Step.Occurs (.forLoop iterator item bind body orelse) b.code →
    Spares iterator (bind ++ body ++ orelse.getD [])

theorem CodeBody.Lowered.usesScratch {b : CodeBody} (h : b.Lowered) : b.UsesScratch := by
  obtain ⟨p, hvalid, htemps, hheld, horderly⟩ := h.orderly
  have hserves := horderly.serves {}
  refine ⟨⟨p, hserves, htemps, fun v => ?_⟩, fun before v after hsplit => ?_,
    fun before i after hsplit => ?_, fun i hi v hv => ?_,
    fun iterator item bind body orelse hoccurs => ?_⟩
  · have hnot : v ∉ p.held := by
      rw [hheld]
      exact Multiset.notMem_zero v
    rw [Pool.mem_held] at hnot
    exact Bool.eq_false_of_not_eq_true hnot
  · rw [hsplit] at hserves
    obtain ⟨r, s, hbefore, hserve, -⟩ := Pool.serveAll_split hserves
    exact ⟨r, hbefore, Pool.alloc_of_serve hserve⟩
  · rw [hsplit] at hserves
    obtain ⟨r, s, hbefore, hserve, -⟩ := Pool.serveAll_split hserves
    exact ⟨r, hbefore, fun v hv => Pool.inUse_of_serve hserve hv⟩
  · rw [← htemps]
    exact declares_once hvalid (Pool.mem_temps_of_serveAll hserves hi hv)
  · exact (horderly.steps _ hoccurs).iterator _ _ _ _ _ rfl

/-- A step that nests the body of a generator. -/
def Code.Step.nestsGenerator : Step → Bool
  | .function _ header _ _ => header.isGenerator
  | _ => false

/-- The text of a nested body declares its scratch variables before the loop that dispatches, and
outside of the function that resumes a generator. -/
theorem nested_text (filename : String) (n : Nat) {s : Step} {b : CodeBody} (h : s.body? = some b)
    (l : Labels) :
    ∃ opening closing, render n (codeOps filename (s.linear l).1) =
      opening ++ bodyText (n + 1) b.temps s.nestsGenerator (Step.linearAll b.code {}).2.checkpoints
        (codeOps filename (Step.linearAll b.code {}).1) ++ closing := by
  cases s with
  | function dst header temps body =>
    cases h
    rw [Step.linear, codeOps, codeOps, List.append_nil, function_text, ← String.append_assoc]
    exact ⟨_, _, rfl⟩
  | classBody dst name names temps body =>
    cases h
    rw [Step.linear, codeOps, codeOps, List.append_nil, classBody_text, ← String.append_assoc]
    exact ⟨_, _, rfl⟩
  | action _ | suspend _ | ret _ | breakLoop | continueLoop | branch _ _ _ _ | whileLoop _ _ _ _
  | forLoop _ _ _ _ _ => cases h

/-- No scratch variable is used when it is not in use, and all are declared. The pool of the scope
follows the code of every statement, instruction by instruction; in every body, and in all the
bodies nested in it, what the code mentions is in use and is declared once, and the iterator of a
loop is handed to nothing inside of it. In the Go text a body declares its variables before it
dispatches and, for a generator, outside of the function that resumes it. -/
theorem scratch_use :
    (∀ cx id inLoop s t r, ScopeTree.Reached t → (t.scope? id).isSome →
      (lowerStmt cx id inLoop s).run t = .ok r →
      Serves (t.resources id).pool r.code (r.tree.resources id).pool) ∧
    (∀ cx id returnsNone body t r, ScopeTree.Reached t → (t.scope? id).isSome →
      t.resources id = {} → (bodyWithEnd returnsNone (lowerBody cx id false body)).run t = .ok r →
      ∀ b, CodeBody.Within b (.ofBuilt id r) → b.UsesScratch) ∧
    (∀ filename n l (s : Step) b, s.body? = some b → ∃ opening closing,
      render n (codeOps filename (s.linear l).1) =
        opening ++ bodyText (n + 1) b.temps s.nestsGenerator
          (Step.linearAll b.code {}).2.checkpoints
          (codeOps filename (Step.linearAll b.code {}).1) ++ closing) ∧
    ∀ o source body text, compile o source body = .ok text → ∃ r,
      (bodyWithEnd false (lowerBody { options := o, source := source.map .ofText }
        ScopeTree.moduleId false body)).run (initialTree o) = .ok r ∧
      (∀ b, CodeBody.Within b (.ofBuilt ScopeTree.moduleId r) → b.UsesScratch) ∧
      ∃ opening closing, text =
        opening ++ bodyText 2 (r.tree.resources ScopeTree.moduleId).pool.temps false
          (Step.linearAll r.value {}).2.checkpoints
          (codeOps o.filename (Step.linearAll r.value {}).1) ++ closing := by
  have hbody : ∀ cx id returnsNone body t r, ScopeTree.Reached t → (t.scope? id).isSome →
      t.resources id = {} → (bodyWithEnd returnsNone (lowerBody cx id false body)).run t = .ok r →
      ∀ b, CodeBody.Within b (.ofBuilt id r) → b.UsesScratch := by
    intro cx id returnsNone body t r ht hid hempty hr b hb
    have hlowered : (CodeBody.ofBuilt id r).Lowered :=
      ⟨cx, id, returnsNone, body, t, r, ht.sound id hid, hempty, hr, rfl⟩
    exact (hlowered.within hb).usesScratch
  refine ⟨?_, hbody, fun filename n l s b hb => nested_text filename n hb l, ?_⟩
  · intro cx id inLoop s t r ht hid hr
    obtain ⟨-, -, -, horderly⟩ := (lowerStmt_leases cx id inLoop s).of_run (ht.sound id hid) hr
    exact horderly.serves
  · intro o source body text hok
    obtain ⟨r, hr, rfl⟩ := compile_ok hok
    have huse := hbody _ _ _ _ _ r (initialTree_reached o) (initialTree_isSome o)
      (initialTree_resources o) hr
    exact ⟨r, hr, huse, _, _, LoweredModule.text_eq ⟨r.tree.registry, _, r.value⟩ o⟩

/-- Defines a generator with a loop that yields. -/
def Stmt.yieldingDefinition : Stmt :=
  .mk .nowhere (.functionDef "g" ⟨[⟨"a", .nowhere⟩], none, none⟩
    [.mk .nowhere (.forEach (.name "x") (.name "a")
      [.mk .nowhere (.expr (.yield (some (.name "x"))))] [])])

theorem scratch_use_generator :
    (∃ r, (lowerStmt { options := {}, source := none } 0 false Stmt.yieldingDefinition).run
        (initialTree {}) = .ok r ∧ Serves {} r.code (r.tree.resources 0).pool) ∧
    (∃ r, (bodyWithEnd false (lowerBody { options := {}, source := none } 0 false
        [Stmt.yieldingDefinition])).run (initialTree {}) = .ok r ∧
      (CodeBody.ofBuilt 0 r).UsesScratch) ∧
    (∃ opening closing, render 1 (codeOps "a.py" ((Step.function ⟨"πTemp001", "*πg.Object"⟩
        ⟨"g", [], false, false, [], true⟩ [] []).linear {}).1) =
      opening ++ bodyText 2 [] true [] [] ++ closing) ∧
    ∃ text, compile {} none [Stmt.yieldingDefinition] = .ok text ∧
      ∃ temps checkpoints code opening closing,
        text = opening ++ bodyText 2 temps false checkpoints code ++ closing := by
  obtain ⟨hstmt, hbody, hnested, hmodule⟩ := scratch_use
  obtain ⟨r₀, hr₀⟩ : ∃ r, (lowerStmt { options := {}, source := none } 0 false
      Stmt.yieldingDefinition).run (initialTree {}) = .ok r := ok_of_toBool (by decide +kernel)
  obtain ⟨r, hr⟩ : ∃ r, (bodyWithEnd false (lowerBody { options := {}, source := none } 0 false
      [Stmt.yieldingDefinition])).run (initialTree {}) = .ok r := ok_of_toBool (by decide +kernel)
  obtain ⟨text, htext⟩ : ∃ text, compile {} none [Stmt.yieldingDefinition] = .ok text :=
    ok_of_toBool (by decide +kernel)
  obtain ⟨r', -, -, opening, closing, hlaid⟩ := hmodule {} none _ text htext
  refine ⟨⟨r₀, hr₀, ?_⟩, ⟨r, hr, ?_⟩, ?_, text, htext, _, _, _, opening, closing, hlaid⟩
  · exact hstmt _ _ _ _ _ r₀ (initialTree_reached {}) (initialTree_isSome {}) hr₀
  · have huse := hbody _ _ _ _ _ r (initialTree_reached {}) (initialTree_isSome {})
      (initialTree_resources {}) hr
    exact huse _ (.self _)
  · have hlaid := hnested "a.py" 1 {} (.function ⟨"πTemp001", "*πg.Object"⟩
      ⟨"g", [], false, false, [], true⟩ [] []) ⟨[], []⟩ rfl
    simpa only [Step.nestsGenerator, Step.linearAll, codeOps] using hlaid

end Goward
