import Goward.Proofs.Growth
import Goward.Proofs.YieldPlaces

/-!
# Failing at a `yield`

Builds that never fail because of a `yield` outside of a generator, and builds that do so exactly if
there is one in what they are made from. Expressions, targets and the statements that are made from
them alone are such builds.
-/

namespace Goward

open Goward.Build Goward.Code

open ScopeTree (growsTo_treeRelation)

/-- A build that lets the tree grow and does not fail at a `yield`. -/
structure Calm {α : Type} (b : Build α) : Prop where
  grows : Keeps ScopeTree.GrowsTo b
  quiet : ∀ t e, b.run t = .error e → e.cause ≠ yieldOutside

theorem Calm.emit (s : Step) : Calm (Build.emit s) := ⟨.emit growsTo_treeRelation s, nofun⟩

theorem calm : Property Calm where
  pure a := ⟨.pure growsTo_treeRelation a, nofun⟩
  bind hb hf := by
    refine ⟨.bind growsTo_treeRelation hb.grows fun a => (hf a).grows, fun t e h => ?_⟩
    rcases run_bind_error.mp h with h | ⟨first, -, h⟩
    · exact hb.quiet t e h
    · exact (hf first.value).quiet first.tree e h
  fail hc := by
    refine ⟨.fail _, fun t e h => ?_⟩
    cases h
    exact hc
  tree := ⟨.tree growsTo_treeRelation, nofun⟩
  act a := .emit (.action a)
  alloc id type := ⟨growsTo_treeRelation.keeps.alloc id type, nofun⟩
  free id v := by
    refine ⟨growsTo_treeRelation.keeps.free id v, fun t e h => ?_⟩
    rw [(run_free_error h).1]
    simp [yieldOutside]
  intern s := ⟨growsTo_treeRelation.keeps.intern s, nofun⟩
  addImport path := ⟨growsTo_treeRelation.keeps.addImport path, nofun⟩
  addNative path := ⟨growsTo_treeRelation.keeps.addNative path, nofun⟩

/-! ### Builds that fail at a `yield` exactly if there is one without code -/

/-- A tree in which a scope exists; `g` tells whether the scope is a generator. -/
def InScope (id : Nat) (g : Bool) (t : ScopeTree) : Prop :=
  ∃ s, t.scope? id = some s ∧ s.isGenerator = g

theorem InScope.grows {id : Nat} {g : Bool} {t u : ScopeTree} (h : InScope id g t)
    (hg : t.GrowsTo u) : InScope id g u := by
  obtain ⟨s, hs, hgen⟩ := h
  obtain ⟨s', hs', hkind, -⟩ := hg id s hs
  refine ⟨s', hs', ?_⟩
  rw [← hgen]
  simp only [Scope.isGenerator, Scope.function?, hkind]

/-- A build in a scope that does not succeed if `P` holds, and fails at a `yield` only if so. -/
structure Judged {α : Type} (id : Nat) (g : Bool) (b : Build α) (P : Prop) : Prop where
  keeps : Keeps ScopeTree.GrowsTo b
  not_of_ok : ∀ t r, InScope id g t → b.run t = .ok r → ¬P
  of_error : ∀ t e, InScope id g t → b.run t = .error e → e.cause = yieldOutside → P

namespace Judged

variable {α β : Type} {id : Nat} {g : Bool} {P Q : Prop}

theorem congr {b : Build α} (h : Judged id g b P) (hPQ : P ↔ Q) : Judged id g b Q := by
  rwa [← propext hPQ]

theorem calm {b : Build α} (h : Calm b) : Judged id g b False where
  keeps := h.grows
  not_of_ok _ _ _ _ := not_false
  of_error t e _ he hc := h.quiet t e he hc

theorem bind {b : Build α} {f : α → Build β} (hb : Judged id g b P)
    (hf : ∀ a, Judged id g (f a) Q) : Judged id g (b >>= f) (P ∨ Q) where
  keeps := .bind ScopeTree.growsTo_treeRelation hb.keeps fun a => (hf a).keeps
  not_of_ok t r ht h := by
    obtain ⟨first, h₁, second, h₂, rfl⟩ := run_bind_ok.mp h
    have ht' := ht.grows (hb.keeps t first h₁)
    exact not_or.mpr ⟨hb.not_of_ok t first ht h₁, (hf first.value).not_of_ok _ second ht' h₂⟩
  of_error t e ht h hc := by
    rcases run_bind_error.mp h with h | ⟨first, h₁, h₂⟩
    · exact .inl (hb.of_error t e ht h hc)
    · exact .inr ((hf first.value).of_error _ e (ht.grows (hb.keeps t first h₁)) h₂ hc)

/-- What follows a build counts for nothing if it does not fail at a `yield`. -/
theorem thenCalm {b : Build α} {f : α → Build β} (hb : Judged id g b P) (hf : ∀ a, Calm (f a)) :
    Judged id g (b >>= f) P :=
  (hb.bind fun a => calm (hf a)).congr (iff_of_eq (or_false P))

/-- What goes before a build counts for nothing if it does not fail at a `yield`. -/
theorem afterCalm {b : Build α} {f : α → Build β} (hb : Calm b) (hf : ∀ a, Judged id g (f a) Q) :
    Judged id g (b >>= f) Q :=
  ((calm hb).bind hf).congr (iff_of_eq (false_or Q))

theorem fail {c : Cause} (hc : c ≠ yieldOutside) : Judged id g (Build.fail c : Build α) P where
  keeps := .fail c
  not_of_ok _ _ _ h := nomatch h
  of_error t e _ h hc' := by
    cases h
    exact absurd hc' hc

theorem collect {b : Build α} (h : Judged id g b P) : Judged id g (Build.collect b) P where
  keeps := .collect h.keeps
  not_of_ok t r ht hr := by
    obtain ⟨inner, hi, -⟩ := run_collect_ok.mp hr
    exact h.not_of_ok t inner ht hi
  of_error t e ht he hc := h.of_error t e ht (run_collect_error.mp he) hc

theorem codeOf {b : Build Unit} (h : Judged id g b P) : Judged id g (Build.codeOf b) P where
  keeps := .codeOf h.keeps
  not_of_ok t r ht hr := by
    obtain ⟨inner, hi, -⟩ := run_codeOf_ok.mp hr
    exact h.not_of_ok t inner ht hi
  of_error t e ht he hc := h.of_error t e ht (run_codeOf_error.mp he) hc

theorem locate {span : Span} {b : Build α} (h : Judged id g b P) :
    Judged id g (Build.locate span b) P where
  keeps := .locate h.keeps
  not_of_ok t r ht hr := h.not_of_ok t r ht (run_locate_ok.mp hr)
  of_error t e ht he hc := by
    obtain ⟨e', he', hcause⟩ := run_locate_error he
    exact h.of_error t e' ht he' (hcause.trans hc)

theorem requireGenerator : Judged id g (Build.requireGenerator id) (g = false) where
  keeps := growsTo_treeRelation.keeps.requireGenerator id
  not_of_ok t r ht h := by
    obtain ⟨s, hs, rfl⟩ := ht
    obtain ⟨first, h₁, second, h₂, -⟩ := run_bind_ok.mp h
    cases h₁
    obtain ⟨hgen, -⟩ := run_require_ok.mp h₂
    simpa [hs] using hgen
  of_error t e ht h _ := by
    obtain ⟨s, hs, rfl⟩ := ht
    rcases run_bind_error.mp h with h | ⟨first, h₁, h₂⟩
    · cases h
    · cases h₁
      cases hgen : s.isGenerator with
      | false => rfl
      | true =>
        simp only [hs, Option.any_some, hgen, Build.require] at h₂
        cases h₂

end Judged

variable {id : Nat} {g : Bool}

theorem suspend_calm (v : Value) : Calm (suspend id v) :=
  calm.bind (.emit _) fun _ => calm.bind (calm.releaseValue id v) fun _ => calm.constructFrom id _ _

mutual

theorem lowerExpr_judged : (e : Expr) → Judged id g (lowerExpr id e) (g = false ∧ e.HasYield)
  | .name x => by
    refine (Judged.calm (calm.readName id x)).congr ?_
    simp only [false_iff, not_and]
    intro _ h
    cases h
  | .str s => by
    refine (Judged.calm (calm.bind (calm.intern s) fun _ => calm.pure _)).congr ?_
    simp only [false_iff, not_and]
    intro _ h
    cases h
  | .int n => by
    refine (Judged.calm (calm.pure _)).congr ?_
    simp only [false_iff, not_and]
    intro _ h
    cases h
  | .tuple elts => by
    refine ((lowerExprs_judged elts).thenCalm fun _ => calm.constructFrom id _ _).congr
      (and_congr_right fun _ => ?_)
    exact ⟨fun ⟨_, he, h⟩ => .tuple he h, fun h => by cases h; exact ⟨_, ‹_›, ‹_›⟩⟩
  | .list elts => by
    refine ((lowerExprs_judged elts).thenCalm fun _ => calm.constructFrom id _ _).congr
      (and_congr_right fun _ => ?_)
    exact ⟨fun ⟨_, he, h⟩ => .list he h, fun h => by cases h; exact ⟨_, ‹_›, ‹_›⟩⟩
  | .attr obj _ => by
    refine ((lowerExpr_judged obj).thenCalm fun _ => calm.bind (calm.intern _) fun _ =>
      calm.callWith id _ _).congr (and_congr_right fun _ => ?_)
    exact ⟨.obj, fun h => by cases h; assumption⟩
  | .call fn args => by
    refine ((lowerExpr_judged fn).bind fun _ => (lowerExprs_judged args).thenCalm fun _ =>
      calm.callWith id _ _).congr ?_
    rw [← and_or_left]
    refine and_congr_right fun _ => ⟨?_, fun h => ?_⟩
    · rintro (h | ⟨_, he, h⟩)
      · exact .fn h
      · exact .arg he h
    · cases h with
      | fn h => exact .inl h
      | arg he h => exact .inr ⟨_, he, h⟩
  | .binop left _ right => by
    refine ((lowerExpr_judged left).bind fun _ => (lowerExpr_judged right).thenCalm fun _ =>
      calm.callWith id _ _).congr ?_
    rw [← and_or_left]
    refine and_congr_right fun _ => ⟨?_, fun h => ?_⟩
    · rintro (h | h)
      · exact .left h
      · exact .right h
    · cases h with
      | left h => exact .inl h
      | right h => exact .inr h
  | .yield none => by
    refine (Judged.requireGenerator.thenCalm fun _ => suspend_calm _).congr ?_
    simp [Expr.HasYield.here]
  | .yield (some value) => by
    -- Outside a generator the value is not reached, inside one it cannot fail at a `yield`.
    refine (Judged.requireGenerator.bind fun _ => (lowerExpr_judged value).thenCalm fun _ =>
      suspend_calm _).congr ?_
    exact ⟨fun h => ⟨h.elim (fun h => h) And.left, .here _⟩, fun h => .inl h.1⟩

theorem lowerExprs_judged :
    (es : List Expr) → Judged id g (lowerExprs id es) (g = false ∧ ∃ e ∈ es, e.HasYield)
  | [] => (Judged.calm (calm.pure _)).congr (by simp)
  | e :: rest => by
    refine ((lowerExpr_judged e).bind fun _ => (lowerExprs_judged rest).thenCalm fun _ =>
      calm.pure _).congr ?_
    rw [← and_or_left]
    simp

end

theorem unpack_judged (v : Value) (n : Nat) {store : Temp → Build Unit} {P : Prop}
    (hs : ∀ items, Judged id g (store items) P) : Judged id g (unpack id v n store) P :=
  .afterCalm (calm.acquire id _) fun items => .afterCalm (calm.act _) fun _ =>
    .afterCalm (calm.act _) fun _ => (hs items).thenCalm fun _ => calm.release id items

mutual

theorem storeInto_judged (v : Value) :
    (e : Expr) → Judged id g (storeInto id v e) (g = false ∧ e.HasYield)
  | .name x => by
    refine (Judged.calm (calm.storeName id x v)).congr ?_
    simp only [false_iff, not_and]
    intro _ h
    cases h
  | .attr obj _ => by
    refine ((lowerExpr_judged obj).thenCalm fun _ => calm.bind (calm.intern _) fun _ =>
      calm.bind (calm.act _) fun _ => calm.releaseValue id _).congr (and_congr_right fun _ => ?_)
    exact ⟨.obj, fun h => by cases h; assumption⟩
  | .tuple elts => by
    refine (unpack_judged v elts.length fun items => storeItems_judged items 0 elts).congr
      (and_congr_right fun _ => ?_)
    exact ⟨fun ⟨_, he, h⟩ => .tuple he h, fun h => by cases h; exact ⟨_, ‹_›, ‹_›⟩⟩
  | .list elts => by
    refine (unpack_judged v elts.length fun items => storeItems_judged items 0 elts).congr
      (and_congr_right fun _ => ?_)
    exact ⟨fun ⟨_, he, h⟩ => .list he h, fun h => by cases h; exact ⟨_, ‹_›, ‹_›⟩⟩
  | .str _ | .int _ | .call _ _ | .binop _ _ _ | .yield _ => .fail (by simp [yieldOutside])

theorem storeItems_judged (items : Temp) : (index : Nat) → (es : List Expr) →
    Judged id g (storeItems id items index es) (g = false ∧ ∃ e ∈ es, e.HasYield)
  | _, [] => (Judged.calm (calm.pure ())).congr (by simp)
  | index, e :: rest => by
    refine ((storeInto_judged (.item items index) e).bind fun _ =>
      storeItems_judged items (index + 1) rest).congr ?_
    rw [← and_or_left]
    simp

end

theorem storeIntoAll_judged (v : Value) (es : List Expr) :
    Judged id g (storeIntoAll id v es) (g = false ∧ ∃ e ∈ es, e.HasYield) := by
  induction es with
  | nil => exact (Judged.calm (calm.pure ())).congr (by simp)
  | cons e rest ih =>
    refine ((storeInto_judged v e).bind fun _ => ih).congr ?_
    rw [← and_or_left]
    simp

theorem deleteAll_judged :
    (es : List Expr) → Judged id g (deleteAll id es) (g = false ∧ ∃ e ∈ es, e.HasYield)
  | [] => (Judged.calm (calm.pure ())).congr (by simp)
  | .name x :: rest => by
    refine (Judged.afterCalm (calm.deleteName id x) fun _ => deleteAll_judged rest).congr
      (and_congr_right fun _ => ?_)
    have hname : ¬(Expr.name x).HasYield := fun h => by cases h
    simp [hname]
  | .str _ :: _ | .int _ :: _ | .tuple _ :: _ | .list _ :: _ | .attr _ _ :: _ | .call _ _ :: _
  | .binop _ _ _ :: _ | .yield _ :: _ => .fail (by simp [yieldOutside])

theorem lowerTest_judged (test : Expr) :
    Judged id g (lowerTest id test) (g = false ∧ test.HasYield) :=
  (lowerExpr_judged test).thenCalm fun _ => calm.bind (calm.callInto id _ _) fun _ => calm.pure _

theorem updateName_judged (x : String) (op : BinOp) (value : Expr) :
    Judged id g (updateName id x op value) (g = false ∧ value.HasYield) :=
  .afterCalm (calm.readName id x) fun _ => (lowerExpr_judged value).thenCalm fun _ =>
    calm.bind (calm.callInto id _ _) fun _ => calm.bind (calm.releaseAll id _) fun _ =>
      calm.bind (calm.storeName id x _) fun _ => calm.release id _

theorem lowerReturn_judged (value : Option Expr) :
    Judged id g (lowerReturn id value) (g = false ∧ ∃ e ∈ value.toList, e.HasYield) := by
  refine .afterCalm calm.tree fun t => ?_
  split
  · exact .fail (by simp [yieldOutside])
  · split
    · exact (Judged.calm (.emit _)).congr (by simp)
    · exact .fail (by simp [yieldOutside])
    · exact (Judged.calm (.emit _)).congr (by simp)
    · rename_i e _
      refine ((lowerExpr_judged e).thenCalm fun _ => calm.bind (.emit _) fun _ =>
        calm.releaseValue id _).congr ?_
      simp

end Goward
