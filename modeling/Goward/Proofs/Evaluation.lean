import Goward.Lowering.Expr
import Goward.Proofs.Machine
import Goward.Proofs.Scratch
import Goward.Proofs.TreeChanges

/-!
# Evaluation of expressions

An expression is evaluated from left to right, every part of it once. Main result: the code of an
expression makes the same requests as its evaluation, in the same order and with the same operands,
the value that lowering returns denotes the result, and neither a slot nor a scratch variable that
was in use before is changed.
-/

namespace Goward

open Goward.Build Goward.Code

variable {V : Type}

/-- An evaluation reads the slots and makes requests, which are put after those before it. -/
def Evaluation (V : Type) (α : Type) := (String → V) → List (Request V) → α × List (Request V)

namespace Evaluation

protected def pure {α : Type} (a : α) : Evaluation V α := fun _ trace => (a, trace)

protected def bind {α β : Type} (f : Evaluation V α) (g : α → Evaluation V β) : Evaluation V β :=
  fun slots trace =>
    let a := f slots trace
    g a.1 slots a.2

instance : Monad (Evaluation V) where
  pure := Evaluation.pure
  bind := Evaluation.bind

/-- What a slot holds. -/
def slot (x : String) : Evaluation V V := fun slots trace => (slots x, trace)

/-- Makes a request and returns the answer. -/
def ask (R : Runtime V) (q : Request V) : Evaluation V V := fun _ trace =>
  ((R.answer (trace ++ [q])).object, trace ++ [q])

/-- Reads a name. -/
def read (R : Runtime V) (x : String) : ScopeTree.Access → Evaluation V V
  | .globals => ask R (.resolveGlobal x)
  | .classBody false => ask R (.resolveClass none x)
  | .classBody true => do
    let outer ← slot x
    ask R (.resolveClass (some outer) x)
  | .slot => do
    let v ← slot x
    let _ ← ask R (.checkLocal x v)
    return v

end Evaluation

mutual

/-- Evaluates an expression; `access` tells how names are read. -/
def Expr.eval (R : Runtime V) (access : String → ScopeTree.Access) : Expr → Evaluation V V
  | .name x => .read R x (access x)
  | .str s => return R.str s
  | .int n => return R.int n
  | .tuple elts => do
    let vs ← Expr.evalAll R access elts
    .ask R (.tuple vs)
  | .list elts => do
    let vs ← Expr.evalAll R access elts
    .ask R (.list vs)
  | .attr obj key => do
    let v ← Expr.eval R access obj
    .ask R (.getAttr v key)
  | .call fn args => do
    let f ← Expr.eval R access fn
    let vs ← Expr.evalAll R access args
    .ask R (.invoke f vs)
  | .binop left op right => do
    let l ← Expr.eval R access left
    let r ← Expr.eval R access right
    .ask R (.binary op l r)
  | .yield none => .ask R (.suspend R.none)
  | .yield (some value) => do
    let v ← Expr.eval R access value
    .ask R (.suspend v)

/-- Evaluates expressions from left to right. -/
def Expr.evalAll (R : Runtime V) (access : String → ScopeTree.Access) :
    List Expr → Evaluation V (List V)
  | [] => return []
  | e :: rest => do
    let v ← Expr.eval R access e
    let vs ← Expr.evalAll R access rest
    return v :: vs

end

/-- An evaluation makes a fixed number of requests. -/
def Evaluation.Makes {α : Type} (f : Evaluation V α) (k : Nat) : Prop :=
  ∀ slots trace, ∃ more, more.length = k ∧ (f slots trace).2 = trace ++ more

namespace Evaluation.Makes

variable {α β : Type}

theorem pure (a : α) : Makes (pure a : Evaluation V α) 0 :=
  fun _ trace => ⟨[], rfl, (List.append_nil trace).symm⟩

theorem ask (R : Runtime V) (q : Request V) : Makes (Evaluation.ask R q) 1 :=
  fun _ _ => ⟨[q], rfl, rfl⟩

theorem bind {f : Evaluation V α} {g : α → Evaluation V β} {k l : Nat} (hf : Makes f k)
    (hg : ∀ a, Makes (g a) l) : Makes (f >>= g) (k + l) := by
  intro slots trace
  obtain ⟨more, hk, hmore⟩ := hf slots trace
  obtain ⟨rest, hl, hrest⟩ := hg (f slots trace).1 slots (f slots trace).2
  refine ⟨more ++ rest, by rw [List.length_append, hk, hl], ?_⟩
  show (g (f slots trace).1 slots (f slots trace).2).2 = _
  rw [hrest, hmore, List.append_assoc]

theorem read (R : Runtime V) (x : String) :
    (access : ScopeTree.Access) → Makes (Evaluation.read R x access) 1
  | .globals => ask R _
  | .classBody false => ask R _
  | .classBody true => fun _ _ => ⟨_, rfl, rfl⟩
  | .slot => fun _ _ => ⟨_, rfl, rfl⟩

end Evaluation.Makes

mutual

/-- How many requests the evaluation of an expression makes does not depend on the state. -/
theorem Expr.eval_makes (R : Runtime V) (access : String → ScopeTree.Access) :
    (e : Expr) → ∃ k, (e.eval R access).Makes k
  | .name x => ⟨1, .read R x (access x)⟩
  | .str _ => ⟨0, .pure _⟩
  | .int _ => ⟨0, .pure _⟩
  | .tuple elts => by
    obtain ⟨k, hk⟩ := Expr.evalAll_makes R access elts
    exact ⟨k + 1, hk.bind fun _ => .ask R _⟩
  | .list elts => by
    obtain ⟨k, hk⟩ := Expr.evalAll_makes R access elts
    exact ⟨k + 1, hk.bind fun _ => .ask R _⟩
  | .attr obj _ => by
    obtain ⟨k, hk⟩ := Expr.eval_makes R access obj
    exact ⟨k + 1, hk.bind fun _ => .ask R _⟩
  | .call fn args => by
    obtain ⟨k, hk⟩ := Expr.eval_makes R access fn
    obtain ⟨l, hl⟩ := Expr.evalAll_makes R access args
    exact ⟨k + (l + 1), hk.bind fun _ => hl.bind fun _ => .ask R _⟩
  | .binop left _ right => by
    obtain ⟨k, hk⟩ := Expr.eval_makes R access left
    obtain ⟨l, hl⟩ := Expr.eval_makes R access right
    exact ⟨k + (l + 1), hk.bind fun _ => hl.bind fun _ => .ask R _⟩
  | .yield none => ⟨1, .ask R _⟩
  | .yield (some value) => by
    obtain ⟨k, hk⟩ := Expr.eval_makes R access value
    exact ⟨k + 1, hk.bind fun _ => .ask R _⟩

theorem Expr.evalAll_makes (R : Runtime V) (access : String → ScopeTree.Access) :
    (es : List Expr) → ∃ k, (Expr.evalAll R access es).Makes k
  | [] => ⟨0, .pure _⟩
  | e :: rest => by
    obtain ⟨k, hk⟩ := Expr.eval_makes R access e
    obtain ⟨l, hl⟩ := Expr.evalAll_makes R access rest
    exact ⟨k + (l + 0), hk.bind fun _ => hl.bind fun _ => .pure _⟩

end

/-- Neither a slot nor a scratch variable that is in use in the scope differs between two states. -/
structure Frame (t : ScopeTree) (id : Nat) (σ τ : State V) : Prop where
  slots : τ.slots = σ.slots
  temps : ∀ w, t.InUse id w → τ.temps w.name = σ.temps w.name

namespace Frame

variable {t u : ScopeTree} {id : Nat} {σ τ υ : State V}

theorem refl (t : ScopeTree) (id : Nat) (σ : State V) : Frame t id σ σ := ⟨rfl, fun _ _ => rfl⟩

theorem trans (h : Frame t id σ τ) (hle : ∀ w, t.InUse id w → u.InUse id w)
    (h' : Frame u id τ υ) : Frame t id σ υ :=
  ⟨h'.slots.trans h.slots, fun w hw => (h'.temps w (hle w hw)).trans (h.temps w hw)⟩

theorem denote {R : Runtime V} (h : Frame t id σ τ) {v : Value}
    (hv : ∀ w ∈ v.temps, t.InUse id w) : v.denote R τ = v.denote R σ :=
  Value.denote_congr h.slots fun w hw => h.temps w (hv w hw)

theorem denoteAll {R : Runtime V} (h : Frame t id σ τ) {vs : List Value}
    (hvs : ∀ w ∈ vs.flatMap Value.temps, t.InUse id w) :
    vs.map (·.denote R τ) = vs.map (·.denote R σ) :=
  List.map_congr_left fun _ hv => h.denote fun w hw => hvs w (List.mem_flatMap.mpr ⟨_, hv, hw⟩)

/-- The variable that is handed out can be stored into. -/
theorem setTemp (ht : t.Sound id) (h : Frame t id σ τ) (type : String) (c : Content V) :
    Frame t id σ (τ.setTemp (t.alloc id type).1 c) :=
  ⟨h.slots, fun w hw => (State.setTemp_of_ne (ht.alloc_fresh hw) c).trans (h.temps w hw)⟩

theorem ask (h : Frame t id σ τ) (q : Request V) : Frame t id σ (τ.ask q) := ⟨h.slots, h.temps⟩

theorem askInto {R : Runtime V} (ht : t.Sound id) (h : Frame t id σ τ) (type : String)
    (q : Request V) : Frame t id σ (τ.askInto R (t.alloc id type).1 q) :=
  (h.ask q).setTemp ht type _

end Frame

/-- The scratch variables that some values are. -/
def ownedTemps (vs : List Value) : List Temp := vs.filterMap Value.temp?

theorem releaseAll_run (R : Runtime V) (id : Nat) (vs : List Value) :
    ∀ t r, t.Sound id → (releaseAll id vs).run t = .ok r →
      r.tree.Sound id ∧ (∀ w, r.tree.InUse id w ↔ t.InUse id w ∧ w ∉ ownedTemps vs) ∧
        ∀ σ : State V, runAll? R σ r.code = some σ := by
  induction vs with
  | nil =>
    intro t r ht h
    cases h
    exact ⟨ht, fun w => by simp [ownedTemps], fun σ => rfl⟩
  | cons v rest ih =>
    intro t r ht h
    obtain ⟨first, h₁, second, h₂, rfl⟩ := run_bind_ok.mp h
    unfold releaseValue at h₁
    split at h₁
    · rename_i x hx
      obtain ⟨u, hu, rfl⟩ := run_release_ok.mp h₁
      obtain ⟨hsound, hinUse, hrun⟩ := ih u second (ht.free hu) h₂
      refine ⟨hsound, fun w => ?_, fun σ => hrun σ⟩
      rw [hinUse w, ht.free_inUse hu, ownedTemps, ownedTemps, List.filterMap_cons_some hx,
        List.mem_cons, not_or, and_assoc]
    · rename_i hx
      cases h₁
      obtain ⟨hsound, hinUse, hrun⟩ := ih t second ht h₂
      refine ⟨hsound, fun w => ?_, fun σ => hrun σ⟩
      rw [hinUse w, ownedTemps, ownedTemps, List.filterMap_cons_none hx]

theorem releaseValue_eq (id : Nat) (v : Value) (t : ScopeTree) (r : Built Unit)
    (h : (releaseValue id v).run t = .ok r) : (releaseAll id [v]).run t = .ok r := by
  refine run_bind_ok.mpr ⟨r, h, _, rfl, ?_⟩
  simp

/-- What is in use once the values that came into use are given back. -/
theorem released (R : Runtime V) {id : Nat} {t u : ScopeTree} {vs : List Value} {rel : Built Unit}
    (hu : u.Sound id) (hinUse : ∀ x, u.InUse id x ↔ t.InUse id x ∨ x ∈ ownedTemps vs)
    (hfresh : ∀ x ∈ ownedTemps vs, ¬t.InUse id x) (hrel : (releaseAll id vs).run u = .ok rel) :
    rel.tree.Sound id ∧ u.GrowsTo rel.tree ∧ (∀ x, rel.tree.InUse id x ↔ t.InUse id x) ∧
      ∀ σ : State V, runAll? R σ rel.code = some σ := by
  obtain ⟨hsound, hleft, hrun⟩ := releaseAll_run R id vs u rel hu hrel
  have hkeeps : Keeps ScopeTree.GrowsTo (releaseAll id vs) :=
    ScopeTree.growsTo_treeRelation.keeps.releaseAll id vs
  refine ⟨hsound, hkeeps u rel hrel, fun x => ?_, hrun⟩
  rw [hleft, hinUse]
  constructor
  · rintro ⟨hx | hx, hnot⟩
    · exact hx
    · exact absurd hx hnot
  · intro hx
    exact ⟨.inl hx, fun hmem => hfresh x hmem hx⟩

theorem callWith_ok {id : Nat} {c : Call} {vs : List Value} {t : ScopeTree} {r : Built Value} :
    (callWith id c vs).run t = .ok r ↔
      ∃ rel, (releaseAll id vs).run (t.alloc id Temp.objectType).2 = .ok rel ∧
        r = ⟨.temp (t.alloc id Temp.objectType).1,
          .action (.acquire (t.alloc id Temp.objectType).1) ::
            .action (.store (t.alloc id Temp.objectType).1 c) :: rel.code, rel.tree⟩ := by
  rw [callWith, run_bind_ok]
  constructor
  · rintro ⟨first, h₁, second, h₂, rfl⟩
    rw [run_callInto, Except.ok.injEq] at h₁
    subst h₁
    obtain ⟨rel, hrel, last, hlast, rfl⟩ := run_bind_ok.mp h₂
    cases hlast
    exact ⟨rel, hrel, by simp⟩
  · rintro ⟨rel, hrel, rfl⟩
    exact ⟨_, run_callInto .., _, run_bind_ok.mpr ⟨rel, hrel, _, rfl, rfl⟩, by simp⟩

theorem constructFrom_ok {id : Nat} {k : Construction} {vs : List Value} {t : ScopeTree}
    {r : Built Value} :
    (constructFrom id k vs).run t = .ok r ↔
      ∃ rel, (releaseAll id vs).run (t.alloc id Temp.objectType).2 = .ok rel ∧
        r = ⟨.temp (t.alloc id Temp.objectType).1,
          .action (.acquire (t.alloc id Temp.objectType).1) ::
            .action (.construct (t.alloc id Temp.objectType).1 k) :: rel.code, rel.tree⟩ := by
  rw [constructFrom, run_bind_ok]
  constructor
  · rintro ⟨first, h₁, second, h₂, rfl⟩
    rw [run_acquire, Except.ok.injEq] at h₁
    subst h₁
    obtain ⟨acted, hact, third, h₃, rfl⟩ := run_bind_ok.mp h₂
    cases hact
    obtain ⟨rel, hrel, last, hlast, rfl⟩ := run_bind_ok.mp h₃
    cases hlast
    exact ⟨rel, hrel, by simp⟩
  · rintro ⟨rel, hrel, rfl⟩
    refine ⟨_, run_acquire .., _, run_bind_ok.mpr ⟨_, rfl, _,
      run_bind_ok.mpr ⟨rel, hrel, _, rfl, rfl⟩, rfl⟩, by simp⟩

/-! ### Code that evaluates -/

/-- The code from one tree to another makes the requests of an evaluation, and the values denote its
results. In use are then the scratch variables that were, and those of the values. -/
structure Evaluated (R : Runtime V) (id : Nat) (t u : ScopeTree) (vs : List Value)
    (code : List Step) (f : Evaluation V (List V)) : Prop where
  sound : u.Sound id
  grows : t.GrowsTo u
  owned : ownedTemps vs = vs.flatMap Value.temps
  inUse : ∀ w, u.InUse id w ↔ t.InUse id w ∨ w ∈ ownedTemps vs
  fresh : ∀ w ∈ ownedTemps vs, ¬t.InUse id w
  run : ∀ σ, ∃ τ, runAll? R σ code = some τ ∧ Frame t id σ τ ∧
    f σ.slots σ.trace = (vs.map (·.denote R τ), τ.trace)

namespace Evaluated

variable {R : Runtime V} {id : Nat} {t u w : ScopeTree} {vs vs' : List Value}
  {code code' : List Step} {f g : Evaluation V (List V)}

theorem nil (ht : t.Sound id) : Evaluated R id t t [] [] (pure []) := by
  refine ⟨ht, .refl t, rfl, fun w => ?_, fun w hw => ?_, fun σ => ⟨σ, rfl, .refl t id σ, rfl⟩⟩
  · simp [ownedTemps]
  · cases hw

theorem constant (ht : t.Sound id) {v : Value} {c : V} (htemps : v.temps = [])
    (hv : ∀ σ, v.denote R σ = c) : Evaluated R id t t [v] [] (pure [c]) := by
  have hnone : ownedTemps [v] = [] := by
    cases v <;> first | rfl | cases htemps
  refine ⟨ht, .refl t, ?_, fun w => ?_, fun w hw => ?_, fun σ => ⟨σ, rfl, .refl t id σ, ?_⟩⟩
  · rw [hnone, List.flatMap_singleton, htemps]
  · simp [hnone]
  · simp [hnone] at hw
  · rw [List.map_singleton, hv σ]
    rfl

theorem slot (ht : t.Sound id) (x : String) :
    Evaluated R id t t [.slot x] [] (do return [← Evaluation.slot x]) := by
  refine ⟨ht, .refl t, rfl, fun w => ?_, fun w hw => ?_, fun σ => ⟨σ, rfl, .refl t id σ, rfl⟩⟩
  · simp [ownedTemps, Value.temp?]
  · cases hw

/-- Evaluations in a row. The values of the first one outlast the second one. -/
theorem append (h : Evaluated R id t u vs code f) (h' : Evaluated R id u w vs' code' g) :
    Evaluated R id t w (vs ++ vs') (code ++ code') (do return (← f) ++ (← g)) := by
  have howned : ownedTemps (vs ++ vs') = ownedTemps vs ++ ownedTemps vs' := List.filterMap_append
  have hmono : ∀ x, t.InUse id x → u.InUse id x := fun x hx => (h.inUse x).mpr (.inl hx)
  refine ⟨h'.sound, h.grows.trans h'.grows, ?_, fun x => ?_, fun x hx => ?_, fun σ => ?_⟩
  · rw [howned, List.flatMap_append, h.owned, h'.owned]
  · rw [h'.inUse, h.inUse, howned, List.mem_append, or_assoc]
  · rw [howned, List.mem_append] at hx
    rcases hx with hx | hx
    · exact h.fresh x hx
    · exact fun ht => h'.fresh x hx (hmono x ht)
  · obtain ⟨τ, hrun, hframe, heval⟩ := h.run σ
    obtain ⟨υ, hrun', hframe', heval'⟩ := h'.run τ
    have hkept : vs.map (·.denote R υ) = vs.map (·.denote R τ) :=
      hframe'.denoteAll fun x hx => (h.inUse x).mpr (.inr (h.owned ▸ hx))
    refine ⟨υ, (runAll?_append hrun).trans hrun', hframe.trans hmono hframe', ?_⟩
    rw [List.map_append, hkept]
    rw [hframe.slots] at heval'
    show ((f σ.slots σ.trace).1 ++ (g σ.slots (f σ.slots σ.trace).2).1,
      (g σ.slots (f σ.slots σ.trace).2).2) = _
    rw [heval, heval']

theorem intern (h : Evaluated R id t u vs code f) (s : String) :
    Evaluated R id t (u.intern s).2 vs code f :=
  ⟨h.sound.intern s, h.grows.trans (ScopeTree.growsTo_treeRelation.intern u s), h.owned, h.inUse,
    h.fresh, h.run⟩

theorem afterIntern {s : String} (h : Evaluated R id (t.intern s).2 u vs code f) :
    Evaluated R id t u vs code f := by
  refine ⟨h.sound, (ScopeTree.growsTo_treeRelation.intern t s).trans h.grows, h.owned, h.inUse,
    h.fresh, fun σ => ?_⟩
  obtain ⟨τ, hcode, hframe, heval⟩ := h.run σ
  exact ⟨τ, hcode, ⟨hframe.slots, hframe.temps⟩, heval⟩

/-- What is in use once a result is there and its operands are given back. -/
theorem inUse_result (h : Evaluated R id t u vs code f) {type : String} {x : Temp} :
    ((u.alloc id type).2.InUse id x ∧ x ∉ ownedTemps vs) ↔
      t.InUse id x ∨ x = (u.alloc id type).1 := by
  rw [h.sound.alloc_inUse, h.inUse]
  constructor
  · rintro ⟨(hx | hx) | hx, hnot⟩
    · exact .inl hx
    · exact absurd hx hnot
    · exact .inr hx
  · rintro (hx | rfl)
    · exact ⟨.inl (.inl hx), fun hmem => h.fresh x hmem hx⟩
    · refine ⟨.inr rfl, fun hmem => ?_⟩
      exact h.sound.alloc_fresh ((h.inUse _).mpr (.inr hmem)) rfl

theorem alloc_not_inUse (h : Evaluated R id t u vs code f) (type : String) :
    ¬t.InUse id (u.alloc id type).1 := fun ht =>
  h.sound.alloc_fresh ((h.inUse _).mpr (.inl ht)) rfl

/-- An action that makes a request of some values and stores the answer in a variable of its own,
after which the values are given back. -/
theorem result (h : Evaluated R id t u vs code f) {q : List V → Request V} {a : Temp → Action}
    {type : String} {rel : Built Unit}
    (ha : ∀ x σ, (a x).run R σ = σ.askInto R x (q (vs.map (·.denote R σ))))
    (hrel : (releaseAll id vs).run (u.alloc id type).2 = .ok rel) :
    Evaluated R id t rel.tree [.temp (u.alloc id type).1]
      (code ++ .action (.acquire (u.alloc id type).1) ::
        .action (a (u.alloc id type).1) :: rel.code)
      (do return [← Evaluation.ask R (q (← f))]) := by
  obtain ⟨hsound, hinUse, hrun⟩ := releaseAll_run R id vs _ rel h.sound.alloc hrel
  have hkeeps : Keeps ScopeTree.GrowsTo (releaseAll id vs) :=
    ScopeTree.growsTo_treeRelation.keeps.releaseAll id vs
  refine ⟨hsound, ?_, rfl, fun x => ?_, fun x hx => ?_, fun σ => ?_⟩
  · exact h.grows.trans ((ScopeTree.growsTo_alloc u id type).trans (hkeeps _ _ hrel))
  · rw [hinUse, h.inUse_result]
    simp [ownedTemps, Value.temp?]
  · obtain rfl : x = (u.alloc id type).1 := by simpa [ownedTemps, Value.temp?] using hx
    exact h.alloc_not_inUse type
  · obtain ⟨τ, hcode, hframe, heval⟩ := h.run σ
    have hact := ha (u.alloc id type).1 τ
    have hmono : ∀ x, t.InUse id x → u.InUse id x := fun x hx => (h.inUse x).mpr (.inl hx)
    refine ⟨(a (u.alloc id type).1).run R τ, ?_, hframe.trans hmono ?_, ?_⟩
    · rw [runAll?_append hcode]
      exact hrun _
    · rw [hact]
      exact (Frame.refl u id τ).askInto h.sound type _
    · show ([(R.answer ((f σ.slots σ.trace).2 ++ [q (f σ.slots σ.trace).1])).object],
        (f σ.slots σ.trace).2 ++ [q (f σ.slots σ.trace).1]) = _
      rw [heval, hact, List.map_cons, List.map_nil]
      simp [Value.denote, State.askInto, State.setTemp, State.ask]

/-- A generator is suspended with a value and takes what it is sent. -/
theorem suspend {v : Value} (h : Evaluated R id t u [v] code f) {r : Built Value}
    (hr : (Build.suspend id v).run u = .ok r) :
    Evaluated R id t r.tree [r.value] (code ++ r.code)
      (do return [← Evaluation.ask R (.suspend ((← f).headD R.none))]) := by
  obtain ⟨emitted, hemit, second, h₂, rfl⟩ := run_bind_ok.mp hr
  cases hemit
  obtain ⟨rel, hrel, last, hlast, rfl⟩ := run_bind_ok.mp h₂
  obtain ⟨none, hnone, rfl⟩ := constructFrom_ok.mp hlast
  cases hnone
  obtain ⟨hsound, hgrows, hback, hrun⟩ :=
    released R h.sound h.inUse h.fresh (releaseValue_eq id v u rel hrel)
  refine ⟨hsound.alloc, ?_, rfl, fun x => ?_, fun x hx => ?_, fun σ => ?_⟩
  · exact h.grows.trans (hgrows.trans (ScopeTree.growsTo_alloc _ _ _))
  · rw [hsound.alloc_inUse, hback]
    simp [ownedTemps, Value.temp?]
  · obtain rfl : x = (rel.tree.alloc id Temp.objectType).1 := by
      simpa [ownedTemps, Value.temp?] using hx
    exact fun ht => hsound.alloc_fresh ((hback _).mpr ht) rfl
  · obtain ⟨τ, hcode, hframe, heval⟩ := h.run σ
    let q : Request V := .suspend (v.denote R τ)
    let τ₁ : State V := { τ.ask q with sent := (R.answer (τ.trace ++ [q])).object }
    have hframe₁ : Frame rel.tree id σ τ₁ :=
      ⟨hframe.slots, fun x hx => hframe.temps x ((hback x).mp hx)⟩
    refine ⟨τ₁.setTemp (rel.tree.alloc id Temp.objectType).1 ⟨τ₁.sent, fun _ => R.blank⟩,
      ?_, ?_, ?_⟩
    · rw [runAll?_append hcode]
      show runAll? R τ₁ (rel.code ++ _) = _
      rw [runAll?_append (hrun τ₁)]
      rfl
    · have hframe₂ := hframe₁.setTemp hsound Temp.objectType ⟨τ₁.sent, fun _ => R.blank⟩
      exact ⟨hframe₂.slots, fun x hx => hframe₂.temps x ((hback x).mpr hx)⟩
    · show ([(R.answer ((f σ.slots σ.trace).2 ++
        [.suspend ((f σ.slots σ.trace).1.headD R.none)])).object],
        (f σ.slots σ.trace).2 ++ [.suspend ((f σ.slots σ.trace).1.headD R.none)]) = _
      rw [heval]
      simp [Value.denote, State.setTemp, State.ask, τ₁, q]

end Evaluated

theorem ScopeTree.intern_string (t : ScopeTree) (s : String) : (t.intern s).1.string = s := by
  show (t.registry.intern s).1.string = s
  rw [Registry.intern]
  split <;> rfl

theorem Evaluated.readName (R : Runtime V) {id : Nat} {x : String} {t : ScopeTree}
    {r : Built Value} (ht : t.Sound id) (hr : (readName id x).run t = .ok r) :
    Evaluated R id t r.tree [r.value] r.code
      (do return [← Evaluation.read R x (t.access id x)]) := by
  have hkey := t.intern_string x
  obtain ⟨first, h₁, second, h₂, rfl⟩ := run_bind_ok.mp hr
  cases h₁
  cases haccess : t.access id x with
  | globals =>
    simp only [haccess] at h₂
    cases h₂
    exact ((nil (ht.intern x)).result (q := fun _ => .resolveGlobal x)
      (a := fun y => .store y (.resolveGlobal (t.intern x).1))
      (fun y σ => by rw [Action.run, Call.request, hkey]) rfl).afterIntern
  | classBody closure =>
    simp only [haccess] at h₂
    cases h₂
    cases closure with
    | false =>
      exact ((nil (ht.intern x)).result (q := fun _ => .resolveClass none x)
        (a := fun y => .store y (.resolveClass none (t.intern x).1))
        (fun y σ => by rw [Action.run, Call.request, hkey]; rfl) rfl).afterIntern
    | true =>
      -- The slot of the enclosing function is an operand that needs no giving back.
      exact ((slot (ht.intern x) x).result (q := fun vs => .resolveClass vs.head? x)
        (a := fun y => .store y (.resolveClass (some x) (t.intern x).1))
        (fun y σ => by rw [Action.run, Call.request, hkey]; rfl) rfl).afterIntern
  | slot =>
    simp only [haccess] at h₂
    cases h₂
    have hslot := slot (R := R) ht x
    refine ⟨ht, .refl t, hslot.owned, hslot.inUse, hslot.fresh, fun σ => ?_⟩
    exact ⟨_, rfl, (Frame.refl t id σ).ask _, rfl⟩

/-- What is read in a scope does not depend on what was lowered since. -/
theorem Evaluated.eval_access {R : Runtime V} {id : Nat} {t u : ScopeTree} {vs : List Value}
    {code : List Step} {f : Evaluation V (List V)} (ht : t.Sound id)
    (h : Evaluated R id t u vs code f) : u.access id = t.access id :=
  funext (ht.access_eq h.grows)

theorem requireGenerator_ok {id : Nat} {t : ScopeTree} {r : Built Unit}
    (h : (requireGenerator id).run t = .ok r) : r = ⟨(), [], t⟩ := by
  obtain ⟨first, h₁, second, h₂, rfl⟩ := run_bind_ok.mp h
  cases h₁
  obtain ⟨-, rfl⟩ := run_require_ok.mp h₂
  rfl

mutual

theorem lowerExpr_evaluated (R : Runtime V) (id : Nat) : (e : Expr) → ∀ t r, t.Sound id →
    (lowerExpr id e).run t = .ok r →
      Evaluated R id t r.tree [r.value] r.code (do return [← e.eval R (t.access id)])
  | .name x, t, r, ht, hr => .readName R ht hr
  | .str s, t, r, ht, hr => by
    obtain ⟨first, h₁, second, h₂, rfl⟩ := run_bind_ok.mp hr
    cases h₁
    cases h₂
    refine (Evaluated.constant (ht.intern s) rfl fun σ => ?_).afterIntern
    exact congrArg R.str (t.intern_string s)
  | .int n, t, r, ht, hr => by
    cases hr
    exact .constant ht rfl fun _ => rfl
  | .tuple elts, t, r, ht, hr => by
    obtain ⟨first, h₁, second, h₂, rfl⟩ := run_bind_ok.mp hr
    obtain ⟨rel, hrel, rfl⟩ := constructFrom_ok.mp h₂
    exact (lowerExprs_evaluated R id elts t first ht h₁).result (q := .tuple)
      (a := fun x => .construct x (.tuple first.value)) (fun _ _ => rfl) hrel
  | .list elts, t, r, ht, hr => by
    obtain ⟨first, h₁, second, h₂, rfl⟩ := run_bind_ok.mp hr
    obtain ⟨rel, hrel, rfl⟩ := constructFrom_ok.mp h₂
    exact (lowerExprs_evaluated R id elts t first ht h₁).result (q := .list)
      (a := fun x => .construct x (.list first.value)) (fun _ _ => rfl) hrel
  | .attr obj attr, t, r, ht, hr => by
    obtain ⟨first, h₁, second, h₂, rfl⟩ := run_bind_ok.mp hr
    obtain ⟨key, hkey, third, h₃, rfl⟩ := run_bind_ok.mp h₂
    cases hkey
    obtain ⟨rel, hrel, rfl⟩ := callWith_ok.mp h₃
    have hobj := (lowerExpr_evaluated R id obj t first ht h₁).intern attr
    exact hobj.result (q := fun vs => .getAttr (vs.headD R.none) attr)
      (a := fun x => .store x (.getAttr first.value (first.tree.intern attr).1))
      (fun x σ => by rw [Action.run, Call.request, first.tree.intern_string]; rfl) hrel
  | .call fn args, t, r, ht, hr => by
    obtain ⟨first, h₁, second, h₂, rfl⟩ := run_bind_ok.mp hr
    obtain ⟨third, h₃, fourth, h₄, rfl⟩ := run_bind_ok.mp h₂
    obtain ⟨rel, hrel, rfl⟩ := callWith_ok.mp h₄
    have hfn := lowerExpr_evaluated R id fn t first ht h₁
    have hargs := lowerExprs_evaluated R id args first.tree third hfn.sound h₃
    rw [hfn.eval_access ht] at hargs
    rw [← List.append_assoc]
    exact (hfn.append hargs).result (q := fun vs => .invoke (vs.headD R.none) vs.tail)
      (a := fun x => .store x (.invoke first.value third.value)) (fun _ _ => rfl) hrel
  | .binop left op right, t, r, ht, hr => by
    obtain ⟨first, h₁, second, h₂, rfl⟩ := run_bind_ok.mp hr
    obtain ⟨third, h₃, fourth, h₄, rfl⟩ := run_bind_ok.mp h₂
    obtain ⟨rel, hrel, rfl⟩ := callWith_ok.mp h₄
    have hleft := lowerExpr_evaluated R id left t first ht h₁
    have hright := lowerExpr_evaluated R id right first.tree third hleft.sound h₃
    rw [hleft.eval_access ht] at hright
    rw [← List.append_assoc]
    exact (hleft.append hright).result
      (q := fun vs => .binary op (vs.headD R.none) (vs.tail.headD R.none))
      (a := fun x => .store x (.binary op first.value third.value)) (fun _ _ => rfl) hrel
  | .yield none, t, r, ht, hr => by
    obtain ⟨first, h₁, second, h₂, rfl⟩ := run_bind_ok.mp hr
    obtain rfl := requireGenerator_ok h₁
    exact (.constant ht rfl fun _ => rfl : Evaluated R id t t [.noneObject] [] _).suspend h₂
  | .yield (some value), t, r, ht, hr => by
    obtain ⟨first, h₁, second, h₂, rfl⟩ := run_bind_ok.mp hr
    obtain rfl := requireGenerator_ok h₁
    obtain ⟨third, h₃, fourth, h₄, rfl⟩ := run_bind_ok.mp h₂
    exact (lowerExpr_evaluated R id value t third ht h₃).suspend h₄

theorem lowerExprs_evaluated (R : Runtime V) (id : Nat) : (es : List Expr) → ∀ t r, t.Sound id →
    (lowerExprs id es).run t = .ok r →
      Evaluated R id t r.tree r.value r.code (Expr.evalAll R (t.access id) es)
  | [], t, r, ht, hr => by
    cases hr
    exact .nil ht
  | e :: rest, t, r, ht, hr => by
    obtain ⟨first, h₁, second, h₂, rfl⟩ := run_bind_ok.mp hr
    obtain ⟨third, h₃, fourth, h₄, rfl⟩ := run_bind_ok.mp h₂
    cases h₄
    have he := lowerExpr_evaluated R id e t first ht h₁
    have hrest := lowerExprs_evaluated R id rest first.tree third he.sound h₃
    rw [he.eval_access ht] at hrest
    rw [List.append_nil]
    exact he.append hrest

end

/-- The code of an expression is correct. Run from any state, in a tree that can be reached, it
makes the requests that evaluation makes, in the same order and with the same operands; the value
that lowering returns denotes the result; and every slot, and every scratch variable of the scope
that was in use before, holds what it held. -/
theorem lowerExpr_correct (R : Runtime V) {t : ScopeTree} (ht : t.Reached) {id : Nat}
    (hid : (t.scope? id).isSome) {e : Expr} {r : Built Value} (hr : (lowerExpr id e).run t = .ok r)
    (σ : State V) :
    ∃ τ, runAll? R σ r.code = some τ ∧
      e.eval R (t.access id) σ.slots σ.trace = (r.value.denote R τ, τ.trace) ∧
      τ.slots = σ.slots ∧ ∀ w, t.InUse id w → τ.temps w.name = σ.temps w.name := by
  obtain ⟨τ, hcode, hframe, heval⟩ := (lowerExpr_evaluated R id e t r (ht.sound id hid) hr).run σ
  have hresult : (e.eval R (t.access id) σ.slots σ.trace).1 = r.value.denote R τ :=
    List.head_eq_of_cons_eq (congrArg Prod.fst heval)
  have htrace : (e.eval R (t.access id) σ.slots σ.trace).2 = τ.trace :=
    congrArg (fun p => p.2) heval
  exact ⟨τ, hcode, Prod.ext hresult htrace, hframe.slots, hframe.temps⟩

/-- The tree of a module in which a function with some local names is entered. -/
def ScopeTree.ofFunction (names : List String) (isGenerator : Bool) : ScopeTree :=
  ((ofOptions {}).push moduleId "f" (.function ⟨⟨names.map (⟨·, .local⟩)⟩, isGenerator⟩)).2

/-- The code of `f(a, yield g + 1)` in a generator with the local name `a`. -/
theorem lowerExpr_correct_call :
    ∃ r, (lowerExpr 1 (.call (.name "f") [.name "a",
        .yield (some (.binop (.name "g") .add (.int 1)))])).run (.ofFunction ["a"] true) = .ok r ∧
      ∃ τ, runAll? .counting .initial r.code = some τ ∧
        Expr.eval .counting ((ScopeTree.ofFunction ["a"] true).access 1)
          (.call (.name "f") [.name "a", .yield (some (.binop (.name "g") .add (.int 1)))])
          State.initial.slots [] = (r.value.denote .counting τ, τ.trace) ∧
        τ.slots = State.initial.slots ∧
        ∀ w, (ScopeTree.ofFunction ["a"] true).InUse 1 w →
          τ.temps w.name = State.initial.temps w.name := by
  have hok : ((lowerExpr 1 (.call (.name "f") [.name "a",
    .yield (some (.binop (.name "g") .add (.int 1)))])).run (.ofFunction ["a"] true)).toBool =
      true := by decide +kernel
  cases hr : (lowerExpr 1 (.call (.name "f") [.name "a",
    .yield (some (.binop (.name "g") .add (.int 1)))])).run (.ofFunction ["a"] true) with
  | error e =>
    rw [hr] at hok
    cases hok
  | ok r => exact ⟨r, rfl,
      lowerExpr_correct .counting (.push _ _ _ (.ofOptions {}) rfl) rfl hr .initial⟩

end Goward
