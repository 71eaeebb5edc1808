import Goward.Proofs.Balance
import Goward.Proofs.Serving

/-!
# Leases

A build leases scratch variables: it balances, and its code is in order. That means that the pool of
the scope serves the code, that the code leaves alone what is in use around it, and that every `for`
loop in it keeps its iterator to itself. The code of nested bodies was lowered in scopes of their
own. Each rule for builds says both what is in use and what the code does.
-/

namespace Goward

open Goward.Build Goward.Code

/-- The code of a body, with its scratch variables. -/
structure CodeBody where
  temps : List Temp
  code : List Step

/-- The body that a step nests. -/
def Code.Step.body? : Step → Option CodeBody
  | .function _ _ temps body => some ⟨temps, body⟩
  | .classBody _ _ _ temps body => some ⟨temps, body⟩
  | .action _ | .suspend _ | .ret _ | .breakLoop | .continueLoop | .branch _ _ _ _
  | .whileLoop _ _ _ _ | .forLoop _ _ _ _ _ => none

namespace CodeBody

/-- The body that was built in a scope, with the scratch variables that the scope has made. -/
def ofBuilt (id : Nat) (r : Built (List Step)) : CodeBody :=
  ⟨(r.tree.resources id).pool.temps, r.value⟩

/-- A body that was lowered in a scope of its own. -/
def Lowered (b : CodeBody) : Prop :=
  ∃ cx id returnsNone body t r, ScopeTree.Sound t id ∧ t.resources id = {} ∧
    (bodyWithEnd returnsNone (lowerBody cx id false body)).run t = .ok r ∧ b = ofBuilt id r

/-- A body is another one, or is nested in it at some depth. -/
inductive Within : CodeBody → CodeBody → Prop
  | self (b : CodeBody) : Within b b
  | nested {d c b : CodeBody} {s : Step} :
    s.Occurs b.code → s.body? = some c → Within d c → Within d b

end CodeBody

namespace Code

/-- A step keeps its iterator to itself, if it is a `for` loop, and its body was lowered, if it
nests one. -/
structure Step.InOrder (s : Step) : Prop where
  iterator : ∀ iterator item bind body orelse, s = .forLoop iterator item bind body orelse →
    Spares iterator (bind ++ body ++ orelse.getD [])
  body : ∀ b, s.body? = some b → b.Lowered

/-- Code takes a pool to another one and is in order, with some variables in use around it. -/
structure Orderly (p : Pool) (frame : Multiset Temp) (code : List Step) (q : Pool) : Prop where
  serves : Serves p code q
  spares : ∀ v ∈ frame, Spares v code
  steps : ∀ s : Step, s.Occurs code → s.InOrder

namespace Orderly

variable {p q r : Pool} {frame frame' : Multiset Temp} {a b : List Step}

theorem nil (p : Pool) (frame : Multiset Temp) : Orderly p frame [] p where
  serves := .nil p
  spares v _ := .nil v
  steps _ h := absurd h Step.occurs_nil

theorem append (ha : Orderly p frame a q) (hb : Orderly q frame b r) :
    Orderly p frame (a ++ b) r where
  serves := ha.serves.append hb.serves
  spares v hv := (ha.spares v hv).append (hb.spares v hv)
  steps s h := (Step.occurs_append.mp h).elim (ha.steps s) (hb.steps s)

theorem mono (h : Orderly p frame a q) (hle : frame' ≤ frame) : Orderly p frame' a q :=
  ⟨h.serves, fun v hv => h.spares v (Multiset.mem_of_le hle hv), h.steps⟩

/-- A single step, in terms of its parts. -/
theorem single {s : Step} (hserves : Serves p [s] q)
    (hacquire : ∀ v ∈ frame, s ≠ .action (.acquire v))
    (hrelease : ∀ v ∈ frame, s ≠ .action (.release v)) (hs : s.InOrder)
    (hspares : ∀ part ∈ s.parts, ∀ v ∈ frame, Spares v part)
    (hsteps : ∀ part ∈ s.parts, ∀ o : Step, o.Occurs part → o.InOrder) :
    Orderly p frame [s] q where
  serves := hserves
  spares v hv := .single (hacquire v hv) (hrelease v hv) fun part hpart => hspares part hpart v hv
  steps o ho := by
    rcases Step.occurs_single.mp ho with rfl | ⟨part, hpart, hin⟩
    · exact hs
    · exact hsteps part hpart o hin

/-- A branch or a loop. -/
theorem compound {s : Step} {first second : List Step} {other : Option (List Step)}
    {p₁ p₂ p₃ q₁ q₂ q₃ : Pool} (hserves : Serves p [s] q)
    (hparts : s.parts = first :: second :: other.toList) (hs : s.InOrder)
    (hfirst : Orderly p₁ frame first q₁) (hsecond : Orderly p₂ frame second q₂)
    (hother : Orderly p₃ frame (other.getD []) q₃) : Orderly p frame [s] q := by
  have hcases : ∀ part ∈ s.parts, ∃ p' q', Orderly p' frame part q' := by
    intro part hpart
    rw [hparts] at hpart
    rcases List.mem_cons.mp hpart with rfl | hpart
    · exact ⟨p₁, q₁, hfirst⟩
    · rcases List.mem_cons.mp hpart with rfl | hpart
      · exact ⟨p₂, q₂, hsecond⟩
      · obtain rfl := Option.mem_toList.mp hpart
        exact ⟨p₃, q₃, hother⟩
  have haction : ∀ a, s ≠ .action a := by
    rintro a rfl
    cases hparts
  refine single hserves (fun v _ => haction _) (fun v _ => haction _) hs (fun part hpart => ?_)
    fun part hpart => ?_
  · obtain ⟨p', q', h⟩ := hcases part hpart
    exact h.spares
  · obtain ⟨p', q', h⟩ := hcases part hpart
    exact h.steps

/-- A step without parts. -/
theorem plain {s : Step} (hserves : Serves p [s] q) (hparts : s.parts = [])
    (hacquire : ∀ v ∈ frame, s ≠ .action (.acquire v))
    (hrelease : ∀ v ∈ frame, s ≠ .action (.release v))
    (hbody : ∀ b, s.body? = some b → b.Lowered) : Orderly p frame [s] q := by
  refine single hserves hacquire hrelease ⟨fun iterator item bind body orelse h => ?_, hbody⟩ ?_ ?_
  · rw [h] at hparts
    cases hparts
  · rw [hparts]
    exact nofun
  · rw [hparts]
    exact nofun

/-- An action, which has no parts. -/
theorem action {a : Action} (hserves : Serves p [.action a] q)
    (hacquire : ∀ v ∈ frame, a ≠ .acquire v) (hrelease : ∀ v ∈ frame, a ≠ .release v) :
    Orderly p frame [.action a] q :=
  plain hserves rfl (fun v hv h => hacquire v hv (Step.action.inj h))
    (fun v hv h => hrelease v hv (Step.action.inj h)) nofun

end Orderly

end Code

namespace Build

variable {α β : Type} {id : Nat} {given given' m : Multiset Temp} {taken mid : α → Multiset Temp}

/-- A build that balances and puts down code that is in order. -/
structure Leases (id : Nat) (given : Multiset Temp) (b : Build α) (taken : α → Multiset Temp) :
    Prop extends Balances id given b taken where
  orderly : ∀ t frame r, t.Sound id → t.held id = given + frame → b.run t = .ok r →
    Orderly (t.resources id).pool frame r.code (r.tree.resources id).pool

namespace Leases

/-- The same lease in other words. -/
theorem of_eq {taken' : α → Multiset Temp} {b : Build α} (h : Leases id given b taken)
    (hgiven : given' = given) (htaken : ∀ a, taken a = taken' a) : Leases id given' b taken' := by
  obtain rfl := hgiven
  obtain rfl : taken = taken' := funext htaken
  exact h

theorem frame {b : Build α} (h : Leases id given b taken) (m : Multiset Temp) :
    Leases id (given + m) b fun a => taken a + m where
  toBalances := h.toBalances.frame m
  orderly t frame r ht hheld hr := by
    rw [Multiset.add_assoc] at hheld
    exact (h.orderly t (m + frame) r ht hheld hr).mono (Multiset.le_add_left frame m)

/-- A build that is given nothing, in whatever tree it runs. -/
theorem of_run {b : Build α} (h : Leases id 0 b taken) {t : ScopeTree} {r : Built α}
    (ht : t.Sound id) (hr : b.run t = .ok r) :
    r.tree.Sound id ∧ r.tree.held id = taken r.value + t.held id ∧ t.Aside id r.tree ∧
      Orderly (t.resources id).pool (t.held id) r.code (r.tree.resources id).pool := by
  have hheld : t.held id = 0 + t.held id := (Multiset.zero_add _).symm
  obtain ⟨hsound, hfinal, haside⟩ := h.of_ok t _ r ht hheld hr
  exact ⟨hsound, hfinal, haside, h.orderly t _ r ht hheld hr⟩

/-- A build that puts down no code and does not change the pool. -/
theorem silent {b : Build α} (h : Balances id given b taken)
    (hcode : ∀ t r, b.run t = .ok r →
      r.code = [] ∧ (r.tree.resources id).pool = (t.resources id).pool) :
    Leases id given b taken where
  toBalances := h
  orderly t frame r _ _ hr := by
    obtain ⟨hnil, hpool⟩ := hcode t r hr
    rw [hnil, hpool]
    exact .nil _ frame

theorem pure {a : α} (h : taken a = m) : Leases id m (pure a) taken := by
  refine .silent (.pure h) fun t r hr => ?_
  cases hr
  exact ⟨rfl, rfl⟩

theorem fail {c : Cause} (hc : ∀ x, c ≠ .tempNotInUse x) :
    Leases id given (Build.fail c : Build α) taken := .silent (.fail hc) nofun

theorem lift {x : Except Error α} (hx : ∀ e, x = .error e → ∀ v, e.cause ≠ .tempNotInUse v) :
    Leases id m (Build.lift x) fun _ => m := by
  refine .silent (.lift hx) fun t r hr => ?_
  obtain ⟨a, -, rfl⟩ := run_lift_ok.mp hr
  exact ⟨rfl, rfl⟩

theorem require (b : Bool) {c : Cause} (hc : ∀ x, c ≠ .tempNotInUse x) :
    Leases id m (Build.require b c) fun _ => m := by
  cases b with
  | false => exact fail hc
  | true => exact pure rfl

theorem onTree {f : ScopeTree → α × ScopeTree} (hf : ∀ t, (f t).2.scopes = t.scopes) :
    Leases id m (Build.onTree f) fun _ => m := by
  refine .silent (.onTree hf) fun t r hr => ?_
  cases hr
  rw [ScopeTree.resources, ScopeTree.resources, ScopeTree.scope?, ScopeTree.scope?, hf t]
  exact ⟨rfl, rfl⟩

theorem tree : Leases id m Build.tree fun _ => m := onTree (f := fun t => (t, t)) fun _ => rfl

theorem intern (s : String) : Leases id m (Build.intern s) fun _ => m := onTree fun _ => rfl

/-- One build after another, which is told what the first one gives. -/
theorem bindGives {b : Build α} {f : α → Build β} {P : α → Prop} {taken : β → Multiset Temp}
    (hb : Leases id given b mid) (hP : Gives P b)
    (hf : ∀ a, P a → Leases id (mid a) (f a) taken) : Leases id given (b >>= f) taken where
  toBalances := hb.toBalances.bindGives hP fun a ha => (hf a ha).toBalances
  orderly t frame r ht hheld hr := by
    obtain ⟨first, h₁, second, h₂, rfl⟩ := run_bind_ok.mp hr
    obtain ⟨ht₁, hheld₁, -⟩ := hb.of_ok t frame first ht hheld h₁
    have hfirst := hb.orderly t frame first ht hheld h₁
    exact hfirst.append
      ((hf first.value (hP t first h₁)).orderly first.tree frame second ht₁ hheld₁ h₂)

theorem bind {b : Build α} {f : α → Build β} {taken : β → Multiset Temp}
    (hb : Leases id given b mid) (hf : ∀ a, Leases id (mid a) (f a) taken) :
    Leases id given (b >>= f) taken :=
  hb.bindGives (P := fun _ => True) (fun _ _ _ => trivial) fun a _ => hf a

/-- A build that is given nothing, with some variables in use around it. -/
theorem aroundGives {b : Build α} {f : α → Build β} {P : α → Prop} {taken : β → Multiset Temp}
    (hb : Leases id 0 b mid) (hP : Gives P b) (m : Multiset Temp)
    (hf : ∀ a, P a → Leases id (mid a + m) (f a) taken) : Leases id m (b >>= f) taken :=
  ((hb.frame m).of_eq (Multiset.zero_add m).symm fun _ => rfl).bindGives hP hf

theorem around {b : Build α} {f : α → Build β} {taken : β → Multiset Temp}
    (hb : Leases id 0 b mid) (m : Multiset Temp) (hf : ∀ a, Leases id (mid a + m) (f a) taken) :
    Leases id m (b >>= f) taken :=
  hb.aroundGives (P := fun _ => True) (fun _ _ _ => trivial) m fun a _ => hf a

/-- A build that gives back all that it is given, with some variables in use around it. -/
theorem aside {b : Build α} (h : Leases id given b fun _ => 0) (hm : given' = given + m) :
    Leases id given' b fun _ => m :=
  (h.frame m).of_eq hm fun _ => Multiset.zero_add m

theorem locate {b : Build α} (span : Span) (h : Leases id given b taken) :
    Leases id given (Build.locate span b) taken where
  toBalances := h.toBalances.locate span
  orderly t frame r ht hheld hr := h.orderly t frame r ht hheld (run_locate_ok.mp hr)

/-- A single step that mentions given variables only. -/
theorem emit {s : Step} (hparts : s.parts = []) (hacquire : ∀ v, s ≠ .action (.acquire v))
    (hrelease : ∀ v, s ≠ .action (.release v)) (hbody : ∀ b, s.body? = some b → b.Lowered)
    (hserves : ∀ p : Pool, (∀ v ∈ m, p.isInUse v = true) → Serves p [s] p) :
    Leases id m (Build.emit s) fun _ => m where
  toBalances := .emit s
  orderly t frame r ht hheld hr := by
    cases hr
    refine .plain (hserves _ fun v hv => ?_) hparts (fun v _ => hacquire v) (fun v _ => hrelease v)
      hbody
    have hmem : v ∈ t.held id := by
      rw [hheld]
      exact Multiset.mem_add.mpr (.inl hv)
    exact Pool.mem_held.mp hmem

/-- An action that is no change of use. -/
theorem act {a : Action} (hacquire : ∀ v, a ≠ .acquire v) (hrelease : ∀ v, a ≠ .release v)
    (ha : ∀ v ∈ a.temps, v ∈ m) : Leases id m (Build.act a) fun _ => m := by
  refine emit rfl (fun v h => ?_) (fun v h => ?_) nofun fun p hp => ?_
  · cases h
    exact hacquire v rfl
  · cases h
    exact hrelease v rfl
  · refine .action (Pool.serve_eq (fun v h => ?_) (fun v h => ?_) fun v hv => hp v (ha v hv))
    · cases h
      exact hacquire v rfl
    · cases h
      exact hrelease v rfl

theorem acquire (id : Nat) (type : String) :
    Leases id 0 (Build.acquire id type) fun v => {v} where
  toBalances := (Balances.alloc id type).bind fun _ => (Balances.emit _).bind fun _ => .pure rfl
  orderly t frame r ht hheld hr := by
    rw [run_acquire] at hr
    cases hr
    -- It was free, so it is none of those in use around the build.
    have hnot : (t.alloc id type).1 ∉ frame := by
      intro hmem
      apply ht.pool.alloc_not_held type
      rw [show (t.resources id).pool.held = 0 + frame from hheld, Multiset.zero_add]
      exact hmem
    have hserve : (t.resources id).pool.serve (.action (.acquire (t.alloc id type).1)) =
        some ((t.alloc id type).2.resources id).pool := by
      have htype : (t.alloc id type).1.type = type := Pool.alloc_type _ type
      rw [ht.alloc_pool, Pool.serve, htype]
      exact if_pos rfl
    refine .action (.action hserve) (fun v hv h => ?_) fun v hv h => ?_
    · cases h
      exact hnot hv
    · cases h

theorem release (id : Nat) (v : Temp) : Leases id {v} (Build.release id v) fun _ => 0 where
  toBalances := (Balances.free id v).bind fun _ => .emit _
  orderly t frame r ht hheld hr := by
    obtain ⟨u, hu, rfl⟩ := run_release_ok.mp hr
    -- Nothing is in use twice, so what is given back is not in use around the build as well.
    have hnot : v ∉ frame := by
      have hnodup := ht.pool.held_nodup
      rw [show (t.resources id).pool.held = {v} + frame from hheld, Multiset.singleton_add,
        Multiset.nodup_cons] at hnodup
      exact hnodup.1
    have hserve : (t.resources id).pool.serve (.action (.release v)) =
        some (u.resources id).pool := by
      rw [Pool.serve, ht.free_pool hu]
      rfl
    refine .action (.action hserve) (fun w hw h => ?_) fun w hw h => ?_
    · cases h
    · cases h
      exact hnot hw

end Leases

/-! ### Control flow -/

/-- A build of the other side of a branch or a loop that balances, and whose code is in order. -/
structure LeasesElse (id : Nat) (b : Build (Option (List Step))) : Prop
    extends Balances id 0 b fun _ => 0 where
  orderly : ∀ t frame r, t.Sound id → t.held id = 0 + frame → b.run t = .ok r →
    r.code = [] ∧ Orderly (t.resources id).pool frame (r.value.getD []) (r.tree.resources id).pool

namespace LeasesElse

protected theorem none (id : Nat) : LeasesElse id (Pure.pure Option.none) where
  toBalances := .pure rfl
  orderly t frame r _ _ hr := by
    cases hr
    exact ⟨rfl, .nil _ frame⟩

protected theorem some {b : Build Unit} (h : Leases id 0 b fun _ => 0) :
    LeasesElse id (Build.codeOf b >>= fun steps => Pure.pure (Option.some steps)) where
  toBalances := h.toBalances.codeOf.bind fun _ => .pure rfl
  orderly t frame r ht hheld hr := by
    obtain ⟨first, h₁, second, h₂, rfl⟩ := run_bind_ok.mp hr
    obtain ⟨inner, hinner, rfl⟩ := run_codeOf_ok.mp h₁
    cases h₂
    exact ⟨rfl, h.orderly t frame inner ht hheld hinner⟩

end LeasesElse

namespace Leases

variable {orelse : Build (Option (List Step))}

/-- A branch or a `while` loop: a test, a body that begins by giving back what the test has taken,
and another side. -/
theorem tested {step : List Step → Temp → List Step → Option (List Step) → Step} {β : Type}
    {test : Build (β × Temp)} {body : β × Temp → Build Unit} {heldBy : β × Temp → Multiset Temp}
    (htest : Leases id 0 test fun tested => heldBy tested + {tested.2})
    (hbody : ∀ tested, Leases id (heldBy tested + {tested.2}) (body tested) fun _ => 0)
    (helse : LeasesElse id orelse)
    (hserves : ∀ {p q r s check cond steps other}, Serves p check q → q.isInUse cond = true →
      Serves q steps r → Serves.Else r other s → Serves p [step check cond steps other] s)
    (hparts : ∀ check cond steps other,
      (step check cond steps other).parts = check :: steps :: other.toList)
    (hstep : ∀ check cond steps other, (step check cond steps other).body? = none ∧
      ∀ iterator item bind body orelse,
        step check cond steps other ≠ .forLoop iterator item bind body orelse) :
    Leases id 0
      (do
        let (tested, check) ← collect test
        let steps ← codeOf (body tested)
        let other ← orelse
        Build.emit (step check tested.2 steps other))
      fun _ => 0 where
  toBalances := htest.toBalances.collect.bind fun _ => (hbody _).toBalances.codeOf.bind fun _ =>
    helse.toBalances.bind fun _ => .emit _
  orderly t frame r ht hheld hr := by
    obtain ⟨tested, h₁, second, h₂, rfl⟩ := run_bind_ok.mp hr
    obtain ⟨check, hcheck, rfl⟩ := run_collect_ok.mp h₁
    obtain ⟨steps, h₃, third, h₄, rfl⟩ := run_bind_ok.mp h₂
    obtain ⟨inside, hinside, rfl⟩ := run_codeOf_ok.mp h₃
    obtain ⟨other, hother, last, h₅, rfl⟩ := run_bind_ok.mp h₄
    cases h₅
    obtain ⟨ht₁, hheld₁, -⟩ := htest.of_ok t frame check ht hheld hcheck
    obtain ⟨ht₂, hheld₂, -⟩ := (hbody check.value).of_ok _ frame inside ht₁ hheld₁ hinside
    have hcheck := htest.orderly t frame check ht hheld hcheck
    have hsteps := (hbody check.value).orderly _ frame inside ht₁ hheld₁ hinside
    obtain ⟨hcode, hother⟩ := helse.orderly _ frame other ht₂ hheld₂ hother
    have hcond : (check.tree.resources id).pool.isInUse check.value.2 = true := by
      have hmem : check.value.2 ∈ check.tree.held id := by
        rw [hheld₁]
        exact Multiset.mem_add.mpr (.inl (Multiset.mem_add.mpr (.inr
          (Multiset.mem_singleton_self _))))
      exact Pool.mem_held.mp hmem
    have hwhole := hserves hcheck.serves hcond hsteps.serves hother.serves
    obtain ⟨hbody, hloop⟩ := hstep check.code check.value.2 inside.code other.value
    rw [hcode]
    refine .compound hwhole (hparts _ _ _ _) ⟨fun _ _ _ _ _ h => absurd h (hloop _ _ _ _ _), ?_⟩
      hcheck hsteps hother
    intro b hb
    rw [hbody] at hb
    cases hb

/-- A `for` loop: the item is bound and given back, the body runs, and then there is another side.
The iterator is in use all the while, and none of them is handed it. -/
theorem forLoop {iterator item : Temp} {bind body rest : Build Unit}
    (hbind : Leases id {item} bind fun _ => 0) (hbody : Leases id 0 body fun _ => 0)
    (helse : LeasesElse id orelse) (hrest : Leases id {iterator} rest fun _ => 0) :
    Leases id ({item} + {iterator})
      (do
        let bind ← codeOf bind
        let steps ← codeOf body
        let other ← orelse
        Build.emit (.forLoop iterator item bind steps other)
        rest)
      fun _ => 0 where
  toBalances := by
    have hbind := (hbind.toBalances.frame {iterator}).codeOf
    have hbody := (hbody.toBalances.frame {iterator}).codeOf
    have helse := helse.toBalances.frame {iterator}
    have hrest := hrest.toBalances.of_eq (Multiset.zero_add {iterator}) fun _ => rfl
    exact hbind.bind fun _ => hbody.bind fun _ => helse.bind fun _ =>
      (Balances.emit _).bind fun _ => hrest
  orderly t frame r ht hheld hr := by
    obtain ⟨first, h₁, second, h₂, rfl⟩ := run_bind_ok.mp hr
    obtain ⟨binding, hbinding, rfl⟩ := run_codeOf_ok.mp h₁
    obtain ⟨steps, h₃, third, h₄, rfl⟩ := run_bind_ok.mp h₂
    obtain ⟨inside, hinside, rfl⟩ := run_codeOf_ok.mp h₃
    obtain ⟨other, hother, fourth, h₅, rfl⟩ := run_bind_ok.mp h₄
    obtain ⟨loop, hloop, last, hlast, rfl⟩ := run_bind_ok.mp h₅
    cases hloop
    -- The iterator belongs to what is in use around the parts of the loop.
    have hheld₀ : t.held id = {item} + ({iterator} + frame) := by rw [hheld, Multiset.add_assoc]
    have hmem : ∀ v, v = item ∨ v = iterator → (t.resources id).pool.isInUse v = true := by
      intro v hv
      apply Pool.mem_held.mp
      rw [show (t.resources id).pool.held = _ from hheld]
      rcases hv with rfl | rfl
      · simp
      · simp
    obtain ⟨ht₁, hheld₁, -⟩ := hbind.of_ok t _ binding ht hheld₀ hbinding
    obtain ⟨ht₂, hheld₂, -⟩ := hbody.of_ok _ _ inside ht₁ hheld₁ hinside
    obtain ⟨ht₃, hheld₃, -⟩ := helse.of_ok _ _ other ht₂ hheld₂ hother
    have hbinding := hbind.orderly t _ binding ht hheld₀ hbinding
    have hinside := hbody.orderly _ _ inside ht₁ hheld₁ hinside
    obtain ⟨hcode, hother⟩ := helse.orderly _ _ other ht₂ hheld₂ hother
    rw [Multiset.zero_add] at hheld₃
    have hlast := hrest.orderly _ frame last ht₃ hheld₃ hlast
    have hkeeps : Spares iterator (binding.code ++ inside.code ++ other.value.getD []) := by
      have hin : iterator ∈ {iterator} + frame :=
        Multiset.mem_add.mpr (.inl (Multiset.mem_singleton_self _))
      exact ((hbinding.spares _ hin).append (hinside.spares _ hin)).append (hother.spares _ hin)
    have hserves := Serves.forLoop (hmem item (.inl rfl)) (hmem iterator (.inr rfl)) hbinding.serves
      hinside.serves hother.serves
    have hle : frame ≤ {iterator} + frame := Multiset.le_add_left frame {iterator}
    rw [hcode]
    refine Orderly.append (a := [_]) (.compound hserves rfl ⟨?_, nofun⟩ (hbinding.mono hle)
      (hinside.mono hle) (hother.mono hle)) hlast
    intro iterator' item' bind' body' orelse' h
    cases h
    exact hkeeps

end Leases

theorem bodyWithEnd_balances {body : Build Unit} (returnsNone : Bool)
    (h : Balances id 0 body fun _ => 0) :
    Balances id 0 (bodyWithEnd returnsNone body) fun _ => 0 :=
  (h.bind fun _ => .emit _).codeOf

namespace Leases

/-- The body of a definition is lowered in a scope of its own, and the scope around it is not
touched. -/
theorem entered {cx : Context} {name : String} {kind : ScopeKind} {returnsNone : Bool}
    {body : List Stmt}
    (hbody : ∀ inner, Balances inner 0 (lowerBody cx inner false body) fun _ => 0)
    {t : ScopeTree} {r : Built (List Step)} (ht : t.Sound id)
    (hr : (bodyWithEnd returnsNone (lowerBody cx (t.push id name kind).1 false body)).run
      (t.push id name kind).2 = .ok r) :
    r.tree.Sound id ∧ t.Aside id r.tree ∧ r.tree.resources id = t.resources id ∧
      (CodeBody.ofBuilt (t.push id name kind).1 r).Lowered := by
  have hsound := ScopeTree.Sound.entered ht.isSome name kind
  obtain ⟨-, hheld, haside⟩ := (bodyWithEnd_balances returnsNone (hbody _)).of_ok _ 0 r hsound
    (ScopeTree.held_entered t id name kind) hr
  obtain ⟨haside', hresources⟩ := haside.ofInner hheld ht.isSome
  exact ⟨haside'.grows.sound ht (hresources ▸ ht.pool), haside', hresources, cx, _, returnsNone,
    body, _, r, hsound, ScopeTree.resources_entered t id name kind, hr, rfl⟩

/-- After the body of a definition, the rest runs in a tree in which the scope around it is as it
was. -/
theorem definition_ok {cx : Context} {name : String} {kind : ScopeKind} {returnsNone : Bool}
    {body : List Stmt} {rest : List Step → List Temp → Build α}
    (hbody : ∀ inner, Balances inner 0 (lowerBody cx inner false body) fun _ => 0)
    {t : ScopeTree} {r : Built α} (ht : t.Sound id)
    (hr : (do
      let inner ← Build.onTree (·.push id name kind)
      let steps ← bodyWithEnd returnsNone (lowerBody cx inner false body)
      let temps ← declaredTemps inner
      rest steps temps).run t = .ok r) :
    ∃ u steps temps, u.Sound id ∧ t.Aside id u ∧ u.resources id = t.resources id ∧
      CodeBody.Lowered ⟨temps, steps⟩ ∧ (rest steps temps).run u = .ok r := by
  obtain ⟨inner, h₁, second, h₂, rfl⟩ := run_bind_ok.mp hr
  cases h₁
  obtain ⟨steps, hsteps, third, h₃, rfl⟩ := run_bind_ok.mp h₂
  obtain ⟨temps, htemps, last, hlast, rfl⟩ := run_bind_ok.mp h₃
  cases htemps
  obtain ⟨ht₁, haside, hresources, hlowered⟩ := entered hbody ht hsteps
  -- The code of the body is part of the definition and is not put down by itself.
  obtain ⟨whole, -, rfl⟩ := run_codeOf_ok.mp hsteps
  exact ⟨_, _, _, ht₁, haside, hresources, hlowered, hlast⟩

theorem definition_error {cx : Context} {name : String} {kind : ScopeKind} {returnsNone : Bool}
    {body : List Stmt} {rest : List Step → List Temp → Build α}
    (hbody : ∀ inner, Balances inner 0 (lowerBody cx inner false body) fun _ => 0)
    {t : ScopeTree} {e : Error} (ht : t.Sound id)
    (he : (do
      let inner ← Build.onTree (·.push id name kind)
      let steps ← bodyWithEnd returnsNone (lowerBody cx inner false body)
      let temps ← declaredTemps inner
      rest steps temps).run t = .error e) :
    (∀ v, e.cause ≠ .tempNotInUse v) ∨
      ∃ u steps temps, u.Sound id ∧ u.resources id = t.resources id ∧
        CodeBody.Lowered ⟨temps, steps⟩ ∧ (rest steps temps).run u = .error e := by
  rcases run_bind_error.mp he with he | ⟨inner, h₁, h₂⟩
  · cases he
  · cases h₁
    rcases run_bind_error.mp h₂ with h₂ | ⟨steps, hsteps, h₃⟩
    · left
      intro v
      exact (bodyWithEnd_balances returnsNone (hbody _)).of_error _ 0 e v
        (.entered ht.isSome name kind) (ScopeTree.held_entered t id name kind) h₂
    · rcases run_bind_error.mp h₃ with h₃ | ⟨temps, htemps, hlast⟩
      · cases h₃
      · cases htemps
        obtain ⟨ht₁, -, hresources, hlowered⟩ := entered hbody ht hsteps
        exact .inr ⟨_, _, _, ht₁, hresources, hlowered, hlast⟩

/-- A definition: its body, and what comes after it in the scope around it. -/
theorem definition {cx : Context} {name : String} {kind : ScopeKind} {returnsNone : Bool}
    {body : List Stmt} {rest : List Step → List Temp → Build α}
    (hbody : ∀ inner, Balances inner 0 (lowerBody cx inner false body) fun _ => 0)
    (hrest : ∀ steps temps, CodeBody.Lowered ⟨temps, steps⟩ →
      Leases id m (rest steps temps) taken) :
    Leases id m
      (do
        let inner ← Build.onTree (·.push id name kind)
        let steps ← bodyWithEnd returnsNone (lowerBody cx inner false body)
        let temps ← declaredTemps inner
        rest steps temps)
      taken where
  of_ok t frame r ht hheld hr := by
    obtain ⟨u, steps, temps, hu, haside, hresources, hlowered, hlast⟩ := definition_ok hbody ht hr
    have hheld' : u.held id = m + frame := by
      rw [ScopeTree.held, hresources]
      exact hheld
    obtain ⟨ht', hfinal, haside'⟩ := (hrest _ _ hlowered).of_ok u frame r hu hheld' hlast
    exact ⟨ht', hfinal, haside.trans haside' ht.isSome⟩
  of_error t frame e v ht hheld he := by
    rcases definition_error hbody ht he with
      hne | ⟨u, steps, temps, hu, hresources, hlowered, hlast⟩
    · exact hne v
    · have hheld' : u.held id = m + frame := by
        rw [ScopeTree.held, hresources]
        exact hheld
      exact (hrest _ _ hlowered).of_error u frame e v hu hheld' hlast
  orderly t frame r ht hheld hr := by
    obtain ⟨u, steps, temps, hu, -, hresources, hlowered, hlast⟩ := definition_ok hbody ht hr
    have hheld' : u.held id = m + frame := by
      rw [ScopeTree.held, hresources]
      exact hheld
    rw [← hresources]
    exact (hrest _ _ hlowered).orderly u frame r hu hheld' hlast

end Leases

end Build

end Goward
