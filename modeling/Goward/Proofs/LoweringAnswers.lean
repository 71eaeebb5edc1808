import Goward.Proofs.Answers

/-!
# Lowering answers its requests

Every piece of lowering answers the requests of the syntax that it lowers. The claim on a piece is
made for all registries that hold at least what a given one holds, so what is known of a value stays
known while other code is generated.
-/

namespace Goward

open Goward.Build Goward.Code

theorem ScopeTree.alloc_type (t : ScopeTree) (id : Nat) (type : String) :
    (t.alloc id type).1.type = type := Pool.alloc_type _ type

namespace ScopeTree.At

variable {o : Options} {c : ScopeChain} {id : Nat} {t u : ScopeTree}

/-- The scope is the same after a change that the tree grows by. -/
theorem grow (h : t.At o c id) (hg : t.GrowsTo u) (hu : u.Arises o) : u.At o c id where
  arises := hu
  inTree := hg.isSome h.inTree
  chain := (hg.chain_eq h.arises.rooted hu.rooted id h.inTree).trans h.chain
  classified := h.classified

end ScopeTree.At

namespace Build

open ScopeTree (At GrowsTo)

/-- In a scope with the given chain, and with a registry that holds at least what `r` does, a build
that succeeds answers requests, and its value fits the registry that it leaves behind. -/
def Asks {α : Type} (cx : Context) (c : ScopeChain) (id : Nat) (r : Registry) (b : Build α)
    (reqs : List Request) (V : α → Registry → Prop) : Prop :=
  ∀ t u, t.At cx.options c id → r.Extends t.registry → b.run t = .ok u →
    u.tree.At cx.options c id ∧ Answers cx c reqs u.code t.registry u.tree.registry ∧
      V u.value u.tree.registry

namespace Asks

variable {α β : Type} {cx : Context} {c : ScopeChain} {id : Nat} {r : Registry}
  {reqs q : List Request} {V : α → Registry → Prop} {W : β → Registry → Prop}

theorem pure {a : α} (hV : ∀ r', r.Extends r' → V a r') : Asks cx c id r (pure a) [] V := by
  intro t u ht hr hu
  cases hu
  exact ⟨ht, .nil _, hV _ hr⟩

theorem fail (cause : Cause) : Asks cx c id r (Build.fail cause) reqs V := nofun

theorem mono {b : Build α} {V' : α → Registry → Prop} (h : Asks cx c id r b reqs V)
    (hV : ∀ a r', V a r' → V' a r') : Asks cx c id r b reqs V' := by
  intro t u ht hr hu
  obtain ⟨ht', ha, hv⟩ := h t u ht hr hu
  exact ⟨ht', ha, hV _ _ hv⟩

theorem bind {b : Build α} {f : α → Build β} (hb : Asks cx c id r b reqs V)
    (hf : ∀ a r', r.Extends r' → V a r' → Asks cx c id r' (f a) q W) :
    Asks cx c id r (b >>= f) (reqs ++ q) W := by
  intro t u ht hr hu
  obtain ⟨first, h₁, second, h₂, rfl⟩ := run_bind_ok.mp hu
  obtain ⟨ht₁, ha, hv⟩ := hb t first ht hr h₁
  obtain ⟨ht₂, hb, hw⟩ := hf _ _ (hr.trans ha.grows) hv _ second ht₁ (.refl _) h₂
  exact ⟨ht₂, ha.append hb, hw⟩

/-- What follows a build asks for nothing. -/
theorem andThen {b : Build α} {f : α → Build β} (hb : Asks cx c id r b reqs V)
    (hf : ∀ a r', r.Extends r' → V a r' → Asks cx c id r' (f a) [] W) :
    Asks cx c id r (b >>= f) reqs W := by
  have h := hb.bind hf
  rwa [List.append_nil] at h

/-- What goes before a build asks for nothing. -/
theorem after {b : Build α} {f : α → Build β} (hb : Asks cx c id r b [] V)
    (hf : ∀ a r', r.Extends r' → V a r' → Asks cx c id r' (f a) q W) :
    Asks cx c id r (b >>= f) q W := hb.bind hf

theorem ofTree {f : ScopeTree → Build β}
    (hf : ∀ t, t.At cx.options c id → Asks cx c id r (f t) reqs W) :
    Asks cx c id r (tree >>= f) reqs W := by
  intro t u ht hr hu
  obtain ⟨first, h₁, second, h₂, rfl⟩ := run_bind_ok.mp hu
  cases h₁
  exact hf t ht t second ht hr h₂

theorem lift (x : Except Error α) : Asks cx c id r (Build.lift x) [] fun a _ => x = .ok a := by
  intro t u ht _ hu
  obtain ⟨a, rfl, rfl⟩ := run_lift_ok.mp hu
  exact ⟨ht, .nil _, rfl⟩

theorem require (b : Bool) (cause : Cause) :
    Asks cx c id r (Build.require b cause) [] fun _ _ => b = true := by
  intro t u ht _ hu
  obtain ⟨hb, rfl⟩ := run_require_ok.mp hu
  exact ⟨ht, .nil _, hb⟩

theorem locate {b : Build α} (span : Span) (h : Asks cx c id r b reqs V) :
    Asks cx c id r (Build.locate span b) reqs V :=
  fun t u ht hr hu => h t u ht hr (run_locate_ok.mp hu)

/-- A step without a nested body that looks up no name. -/
theorem emit {s : Step} (hflat : ∀ deep, s.flat deep = [s]) (hdef : s.isDefinition = false)
    (hlookups : s.lookups = []) (hm : ∀ m ∈ s.mentions, m.Fits cx c r) :
    Asks cx c id r (Build.emit s) [] fun _ _ => True := by
  intro t u ht hr hu
  cases hu
  refine ⟨ht, .single hflat hdef rfl rfl hlookups (fun m h => ?_) (fun s => ?_) rfl, trivial⟩
  · exact ⟨(hm m h).1, hr.known (hm m h).2⟩
  · simp [Request.stringsOfAll]

theorem act {a : Action} (hlookups : a.call?.toList.filter Call.isLookup = [])
    (hm : ∀ m ∈ a.mentions, m.Fits cx c r) : Asks cx c id r (Build.act a) [] fun _ _ => True :=
  emit (fun _ => rfl) rfl hlookups hm

theorem acquire (type : String) (htype : type ∈ Temp.types := by decide) :
    Asks cx c id r (Build.acquire id type) [] fun _ _ => True := by
  intro t u ht hr hu
  cases hu
  refine ⟨ht.grow (.setResources t id _) (.alloc id type ht.arises),
    .acquire ((ScopeTree.alloc_type t id type).symm ▸ htype), trivial⟩

theorem release (v : Temp) : Asks cx c id r (Build.release id v) [] fun _ _ => True := by
  refine after (V := fun _ _ => True) ?_ fun _ _ _ _ =>
    act rfl fun _ h => absurd h List.not_mem_nil
  intro t u ht hr hu
  obtain ⟨u, hfree, rfl⟩ := run_free_ok.mp hu
  obtain ⟨q, -, rfl⟩ := ScopeTree.free_ok hfree
  exact ⟨ht.grow (.setResources t id _) (.free ht.arises hfree), .nil _, trivial⟩

theorem releaseValue (v : Value) : Asks cx c id r (Build.releaseValue id v) [] fun _ _ => True := by
  unfold Build.releaseValue
  split
  · exact release _
  · exact .pure fun _ _ => trivial

theorem releaseAll (vs : List Value) :
    Asks cx c id r (Build.releaseAll id vs) [] fun _ _ => True := by
  induction vs generalizing r with
  | nil => exact .pure fun _ _ => trivial
  | cons v rest ih => exact (releaseValue v).after fun _ _ _ _ => ih

theorem callInto {type : String} {k : Call} (hlookup : k.isLookup = false)
    (hm : ∀ m ∈ k.mentions, m.Fits cx c r) (htype : type ∈ Temp.types := by decide) :
    Asks cx c id r (Build.callInto id type k) [] fun _ _ => True := by
  refine (acquire type htype).after fun _ r' hr _ => after (act ?_ fun m h => ?_) fun _ _ _ _ =>
    .pure fun _ _ => trivial
  · simp [Action.call?, hlookup]
  · exact ⟨(hm m h).1, hr.known (hm m h).2⟩

/-- A reference is handed out, and what it refers to is registered. -/
theorem intern_at (s : String) {t : ScopeTree} (ht : t.At cx.options c id) :
    (t.intern s).2.At cx.options c id ∧ (t.intern s).1 = .of s ∧
      (Mention.string (.of s)).Fits cx c (t.intern s).2.registry := by
  have hgrows : t.GrowsTo (t.intern s).2 := fun _ s hs => ⟨s, hs, rfl, rfl⟩
  refine ⟨ht.grow hgrows (.intern s ht.arises), Registry.intern_eq t.registry s, trivial, ?_⟩
  rw [StringRef.of]
  split
  · next hs => exact (Registry.mem_strings_intern t.registry s s).mpr (.inr ⟨hs, rfl⟩)
  · trivial

theorem intern (s : String) : Asks cx c id r (Build.intern s) [.text s] fun ref r' =>
    (Mention.string ref).Fits cx c r' := by
  intro t u ht hr hu
  cases hu
  obtain ⟨ht', hanswer, hknown⟩ := intern_at s ht
  have himports : (t.intern s).2.registry.imports = t.registry.imports :=
    (t.registry.intern_keeps s).2.2
  refine ⟨ht', ⟨rfl, nofun, .nil, nofun, nofun, fun x => ?_, fun p => ?_, nofun⟩, hanswer ▸ hknown⟩
  · have hstrings : Request.stringsOfAll c [.text s] = [s] := rfl
    rw [hstrings, List.mem_singleton]
    exact Registry.mem_strings_intern t.registry s x
  · simp [himports, Request.packagesOfAll, Request.deepAll, Request.deep, Request.package?]

/-- A single step for a request that hands out the reference to a name. -/
theorem answers_keyed {q : Request} {x : String} {s : Step} {t : ScopeTree}
    (hflat : ∀ deep, s.flat deep = [s]) (hdef : s.isDefinition = false)
    (hentered : q.entered? = none) (hpackages : Request.packagesOfAll cx.options [q] = [])
    (hstrings : q.strings c = [x])
    (hlookups : s.lookups = q.lookups c) (hm : ∀ m ∈ s.mentions, m.Fits cx c (t.intern x).2.registry) :
    Answers cx c [q] [s] t.registry (t.intern x).2.registry := by
  refine .single hflat hdef ?_ hpackages ?_ hm (fun y => ?_) (t.registry.intern_keeps x).2.2
  · rw [List.filterMap_cons, hentered, List.filterMap_nil]
  · rw [hlookups, List.flatMap_singleton]
  · rw [Request.stringsOfAll, hstrings, Request.stringsOfAll, List.append_nil, List.mem_singleton]
    exact Registry.mem_strings_intern t.registry x y

/-- What is asked for by a request for a name that is addressed by a string. -/
structure Keyed (cx : Context) (c : ScopeChain) (x : String) (q : Request) : Prop where
  entered : q.entered? = none
  packages : Request.packagesOfAll cx.options [q] = []
  strings : q.strings c = [x]

theorem keyedAct {q : Request} {x : String} {call : StringRef → Call} (hq : Keyed cx c x q)
    (hlookups : [call (.of x)].filter Call.isLookup = q.lookups c)
    (hm : ∀ r', r.Extends r' → (Mention.string (.of x)).Fits cx c r' →
      ∀ m ∈ (call (.of x)).mentions, m.Fits cx c r') :
    Asks cx c id r (do Build.act (.perform (call (← Build.intern x)))) [q] fun _ _ => True := by
  intro t u ht hr hu
  cases hu
  obtain ⟨ht', hanswer, hknown⟩ := intern_at x ht
  have hextends : t.registry.Extends (t.intern x).2.registry :=
    (intern x t _ ht (.refl _) rfl).2.1.grows
  refine ⟨ht', ?_, trivial⟩
  show Answers cx c [q] [.action (.perform (call (t.intern x).1))] _ _
  rw [hanswer]
  exact answers_keyed (fun _ => rfl) rfl hq.entered hq.packages hq.strings hlookups
    (hm _ (hr.trans hextends) hknown)

theorem keyedCall {q : Request} {x : String} {type : String} {call : StringRef → Call}
    (hq : Keyed cx c x q) (hlookups : [call (.of x)].filter Call.isLookup = q.lookups c)
    (hm : ∀ r', (Mention.string (.of x)).Fits cx c r' →
      ∀ m ∈ (call (.of x)).mentions, m.Fits cx c r') (htype : type ∈ Temp.types := by decide) :
    Asks cx c id r (do
      let key ← Build.intern x
      return Value.temp (← Build.callInto id type (call key))) [q] fun v r' => v.Fits cx c r' := by
  intro t u ht hr hu
  cases hu
  obtain ⟨ht', hanswer, hknown⟩ := intern_at x ht
  refine ⟨ht'.grow (.setResources _ id _) (.alloc id type ht'.arises), ?_,
    fun m hmem => absurd hmem List.not_mem_nil⟩
  show Answers cx c [q] ([.action (.acquire ((t.intern x).2.alloc id type).1)] ++
    [.action (.store ((t.intern x).2.alloc id type).1 (call (t.intern x).1))]) _ _
  rw [hanswer]
  have hacquire : Answers cx c [] [.action (.acquire ((t.intern x).2.alloc id type).1)] t.registry
      t.registry := .acquire ((ScopeTree.alloc_type _ id type).symm ▸ htype)
  exact hacquire.append (answers_keyed (fun _ => rfl) rfl hq.entered hq.packages hq.strings
    hlookups (hm _ hknown))

/-! ### Names -/

theorem readName (x : String) :
    Asks cx c id r (Build.readName id x) [.read x] fun v r' => v.Fits cx c r' := by
  refine ofTree fun t ht => ?_
  rw [ScopeTree.access_eq_chain ht.arises.rooted, ht.chain]
  split
  · next haccess =>
    have hq : Keyed cx c x (.read x) := ⟨rfl, rfl, by simp [Request.strings, haccess]⟩
    exact keyedCall hq (by rw [Request.lookups, haccess]; rfl)
      fun r' h m hm => List.mem_singleton.mp hm ▸ h
  · next closure haccess =>
    have hq : Keyed cx c x (.read x) := ⟨rfl, rfl, by simp [Request.strings, haccess]⟩
    refine keyedCall hq (by rw [Request.lookups, haccess]; rfl) fun r' h m hm => ?_
    rcases List.mem_append.mp hm with hm | hm
    · cases closure with
      | false => cases hm
      | true =>
        obtain rfl := List.mem_singleton.mp hm
        exact ⟨ScopeChain.inSlot_of_closure haccess, trivial⟩
    · exact List.mem_singleton.mp hm ▸ h
  · next haccess =>
    have hheld : ∀ r' : Registry, (Mention.slot x).Fits cx c r' :=
      fun _ => ⟨ScopeChain.inSlot_of_access haccess, trivial⟩
    intro t u ht hr hu
    cases hu
    refine ⟨ht, ?_, fun m hm => List.mem_singleton.mp hm ▸ hheld _⟩
    refine .single (fun _ => rfl) rfl rfl rfl ?_ (fun m hm => List.mem_singleton.mp hm ▸ hheld _)
      (fun y => ?_) rfl
    · rw [List.flatMap_singleton, Request.lookups, haccess]
      rfl
    · simp [Request.stringsOfAll, Request.strings, haccess]

/-- A step for a store or a delete of a name in a slot. -/
theorem answers_slot {q : Request} {x : String} {a : Action}
    (hq : q = .store x ∨ q = .delete x) (hhome : c.home? x = some .slot)
    (hlookups : a.call?.toList.filter Call.isLookup = q.lookups c)
    (hm : ∀ m ∈ a.mentions, m.Fits cx c r) : Answers cx c [q] [.action a] r r := by
  refine .single (fun _ => rfl) rfl ?_ ?_ ?_ hm (fun y => ?_) rfl
  · rcases hq with rfl | rfl <;> rfl
  · rcases hq with rfl | rfl <;> rfl
  · rw [List.flatMap_singleton, ← hlookups]
    rfl
  · rcases hq with rfl | rfl <;> simp [Request.stringsOfAll, Request.strings, hhome]

theorem storeName (x : String) {v : Value} (hv : v.Fits cx c r) :
    Asks cx c id r (Build.storeName id x v) [.store x] fun _ _ => True := by
  refine ofTree fun t ht => ?_
  rw [ScopeTree.home?_eq_chain ht.arises.rooted, ht.chain]
  have hkeyed (hhome : c.home? x ≠ some .slot) : Keyed cx c x (.store x) :=
    ⟨rfl, rfl, if_neg hhome⟩
  have hmentions : ∀ r', r.Extends r' → (Mention.string (.of x)).Fits cx c r' →
      ∀ m ∈ Mention.string (.of x) :: v.mentions, m.Fits cx c r' := by
    intro r' hr h m hm
    rcases List.mem_cons.mp hm with rfl | hm
    · exact h
    · exact hr.fits hv m hm
  split
  · exact fail _
  · next hhome => exact keyedAct (hkeyed (by simp [hhome])) rfl hmentions
  · next hhome => exact keyedAct (hkeyed (by simp [hhome])) rfl hmentions
  · next hhome =>
    intro t u ht hr hu
    cases hu
    refine ⟨ht, answers_slot (.inl rfl) hhome rfl fun m hm => ?_, trivial⟩
    rcases List.mem_cons.mp hm with rfl | hm
    · exact ⟨ScopeChain.inSlot_of_home hhome, trivial⟩
    · exact hr.fits hv m hm

theorem deleteName (x : String) :
    Asks cx c id r (Build.deleteName id x) [.delete x] fun _ _ => True := by
  refine ofTree fun t ht => ?_
  rw [ScopeTree.home?_eq_chain ht.arises.rooted, ht.chain]
  have hkeyed (hhome : c.home? x ≠ some .slot) : Keyed cx c x (.delete x) :=
    ⟨rfl, rfl, if_neg hhome⟩
  have hmentions : ∀ r' : Registry, r.Extends r' → (Mention.string (.of x)).Fits cx c r' →
      ∀ m ∈ [Mention.string (.of x)], m.Fits cx c r' :=
    fun _ _ h m hm => List.mem_singleton.mp hm ▸ h
  have hlookups (hhome : c.home? x ≠ some .slot) : (Request.delete x).lookups c = [] :=
    if_neg hhome
  split
  · exact fail _
  · next hhome =>
    have hne : c.home? x ≠ some .slot := by simp [hhome]
    exact keyedAct (hkeyed hne) (hlookups hne).symm hmentions
  · next hhome =>
    have hne : c.home? x ≠ some .slot := by simp [hhome]
    exact keyedAct (hkeyed hne) (hlookups hne).symm hmentions
  · next hhome =>
    have hheld : ∀ r' : Registry, (Mention.slot x).Fits cx c r' :=
      fun _ => ⟨ScopeChain.inSlot_of_home hhome, trivial⟩
    refine andThen (V := fun _ _ => True) ?_ fun _ r' _ _ =>
      act rfl fun _ hm => List.mem_singleton.mp hm ▸ hheld r'
    intro t u ht hr hu
    cases hu
    refine ⟨ht, answers_slot (.inr rfl) hhome (if_pos hhome).symm fun m hm => ?_, trivial⟩
    exact List.mem_singleton.mp hm ▸ hheld _

theorem constructFrom {k : Construction} (hk : ∀ m ∈ k.mentions, m.Fits cx c r) (vs : List Value) :
    Asks cx c id r (Build.constructFrom id k vs) [] fun v r' => v.Fits cx c r' := by
  refine (acquire _).after fun _ r' hr _ => after (act rfl fun m hm => ?_) fun _ _ _ _ =>
    (releaseAll vs).after fun _ _ _ _ => .pure fun _ _ m hm => absurd hm List.not_mem_nil
  exact ⟨(hk m hm).1, hr.known (hk m hm).2⟩

theorem callWith {call : Call} (hlookup : call.isLookup = false)
    (hm : ∀ m ∈ call.mentions, m.Fits cx c r) (vs : List Value) :
    Asks cx c id r (Build.callWith id call vs) [] fun v r' => v.Fits cx c r' :=
  (callInto hlookup hm).after fun _ _ _ _ => (releaseAll vs).after fun _ _ _ _ =>
    .pure fun _ _ _ hm => absurd hm List.not_mem_nil

theorem suspend {v : Value} (hv : v.Fits cx c r) :
    Asks cx c id r (Build.suspend id v) [] fun v r' => v.Fits cx c r' :=
  (emit (s := .suspend v) (fun _ => rfl) rfl rfl hv).after fun _ _ _ _ =>
    (releaseValue v).after fun _ _ _ _ => constructFrom (fun _ h => absurd h List.not_mem_nil) []

theorem requireGenerator : Asks cx c id r (Build.requireGenerator id) [] fun _ _ => True :=
  ofTree fun _ _ => (require _ _).mono fun _ _ _ => trivial

end Asks

variable {cx : Context} {c : ScopeChain} {id : Nat}

theorem fits_flatMap {r : Registry} {vs : List Value} (h : ∀ v ∈ vs, v.Fits cx c r) :
    ∀ m ∈ vs.flatMap Value.mentions, m.Fits cx c r := by
  intro m hm
  obtain ⟨v, hv, hm⟩ := List.mem_flatMap.mp hm
  exact h v hv m hm

mutual

theorem lowerExpr_asks {r : Registry} : (e : Expr) →
    Asks cx c id r (lowerExpr id e) e.requests fun v r' => v.Fits cx c r'
  | .name x => .readName x
  | .str s => (Asks.intern s).andThen fun _ _ _ hs => .pure fun _ hr _ hm =>
      List.mem_singleton.mp hm ▸ ⟨hs.1, hr.known hs.2⟩
  | .int _ => .pure fun _ _ _ hm => absurd hm List.not_mem_nil
  | .tuple elts => (lowerExprs_asks elts).andThen fun vs _ _ hvs =>
      .constructFrom (k := .tuple vs) (fits_flatMap hvs) vs
  | .list elts => (lowerExprs_asks elts).andThen fun vs _ _ hvs =>
      .constructFrom (k := .list vs) (fits_flatMap hvs) vs
  | .attr obj _ =>
    (lowerExpr_asks obj).bind fun v _ _ hv => (Asks.intern _).andThen fun _ _ hr hs =>
      .callWith rfl (fun m hm => (List.mem_append.mp hm).elim (hr.fits hv m)
        fun hm => List.mem_singleton.mp hm ▸ hs) [v]
  | .call fn args =>
    (lowerExpr_asks fn).bind fun f _ _ hf => (lowerExprs_asks args).andThen fun vs _ hr hvs =>
      .callWith rfl (fun m hm => (List.mem_append.mp hm).elim (hr.fits hf m) (fits_flatMap hvs m))
        (f :: vs)
  | .binop left _ right =>
    (lowerExpr_asks left).bind fun _ _ _ hl => (lowerExpr_asks right).andThen fun _ _ hr hv =>
      .callWith rfl (fun m hm => (List.mem_append.mp hm).elim (hr.fits hl m) (hv m)) _
  | .yield none => Asks.requireGenerator.after fun _ _ _ _ =>
      .suspend fun _ hm => absurd hm List.not_mem_nil
  | .yield (some value) => Asks.requireGenerator.after fun _ _ _ _ =>
      (lowerExpr_asks value).andThen fun _ _ _ hv => .suspend hv

theorem lowerExprs_asks {r : Registry} : (es : List Expr) →
    Asks cx c id r (lowerExprs id es) (Expr.requestsOfAll es) fun vs r' => ∀ v ∈ vs, v.Fits cx c r'
  | [] => .pure fun _ _ _ hv => absurd hv List.not_mem_nil
  | e :: rest =>
    (lowerExpr_asks e).bind fun _ _ _ hv => (lowerExprs_asks rest).andThen fun _ _ hr hvs =>
      .pure fun _ hr' w hw => (List.mem_cons.mp hw).elim
        (fun h => h ▸ (hr.trans hr').fits hv) fun h => hr'.fits (hvs w h)

end

theorem unpack_asks {r : Registry} {v : Value} (hv : v.Fits cx c r) (n : Nat)
    {store : Temp → Build Unit} {qs : List Request}
    (hs : ∀ items r', r.Extends r' → Asks cx c id r' (store items) qs fun _ _ => True) :
    Asks cx c id r (unpack id v n store) qs fun _ _ => True := by
  refine (Asks.acquire _).after fun items r₁ h₁ _ =>
    (Asks.act rfl fun _ h => absurd h List.not_mem_nil).after fun _ r₂ h₂ _ => ?_
  have htie := (h₁.trans h₂).fits hv
  exact (Asks.act (a := .perform (.tie items n v)) rfl htie).after fun _ r₃ h₃ _ =>
    (hs items r₃ ((h₁.trans h₂).trans h₃)).andThen fun _ _ _ _ => .release items

mutual

theorem storeInto_asks {r : Registry} {v : Value} (hv : v.Fits cx c r) : (e : Expr) →
    Asks cx c id r (storeInto id v e) e.targetRequests fun _ _ => True
  | .name x => .storeName x hv
  | .attr obj _ =>
    (lowerExpr_asks obj).bind fun w _ h₁ hw => (Asks.intern _).andThen fun _ _ h₂ hs =>
      (Asks.act rfl fun m hm => (List.mem_append.mp hm).elim (h₂.fits hw m) fun hm =>
        (List.mem_cons.mp hm).elim (fun h => h ▸ hs) ((h₁.trans h₂).fits hv m)).after
      fun _ _ _ _ => .releaseValue w
  | .tuple elts => unpack_asks hv _ fun items _ _ => storeItems_asks items 0 elts
  | .list elts => unpack_asks hv _ fun items _ _ => storeItems_asks items 0 elts
  | .str _ | .int _ | .call _ _ | .binop _ _ _ | .yield _ => .fail _

theorem storeItems_asks {r : Registry} (items : Temp) : (index : Nat) → (es : List Expr) →
    Asks cx c id r (storeItems id items index es) (Expr.targetRequestsOfAll es) fun _ _ => True
  | _, [] => .pure fun _ _ => trivial
  | index, e :: rest =>
    (storeInto_asks (fun _ hm => absurd hm List.not_mem_nil) e).bind fun _ _ _ _ =>
      storeItems_asks items (index + 1) rest

end

theorem storeIntoAll_asks {r : Registry} {v : Value} (hv : v.Fits cx c r) (es : List Expr) :
    Asks cx c id r (storeIntoAll id v es) (Expr.targetRequestsOfAll es) fun _ _ => True := by
  induction es generalizing r with
  | nil => exact .pure fun _ _ => trivial
  | cons e rest ih => exact (storeInto_asks hv e).bind fun _ _ hr _ => ih (hr.fits hv)

theorem deleteAll_asks {r : Registry} : (es : List Expr) →
    Asks cx c id r (deleteAll id es) (Expr.deleteRequests es) fun _ _ => True
  | [] => .pure fun _ _ => trivial
  | .name x :: rest => (Asks.deleteName x).bind fun _ _ _ _ => deleteAll_asks rest
  | .str _ :: _ | .int _ :: _ | .tuple _ :: _ | .list _ :: _ | .attr _ _ :: _ | .call _ _ :: _
  | .binop _ _ _ :: _ | .yield _ :: _ => .fail _

/-! ### Imports -/

/-- A package is handed out; so far nothing of it is used. -/
theorem addNative_asks {r : Registry} (path : String) :
    Asks cx c id r (onTree (·.addNative path)) [.native path false] fun p r' =>
      p = Registry.packageFor cx.options path ∧ p ∈ r'.imports := by
  intro t u ht hr hu
  cases hu
  obtain ⟨hanswer, -, hmem⟩ := ht.arises.canonical.addNative path
  have hgrows : t.GrowsTo (t.addNative path).2 := fun _ s hs => ⟨s, hs, rfl, rfl⟩
  have hstrings : (t.addNative path).2.registry.strings = t.registry.strings :=
    Registry.strings_addNative t.registry path
  refine ⟨ht.grow hgrows (.addNative path ht.arises),
    ⟨rfl, nofun, .nil, nofun, nofun, fun s => ?_, fun p => ?_, fun p hp => ?_⟩, hanswer,
    (hmem _).mpr (.inr hanswer)⟩
  · simp [hstrings, Request.stringsOfAll, Request.strings]
  · show p ∈ (t.registry.addNative path).2.imports ↔ _
    simpa [Request.packagesOfAll, Request.deepAll, Request.deep, Request.package?] using hmem p
  · simp [Request.packagesOfAll, Request.deepAll, Request.deep, Request.package?] at hp

/-- The packages below the library root for some paths. -/
def libraries (o : Options) (paths : List String) : List Package :=
  paths.map fun path => Registry.packageFor o (o.libroot ++ "/" ++ path)

/-- The requests for packages below the library root, of which nothing is used so far. -/
def unusedLibraries (o : Options) (paths : List String) : List Request :=
  paths.map fun path => .native (o.libroot ++ "/" ++ path) false

theorem addPackages_asks {r : Registry} (parts : List String) : ∀ before,
    Asks cx c id r (addPackages before parts)
      (unusedLibraries cx.options (ModulePath.prefixesAfter before parts)) fun packages r' =>
        packages = libraries cx.options (ModulePath.prefixesAfter before parts) ∧
          ∀ p ∈ packages, p ∈ r'.imports := by
  induction parts generalizing r with
  | nil => exact fun _ => .pure fun _ _ => ⟨rfl, nofun⟩
  | cons part rest ih =>
    intro before
    have hadd : Asks cx c id r (onTree (·.addImport ("/".intercalate (before ++ [part]))))
        (unusedLibraries cx.options ["/".intercalate (before ++ [part])]) fun p r' =>
          p = Registry.packageFor cx.options
            (cx.options.libroot ++ "/" ++ "/".intercalate (before ++ [part])) ∧ p ∈ r'.imports := by
      intro t u ht hr hu
      cases hu
      have hroot : t.registry.libroot = cx.options.libroot := ht.arises.canonical.libroot
      refine addNative_asks (cx.options.libroot ++ "/" ++ "/".intercalate (before ++ [part])) t _ ht
        hr ?_
      rw [← hroot]
      rfl
    refine hadd.bind fun p r₁ _ hp => (ih (before ++ [part])).andThen fun ps r₂ hr hps =>
      .pure fun r' hr' => ⟨?_, ?_⟩
    · rw [hp.1, hps.1]
      rfl
    · intro q hq
      rcases List.mem_cons.mp hq with rfl | hq
      · exact hr'.imports (hr.imports hp.2)
      · exact hr'.imports (hps.2 q hq)

theorem use_libraries {paths : List String} {code : List Step} {r r' : Registry}
    (h : Answers cx c (unusedLibraries cx.options paths) code r r')
    (hused : ∀ p ∈ libraries cx.options paths, .package p ∈ Step.mentionsOf true code) :
    Answers cx c (paths.map .library) code r r' := by
  have hunused : Request.packagesOfAll cx.options (unusedLibraries cx.options paths) =
      paths.map fun path =>
        (Registry.packageFor cx.options (cx.options.libroot ++ "/" ++ path), false) :=
    Request.packagesOfAll_map (fun _ => rfl) (fun _ => rfl) paths
  have hlibraries : Request.packagesOfAll cx.options (paths.map .library) =
      paths.map fun path =>
        (Registry.packageFor cx.options (cx.options.libroot ++ "/" ++ path), true) :=
    Request.packagesOfAll_map (fun _ => rfl) (fun _ => rfl) paths
  refine h.use ?_ ?_ ?_ ?_ ?_ fun p hp => hused p ?_
  · simp [unusedLibraries, List.flatMap_map, Request.lookups]
  · simp [unusedLibraries, List.filterMap_map, Request.entered?]
  · simp [unusedLibraries, Request.stringsOfAll_eq_flatMap, List.flatMap_map, Request.strings]
  · simp [unusedLibraries, Request.deepAll_eq_flatMap, List.flatMap_map, Request.deep]
  · rw [hunused, hlibraries, List.map_map, List.map_map]
    rfl
  · rw [hlibraries] at hp
    obtain ⟨path, hpath, hp⟩ := List.mem_map.mp hp
    exact List.mem_map.mpr ⟨path, hpath, congrArg Prod.fst hp⟩

/-- The call that loads a module mentions the packages that have been registered for it. -/
theorem loadModule_asks {r : Registry} (path : ModulePath) :
    Asks cx c id r (loadModule id path) path.requests fun _ _ => True := by
  refine (Asks.require _ _).after fun _ r' _ _ => ?_
  intro t u ht hr hu
  obtain ⟨first, h₁, second, h₂, rfl⟩ := run_bind_ok.mp hu
  obtain ⟨ht₁, ha, hpackages, himports⟩ := addPackages_asks path.parts [] t first ht hr h₁
  have hload : ∀ m ∈ (Call.importModule (path.join ".") first.value).mentions,
      m.Fits cx c first.tree.registry := by
    intro m hm
    obtain ⟨p, hp, rfl⟩ := List.mem_map.mp hm
    exact ⟨trivial, himports p hp⟩
  obtain ⟨ht₂, hb, -⟩ :=
    Asks.callInto rfl hload (by decide) first.tree second ht₁ (.refl _) h₂
  have hanswers := ha.append hb
  rw [List.append_nil] at hanswers
  refine ⟨ht₂, use_libraries hanswers fun p hp => ?_, trivial⟩
  rw [run_callInto] at h₂
  cases h₂
  rw [Step.mentionsOf_append]
  refine List.mem_append_right _
    (List.mem_flatMap.mpr ⟨_, List.mem_cons_of_mem _ List.mem_cons_self, ?_⟩)
  exact List.mem_map.mpr ⟨p, hpackages ▸ hp, rfl⟩

theorem importModule_asks {r : Registry} (a : Alias) :
    Asks cx c id r (importModule id a) (a.path.requests ++ a.bound?.toList.map .store)
      fun _ _ => True := by
  refine (loadModule_asks a.path).bind fun modules _ _ _ => ?_
  have hitem (index : Nat) (r : Registry) : (Value.item modules index).Fits cx c r :=
    fun _ hm => absurd hm List.not_mem_nil
  split
  · next x hx =>
    rw [Alias.bound?, hx]
    exact (Asks.storeName x (hitem _ _)).andThen fun _ _ _ _ => .release modules
  · next x hx hfirst =>
    rw [Alias.bound?, hx, hfirst]
    exact (Asks.storeName x (hitem _ _)).andThen fun _ _ _ _ => .release modules
  · exact (Asks.fail (V := fun _ _ => True) _).andThen fun _ _ _ _ => .release modules

theorem importModules_asks {r : Registry} (names : List Alias) :
    Asks cx c id r (importModules id names) (importRequests names) fun _ _ => True := by
  induction names generalizing r with
  | nil => exact .pure fun _ _ => trivial
  | cons a rest ih => exact (importModule_asks a).bind fun _ _ _ _ => ih

theorem importMember_asks {r : Registry} (x : String) {call : Call} {reqs : List Request}
    (hcall : Asks cx c id r (callInto id Temp.objectType call) reqs fun _ _ => True) :
    Asks cx c id r (importMember id x call) (reqs ++ [.store x]) fun _ _ => True :=
  hcall.bind fun member _ _ _ =>
    (Asks.storeName x fun _ hm => absurd hm List.not_mem_nil).andThen fun _ _ _ _ => .release member

theorem importMembers_asks {r : Registry} {module : Value} (hmodule : ∀ r, module.Fits cx c r)
    (names : List Alias) : Asks cx c id r (importMembers id module names)
      ((names.filterMap (·.member?)).flatMap fun m => [.text m.1, .store m.2]) fun _ _ => True := by
  induction names generalizing r with
  | nil => exact .pure fun _ _ => trivial
  | cons a rest ih =>
    unfold importMembers
    cases hlast : a.path.last? with
    | none =>
      rw [List.filterMap_cons_none (by rw [Alias.member?, hlast]; rfl)]
      exact ih
    | some name =>
      rw [List.filterMap_cons_some (by rw [Alias.member?, hlast]; rfl), List.flatMap_cons]
      refine (Asks.intern name).bind (q := .store _ :: _) fun attr r' _ hattr =>
        (importMember_asks _ (.callInto rfl fun m hm => ?_)).bind fun _ _ _ _ => ih
      exact (List.mem_append.mp hm).elim (hmodule r' m) fun hm => List.mem_singleton.mp hm ▸ hattr

/-- A member of a Go package becomes an object. -/
theorem wrapNative_asks {r : Registry} {reflect package : Package} (hreflect : reflect ∈ r.imports)
    (hpackage : package ∈ r.imports) (name : String) :
    Asks cx c id r (callInto id Temp.objectType (.wrapNative reflect package name)) [.member name]
      fun _ _ => True := by
  refine (Asks.acquire _).after fun member r₁ hr₁ _ => Asks.andThen (V := fun _ _ => True) ?_
    fun _ _ _ _ => .pure fun _ _ => trivial
  intro t u ht hr hu
  cases hu
  refine ⟨ht, .step (fun _ => rfl) rfl rfl rfl ?_ ?_ ?_ (fun s => ?_) rfl rfl, trivial⟩
  · intro x hx
    simp [Step.mentions, Action.mentions, Call.mentions] at hx
  · intro m hm
    simp only [Step.mentions, Action.mentions, Call.mentions, List.mem_cons, List.not_mem_nil,
      or_false] at hm
    rcases hm with rfl | rfl | rfl
    · exact hr.imports (hr₁.imports hreflect)
    · exact hr.imports (hr₁.imports hpackage)
    · trivial
  · intro name' hm
    simp only [Step.mentions, Action.mentions, Call.mentions, List.mem_cons, List.not_mem_nil,
      or_false, reduceCtorEq, Mention.member.injEq, false_or] at hm
    exact hm ▸ List.mem_singleton.mpr rfl
  · simp [Request.stringsOfAll, Request.strings]

theorem importNativeMembers_asks {r : Registry} {reflect package : Package}
    (hreflect : reflect ∈ r.imports) (hpackage : package ∈ r.imports) (names : List Alias) :
    Asks cx c id r (importNativeMembers id reflect package names)
      ((names.filterMap (·.member?)).flatMap fun m => [.member m.1, .store m.2])
      fun _ _ => True := by
  induction names generalizing r with
  | nil => exact .pure fun _ _ => trivial
  | cons a rest ih =>
    unfold importNativeMembers
    cases hlast : a.path.last? with
    | none =>
      rw [List.filterMap_cons_none (by rw [Alias.member?, hlast]; rfl)]
      exact ih hreflect hpackage
    | some name =>
      rw [List.filterMap_cons_some (by rw [Alias.member?, hlast]; rfl), List.flatMap_cons]
      exact (importMember_asks _ (wrapNative_asks hreflect hpackage name)).bind fun _ r' hr _ =>
        ih (hr.imports hreflect) (hr.imports hpackage)

/-- If a member is imported, then the code uses its package and that for reflection. -/
theorem importNativeMembers_mentions {reflect package : Package} {names : List Alias}
    (hnames : names.filterMap (·.member?) ≠ []) {t : ScopeTree} {u : Built Unit}
    (hu : (importNativeMembers id reflect package names).run t = .ok u) :
    .package reflect ∈ Step.mentionsOf true u.code ∧
      .package package ∈ Step.mentionsOf true u.code := by
  induction names generalizing t with
  | nil => exact absurd rfl hnames
  | cons a rest ih =>
    unfold importNativeMembers at hu
    cases hlast : a.path.last? with
    | none =>
      rw [List.filterMap_cons_none (by rw [Alias.member?, hlast]; rfl)] at hnames
      rw [hlast] at hu
      exact ih hnames hu
    | some name =>
      rw [hlast] at hu
      obtain ⟨first, h₁, second, -, rfl⟩ := run_bind_ok.mp hu
      obtain ⟨member, hmember, stored, -, rfl⟩ := run_bind_ok.mp h₁
      rw [run_callInto] at hmember
      cases hmember
      simp [Step.mentionsOf, Step.flatAll, Step.flat, Step.mentions, Action.mentions, Call.mentions]

theorem importNative_asks {r : Registry} (path : List String) (names : List Alias) :
    Asks cx c id r (importNative id path names)
      (let members := names.filterMap (·.member?)
      let used := !members.isEmpty
      [.native ("/".intercalate path) used, .native "reflect" used] ++
        members.flatMap fun m => [.member m.1, .store m.2]) fun _ _ => True := by
  refine (Asks.require _ _).after fun _ r' _ _ => ?_
  intro t u ht hr hu
  obtain ⟨first, h₁, second, h, rfl⟩ := run_bind_ok.mp hu
  obtain ⟨ht₁, ha, hpackage⟩ := addNative_asks _ t first ht hr h₁
  obtain ⟨reflect, h₂, third, h₃, rfl⟩ := run_bind_ok.mp h
  obtain ⟨ht₂, hb, hreflect⟩ := addNative_asks _ first.tree reflect ht₁ (.refl _) h₂
  obtain ⟨ht₃, hc, -⟩ := importNativeMembers_asks hreflect.2 (hb.grows.imports hpackage.2) names
    reflect.tree third ht₂ (.refl _) h₃
  have hanswers := ha.append (hb.append hc)
  refine ⟨ht₃, ?_, trivial⟩
  cases hmembers : names.filterMap (·.member?) with
  | nil =>
    rw [hmembers] at hanswers
    exact hanswers
  | cons m rest =>
    rw [hmembers] at hanswers
    refine hanswers.use rfl rfl rfl (fun _ h => ?_) rfl fun p hp => ?_
    · simpa [Request.deepAll, Request.deep] using h
    · have hused := importNativeMembers_mentions (by rw [hmembers]; exact List.cons_ne_nil m rest) h₃
      have hnone : Request.packagesOfAll cx.options
          ((m :: rest).flatMap fun m => [.member m.1, .store m.2]) = [] := by
        simp [Request.packagesOfAll, Request.deepAll_eq_flatMap, List.filterMap_flatMap,
          List.flatMap_assoc, Request.deep, Request.package?]
      rw [Request.packagesOfAll_append, hnone, List.append_nil] at hp
      rw [Step.mentionsOf_append, Step.mentionsOf_append]
      refine List.mem_append_right _ (List.mem_append_right _ ?_)
      rcases List.mem_cons.mp hp with hp | hp
      · have hp : p = first.value := (congrArg Prod.fst hp).trans hpackage.1.symm
        exact hp ▸ hused.2
      · have hp : p = reflect.value :=
          (congrArg Prod.fst (List.mem_singleton.mp hp)).trans hreflect.1.symm
        exact hp ▸ hused.1

theorem importFrom_asks {r : Registry} (path : ModulePath) (names : List Alias) (level : Nat) :
    Asks cx c id r (importFrom id path names level) (importFromRequests path names)
      fun _ _ => True := by
  refine (Asks.require _ _).after fun _ _ _ _ => ?_
  rw [importFromRequests]
  split
  · next hnative =>
    rw [if_pos (by rw [ModulePath.isNative, hnative]; rfl)]
    exact importNative_asks path.parts.tail names
  · next hnative =>
    rw [if_neg (by simpa [ModulePath.isNative] using hnative)]
    exact (loadModule_asks path).bind fun modules _ _ _ =>
      (importMembers_asks (fun _ _ hm => absurd hm List.not_mem_nil) names).andThen
        fun _ _ _ _ => .release modules

end Build

end Goward
