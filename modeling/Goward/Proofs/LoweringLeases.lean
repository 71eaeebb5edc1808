import Goward.Proofs.Classification
import Goward.Proofs.Leases
import Goward.Proofs.Rendering

/-!
# Leases of lowering

What lowering leases: an expression is given nothing and leaves in use the scratch variable that its
value is, if it is one. Whatever stores a value leaves in use what was, and so does every statement.
-/

namespace Goward

open Goward.Build Goward.Code

namespace Code.Value

/-- The scratch variable that a value is. -/
def held (v : Value) : Multiset Temp := (v.temp?.toList : List Temp)

/-- The scratch variables among some values. -/
def heldAll (vs : List Value) : Multiset Temp := (vs.map held).sum

/-- A value that an expression may have: a scratch variable, the slot of a name, or a literal. -/
def IsResult : Value → Prop
  | temp _ | slot _ | str _ | int _ => True
  | noneObject | item _ _ | verbatim _ => False

/-- A value that mentions no other scratch variable than it is. -/
def Owns (v : Value) : Prop := ∀ w ∈ v.temps, w ∈ v.held

@[simp] theorem held_temp (t : Temp) : (temp t).held = {t} := rfl

@[simp] theorem heldAll_nil : heldAll [] = 0 := rfl

@[simp] theorem heldAll_cons (v : Value) (vs : List Value) :
    heldAll (v :: vs) = v.held + heldAll vs := by
  rw [heldAll, List.map_cons, List.sum_cons, heldAll]

theorem IsResult.owns {v : Value} (h : v.IsResult) : v.Owns := by
  cases v with
  | temp t => exact fun w hw => Multiset.mem_coe.mpr hw
  | slot _ | str _ | int _ => exact nofun
  | noneObject | item _ _ | verbatim _ => exact h.elim

theorem mem_heldAll {vs : List Value} (h : ∀ v ∈ vs, v.Owns) :
    ∀ w ∈ vs.flatMap temps, w ∈ heldAll vs := by
  induction vs with
  | nil => exact nofun
  | cons v rest ih =>
    intro w hw
    rw [List.flatMap_cons] at hw
    rw [heldAll_cons, Multiset.mem_add]
    rcases List.mem_append.mp hw with hw | hw
    · exact .inl (h v List.mem_cons_self w hw)
    · exact .inr (ih (fun v hv => h v (List.mem_cons_of_mem _ hv)) w hw)

end Code.Value

namespace Build

variable {id : Nat} {m : Multiset Temp}

theorem mem_taken (v : Temp) (m : Multiset Temp) : v ∈ {v} + m :=
  Multiset.mem_add.mpr (.inl (Multiset.mem_singleton_self v))

theorem mem_given {v w : Temp} (h : w ∈ m) : w ∈ {v} + m := Multiset.mem_add.mpr (.inr h)

theorem releaseValue_leases (id : Nat) (v : Value) :
    Leases id v.held (releaseValue id v) fun _ => 0 := by
  cases hv : v.temp? with
  | none =>
    have hheld : v.held = 0 := by rw [Value.held, hv]; rfl
    rw [releaseValue, hv, hheld]
    exact .pure rfl
  | some t =>
    have hheld : v.held = {t} := by rw [Value.held, hv]; rfl
    rw [releaseValue, hv, hheld]
    exact .release id t

theorem releaseAll_leases (id : Nat) (vs : List Value) :
    Leases id (Value.heldAll vs) (releaseAll id vs) fun _ => 0 := by
  induction vs with
  | nil => exact .pure rfl
  | cons v rest ih =>
    exact ((releaseValue_leases id v).aside (Value.heldAll_cons v rest)).bind fun _ => ih

theorem callInto_leases (id : Nat) (type : String) {c : Call} (hc : ∀ w ∈ c.temps, w ∈ m) :
    Leases id m (callInto id type c) fun v => {v} + m := by
  refine (Leases.acquire id type).around m fun v => ?_
  have hstore : ∀ w ∈ v :: c.temps, w ∈ {v} + m :=
    List.forall_mem_cons.mpr ⟨mem_taken v m, fun w hw => mem_given (hc w hw)⟩
  exact .bind (.act nofun nofun hstore) fun _ => .pure rfl

/-- A result that is made in a fresh scratch variable, from operands that are given back. -/
theorem constructFrom_leases (id : Nat) {k : Construction} (vs : List Value)
    (hk : ∀ w ∈ k.temps, w ∈ Value.heldAll vs) :
    Leases id (Value.heldAll vs) (constructFrom id k vs) Value.held := by
  refine (Leases.acquire id _).around _ fun t => ?_
  have hmake : ∀ w ∈ t :: k.temps, w ∈ {t} + Value.heldAll vs :=
    List.forall_mem_cons.mpr ⟨mem_taken t _, fun w hw => mem_given (hk w hw)⟩
  have hrelease := (releaseAll_leases id vs).aside (Multiset.add_comm {t} _)
  exact .bind (.act nofun nofun hmake) fun _ => hrelease.bind fun _ => .pure rfl

theorem callWith_leases (id : Nat) {c : Call} (vs : List Value)
    (hc : ∀ w ∈ c.temps, w ∈ Value.heldAll vs) :
    Leases id (Value.heldAll vs) (callWith id c vs) Value.held := by
  refine (callInto_leases id _ hc).bind fun t => ?_
  exact ((releaseAll_leases id vs).aside (Multiset.add_comm {t} _)).bind fun _ => .pure rfl

theorem readName_leases (id : Nat) (x : String) : Leases id 0 (readName id x) Value.held := by
  have hask (c : Call) (hc : c.temps = []) :
      Leases id 0 (callInto id Temp.objectType c >>= fun t => pure (.temp t)) Value.held := by
    have hcall := callInto_leases (m := 0) id Temp.objectType (c := c) (by rw [hc]; exact nofun)
    exact (hcall.of_eq rfl fun v => (Multiset.add_zero {v}).symm).bind fun v => .pure rfl
  refine Leases.tree.bind fun t => ?_
  split
  · exact (Leases.intern x).bind fun _ => hask (.resolveGlobal _) rfl
  · exact (Leases.intern x).bind fun _ => hask (.resolveClass _ _) rfl
  · exact .bind (.act nofun nofun nofun) fun _ => .pure rfl

theorem storeName_leases (id : Nat) (x : String) {v : Value} (hv : ∀ w ∈ v.temps, w ∈ m) :
    Leases id m (storeName id x v) fun _ => m := by
  have hfail : Leases id m (fail (.unclassifiedName x) : Build Unit) fun _ => m :=
    .fail nofun
  have hitem (names : Namespace) (key : StringRef) :
      Leases id m (act (.perform (.setItem names key v))) fun _ => m := .act nofun nofun hv
  have hslot : Leases id m (act (.setSlot x v)) fun _ => m := .act nofun nofun hv
  refine Leases.tree.bind fun t => ?_
  split
  · exact hfail
  · exact (Leases.intern x).bind fun _ => hitem _ _
  · exact (Leases.intern x).bind fun _ => hitem _ _
  · exact hslot

theorem deleteName_leases (id : Nat) (x : String) : Leases id m (deleteName id x) fun _ => m := by
  have hfail : Leases id m (fail (.deleteNonexistentLocal x) : Build Unit) fun _ => m :=
    .fail nofun
  have hcall {c : Call} (hc : ∀ v ∈ c.temps, v ∈ m) : Leases id m (act (.perform c)) fun _ => m :=
    .act nofun nofun hc
  have hslot : Leases id m (act (.clearSlot x)) fun _ => m := .act nofun nofun nofun
  refine Leases.tree.bind fun t => ?_
  split
  · exact hfail
  · exact (Leases.intern x).bind fun _ => hcall (List.forall_mem_nil _)
  · exact (Leases.intern x).bind fun _ => hcall (List.forall_mem_nil _)
  · exact (hcall (List.forall_mem_nil _)).bind fun _ => hslot

theorem requireGenerator_leases (id : Nat) : Leases id m (requireGenerator id) fun _ => m :=
  Leases.tree.bind fun _ => .require _ nofun

theorem suspend_leases (id : Nat) {v : Value} (hv : v.Owns) :
    Leases id v.held (suspend id v) Value.held := by
  have hemit : Leases id v.held (emit (.suspend v)) fun _ => v.held :=
    .emit rfl nofun nofun nofun fun p hp => .suspend fun w hw => hp w (hv w hw)
  exact hemit.bind fun _ => (releaseValue_leases id v).bind fun _ =>
    constructFrom_leases id [] nofun

theorem constructFrom_result (id : Nat) (k : Construction) (vs : List Value) :
    Gives Value.IsResult (constructFrom id k vs) :=
  .bind fun _ => .bind fun _ => .bind fun _ => .pure trivial

theorem callWith_result (id : Nat) (c : Call) (vs : List Value) :
    Gives Value.IsResult (callWith id c vs) :=
  .bind fun _ => .bind fun _ => .pure trivial

theorem readName_result (id : Nat) (x : String) : Gives Value.IsResult (readName id x) := by
  refine .bind fun t => ?_
  split
  · exact .bind fun _ => .bind fun _ => .pure trivial
  · exact .bind fun _ => .bind fun _ => .pure trivial
  · exact .bind fun _ => .pure trivial

theorem suspend_result (id : Nat) (v : Value) : Gives Value.IsResult (suspend id v) :=
  .bind fun _ => .bind fun _ => constructFrom_result id _ _

theorem lowerExpr_result (id : Nat) (e : Expr) : Gives Value.IsResult (lowerExpr id e) := by
  cases e with
  | name x => exact readName_result id x
  | str _ => exact .bind fun _ => .pure trivial
  | int _ => exact .pure trivial
  | tuple _ | list _ => exact .bind fun _ => constructFrom_result id _ _
  | attr _ _ | call _ _ | binop _ _ _ =>
    exact .bind fun _ => .bind fun _ => callWith_result id _ _
  | yield value =>
    cases value with
    | none => exact .bind fun _ => suspend_result id _
    | some _ => exact .bind fun _ => .bind fun _ => suspend_result id _

theorem lowerExpr_owns (id : Nat) (e : Expr) : Gives Value.Owns (lowerExpr id e) :=
  fun t r h => (lowerExpr_result id e t r h).owns

theorem lowerExprs_owns (id : Nat) (es : List Expr) :
    Gives (fun vs => ∀ v ∈ vs, v.Owns) (lowerExprs id es) := by
  induction es with
  | nil => exact .pure nofun
  | cons e rest ih =>
    intro t r h
    obtain ⟨first, h₁, second, h₂, rfl⟩ := run_bind_ok.mp h
    obtain ⟨others, h₃, last, h₄, rfl⟩ := run_bind_ok.mp h₂
    cases h₄
    intro v hv
    rcases List.mem_cons.mp hv with rfl | hv
    · exact lowerExpr_owns id e t first h₁
    · exact ih first.tree others h₃ v hv

mutual

theorem lowerExpr_leases (id : Nat) : (e : Expr) → Leases id 0 (lowerExpr id e) Value.held
  | .name x => readName_leases id x
  | .str s => (Leases.intern s).bind fun ref => .pure rfl
  | .int n => .pure rfl
  | .tuple elts =>
    (lowerExprs_leases id elts).bindGives (lowerExprs_owns id elts) fun _ hvs =>
      constructFrom_leases id _ (Value.mem_heldAll hvs)
  | .list elts =>
    (lowerExprs_leases id elts).bindGives (lowerExprs_owns id elts) fun _ hvs =>
      constructFrom_leases id _ (Value.mem_heldAll hvs)
  | .attr obj name => by
    refine (lowerExpr_leases id obj).bindGives (lowerExpr_owns id obj) fun v hv => ?_
    have hcall (attr : StringRef) :
        Leases id v.held (callWith id (.getAttr v attr) [v]) Value.held :=
      (callWith_leases id [v] fun w hw => by simpa using hv w hw).of_eq (by simp) fun _ => rfl
    exact (Leases.intern name).bind hcall
  | .call fn args => by
    refine (lowerExpr_leases id fn).bindGives (lowerExpr_owns id fn) fun f hf => ?_
    refine (lowerExprs_leases id args).aroundGives (lowerExprs_owns id args) f.held fun vs hvs => ?_
    have howns : ∀ v ∈ f :: vs, v.Owns := List.forall_mem_cons.mpr ⟨hf, hvs⟩
    have hcall := callWith_leases id (c := .invoke f vs) (f :: vs) (Value.mem_heldAll howns)
    refine hcall.of_eq ?_ fun _ => rfl
    rw [Value.heldAll_cons, Multiset.add_comm]
  | .binop left op right => by
    refine (lowerExpr_leases id left).bindGives (lowerExpr_owns id left) fun l hl => ?_
    refine (lowerExpr_leases id right).aroundGives (lowerExpr_owns id right) l.held fun r hr => ?_
    have howns : ∀ v ∈ [l, r], v.Owns := by simp [hl, hr]
    refine (callWith_leases id [l, r] fun w hw => ?_).of_eq ?_ fun _ => rfl
    · refine Value.mem_heldAll howns w ?_
      simpa [Call.temps] using hw
    · simp [Multiset.add_comm]
  | .yield none =>
    (requireGenerator_leases id).bind fun _ => suspend_leases id (v := .noneObject) nofun
  | .yield (some value) =>
    (requireGenerator_leases id).bind fun _ =>
      (lowerExpr_leases id value).bindGives (lowerExpr_owns id value) fun _ hv =>
        suspend_leases id hv

theorem lowerExprs_leases (id : Nat) :
    (es : List Expr) → Leases id 0 (lowerExprs id es) Value.heldAll
  | [] => .pure rfl
  | e :: rest => by
    refine (lowerExpr_leases id e).bind fun v => ?_
    refine (lowerExprs_leases id rest).around v.held fun vs => ?_
    refine .pure ?_
    rw [Value.heldAll_cons, Multiset.add_comm]

end

theorem unpack_leases (id : Nat) {v : Value} (n : Nat) {store : Temp → Build Unit}
    (hv : ∀ w ∈ v.temps, w ∈ m)
    (hstore : ∀ items, Leases id ({items} + m) (store items) fun _ => {items} + m) :
    Leases id m (unpack id v n store) fun _ => m := by
  refine (Leases.acquire id arrayType).around m fun items => ?_
  have hmake : ∀ w ∈ [items], w ∈ {items} + m := List.forall_mem_singleton.mpr (mem_taken items m)
  have htie : ∀ w ∈ items :: v.temps, w ∈ {items} + m :=
    List.forall_mem_cons.mpr ⟨mem_taken items m, fun w hw => mem_given (hv w hw)⟩
  exact .bind (.act nofun nofun hmake) fun _ => .bind (.act nofun nofun htie) fun _ =>
    (hstore items).bind fun _ => (Leases.release id items).aside rfl

mutual

theorem storeInto_leases (id : Nat) {m : Multiset Temp} {v : Value} (hv : ∀ w ∈ v.temps, w ∈ m) :
    (e : Expr) → Leases id m (storeInto id v e) fun _ => m
  | .name x => storeName_leases id x hv
  | .attr obj name => by
    refine (lowerExpr_leases id obj).aroundGives (lowerExpr_owns id obj) m fun o ho => ?_
    refine (Leases.intern name).bind fun attr => .bind (.act nofun nofun fun w hw => ?_) fun _ => ?_
    · rcases List.mem_append.mp hw with hw | hw
      · exact Multiset.mem_add.mpr (.inl (ho w hw))
      · exact Multiset.mem_add.mpr (.inr (hv w hw))
    · exact (releaseValue_leases id o).aside rfl
  | .tuple elts =>
    unpack_leases id elts.length hv fun items => storeItems_leases id (mem_taken items m) 0 elts
  | .list elts =>
    unpack_leases id elts.length hv fun items => storeItems_leases id (mem_taken items m) 0 elts
  | .str _ | .int _ | .call _ _ | .binop _ _ _ | .yield _ => .fail nofun

theorem storeItems_leases (id : Nat) {m : Multiset Temp} {items : Temp} (hitems : items ∈ m) :
    (index : Nat) → (es : List Expr) → Leases id m (storeItems id items index es) fun _ => m
  | _, [] => .pure rfl
  | index, e :: rest => by
    have hitem : ∀ w ∈ [items], w ∈ m := List.forall_mem_singleton.mpr hitems
    exact (storeInto_leases id (v := .item items index) hitem e).bind fun _ =>
      storeItems_leases id hitems (index + 1) rest

end

theorem storeIntoAll_leases (id : Nat) {v : Value} (hv : ∀ w ∈ v.temps, w ∈ m) (es : List Expr) :
    Leases id m (storeIntoAll id v es) fun _ => m := by
  induction es with
  | nil => exact .pure rfl
  | cons e rest ih => exact (storeInto_leases id hv e).bind fun _ => ih

theorem deleteAll_leases (id : Nat) : (es : List Expr) → Leases id m (deleteAll id es) fun _ => m
  | [] => .pure rfl
  | .name x :: rest => (deleteName_leases id x).bind fun _ => deleteAll_leases id rest
  | .str _ :: _ | .int _ :: _ | .tuple _ :: _ | .list _ :: _ | .attr _ _ :: _ | .call _ _ :: _
  | .binop _ _ _ :: _ | .yield _ :: _ => .fail nofun

/-! ### Imports -/

theorem addPackages_leases (id : Nat) (before parts : List String) :
    Leases id m (addPackages before parts) fun _ => m := by
  induction parts generalizing before with
  | nil => exact .pure rfl
  | cons part rest ih => exact .bind (.onTree fun _ => rfl) fun _ => (ih _).bind fun _ => .pure rfl

theorem loadModule_leases (id : Nat) (path : ModulePath) :
    Leases id 0 (loadModule id path) fun modules => {modules} := by
  refine .bind (.require _ nofun) fun _ => (addPackages_leases id [] path.parts).bind
    fun packages => ?_
  have hcall := callInto_leases (m := 0) id arrayType
    (c := .importModule (path.join ".") packages) nofun
  exact hcall.of_eq rfl fun v => Multiset.add_zero {v}

theorem importModule_leases (id : Nat) (a : Alias) :
    Leases id 0 (importModule id a) fun _ => 0 := by
  refine (loadModule_leases id a.path).bind fun modules => ?_
  have hitem (index : Nat) : ∀ w ∈ (Value.item modules index).temps, w ∈ ({modules} : Multiset _) :=
    List.forall_mem_singleton.mpr (Multiset.mem_singleton_self modules)
  cases a.asName with
  | some x => exact (storeName_leases id x (hitem _)).bind fun _ => .release id modules
  | none =>
    cases a.path.first? with
    | some x => exact (storeName_leases id x (hitem _)).bind fun _ => .release id modules
    | none => exact .bind (.fail nofun) fun _ => .release id modules

theorem importMember_leases (id : Nat) (x : String) {c : Call} (hc : ∀ w ∈ c.temps, w ∈ m) :
    Leases id m (importMember id x c) fun _ => m := by
  refine (callInto_leases id _ hc).bind fun member => ?_
  have hmember : ∀ w ∈ (Value.temp member).temps, w ∈ {member} + m :=
    List.forall_mem_singleton.mpr (mem_taken member m)
  exact (storeName_leases id x hmember).bind fun _ => (Leases.release id member).aside rfl

theorem importMembers_leases (id : Nat) {module : Value} (hm : ∀ w ∈ module.temps, w ∈ m)
    (names : List Alias) : Leases id m (importMembers id module names) fun _ => m := by
  induction names with
  | nil => exact .pure rfl
  | cons a rest ih =>
    unfold importMembers
    cases a.path.last? with
    | none => exact ih
    | some name =>
      exact (Leases.intern name).bind fun attr =>
        (importMember_leases id _ (c := .getAttr module attr) hm).bind fun _ => ih

theorem importNativeMembers_leases (id : Nat) (reflect package : Package) (names : List Alias) :
    Leases id m (importNativeMembers id reflect package names) fun _ => m := by
  have hwrap (member : String) : ∀ w ∈ (Call.wrapNative reflect package member).temps, w ∈ m :=
    nofun
  induction names with
  | nil => exact .pure rfl
  | cons a rest ih =>
    unfold importNativeMembers
    cases a.path.last? with
    | none => exact ih
    | some name => exact (importMember_leases id _ (hwrap _)).bind fun _ => ih

theorem importFrom_leases (id : Nat) (path : ModulePath) (names : List Alias) (level : Nat) :
    Leases id 0 (importFrom id path names level) fun _ => 0 := by
  refine .bind (.require _ nofun) fun _ => ?_
  split
  · exact .bind (.require _ nofun) fun _ => .bind (.onTree fun _ => rfl) fun package =>
      .bind (.onTree fun _ => rfl) fun reflect =>
        importNativeMembers_leases id reflect package names
  · refine (loadModule_leases id path).bind fun modules =>
      (importMembers_leases id ?_ names).bind fun _ => .release id modules
    exact List.forall_mem_singleton.mpr (Multiset.mem_singleton_self modules)

theorem importModules_leases (id : Nat) (names : List Alias) :
    Leases id 0 (importModules id names) fun _ => 0 := by
  induction names with
  | nil => exact .pure rfl
  | cons a rest ih => exact (importModule_leases id a).bind fun _ => ih

theorem annotate_leases (cx : Context) (id : Nat) (span : Span) :
    Leases id m (annotate cx span) fun _ => m := by
  unfold annotate
  split
  · exact .pure rfl
  · split
    · exact .pure rfl
    · exact .act nofun nofun nofun

theorem lowerTest_leases (id : Nat) (test : Expr) :
    Leases id 0 (lowerTest id test) fun tested => tested.1.held + {tested.2} := by
  refine (lowerExpr_leases id test).bindGives (lowerExpr_owns id test) fun v hv => ?_
  exact (callInto_leases id "bool" (c := .isTrue v) hv).bind fun cond =>
    .pure (Multiset.add_comm _ _)

theorem releaseTest_leases (id : Nat) (tested : Value × Temp) :
    Leases id (tested.1.held + {tested.2}) (releaseTest id tested) fun _ => 0 := by
  exact ((releaseValue_leases id tested.1).aside rfl).bind fun _ => .release id tested.2

theorem updateName_leases (id : Nat) (x : String) (op : BinOp) (value : Expr) :
    Leases id 0 (updateName id x op value) fun _ => 0 := by
  refine (readName_leases id x).bindGives (readName_result id x) fun l hl => ?_
  refine (lowerExpr_leases id value).aroundGives (lowerExpr_owns id value) l.held fun r hr => ?_
  have howns : ∀ v ∈ [l, r], v.Owns := by simp [hl.owns, hr]
  have hoperands : Value.heldAll [l, r] = r.held + l.held := by simp [Multiset.add_comm]
  refine (callInto_leases id Temp.objectType fun w hw => ?_).bind fun result => ?_
  · rw [← hoperands]
    refine Value.mem_heldAll howns w ?_
    simpa [Call.temps] using hw
  · have hgiven : {result} + (r.held + l.held) = Value.heldAll [l, r] + {result} := by
      rw [hoperands, Multiset.add_comm]
    have hresult : ∀ w ∈ (Value.temp result).temps, w ∈ ({result} : Multiset Temp) :=
      List.forall_mem_singleton.mpr (Multiset.mem_singleton_self result)
    exact ((releaseAll_leases id [l, r]).aside hgiven).bind fun _ =>
      (storeName_leases id x hresult).bind fun _ => .release id result

/-- A return mentions the scratch variables of its value. -/
theorem ret_leases (id : Nat) {v : Option Value}
    (hv : ∀ w ∈ (v.map Value.temps).getD [], w ∈ m) :
    Leases id m (emit (.ret v)) fun _ => m :=
  .emit rfl nofun nofun nofun fun _ hp =>
    .instr (fun _ => rfl) (Pool.serve_eq nofun nofun fun w hw => hp w (hv w hw))

theorem lowerReturn_leases (id : Nat) (value : Option Expr) :
    Leases id 0 (lowerReturn id value) fun _ => 0 := by
  refine Leases.tree.bind fun t => ?_
  split
  · exact .fail nofun
  · split
    · exact ret_leases id nofun
    · exact .fail nofun
    · exact ret_leases id nofun
    · refine (lowerExpr_leases id _).bindGives (lowerExpr_owns id _) fun v hv => ?_
      exact (ret_leases id (v := some v) hv).bind fun _ => releaseValue_leases id v

theorem defineFunction_leases (cx : Context) (id : Nat) (name : String) (params : Parameters)
    (f : FunctionVars) {body : List Stmt}
    (hbody : ∀ inner, Balances inner 0 (lowerBody cx inner false body) fun _ => 0) :
    Leases id 0 (defineFunction id name params f fun inner => lowerBody cx inner false body)
      fun _ => 0 := by
  refine .definition hbody fun steps temps hlowered => ?_
  refine (Leases.acquire id Temp.objectType).bind fun fn => ?_
  have hfn : ∀ w ∈ [fn], w ∈ ({fn} : Multiset Temp) :=
    List.forall_mem_singleton.mpr (Multiset.mem_singleton_self fn)
  refine .bind (.emit rfl nofun nofun (fun b hb => ?_) fun _ hp => ?_) fun _ =>
    (storeName_leases id name (v := .temp fn) hfn).bind fun _ => .release id fn
  · cases hb
    exact hlowered
  · exact .instr (fun _ => rfl) (Pool.serve_eq nofun nofun fun w hw => hp w (hfn w hw))

theorem defineClass_leases (cx : Context) (id : Nat) (name : String) (bases : List Expr)
    (vars : VarMap) {body : List Stmt}
    (hbody : ∀ inner, Balances inner 0 (lowerBody cx inner false body) fun _ => 0) :
    Leases id 0 (defineClass cx id name bases vars fun inner => lowerBody cx inner false body)
      fun _ => 0 := by
  refine (lowerExprs_leases id bases).bindGives (lowerExprs_owns id bases) fun vs hvs => ?_
  refine (Leases.acquire id _).around _ fun tuple => ?_
  have htuple : ∀ w ∈ tuple :: vs.flatMap Value.temps, w ∈ {tuple} + Value.heldAll vs :=
    List.forall_mem_cons.mpr ⟨mem_taken tuple _, fun w hw => mem_given (Value.mem_heldAll hvs w hw)⟩
  have hrelease := (releaseAll_leases id vs).aside (Multiset.add_comm {tuple} _)
  -- The bases go once the tuple holds them; it and the dictionary stay until the class is made.
  refine .bind (.act nofun nofun htuple) fun _ => hrelease.bind fun _ =>
    (Leases.acquire id _).around {tuple} fun names => ?_
  have hnames : ∀ w ∈ [names], w ∈ ({names} + {tuple} : Multiset Temp) := by simp
  refine .bind (.act nofun nofun hnames) fun _ => (Leases.intern _).bind fun module =>
    .bind (.act nofun nofun hnames) fun _ => .definition hbody fun steps temps hlowered => ?_
  refine (Leases.acquire id _).around _ fun code => ?_
  refine .bind (.emit rfl nofun nofun (fun b hb => ?_) fun p hp => ?_) fun _ => ?_
  · cases hb
    exact hlowered
  · refine .instr (fun _ => rfl) (Pool.serve_eq nofun nofun fun w hw => hp w ?_)
    rw [← Multiset.add_assoc]
    exact Multiset.mem_add.mpr (.inl (by simpa [Instr.temps] using hw))
  refine .bind (.act nofun nofun (by simp [Action.temps, Call.temps])) fun _ =>
    (Leases.intern name).bind fun key => ?_
  refine (callInto_leases id Temp.objectType (by simp [Call.temps])).bind fun cls => ?_
  refine (storeName_leases id name (by simp [Value.temps])).bind fun _ => ?_
  exact (releaseAll_leases id [.temp cls, .temp code, .temp names, .temp tuple]).of_eq (by simp)
    fun _ => rfl

mutual

/-- A statement gives back all that it takes. Its scope varies in the induction, because the bodies
of definitions are lowered in other scopes. -/
theorem lowerStmt_leases (cx : Context) : (id : Nat) → (inLoop : Bool) → (s : Stmt) →
    Leases id 0 (lowerStmt cx id inLoop s) fun _ => 0
  | id, inLoop, .mk span kind =>
    (annotate_leases cx id span).bind fun _ => (lowerKind_leases cx id inLoop kind).locate span

theorem lowerKind_leases (cx : Context) : (id : Nat) → (inLoop : Bool) → (kind : StmtKind) →
    Leases id 0 (lowerKind cx id inLoop kind) fun _ => 0
  | id, _, .assign targets value =>
    (lowerExpr_leases id value).bindGives (lowerExpr_owns id value) fun v hv =>
      (storeIntoAll_leases id hv targets).bind fun _ => releaseValue_leases id v
  | id, _, .augAssign (.name x) op value => updateName_leases id x op value
  | _, _, .augAssign (.str _) _ _ | _, _, .augAssign (.int _) _ _
  | _, _, .augAssign (.tuple _) _ _ | _, _, .augAssign (.list _) _ _
  | _, _, .augAssign (.attr _ _) _ _ | _, _, .augAssign (.call _ _) _ _
  | _, _, .augAssign (.binop _ _ _) _ _ | _, _, .augAssign (.yield _) _ _ => .fail nofun
  | id, _, .delete targets => deleteAll_leases id targets
  | _, _, .global _ => .pure rfl
  | id, _, .imports names => importModules_leases id names
  | id, _, .importsFrom path names level => importFrom_leases id path names level
  | id, _, .functionDef name params body =>
    .bind (.lift fun _ he _ => (classifyFunction_error he).ne nofun) fun f =>
      defineFunction_leases cx id name params f fun inner =>
        (lowerBody_leases cx inner false body).toBalances
  | id, _, .classDef name bases body =>
    .bind (.lift fun _ he _ => (VarMap.observeAll_error he).ne nofun) fun vars =>
      defineClass_leases cx id name bases vars fun inner =>
        (lowerBody_leases cx inner false body).toBalances
  | id, inLoop, .forEach target iter body orelse => by
    refine (lowerExpr_leases id iter).bindGives (lowerExpr_owns id iter) fun v hv => ?_
    refine (callInto_leases id Temp.objectType (c := .iter v) hv).bind fun iterator => ?_
    have hrelease := (releaseValue_leases id v).aside (Multiset.add_comm {iterator} _)
    refine hrelease.bind fun _ => (Leases.acquire id Temp.objectType).around {iterator}
      fun item => ?_
    have hitem : ∀ w ∈ (Value.temp item).temps, w ∈ ({item} : Multiset Temp) :=
      List.forall_mem_singleton.mpr (Multiset.mem_singleton_self item)
    exact .forLoop ((storeInto_leases id hitem target).bind fun _ => .release id item)
      (lowerBody_leases cx id true body) (lowerElse_leases cx id inLoop orelse)
      (.release id iterator)
  | id, inLoop, .whileLoop test body orelse =>
    .tested (lowerTest_leases id test)
      (fun tested => (releaseTest_leases id tested).bind fun _ => lowerBody_leases cx id true body)
      (lowerElse_leases cx id inLoop orelse) .whileLoop (fun _ _ _ _ => rfl)
      fun _ _ _ _ => ⟨rfl, nofun⟩
  | id, inLoop, .branch test body orelse =>
    .tested (lowerTest_leases id test)
      (fun tested => (releaseTest_leases id tested).bind fun _ =>
        lowerBody_leases cx id inLoop body)
      (lowerElse_leases cx id inLoop orelse) .branch (fun _ _ _ _ => rfl)
      fun _ _ _ _ => ⟨rfl, nofun⟩
  | _, _, .withItems _ _ => .fail nofun
  | _, _, .tryExcept _ _ _ _ => .fail nofun
  | id, _, .ret value => lowerReturn_leases id value
  | id, _, .expr value => (lowerExpr_leases id value).bind fun v => releaseValue_leases id v
  | id, inLoop, .breakLoop => by
    unfold lowerKind
    split
    · exact .emit rfl nofun nofun nofun fun p _ => .single fun l => Serves.loopJump p _ l
    · exact .fail nofun
  | id, inLoop, .continueLoop => by
    unfold lowerKind
    split
    · exact .emit rfl nofun nofun nofun fun p _ => .single fun l => Serves.loopJump p _ l
    · exact .fail nofun
  | _, _, .pass => .pure rfl

theorem lowerElse_leases (cx : Context) : (id : Nat) → (inLoop : Bool) → (body : List Stmt) →
    LeasesElse id (lowerElse cx id inLoop body)
  | id, _, [] => .none id
  | id, inLoop, s :: rest =>
    .some ((lowerStmt_leases cx id inLoop s).bind fun _ => lowerBody_leases cx id inLoop rest)

theorem lowerBody_leases (cx : Context) : (id : Nat) → (inLoop : Bool) → (body : List Stmt) →
    Leases id 0 (lowerBody cx id inLoop body) fun _ => 0
  | _, _, [] => .pure rfl
  | id, inLoop, s :: rest =>
    (lowerStmt_leases cx id inLoop s).bind fun _ => lowerBody_leases cx id inLoop rest

end

end Build

namespace CodeBody

/-- The code of a body that was lowered is in order. It uses the variables that the body declares,
and in the end none is in use. -/
theorem Lowered.orderly {b : CodeBody} (h : b.Lowered) :
    ∃ p : Pool, p.Valid ∧ p.temps = b.temps ∧ p.held = 0 ∧ Orderly {} 0 b.code p := by
  obtain ⟨cx, id, returnsNone, body, t, r, ht, hempty, hr, rfl⟩ := h
  obtain ⟨inner, hinner, rfl⟩ := run_codeOf_ok.mp hr
  have hret : Leases id 0 (emit (.ret (if returnsNone then some .noneObject else none)))
      fun _ => 0 := by
    refine ret_leases id ?_
    cases returnsNone <;> exact nofun
  have hbody := (lowerBody_leases cx id false body).bind fun _ => hret
  have hheld : t.held id = 0 := by
    rw [ScopeTree.held, hempty]
    rfl
  obtain ⟨hsound, hfinal, -, horderly⟩ := hbody.of_run ht hinner
  rw [hheld] at hfinal horderly
  rw [hempty] at horderly
  exact ⟨_, hsound.pool, rfl, hfinal, horderly⟩

theorem Lowered.within {b c : CodeBody} (h : c.Within b) (hb : b.Lowered) : c.Lowered := by
  induction h with
  | self => exact hb
  | nested hoccurs hbody _ ih =>
    obtain ⟨p, -, -, -, horderly⟩ := hb.orderly
    exact ih ((horderly.steps _ hoccurs).body _ hbody)

/-- The code of a body that was lowered closes every loop that it opens. -/
theorem Lowered.loops {b : CodeBody} (h : b.Lowered) : (Step.linearAll b.code {}).2.loops = [] := by
  obtain ⟨cx, id, returnsNone, body, t, r, -, -, hr, rfl⟩ := h
  have hadvances := Step.linearAll_advances
    (fun s hs => (bodyWithEnd_wellFormed hr s hs).advances) {}
  exact hadvances.loops

end CodeBody

end Goward
