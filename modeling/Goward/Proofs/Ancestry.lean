import Goward.Proofs.Isolation

/-!
# Ancestry

The scopes of a unit stand in a row, each of them behind the scope around it. A step may put one
more scope at the end, and leaves the others as they are, apart from what they hand out. So whatever
steps are taken, the way outward from a scope goes down through the numbers and ends at the module.
-/

namespace Goward

open Goward.Build Goward.Code

/-- A scope without what it hands out. -/
def Scope.bare (s : Scope) : Scope := { s with resources := {} }

namespace ScopeTree

variable {t u : ScopeTree}

/-- The scopes of a tree without what they hand out. -/
def frame (t : ScopeTree) : List Scope := t.scopes.map Scope.bare

theorem getElem?_frame (t : ScopeTree) (i : Nat) : t.frame[i]? = (t.scope? i).map Scope.bare :=
  List.getElem?_map

theorem length_frame (t : ScopeTree) : t.frame.length = t.size := List.length_map _

/-- Every scope of the first tree is a scope of the second one, and only what it hands out may be
different. -/
def KeptBy (t u : ScopeTree) : Prop :=
  ∀ i s, t.scope? i = some s → ∃ r, u.scope? i = some { s with resources := r }

theorem keptBy_of_frame (h : t.frame <+: u.frame) : t.KeptBy u := by
  intro i s hs
  obtain ⟨later, hframe⟩ := h
  have hbare : t.frame[i]? = some s.bare := by rw [getElem?_frame, hs, Option.map_some]
  obtain ⟨hi, -⟩ := List.getElem?_eq_some_iff.mp hbare
  rw [← List.getElem?_append_left hi, hframe, getElem?_frame] at hbare
  obtain ⟨s', hs', heq⟩ := Option.map_eq_some_iff.mp hbare
  refine ⟨s'.resources, hs'.trans (congrArg some ?_)⟩
  exact congrArg (fun b : Scope => { b with resources := s'.resources }) heq

/-- A scope when it is entered. -/
def entered (t : ScopeTree) (parent : Nat) (name : String) (kind : ScopeKind) : Scope where
  id := t.size
  parent := some parent
  module := ((t.scope? parent).map (·.module)).getD moduleId
  name := name
  kind := kind

theorem frame_push (t : ScopeTree) (parent : Nat) (name : String) (kind : ScopeKind) :
    (t.push parent name kind).2.frame = t.frame ++ [t.entered parent name kind] := List.map_append

theorem frame_setResources (t : ScopeTree) (id : Nat) (r : Resources) :
    (t.setResources id r).frame = t.frame := by
  refine List.ext_getElem? fun i => ?_
  rw [getElem?_frame, getElem?_frame, scope?, setResources, List.getElem?_modify,
    Option.map_eq_map, Option.map_map]
  refine congrArg (Option.map · (t.scope? i)) (funext fun s => ?_)
  rw [Function.comp_apply]
  split <;> rfl

theorem frame_request (t : ScopeTree) (id : Nat) (op : ResourceOp) :
    (t.request id op).2.frame = t.frame := by
  cases op with
  | alloc _ | label _ | openLoop | closeLoop => exact frame_setResources t id _
  | free v =>
    rw [request]
    split
    · next u hu =>
      obtain ⟨q, -, rfl⟩ := free_ok hu
      exact frame_setResources t id _
    · rfl

end ScopeTree

theorem NamePlace.frame_registered (p : NamePlace) (t : ScopeTree) (x : String) :
    (p.registered t x).frame = t.frame := by
  cases p with
  | globals | classBody _ | slot => rfl

theorem NamePlace.frame_taken (p : NamePlace) (t : ScopeTree) (id : Nat) (x : String) :
    (p.taken t id x).frame = t.frame := by
  cases p with
  | globals | classBody _ => exact ScopeTree.frame_setResources (t.intern x).2 id _
  | slot => rfl

theorem Registers.frame_eq {t : ScopeTree} {x : String} {b : Build Unit} (hb : Registers t x b) :
    (Answer.ofBuilt t (.code ·.code) (b.run t)).2.frame = t.frame := by
  rcases hb with ⟨e, he⟩ | ⟨p, code, hp⟩
  · rw [he]
    rfl
  · rw [hp]
    exact p.frame_registered t x

namespace TreeOp

variable {t u : ScopeTree}

/-- The scope that a step enters. -/
def entered? (t : ScopeTree) : TreeOp → Option Scope
  | enterFunction parent name f => some (t.entered parent name (.function f))
  | enterClass parent name vars => some (t.entered parent name (.classBody vars.globals))
  | store _ _ _ | delete _ _ | read _ _ | request _ _ | freeValue _ _ | addImport _ | addNative _
  | intern _ => none

/-- A step puts the scope that it enters behind the others, and does no more to scopes than to
change what they hand out. -/
theorem frame_run (t : ScopeTree) (op : TreeOp) :
    (op.run t).2.frame = t.frame ++ (op.entered? t).toList := by
  have hsame {u : ScopeTree} (h : u.frame = t.frame) :
      u.frame = t.frame ++ Option.toList none := h.trans (List.append_nil _).symm
  cases op with
  | enterFunction parent name f => exact ScopeTree.frame_push t parent name _
  | enterClass parent name vars => exact ScopeTree.frame_push t parent name _
  | store id x v => exact hsame (storeName_registers t id x v).frame_eq
  | delete id x => exact hsame (deleteName_registers t id x).frame_eq
  | read id x =>
    obtain ⟨p, hp⟩ := place_of_access (t.access id x)
    rw [run, readName_run hp.symm]
    exact hsame (p.frame_taken t id x)
  | request id op => exact hsame (ScopeTree.frame_request t id op)
  | freeValue id v =>
    rw [run]
    cases v.temp? with
    | none => exact hsame rfl
    | some w => exact hsame (ScopeTree.frame_request t id (.free w))
  | addImport _ | addNative _ | intern _ => exact hsame rfl

theorem frame_runAll {ops : List TreeOp} {more : History}
    (hops : runAll? t ops = some (more, u)) : t.frame <+: u.frame := by
  induction ops generalizing t more with
  | nil =>
    cases hops
    exact List.prefix_refl _
  | cons op rest ih =>
    rw [runAll?] at hops
    split at hops
    · obtain ⟨later, hlater, heq⟩ := Option.map_eq_some_iff.mp hops
      cases heq
      exact .trans ⟨_, (frame_run t op).symm⟩ (ih hlater)
    · cases hops

end TreeOp

/-- A scope is in place at a number if it has this number, and is either the module or the body of a
definition in a scope of the module with a smaller number. -/
structure Scope.InPlace (s : Scope) (i : Nat) : Prop where
  number : s.id = i
  module : s.kind = .module ↔ i = ScopeTree.moduleId
  outermost : s.parent = none ↔ i = ScopeTree.moduleId
  below : ∀ p, s.parent = some p → p < i
  belongs : s.module = ScopeTree.moduleId

theorem Scope.InPlace.of_bare {s s' : Scope} {i : Nat} (h : s.InPlace i) (heq : s.bare = s'.bare) :
    s'.InPlace i := by
  obtain ⟨hid, hparent, hmodule, -, hkind, -⟩ := Scope.mk.inj heq
  exact ⟨hid ▸ h.number, hkind ▸ h.module, hparent ▸ h.outermost, hparent ▸ h.below,
    hmodule ▸ h.belongs⟩

namespace ScopeTree

variable {t u : ScopeTree} {id : Nat} {s : Scope}

/-- There is a module, and every scope is in place. -/
structure Founded (t : ScopeTree) : Prop where
  module : (t.scope? moduleId).isSome
  inPlace : ∀ i s, t.scope? i = some s → s.InPlace i

theorem founded_ofOptions (o : Options) : (ofOptions o).Founded where
  module := rfl
  inPlace i s hs := by
    cases i with
    | zero =>
      cases hs
      exact ⟨rfl, iff_of_true rfl rfl, iff_of_true rfl rfl, nofun, rfl⟩
    | succ i => cases hs

namespace Founded

theorem size_pos (h : t.Founded) : 0 < t.size := scope?_isSome_iff.mp h.module

theorem entered (h : t.Founded) {parent : Nat} (hparent : (t.scope? parent).isSome) (name : String)
    {kind : ScopeKind} (hkind : kind ≠ .module) : (t.entered parent name kind).InPlace t.size where
  number := rfl
  module := iff_of_false hkind h.size_pos.ne'
  outermost := iff_of_false nofun h.size_pos.ne'
  below p hp := Option.some.inj hp ▸ scope?_isSome_iff.mp hparent
  belongs := by
    obtain ⟨s, hs⟩ := Option.isSome_iff_exists.mp hparent
    rw [ScopeTree.entered, hs]
    exact (h.inPlace parent s hs).belongs

/-- All scopes are in place after one more is put behind them. -/
theorem of_frame {entered : Option Scope} (h : t.Founded)
    (hframe : u.frame = t.frame ++ entered.toList) (hentered : ∀ s ∈ entered, s.InPlace t.size) :
    u.Founded := by
  have hkept : t.KeptBy u := keptBy_of_frame ⟨_, hframe.symm⟩
  obtain ⟨s₀, hs₀⟩ := Option.isSome_iff_exists.mp h.module
  obtain ⟨r, hr⟩ := hkept _ s₀ hs₀
  refine ⟨hr ▸ rfl, fun i s hs => ?_⟩
  have hbare : u.frame[i]? = some s.bare := by rw [getElem?_frame, hs, Option.map_some]
  rw [hframe, List.getElem?_append] at hbare
  split at hbare
  · rw [getElem?_frame] at hbare
    obtain ⟨s', hs', heq⟩ := Option.map_eq_some_iff.mp hbare
    exact (h.inPlace i s' hs').of_bare heq
  · next hi =>
    cases entered with
    | none => cases hbare
    | some e =>
      rw [Option.toList_some, List.getElem?_singleton, length_frame] at hbare
      rw [length_frame] at hi
      split at hbare
      · obtain rfl : i = t.size := by omega
        obtain rfl : e = s.bare := Option.some.inj hbare
        exact (hentered _ rfl).of_bare rfl
      · cases hbare

/-- One step keeps all scopes in place. -/
theorem step (h : t.Founded) (op : TreeOp)
    (hop : ∀ id, op.scope? = some id → (t.scope? id).isSome) : (op.run t).2.Founded := by
  refine h.of_frame (op.frame_run t) fun s hs => ?_
  cases op with
  | enterFunction parent name f =>
    obtain rfl := Option.some.inj hs
    exact h.entered (hop parent rfl) name nofun
  | enterClass parent name vars =>
    obtain rfl := Option.some.inj hs
    exact h.entered (hop parent rfl) name nofun
  | store _ _ _ | delete _ _ | read _ _ | request _ _ | freeValue _ _ | addImport _ | addNative _
  | intern _ => cases hs

end Founded

end ScopeTree

theorem Runs.founded {o : Options} {h : History} {t : ScopeTree} (hr : Runs o h t) : t.Founded := by
  induction hr with
  | start => exact ScopeTree.founded_ofOptions o
  | step op _ hop ih => exact ih.step op hop

/-! ### The way outward -/

namespace ScopeTree

variable {t : ScopeTree} {id : Nat} {s : Scope}

/-- The scope around a scope. -/
def outer? (t : ScopeTree) (s : Scope) : Option Scope := s.parent.bind t.scope?

/-- The way outward from a scope leads from each scope to the one around it, as long as there is
one. It is no longer than the numbers allow, goes down through them and ends at the module. -/
structure LeadsOut (t : ScopeTree) (id : Nat) : Prop where
  /-- What is reached after `n` steps. -/
  steps : ∀ n, (t.ancestors id)[n]? = (·.bind t.outer?)^[n] (t.scope? id)
  short : (t.ancestors id).length ≤ id + 1
  descending : ((t.ancestors id).map (·.id)).Pairwise (· > ·)
  last : ∃ s, (t.ancestors id).getLast? = some s ∧ t.scope? moduleId = some s ∧ s.kind = .module

namespace Founded

/-- The way outward from a scope goes on from the scope around it. -/
theorem ancestors_eq (h : t.Founded) (hs : t.scope? id = some s) :
    t.ancestors id = s :: (s.parent.map t.ancestors).getD [] := by
  rw [ancestors]
  simp only [hs]
  cases hp : s.parent with
  | none => rfl
  | some p =>
    simp only [if_pos ((h.inPlace id s hs).below p hp)]
    rfl

theorem parent_isSome (h : t.Founded) (hs : t.scope? id = some s) {p : Nat}
    (hp : s.parent = some p) : (t.scope? p).isSome := by
  have hid : id < t.size := scope?_isSome_iff.mp (hs ▸ rfl)
  exact scope?_isSome_iff.mpr (((h.inPlace id s hs).below p hp).trans hid)

theorem id_le_of_mem_ancestors (h : t.Founded) {a : Scope} :
    a ∈ t.ancestors id → a.id ≤ id := by
  induction id using Nat.strongRecOn with
  | ind id ih =>
    intro ha
    cases hs : t.scope? id with
    | none =>
      rw [ancestors] at ha
      simp [hs] at ha
    | some s =>
      have hplace := h.inPlace id s hs
      rw [h.ancestors_eq hs] at ha
      rcases List.mem_cons.mp ha with rfl | ha
      · exact hplace.number.le
      · cases hp : s.parent with
        | none => simp [hp] at ha
        | some p =>
          rw [hp] at ha
          exact (ih p (hplace.below p hp) ha).trans (hplace.below p hp).le

/-- The way outward from the module is over at once. -/
theorem leadsOut_module (h : t.Founded) (hs : t.scope? moduleId = some s) :
    t.LeadsOut moduleId := by
  have hplace := h.inPlace _ s hs
  have hnone : s.parent = none := hplace.outermost.mpr rfl
  have hway : t.ancestors moduleId = [s] := by
    rw [h.ancestors_eq hs, hnone]
    rfl
  refine ⟨fun n => ?_, ?_, ?_, ?_⟩
  · rw [hway, hs]
    cases n with
    | zero => rfl
    | succ n =>
      have hover : t.outer? s = none := by rw [outer?, hnone, Option.bind_none]
      rw [Function.iterate_succ_apply, Option.bind_some, hover,
        Function.iterate_fixed (Option.bind_none _)]
      rfl
  · rw [hway]
    rfl
  · rw [hway]
    exact List.pairwise_singleton _ _
  · exact ⟨s, by rw [hway]; rfl, hs, hplace.module.mpr rfl⟩

/-- A scope puts one more step in front of the way outward from the scope around it. -/
theorem leadsOut_parent (h : t.Founded) (hs : t.scope? id = some s) {p : Nat}
    (hp : s.parent = some p) (hway : t.LeadsOut p) : t.LeadsOut id := by
  have hplace := h.inPlace id s hs
  have hlt : p < id := hplace.below p hp
  have hcons : t.ancestors id = s :: t.ancestors p := by
    rw [h.ancestors_eq hs, hp]
    rfl
  refine ⟨fun n => ?_, ?_, ?_, ?_⟩
  · rw [hcons, hs]
    cases n with
    | zero => rfl
    | succ n =>
      have houter : t.outer? s = t.scope? p := by rw [outer?, hp, Option.bind_some]
      rw [List.getElem?_cons_succ, Function.iterate_succ_apply, Option.bind_some, houter]
      exact hway.steps n
  · have hshort := hway.short
    rw [hcons, List.length_cons]
    omega
  · rw [hcons, List.map_cons, List.pairwise_cons]
    refine ⟨fun i hi => ?_, hway.descending⟩
    obtain ⟨a, ha, rfl⟩ := List.mem_map.mp hi
    rw [hplace.number]
    exact (h.id_le_of_mem_ancestors ha).trans_lt hlt
  · obtain ⟨m, hlast, hm, hkind⟩ := hway.last
    refine ⟨m, ?_, hm, hkind⟩
    rw [hcons, List.getLast?_cons, hlast]
    rfl

theorem leadsOut (h : t.Founded) (hid : (t.scope? id).isSome) : t.LeadsOut id := by
  induction id using Nat.strongRecOn with
  | ind id ih =>
    obtain ⟨s, hs⟩ := Option.isSome_iff_exists.mp hid
    cases hp : s.parent with
    | none =>
      obtain rfl : id = moduleId := (h.inPlace id s hs).outermost.mp hp
      exact h.leadsOut_module hs
    | some p =>
      exact h.leadsOut_parent hs hp (ih p ((h.inPlace id s hs).below p hp) (h.parent_isSome hs hp))

end Founded

end ScopeTree

/-- The scopes of a unit are a tree that is rooted in the module. Whatever steps are taken, each of
them addressed to a scope that is there, every scope stands under its number: the module, which
alone is outermost, under the first one, and any other behind the scope around it and with the same
module. No further steps change anything about a scope but what it hands out. So the way outward
from every scope goes down through the numbers to the module, in no more steps than there are
numbers. -/
theorem scopes_founded {o : Options} {h : History} {t : ScopeTree} (hr : Runs o h t) :
    t.Founded ∧
    (∀ ops more u, TreeOp.runAll? t ops = some (more, u) → t.KeptBy u) ∧
    ∀ id, (t.scope? id).isSome → t.LeadsOut id := by
  have hfounded : t.Founded := hr.founded
  refine ⟨hfounded, fun ops more u hops => ?_, fun id hid => hfounded.leadsOut hid⟩
  exact ScopeTree.keptBy_of_frame (TreeOp.frame_runAll hops)

/-- Enters a function, a class in it and a method of that, and works on all of them in between. -/
def TreeOp.nesting : List TreeOp :=
  [.enterFunction 0 "f" ⟨⟨[⟨"x", .param 0⟩]⟩, false⟩, .request 1 (.alloc "bool"),
    .enterClass 1 "C" ⟨[]⟩, .read 2 "x", .enterFunction 2 "g" ⟨⟨[]⟩, true⟩,
    .request 3 (.label true), .store 0 "f" .noneObject]

/-- The four scopes are in place, the way outward from the method leads through all of them, and no
scope is changed when the class and the module are worked on again. -/
theorem scopes_founded_nesting :
    ∃ h t, TreeOp.runAll? (.ofOptions {}) TreeOp.nesting = some (h, t) ∧ t.Founded ∧
      t.LeadsOut 3 ∧ (t.ancestors 3).map (·.id) = [3, 2, 1, 0] ∧
      ∃ more u, TreeOp.runAll? t [.read 2 "y", .enterClass 0 "D" ⟨[]⟩] = some (more, u) ∧
        t.KeptBy u := by
  obtain ⟨⟨h, t⟩, hrun⟩ : ∃ r, TreeOp.runAll? (.ofOptions {}) TreeOp.nesting = some r :=
    Option.isSome_iff_exists.mp (by decide +kernel)
  have hmethod : (TreeOp.runAll? (.ofOptions {}) TreeOp.nesting).all fun r =>
      (r.2.scope? 3).isSome && (r.2.ancestors 3).map (·.id) == [3, 2, 1, 0] &&
        (TreeOp.runAll? r.2 [.read 2 "y", .enterClass 0 "D" ⟨[]⟩]).isSome := by decide +kernel
  rw [hrun, Option.all_some, Bool.and_eq_true, Bool.and_eq_true, beq_iff_eq] at hmethod
  obtain ⟨⟨hmethod, hway⟩, hlater⟩ := hmethod
  obtain ⟨⟨more, u⟩, hmore⟩ := Option.isSome_iff_exists.mp hlater
  obtain ⟨hfounded, hkept, hleads⟩ := scopes_founded (Runs.start.runAll hrun)
  exact ⟨h, t, hrun, hfounded, hleads 3 hmethod, hway, more, u, hmore, hkept _ more u hmore⟩

end Goward
