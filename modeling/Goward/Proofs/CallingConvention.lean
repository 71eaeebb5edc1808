import Goward.Layout.Body
import Goward.Proofs.BindingRules
import Goward.Proofs.Resolution
import Goward.Proofs.SlotWrites

/-!
# Calling convention of functions

The Go function for a function gets its arguments in an array and copies them into slots. Who counts
them is classification, along all parameters; the code object lists the positional parameters only,
and the slots are declared from the map of all names of the body. Main result: the three agree, each
slot starts with the argument that belongs to it, and the code of the body binds and unbinds no slot
besides the declared ones.
-/

namespace Goward

open Goward.Build Goward.Code Goward.Layout

namespace VarMap

variable {m : VarMap} {v : Variable}

/-- The names that have a slot are, in the order of the map, those that are not global. -/
theorem names_slots (m : VarMap) :
    m.slots.map (·.1) = (m.toList.filter (·.kind != .global)).map (·.name) := by
  obtain ⟨vars⟩ := m
  rw [slots]
  dsimp only
  induction vars with
  | nil => rfl
  | cons v rest ih =>
    have hinit : (v.kind != .global) = v.kind.init?.isSome := by cases v.kind <;> rfl
    rw [List.filterMap_cons, List.filter_cons, hinit]
    cases v.kind.init? with
    | none => exact ih
    | some init => exact congrArg (v.name :: ·) ih

theorem mem_slots {init : SlotInit} (hv : v ∈ m.toList) (hinit : v.kind.init? = some init) :
    (v.name, init) ∈ m.slots :=
  List.mem_filterMap.mpr ⟨v, hv, by rw [hinit, Option.map_some]⟩

theorem Distinct.nodup_slots (h : m.Distinct) : (m.slots.map (·.1)).Nodup := by
  rw [names_slots]
  exact h.sublist (List.filter_sublist.map _)

end VarMap

theorem slotName_injective : Function.Injective slotName := by
  intro x y h
  simpa [slotName, ← String.toList_inj] using h

/-- The records of a function are its parameters at their positions and the other names of its
body. -/
theorem classifyFunction_records {params : Parameters} {body : List Stmt} {f : FunctionVars}
    (h : classifyFunction params body = .ok f) :
    f.vars.toList = boundVariables params.toList (Stmt.eventsOfBody body) := by
  have hvars : (classifyFunction params body).map (·.vars) = .ok f.vars := by rw [h]; rfl
  exact (classification_follows_rules.1 params body).records f.vars hvars

theorem mem_boundVariables {params : List Parameter} {events : List Event} {p : Parameter} {i : Nat}
    (h : params[i]? = some p) : ⟨p.name, .param i⟩ ∈ boundVariables params events := by
  refine List.mem_append_left _ (List.mem_map.mpr ⟨(p, i), ?_, rfl⟩)
  exact List.mem_zipIdx_iff_getElem?.mpr h

namespace Parameters

variable {params : Parameters} {p : Parameter}

theorem getElem?_positional {i : Nat} (h : params.positional[i]? = some p) :
    params.toList[i]? = some p := by
  obtain ⟨hi, -⟩ := List.getElem?_eq_some_iff.mp h
  rw [toList, List.append_assoc, List.getElem?_append_left hi, h]

theorem getElem?_rest (h : params.rest = some p) :
    params.toList[params.positional.length]? = some p := by
  simp [toList, h]

theorem getElem?_keywords (h : params.keywords = some p) :
    params.toList[params.positional.length + params.rest.toList.length]? = some p := by
  simp [toList, h]

end Parameters

/-- The slots that the code of a function declares: each is a Go variable and the expression that it
starts with. -/
def Code.FunctionHeader.declared (h : FunctionHeader) : List (String × String) :=
  h.slots.map fun s => (slotName s.1, s.2.text)

/-- The code of a function keeps to the calling convention: `n` positional parameters get the first
arguments in order, the parameters for further arguments the ones behind. -/
structure KeepsConvention (params : Parameters) (vars : VarMap) (h : FunctionHeader)
    (code : List Instr) : Prop where
  /-- The code object lists the positional parameters in order. -/
  listed : h.params = params.positional.map (·.name)
  /-- In the order of the map there is one slot for each local name and each parameter, and none for a
  global name. -/
  slots : h.declared.map (·.1) = (vars.toList.filter (·.kind != .global)).map (slotName ·.name)
  distinct : (h.declared.map (·.1)).Nodup
  positional : ∀ (i : Nat) (p : Parameter), params.positional[i]? = some p →
    (slotName p.name, "πArgs[" ++ toString i ++ "]") ∈ h.declared
  rest : ∀ p, params.rest = some p →
    (slotName p.name, "πArgs[" ++ toString params.positional.length ++ "]") ∈ h.declared
  keywords : ∀ p, params.keywords = some p → (slotName p.name,
    "πArgs[" ++ toString (params.positional.length + if params.rest.isSome then 1 else 0) ++ "]") ∈
      h.declared
  locals : ∀ v ∈ vars.toList, v.kind = .local → (slotName v.name, "πg.UnboundLocal") ∈ h.declared
  /-- The flags name the parameters for further arguments exactly if there are such. -/
  flags : codeFlags h = match params.rest, params.keywords with
    | none, none => "0"
    | some _, none => "πg.CodeFlagVarArg"
    | none, some _ => "πg.CodeFlagKWArg"
    | some _, some _ => "πg.CodeFlagVarArg | πg.CodeFlagKWArg"
  /-- What the statements of the function bind or unbind is a declared slot. -/
  bound : ∀ a x, .action a ∈ code → slot? a = some x → slotName x ∈ h.declared.map (·.1)

section Header

variable {params : Parameters} {body : List Stmt} {f : FunctionVars}

/-- The slot of a parameter starts with the argument at its position. -/
theorem mem_declared_of_parameter (hf : classifyFunction params body = .ok f) (name : String)
    {i : Nat} {p : Parameter} (h : params.toList[i]? = some p) :
    (slotName p.name, "πArgs[" ++ toString i ++ "]") ∈ (functionHeader name params f).declared := by
  have hrecord : ⟨p.name, .param i⟩ ∈ f.vars.toList := by
    rw [classifyFunction_records hf]
    exact mem_boundVariables h
  exact List.mem_map.mpr ⟨_, VarMap.mem_slots hrecord rfl, rfl⟩

theorem functionHeader_keepsConvention (hf : classifyFunction params body = .ok f) (name : String)
    {code : List Instr}
    (hbound : ∀ a x, .action a ∈ code → slot? a = some x → x ∈ f.vars.slots.map (·.1)) :
    KeepsConvention params f.vars (functionHeader name params f) code where
  listed := rfl
  slots := by
    have hnames := congrArg (List.map slotName) f.vars.names_slots
    simpa [FunctionHeader.declared, functionHeader, Function.comp_def] using hnames
  distinct := by
    have hnodup := (classifyFunction_distinct hf).nodup_slots.map slotName_injective
    simpa [FunctionHeader.declared, functionHeader, Function.comp_def] using hnodup
  positional i p h := mem_declared_of_parameter hf name (Parameters.getElem?_positional h)
  rest p h := mem_declared_of_parameter hf name (Parameters.getElem?_rest h)
  keywords p h := by
    have hdeclared := mem_declared_of_parameter hf name (Parameters.getElem?_keywords h)
    cases hrest : params.rest with
    | none | some _ => simpa [hrest] using hdeclared
  locals v hv hkind := by
    have hinit : v.kind.init? = some .unbound := by rw [hkind, VarKind.init?]
    exact List.mem_map.mpr ⟨_, VarMap.mem_slots hv hinit, rfl⟩
  flags := by
    rw [codeFlags, functionHeader]
    cases params.rest <;> cases params.keywords <;> rfl
  bound a x ha hx := by
    obtain ⟨s, hs, rfl⟩ := List.mem_map.mp (hbound a x ha hx)
    exact List.mem_map.mpr ⟨_, List.mem_map.mpr ⟨s, hs, rfl⟩, rfl⟩

end Header

/-! ### The text of a function -/

/-- The operations that write the code of a function in a file: the list of its parameters and its
flags, then its slots, then the rest of its body. -/
def functionOps (filename : String) (fn : Temp) (h : FunctionHeader) (rest : List Op) : List Op :=
  [.raw (fn.name ++ " = πg.NewFunction(" ++ ("πg.NewCode(" ++ Text.quote h.name ++ ", " ++
      Text.quote filename ++ ", []πg.Param\x7b" ++
      commaList (h.params.map fun x => "\x7bName: " ++ Text.quote x ++ "\x7d") ++ "\x7d, " ++
      codeFlags h ++ ", " ++ frameFunction "πArgs")),
    .within 1 ((h.declared.flatMap fun s =>
      [.raw ("var " ++ s.1 ++ " *πg.Object = " ++ s.2), .raw ("_ = " ++ s.1)]) ++ rest),
    .raw "\x7d), πGlobals).ToObject()"]

/-- The slots are declared in the text before anything else of the body. -/
theorem codeOps_function (filename : String) (fn : Temp) (h : FunctionHeader) (temps : List Temp)
    (steps : List Step) (l : Labels) :
    ∃ rest, codeOps filename (Step.linear (.function fn h temps steps) l).1 =
      functionOps filename fn h rest := by
  have hslots : (h.slots.flatMap fun s => slotDeclaration s.1 s.2) =
      h.declared.flatMap fun s =>
        [.raw ("var " ++ s.1 ++ " *πg.Object = " ++ s.2), .raw ("_ = " ++ s.1)] := by
    rw [FunctionHeader.declared, List.flatMap_map]
    rfl
  rw [Step.linear, codeOps, codeOps, List.append_nil, instrOps, functionBody, hslots,
    List.append_assoc]
  exact ⟨_, rfl⟩

/-- The scope of a function holds the declared names in slots. -/
theorem ScopeTree.slotsIn_pushFunction (t : ScopeTree) (parent : Nat) (name : String)
    {f : FunctionVars} (hf : f.vars.Distinct) :
    (t.pushFunction parent name f).2.SlotsIn (· ∈ f.vars.slots.map (·.1)) t.size := by
  obtain ⟨s, hs, hkind⟩ := t.scope?_push parent name (.function f)
  constructor
  · exact Option.isSome_iff_exists.mpr ⟨s, hs⟩
  · intro x hx
    rw [VarMap.mem_slots_iff hf]
    have hs' : (t.pushFunction parent name f).2.scope? t.size = some s := hs
    simp only [home?, hs', hkind] at hx
    split at hx
    · cases hx
    · cases hx
    · next k hne hfind => exact ⟨k, hfind, hne⟩

/-- What a definition that succeeds puts down: the code of a function, whose body is lowered in a
scope of its own, and then what stores it. -/
theorem defineFunction_run {id : Nat} {name : String} {params : Parameters} {f : FunctionVars}
    {body : Nat → Build Unit} {t : ScopeTree} {r : Built Unit}
    (h : (defineFunction id name params f body).run t = .ok r) :
    ∃ fn temps steps stored, r.code =
        .action (.acquire fn) :: .function fn (functionHeader name params f) temps steps :: stored ∧
      ∃ lowered, (bodyWithEnd (!f.isGenerator) (body t.size)).run (t.pushFunction id name f).2 =
        .ok lowered ∧ lowered.value = steps := by
  obtain ⟨entered, hentered, second, h₂, rfl⟩ := run_bind_ok.mp h
  cases hentered
  obtain ⟨lowered, hbody, third, h₃, rfl⟩ := run_bind_ok.mp h₂
  obtain ⟨inner, -, hlowered⟩ := run_codeOf_ok.mp hbody
  obtain ⟨declared, hdeclared, fourth, h₄, rfl⟩ := run_bind_ok.mp h₃
  cases hdeclared
  obtain ⟨taken, htaken, fifth, h₅, rfl⟩ := run_bind_ok.mp h₄
  cases htaken
  obtain ⟨put, hput, sixth, h₆, rfl⟩ := run_bind_ok.mp h₅
  cases hput
  refine ⟨(lowered.tree.alloc id Temp.objectType).1, (lowered.tree.resources t.size).pool.temps,
    lowered.value, sixth.code, ?_, lowered, hbody, rfl⟩
  rw [hlowered]
  rfl

/-- The slots of a function keep to the calling convention. For every definition of a function that
compiles there is the code of a function, whose list of parameters, flags and slots stand so in every
file; each slot starts with the argument that belongs to it or unbound, and what the statements of
the function bind or unbind is among the slots that the code declares. -/
theorem function_slots_keep_convention {cx : Context} {id : Nat} {inLoop : Bool} {name : String}
    {params : Parameters} {body : List Stmt} {t : ScopeTree} {r : Built Unit}
    (h : (lowerKind cx id inLoop (.functionDef name params body)).run t = .ok r) :
    ∃ f fn temps steps stored, classifyFunction params body = .ok f ∧
      r.code = .action (.acquire fn) :: .function fn (functionHeader name params f) temps steps ::
        stored ∧
      KeepsConvention params f.vars (functionHeader name params f) (Step.linearAll steps {}).1 ∧
      ∀ filename l, ∃ rest,
        codeOps filename (Step.linear (.function fn (functionHeader name params f) temps steps) l).1 =
          functionOps filename fn (functionHeader name params f) rest := by
  obtain ⟨classified, hclassified, second, hdefined, rfl⟩ := run_bind_ok.mp h
  obtain ⟨f, hf, rfl⟩ := run_lift_ok.mp hclassified
  obtain ⟨fn, temps, steps, stored, hcode, lowered, hbody, rfl⟩ := defineFunction_run hdefined
  refine ⟨f, fn, temps, lowered.value, stored, hf, hcode, ?_,
    fun filename l => codeOps_function filename fn _ temps _ l⟩
  have hbinds := BindsIn.codeOf (.bind (lowerBody_binds cx false body) fun _ => ret_binds _)
    _ lowered (ScopeTree.slotsIn_pushFunction t id name (classifyFunction_distinct hf)) hbody
  exact functionHeader_keepsConvention hf name fun a x ha hx => hbinds.2.2.linear ha hx

/-- One positional parameter and both parameters for further arguments. -/
def Parameters.collecting : Parameters :=
  ⟨[⟨"a", .nowhere⟩], some ⟨"args", .nowhere⟩, some ⟨"kw", .nowhere⟩⟩

/-- Stores a global name and a local one, and deletes a parameter. -/
def Stmt.collectingBody : List Stmt :=
  [.mk .nowhere (.global ["g"]), .mk .nowhere (.assign [.name "g"] (.name "a")),
    .mk .nowhere (.assign [.name "b"] (.name "args")), .mk .nowhere (.delete [.name "kw"])]

theorem function_slots_keep_convention_collecting :
    ∃ r f code, (lowerKind ⟨{}, none⟩ ScopeTree.moduleId false
        (.functionDef "f" .collecting Stmt.collectingBody)).run (initialTree {}) = .ok r ∧
      classifyFunction .collecting Stmt.collectingBody = .ok f ∧
      KeepsConvention .collecting f.vars (functionHeader "f" .collecting f) code := by
  obtain ⟨r, hr⟩ : ∃ r, (lowerKind ⟨{}, none⟩ ScopeTree.moduleId false
      (.functionDef "f" .collecting Stmt.collectingBody)).run (initialTree {}) = .ok r :=
    ok_of_toBool (by decide +kernel)
  obtain ⟨f, _, _, _, _, hf, -, hkeeps, -⟩ := function_slots_keep_convention hr
  exact ⟨r, f, _, hr, hf, hkeeps⟩

/-- The slots that the function declares. -/
example : (classifyFunction .collecting Stmt.collectingBody).toOption.map
    (fun f => (functionHeader "f" .collecting f).declared) =
      some [("µa", "πArgs[0]"), ("µargs", "πArgs[1]"), ("µkw", "πArgs[2]"),
        ("µb", "πg.UnboundLocal")] := by
  decide

end Goward
