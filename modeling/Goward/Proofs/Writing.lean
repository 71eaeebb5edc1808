import Goward.Module
import Goward.Proofs.Scratch

/-!
# Written text

Operations on a writer add to what is written, whatever that is, so the text of operations in a row
is the text of the first ones followed by that of the others. The text of a body declares its
scratch variables before the loop that runs it, each of them once.
-/

namespace Goward

open Goward.Code Goward.Layout

theorem Temp.isDigit_of_mem_number {n : Nat} : ∀ c ∈ (number n).toList, c.isDigit = true := by
  intro c hc
  rw [number, String.toList_append, String.toList_ofList] at hc
  rcases List.mem_append.mp hc with hc | hc
  · obtain rfl := List.eq_of_mem_replicate hc
    rfl
  · exact Text.isDigit_of_mem_toString c hc

namespace Layout

/-- The lines of a text as they are written at a level. -/
def laidOut (level : Nat) (s : String) : String := String.ofList (indented level s.toList)

/-- The level is the same before and after the operation. -/
def Op.Stays : Op → Prop
  | .put _ | .within _ _ => True
  | .indent _ | .dedent _ => False

namespace Writer

/-- A writer whose text comes after another one. -/
def behind (s : String) (w : Writer) : Writer := { w with text := s ++ w.text }

mutual

theorem run_behind (s : String) : (op : Op) → (w : Writer) →
    run op (w.behind s) = (run op w).behind s
  | .put f, w => by
    rw [run, run, behind, behind, writeAt, writeAt, String.append_assoc]
  | .indent _, _ => by
    rw [run, run]
    rfl
  | .dedent _, _ => by
    rw [run, run]
    rfl
  | .within shift ops, w => by
    have h := runAll_behind s ops { w with level := (w.level + shift).toNat }
    rw [run, run, behind, behind]
    rw [behind] at h
    rw [h]
    rfl

theorem runAll_behind (s : String) : (ops : List Op) → (w : Writer) →
    runAll ops (w.behind s) = (runAll ops w).behind s
  | [], _ => by
    rw [runAll, runAll]
  | op :: ops, w => by
    rw [runAll, runAll, run_behind s op w, runAll_behind s ops]

end

theorem runAll_append (a b : List Op) (w : Writer) :
    runAll (a ++ b) w = runAll b (runAll a w) := by
  induction a generalizing w with
  | nil => rw [List.nil_append, runAll]
  | cons op rest ih => rw [List.cons_append, runAll, runAll, ih]

theorem runAll_level {ops : List Op} (h : ∀ op ∈ ops, op.Stays) (w : Writer) :
    (runAll ops w).level = w.level := by
  induction ops generalizing w with
  | nil => rw [runAll]
  | cons op rest ih =>
    have hop : (run op w).level = w.level := by
      have hstays := h op List.mem_cons_self
      cases op with
      | put f => rw [run, writeAt]
      | within shift ops => rw [run]
      | indent n => exact hstays.elim
      | dedent n => exact hstays.elim
    rw [runAll, ih fun op hmem => h op (List.mem_cons_of_mem _ hmem), hop]

end Writer

@[simp] theorem render_nil (n : Nat) : render n [] = "" := by
  rw [render, Writer.runAll]

theorem render_append {a : List Op} (h : ∀ op ∈ a, op.Stays) (b : List Op) (n : Nat) :
    render n (a ++ b) = render n a ++ render n b := by
  have hlevel : (Writer.runAll a { level := n }).level = n := Writer.runAll_level h _
  have hfirst : Writer.runAll a { level := n } = Writer.behind (render n a) { level := n } := by
    cases hw : Writer.runAll a { level := n } with
    | mk text level =>
      rw [hw] at hlevel
      obtain rfl : level = n := hlevel
      rw [render, hw, Writer.behind, String.append_empty]
  rw [render, Writer.runAll_append, hfirst, Writer.runAll_behind]
  rfl

@[simp] theorem render_raw (n : Nat) (s : String) (ops : List Op) :
    render n (.raw s :: ops) = laidOut n s ++ render n ops := by
  have hone : render n [.raw s] = laidOut n s := by
    rw [render, Op.raw, Writer.runAll, Writer.runAll, Writer.run, Writer.writeAt]
    exact String.empty_append
  have hstays : ∀ op ∈ [Op.raw s], op.Stays := by
    intro op hop
    obtain rfl := List.mem_singleton.mp hop
    trivial
  rw [← hone]
  exact render_append hstays ops n

@[simp] theorem render_within (n : Nat) (inner ops : List Op) :
    render n (.within 1 inner :: ops) = render (n + 1) inner ++ render n ops := by
  have hone : render n [.within 1 inner] = render (n + 1) inner := by
    rw [render, Writer.runAll, Writer.runAll, Writer.run]
    rfl
  have hstays : ∀ op ∈ [Op.within 1 inner], op.Stays := by
    intro op hop
    obtain rfl := List.mem_singleton.mp hop
    trivial
  rw [← hone]
  exact render_append hstays ops n

/-! ### Declarations -/

/-- Operations declare a variable, with its type, and have no other declaration under its name. -/
def DeclaresOnce (ops : List Op) (v : Temp) : Prop :=
  ∃ before after, ops = before ++ .raw v.declaration :: after ∧
    ∀ w : Temp, w.name = v.name → .raw w.declaration ∉ before ∧ .raw w.declaration ∉ after

/-- The declarations of variables with different numbers differ, whatever their types are. -/
theorem declaration_inj {v w : Temp} {k n : Nat} (hv : v.name = (Temp.numbered k v.type).name)
    (hw : w.name = (Temp.numbered n w.type).name) (h : v.declaration = w.declaration) :
    v.name = w.name := by
  have hdigits : ∀ (k : Nat) (type : List Char),
      ((Temp.number k).toList ++ ' ' :: type).takeWhile Char.isDigit = (Temp.number k).toList := by
    intro k type
    rw [List.takeWhile_append_of_pos Temp.isDigit_of_mem_number,
      List.takeWhile_cons_of_neg (by decide), List.append_nil]
  have htext : "var πTemp".toList ++ ((Temp.number k).toList ++ ' ' :: v.type.toList) =
      "var πTemp".toList ++ ((Temp.number n).toList ++ ' ' :: w.type.toList) := by
    have hlist := congrArg String.toList h
    rw [Temp.declaration, Temp.declaration, hv, hw] at hlist
    simpa [Temp.numbered, String.toList_append] using hlist
  have hnumber := congrArg (List.takeWhile Char.isDigit) (List.append_cancel_left htext)
  rw [hdigits, hdigits] at hnumber
  rw [hv, hw, Temp.numbered, Temp.numbered, String.toList_inj.mp hnumber]

theorem raw_inj {a b : String} (h : Op.raw a = .raw b) : a = b := by
  injection h with h
  injection h

theorem declaration_ne {v : Temp} {s : String} (hs : s.toList.head? ≠ some 'v') :
    Op.raw v.declaration ≠ .raw s := by
  intro h
  apply hs
  rw [← raw_inj h]
  simp [Temp.declaration, String.toList_append]

/-- Declarations of variables with other names are none of the given one. -/
theorem not_declared {w : Temp} {us : List Temp} {n : Nat}
    (hw : w.name = (Temp.numbered n w.type).name)
    (hus : ∀ u ∈ us, u.name ≠ w.name ∧ ∃ k, u.name = (Temp.numbered k u.type).name) :
    .raw w.declaration ∉ us.flatMap fun t => [Op.raw t.declaration, .raw ("_ = " ++ t.name)] := by
  intro hmem
  obtain ⟨u, hu, hmem⟩ := List.mem_flatMap.mp hmem
  obtain ⟨hne, k, hk⟩ := hus u hu
  rcases List.mem_cons.mp hmem with h | h
  · exact hne (declaration_inj hk hw (raw_inj h).symm)
  · exact declaration_ne (by simp) (List.mem_singleton.mp h)

/-- Each variable that a pool has made is declared once. -/
theorem declares_once {p : Pool} (hp : p.Valid) {v : Temp} (hv : v ∈ p.temps) :
    DeclaresOnce (declarations p.temps) v := by
  have hnodup := hp.nodup
  obtain ⟨k, -, hk⟩ := hp.numbered v hv
  obtain ⟨first, rest, hsplit⟩ := List.append_of_mem hv
  refine ⟨[.raw "πGlobals := πF.Globals()", .raw "_ = πGlobals"] ++
      first.flatMap fun t => [.raw t.declaration, .raw ("_ = " ++ t.name)],
    .raw ("_ = " ++ v.name) :: rest.flatMap fun t => [.raw t.declaration, .raw ("_ = " ++ t.name)],
    by simp [declarations, hsplit], fun w hw => ?_⟩
  have hwk : w.name = (Temp.numbered k w.type).name := hw.trans hk
  -- The other variables of the pool have other names.
  have hother : ∀ us : List Temp, us.Sublist p.temps → v.name ∉ us.map (·.name) →
      ∀ u ∈ us, u.name ≠ w.name ∧ ∃ k, u.name = (Temp.numbered k u.type).name := by
    intro us hsub hnot u hu
    obtain ⟨k, -, hk⟩ := hp.numbered u (hsub.subset hu)
    refine ⟨fun h => hnot ?_, k, hk⟩
    rw [← hw, ← h]
    exact List.mem_map_of_mem hu
  rw [hsplit, List.map_append, List.map_cons, List.nodup_append, List.nodup_cons] at hnodup
  obtain ⟨-, ⟨hrest, -⟩, hdisjoint⟩ := hnodup
  have hfirst : v.name ∉ first.map (·.name) := by
    intro hmem
    exact hdisjoint _ hmem _ List.mem_cons_self rfl
  constructor
  · intro hmem
    rcases List.mem_append.mp hmem with h | h
    · rcases List.mem_cons.mp h with h | h
      · exact declaration_ne (by simp) h
      · exact declaration_ne (by simp) (List.mem_singleton.mp h)
    · refine not_declared hwk (hother first ?_ hfirst) h
      rw [hsplit]
      exact List.sublist_append_left _ _
  · intro hmem
    rcases List.mem_cons.mp hmem with h | h
    · exact declaration_ne (by simp) h
    · refine not_declared hwk (hother rest ?_ hrest) h
      rw [hsplit]
      exact (List.sublist_cons_self _ _).trans (List.sublist_append_right _ _)

/-- The text of a body: the declarations of its scratch variables, and then the loop that dispatches
to its code. A generator has the loop inside of the function that resumes it, and the declarations
outside. -/
def bodyText (level : Nat) (temps : List Temp) (isGenerator : Bool) (checkpoints : List Nat)
    (code : List Op) : String :=
  laidOut level (render 0 (declarations temps)) ++
    if isGenerator then
      laidOut level
          "return πg.NewGenerator(πF, func(πSent *πg.Object) (*πg.Object, *πg.BaseException) \x7b" ++
        laidOut (level + 1) (render 0 (resumable checkpoints code)) ++
        laidOut level "\x7d).ToObject(), nil"
    else laidOut level (render 0 (resumable checkpoints code))

variable {filename : String} {temps : List Temp} {checkpoints : List Nat} {body : List Instr}

theorem slotDeclarations_stay (slots : List (String × SlotInit)) :
    ∀ op ∈ slots.flatMap fun s => slotDeclaration s.1 s.2, op.Stays := by
  intro op hop
  obtain ⟨s, -, hop⟩ := List.mem_flatMap.mp hop
  rcases List.mem_cons.mp hop with rfl | hop
  · trivial
  · obtain rfl := List.mem_singleton.mp hop
    trivial

theorem function_text (n : Nat) (dst : Temp) (header : FunctionHeader) :
    render n (instrOps filename (.function dst header temps checkpoints body)) =
      laidOut n (dst.name ++ " = πg.NewFunction(" ++ functionOpening filename header) ++
        (render (n + 1) (header.slots.flatMap fun s => slotDeclaration s.1 s.2) ++
          bodyText (n + 1) temps header.isGenerator checkpoints (codeOps filename body)) ++
        laidOut n "\x7d), πGlobals).ToObject()" := by
  have hbody : render (n + 1) (functionBody header temps
      (render 0 (resumable checkpoints (codeOps filename body)))) =
      render (n + 1) (header.slots.flatMap fun s => slotDeclaration s.1 s.2) ++
        bodyText (n + 1) temps header.isGenerator checkpoints (codeOps filename body) := by
    rw [functionBody, List.append_assoc, render_append (slotDeclarations_stay _), bodyText]
    cases header.isGenerator <;> simp [String.append_assoc]
  rw [instrOps, render_raw, render_within, hbody, render_raw, render_nil, String.append_empty]
  exact String.append_assoc.symm

theorem classBody_text (n : Nat) (dst names : Temp) (name : String) :
    render n (instrOps filename (.classBody dst name names temps checkpoints body)) =
      laidOut n (dst.name ++ " = " ++ codeOpening filename name) ++
        (laidOut (n + 1) ("πClass := " ++ names.name) ++ laidOut (n + 1) "_ = πClass" ++
          bodyText (n + 1) temps false checkpoints (codeOps filename body)) ++
        laidOut n "\x7d)" := by
  simp [instrOps, bodyText, String.append_assoc]

end Layout

theorem LoweredModule.init_text (m : LoweredModule) (o : Options) (n : Nat) :
    render n (m.initOps o) =
      laidOut n ("Code = " ++ codeOpening o.filename "<module>") ++
        bodyText (n + 1) m.temps false (Step.linearAll m.body {}).2.checkpoints
          (codeOps o.filename (Step.linearAll m.body {}).1) ++
        laidOut n "\x7d)" ++
        laidOut n ("πg.RegisterModule(" ++ Text.quote o.moduleName ++ ", Code)") := by
  simp [initOps, bodyText, String.append_assoc]

theorem Layout.imports_stay (packages : List Package) : ∀ op ∈ Op.imports packages, op.Stays := by
  intro op hop
  unfold Op.imports at hop
  split at hop
  · cases hop
  · simp only [List.mem_cons, List.not_mem_nil, or_false] at hop
    rcases hop with rfl | rfl | rfl <;> trivial

/-- The text of a module, around that of its body. -/
theorem LoweredModule.text_eq (m : LoweredModule) (o : Options) :
    m.text o =
      render 0 ([.raw ("package " ++ o.packageName)] ++ Op.imports m.registry.imports ++
          m.registry.strings.map stringDeclaration) ++
        (laidOut 0 "var Code *πg.Code" ++ (laidOut 0 "func init() \x7b" ++
          laidOut 1 ("Code = " ++ codeOpening o.filename "<module>"))) ++
        bodyText 2 m.temps false (Step.linearAll m.body {}).2.checkpoints
          (codeOps o.filename (Step.linearAll m.body {}).1) ++
        (laidOut 1 "\x7d)" ++
          (laidOut 1 ("πg.RegisterModule(" ++ Text.quote o.moduleName ++ ", Code)") ++
            laidOut 0 "\x7d")) := by
  have hstays : ∀ op ∈ [Op.raw ("package " ++ o.packageName)] ++ Op.imports m.registry.imports ++
      m.registry.strings.map stringDeclaration, op.Stays := by
    intro op hop
    rcases List.mem_append.mp hop with hop | hop
    · rcases List.mem_append.mp hop with hop | hop
      · obtain rfl := List.mem_singleton.mp hop
        trivial
      · exact imports_stay _ op hop
    · obtain ⟨s, -, rfl⟩ := List.mem_map.mp hop
      trivial
  rw [text, ops, render_append hstays]
  simp only [render_raw, render_within, render_nil, init_text, String.append_assoc,
    String.append_empty]

end Goward
