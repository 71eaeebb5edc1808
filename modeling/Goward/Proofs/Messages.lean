import Goward.Proofs.Locations

/-!
# Messages of errors

An error has a message of its own, and its report fills in a template. Both say the same, whatever is
named in the error: a template has one placeholder, so the argument is put in once, and what is put in
is not searched again, even if it looks like a placeholder. The code of a report tells the kind of the
cause, and places that are attached change neither.
-/

namespace Goward

namespace Text

variable {c : Char} {old new s t : List Char}

/-- The rest of an occurrence that was replaced is passed over. -/
theorem substituteFrom_length_append (old new s t : List Char) :
    substituteFrom old new s.length (s ++ t) = substituteFrom old new 0 t := by
  induction s with
  | nil => rfl
  | cons d s ih => rw [List.length_cons, List.cons_append, substituteFrom, ih]

/-- Nothing is replaced where the first character of the pattern does not occur. -/
theorem substituteFrom_append_of_not_mem (hs : c ∉ s) :
    substituteFrom (c :: old) new 0 (s ++ t) = s ++ substituteFrom (c :: old) new 0 t := by
  induction s with
  | nil => rfl
  | cons d s ih =>
    rw [List.mem_cons, not_or] at hs
    obtain ⟨hne, hs⟩ := hs
    have hpattern : ¬(c :: old).isPrefixOf (d :: (s ++ t)) = true := by
      rw [List.isPrefixOf_cons_cons]
      simp [hne]
    rw [List.cons_append, substituteFrom, if_neg hpattern, ih hs, List.cons_append]

/-- An occurrence is replaced, and the search goes on behind it. -/
theorem substituteFrom_occurrence (c : Char) (old new t : List Char) :
    substituteFrom (c :: old) new 0 (c :: old ++ t) =
      new ++ substituteFrom (c :: old) new 0 t := by
  have hpattern : (c :: old).isPrefixOf (c :: (old ++ t)) = true :=
    List.isPrefixOf_iff_prefix.mpr (List.prefix_append (c :: old) t)
  rw [List.cons_append, substituteFrom, if_pos hpattern, List.length_cons, Nat.add_sub_cancel,
    substituteFrom_length_append]

/-- A pattern that occurs once is replaced once. -/
theorem substitute_once {old before after : String} (new : String) (hold : old.toList.head? = some c)
    (hbefore : c ∉ before.toList) (hafter : c ∉ after.toList) :
    substitute old new (before ++ old ++ after) = before ++ new ++ after := by
  obtain ⟨rest, hrest⟩ := List.head?_eq_some_iff.mp hold
  have hend : substituteFrom (c :: rest) new.toList 0 after.toList = after.toList := by
    have happend : substituteFrom (c :: rest) new.toList 0 (after.toList ++ []) =
        after.toList ++ [] := substituteFrom_append_of_not_mem hafter
    rwa [List.append_nil] at happend
  rw [← String.toList_inj, substitute, String.toList_ofList]
  simp only [String.toList_append, hrest, List.append_assoc]
  rw [substituteFrom_append_of_not_mem hbefore, substituteFrom_occurrence, hend]

end Text

namespace Template

/-- A template with one placeholder, filled in. -/
theorem fill_once {text : String} (before after arg : String)
    (htext : text = before ++ placeholder 0 ++ after) (hbefore : '\x7b' ∉ before.toList)
    (hafter : '\x7b' ∉ after.toList) : fill text [arg] = before ++ arg ++ after := by
  have hbrace : (placeholder 0).toList.head? = some '\x7b' := by decide
  rw [fill, fillFrom, fillFrom, htext, Text.substitute_once arg hbrace hbefore hafter]

end Template

namespace Cause

/-- The template of a cause, filled in, is its message. -/
theorem fill_template (c : Cause) : Template.fill c.template.text c.args = c.message := by
  cases c with
  | duplicateArgument name =>
    exact Template.fill_once "duplicate argument '" "' in function definition" name rfl (by decide)
      (by decide)
  | parameterAndGlobal name =>
    exact Template.fill_once "name '" "' is parameter and global" name rfl (by decide) (by decide)
  | usedPriorToGlobal name =>
    exact Template.fill_once "name '" "' is used prior to global declaration" name rfl (by decide)
      (by decide)
  | deleteNonexistentLocal name =>
    have hfill := Template.fill_once "cannot delete nonexistent local: " "" name rfl (by decide)
      (by decide)
    exact hfill.trans String.append_empty
  | unclassifiedName name =>
    exact Template.fill_once "name '" "' was not classified in this scope" name rfl (by decide)
      (by decide)
  | tempNotInUse name =>
    exact Template.fill_once "scratch variable '" "' is not in use" name rfl (by decide) (by decide)
  | returnOutsideFunction => rfl
  | loopControlOutsideLoop keyword =>
    exact Template.fill_once "'" "' not properly in loop" keyword rfl (by decide) (by decide)
  | unsupported what =>
    have hfill := Template.fill_once "" " is not supported" what rfl (by decide) (by decide)
    rw [String.empty_append] at hfill
    exact hfill

/-- The table lists the templates in the order of the kinds of causes. -/
theorem table_ctorIdx (c : Cause) : Template.table[c.ctorIdx]? = some c.template := by
  cases c <;> rfl

/-- The code of a template tells the kind of the cause. -/
theorem code_template_eq_iff (c d : Cause) :
    c.template.code = d.template.code ↔ c.ctorIdx = d.ctorIdx := by
  have hnodup : (Template.table.map (·.code)).Nodup := by decide
  have hcode (c : Cause) : (Template.table.map (·.code))[c.ctorIdx]? = some c.template.code := by
    rw [List.getElem?_map, table_ctorIdx, Option.map_some]
  have hlt : c.ctorIdx < (Template.table.map (·.code)).length :=
    (List.getElem?_eq_some_iff.mp (hcode c)).1
  rw [← Option.some_inj, ← hcode c, ← hcode d]
  exact List.getElem?_inj hlt hnodup

end Cause

namespace Error

/-- The text of a report is the message of the error. -/
theorem text_diagnostic (e : Error) (file : String) : (e.diagnostic file).text = e.message :=
  e.cause.fill_template

/-- The codes of two reports are the same exactly if the causes are of one kind. -/
theorem code_diagnostic_eq_iff (e e' : Error) (file file' : String) :
    (e.diagnostic file).code = (e'.diagnostic file').code ↔ e.cause.ctorIdx = e'.cause.ctorIdx :=
  e.cause.code_template_eq_iff e'.cause

end Error

/-- An error and its report say the same thing. The text of the report is the message of the error,
whatever names, keywords or constructs the message is about; the place is that of the error; the code
is the same as that of another report, of any file, exactly if the causes are of one kind. However
many places are attached, the message, the text and the code stay what they are. -/
theorem error_agrees_with_report (e : Error) (file : String) :
    (e.diagnostic file).text = e.message ∧ (e.diagnostic file).span = e.span ∧
      (e.diagnostic file).file = file ∧
      (∀ e' file', (e.diagnostic file).code = (Error.diagnostic e' file').code ↔
        e.cause.ctorIdx = e'.cause.ctorIdx) ∧
      ∀ spans : List Span, (spans.foldl Error.locate e).message = e.message ∧
        ((spans.foldl Error.locate e).diagnostic file).text = (e.diagnostic file).text ∧
        ((spans.foldl Error.locate e).diagnostic file).code = (e.diagnostic file).code := by
  refine ⟨e.text_diagnostic file, rfl, rfl, fun e' file' => e.code_diagnostic_eq_iff e' file file',
    fun spans => ?_⟩
  have hcause : (spans.foldl Error.locate e).cause = e.cause := (e.locate_all spans).1
  have hmessage : (spans.foldl Error.locate e).message = e.message := by
    rw [Error.message, Error.message, hcause]
  refine ⟨hmessage, ?_, ?_⟩
  · rw [Error.text_diagnostic, Error.text_diagnostic, hmessage]
  · rw [Error.code_diagnostic_eq_iff, hcause]

/-- What is named in an error may look like a placeholder. -/
example : (Error.diagnostic { cause := .unsupported "'\x7b0\x7d'" } "m.py").text =
    "'\x7b0\x7d' is not supported" := by
  decide

end Goward
