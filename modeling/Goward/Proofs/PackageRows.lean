import Goward.Proofs.CodeRows

/-!
# Rows that mention packages

A package that code mentions is mentioned in its text: the call that uses the package stands in a
row of its own, with the alias of the package and a dot behind that. This holds for the bodies
nested in the code as well.
-/

namespace Goward

open Goward.Code Goward.Text

namespace Text

/-- A text is shown within another one. -/
def Shows (s w : String) : Prop := w.toList <:+: s.toList

variable {a b w : String}

theorem Shows.refl (w : String) : Shows w w := List.infix_rfl

theorem Shows.left (h : Shows a w) (b : String) : Shows (a ++ b) w := by
  rw [Shows, String.toList_append]
  exact h.trans (List.prefix_append _ _).isInfix

theorem Shows.right (h : Shows b w) (a : String) : Shows (a ++ b) w := by
  rw [Shows, String.toList_append]
  exact h.trans (List.suffix_append _ _).isInfix

theorem shows_join {xs : List String} {x : String} (hx : x ∈ xs) (h : Shows x w) :
    Shows (String.join xs) w := by
  induction xs with
  | nil => cases hx
  | cons y rest ih =>
    rw [String.join_cons]
    rcases List.mem_cons.mp hx with rfl | hx
    · exact h.left _
    · exact (ih hx).right _

theorem shows_intercalate {xs : List String} {x : String} (hx : x ∈ xs) (h : Shows x w)
    (s : String) : Shows (s.intercalate xs) w := by
  induction xs with
  | nil => cases hx
  | cons y rest ih =>
    cases rest with
    | nil =>
      obtain rfl := List.mem_singleton.mp hx
      rwa [String.intercalate_singleton]
    | cons z rest =>
      rw [String.intercalate_cons_cons]
      rcases List.mem_cons.mp hx with rfl | hx
      · exact (h.left _).left _
      · exact (ih hx).right _

theorem infix_chopReturn {v l : List Char} {c : Char} (hlast : v.getLast? = some c) (hc : c ≠ '\r')
    (h : v <:+: l) : v <:+: chopReturn l := by
  unfold chopReturn
  split
  · next hreturn =>
    obtain ⟨before, after, rfl⟩ := h
    rcases List.eq_nil_or_concat after with rfl | ⟨init, x, rfl⟩
    · rw [List.append_nil, List.getLast?_append, hlast] at hreturn
      exact absurd (Option.some.inj hreturn) hc
    · rw [List.concat_eq_append, ← List.append_assoc, List.dropLast_concat]
      exact ⟨before, init, rfl⟩
  · exact h

end Text

/-- How code names the package of a member. -/
def Package.qualifier (p : Package) : String := p.goName ++ "."

namespace Code

theorem package_not_mem_mentions (p : Package) (v : Value) : .package p ∉ v.mentions := by
  cases v <;> simp [Value.mentions]

/-- The packages that a call mentions are shown in its text. -/
theorem Call.shows_package {c : Call} {p : Package} (h : .package p ∈ c.mentions) :
    Shows c.text p.qualifier := by
  have hvalue (v : Value) := package_not_mem_mentions p v
  have hruntime {fn a : String} {args : List String} (ha : a ∈ args) (hs : Shows a p.qualifier) :
      Shows (runtime fn args) p.qualifier :=
    (((shows_join (List.mem_map_of_mem ha) (hs.right ", ")).right _).left _)
  cases c with
  | importModule name packages =>
    obtain ⟨q, hq, hqp⟩ := List.mem_map.mp h
    obtain rfl : q = p := by simpa using hqp
    have hentry : Shows (q.goName ++ ".Code") q.qualifier :=
      ⟨[], "Code".toList, by simp [Package.qualifier, String.toList_append]⟩
    have hmem : q.goName ++ ".Code" ∈ packages.map (·.goName ++ ".Code") := List.mem_map_of_mem hq
    have hlist := shows_intercalate hmem hentry ", "
    exact hruntime (List.mem_cons_of_mem _ (List.mem_singleton_self _)) ((hlist.right _).left _)
  | wrapNative reflect package member =>
    refine hruntime (List.mem_singleton_self _) ?_
    have hp : p = reflect ∨ p = package := by simpa [mentions] using h
    rcases hp with rfl | rfl
    · exact ⟨[], "ValueOf(".toList ++ (package.goName ++ "." ++ member ++ ")").toList,
        by simp [Package.qualifier, String.toList_append]⟩
    · exact ⟨(reflect.goName ++ ".ValueOf(").toList, (member ++ ")").toList,
        by simp [Package.qualifier, String.toList_append]⟩
  | setItem _ _ v | getAttr v _ | isTrue v | iter v | tie _ _ v =>
    simp [mentions, hvalue v] at h
  | setAttr v _ w | binary _ v w | inplace _ v w => simp [mentions, hvalue v, hvalue w] at h
  | invoke fn args => simp [mentions, hvalue] at h
  | delVar _ _ | checkLocal _ | resolveGlobal _ | resolveClass _ _ | setModule _ _ | evalCode _
  | newClass _ _ _ => simp [mentions] at h

end Code

namespace Layout

/-- A row of code, no comment with a line of the source, shows how a package is named. -/
def ShownIn (p : Package) (row : List Char) : Prop :=
  isSourceLine row = false ∧ p.qualifier.toList <:+: row

theorem lasting_shownIn (p : Package) : Lasting (ShownIn p) where
  chopReturn {l} h := by
    have hlast : p.qualifier.toList.getLast? = some '.' := by
      rw [Package.qualifier, String.toList_append]
      exact List.getLast?_concat
    exact ⟨(isSourceLine_chopReturn l).trans h.1, infix_chopReturn hlast (by decide) h.2⟩
  tabs {l} h n := ⟨(isSourceLine_tabs n l).trans h.1, h.2.trans (List.suffix_append _ _).isInfix⟩
  not_blank {l} h := by
    have hdot : '.' ∈ l := h.2.subset (by simp [Package.qualifier, String.toList_append])
    rw [Bool.not_eq_true', Bool.eq_false_iff]
    intro hall
    exact absurd (List.all_eq_true.mp hall '.' hdot) (by decide)

theorem mentions_checked {p : Package} {targets : String} {c : Call} (ht : OneLine targets)
    (hc : OneLine c.text) (h : .package p ∈ c.mentions) {f : Fragment}
    (hf : f.text = Fragment.checked targets c.text) : WritesRow (ShownIn p) [.put f] := by
  refine .of_piece (lasting_shownIn p) (?_ : (checkedLine targets c.text).toList ∈ _) ⟨?_, ?_⟩
  · have htext : (checkedLine targets c.text ++ "\n" ++ "\tcontinue\n\x7d").toList =
        (checkedLine targets c.text).toList ++ '\n' :: "\tcontinue\n\x7d".toList := by
      simp [String.toList_append]
    rw [hf, checked_eq, htext,
      List.splitOn_append_cons_self_of_not_mem (oneLine_checkedLine ht hc)]
    exact List.mem_cons_self
  · simp only [isSourceLine, checkedLine, String.toList_append, List.append_assoc]
    rfl
  · exact ((c.shows_package h).right _).left _

/-! ### Code -/

section Code

variable {o : Options} {ids : List String} {p : Package} {filename : String}

theorem mentions_action (ho : o.OneLine) (hids : ∀ x ∈ ids, OneLine x) {a : Action}
    (h : Instr.From o ids (.action a)) (hp : .package p ∈ a.mentions) :
    WritesRow (ShownIn p) (instrOps filename (.action a)) := by
  have hvalue (v : Value) := package_not_mem_mentions p v
  cases h with
  | mk hm ht _ _ =>
    cases a with
    | perform c => exact mentions_checked (.literal rfl) (c.oneLine ho hids hm ht) hp rfl
    | store dst c =>
      obtain ⟨hdst, htc⟩ := List.forall_mem_cons.mp ht
      have htargets : OneLine (dst.name ++ ", πE") :=
        oneLine_append.mpr ⟨hdst.oneLine.1, .literal rfl⟩
      exact mentions_checked htargets (c.oneLine ho hids hm htc) hp rfl
    | discard c =>
      have htargets : OneLine ("_" ++ ", πE") := oneLine_append.mpr ⟨.literal rfl, .literal rfl⟩
      exact mentions_checked htargets (c.oneLine ho hids hm ht) hp rfl
    | construct _ k => cases k <;> simp [Action.mentions, Construction.mentions, hvalue] at hp
    | setSlot _ v => simp [Action.mentions, hvalue v] at hp
    | sourceLine _ _ | acquire _ | release _ | clearSlot _ => simp [Action.mentions] at hp

end Code

end Layout

namespace Code.Step

open Goward.Layout

variable {o : Options} {ids : List String} {p : Package} {filename : String}

mutual

theorem mentions_linear (ho : o.OneLine) (hids : ∀ x ∈ ids, OneLine x) : (s : Step) →
    (l : Labels) → (∀ i ∈ (s.linear l).1, i.From o ids) →
    .package p ∈ (s.flat true).flatMap mentions →
    WritesRow (ShownIn p) (codeOps filename (s.linear l).1)
  | action a, l => fun h hp => by
    have hp : .package p ∈ a.mentions := by simpa [flat, mentions] using hp
    exact (mentions_action ho hids (h _ List.mem_cons_self) hp).left []
  | suspend v, _ => fun _ hp => absurd hp (by simp [flat, mentions, package_not_mem_mentions])
  | ret v, _ => fun _ hp => by
    cases v <;> simp [flat, mentions, package_not_mem_mentions] at hp
  | breakLoop, _ | continueLoop, _ => fun _ hp => absurd hp (by simp [flat, mentions])
  | function dst header temps body, l => fun h hp => by
    cases h _ List.mem_cons_self with
    | mk _ _ _ hbody =>
      have hbody := mentions_linearAll ho hids body {} (hbody _ _ rfl) hp
      have hrun := (hbody.resumable (lasting_shownIn p) (linearAll body {}).2.checkpoints).rendered
        (lasting_shownIn p) 0
      exact ((((hrun.functionBody header temps).within 1).right [_]).left [_]).left []
  | classBody dst name names temps body, l => fun h hp => by
    cases h _ List.mem_cons_self with
    | mk _ _ _ hbody =>
      have hbody := mentions_linearAll ho hids body {} (hbody _ _ rfl) hp
      have hrun := (hbody.resumable (lasting_shownIn p) (linearAll body {}).2.checkpoints).rendered
        (lasting_shownIn p) 0
      exact ((((hrun.right [_, _, _]).within 1).right [_]).left [_]).left []
  | branch test cond body none, l => fun h hp => by
    simp only [flat, List.flatMap_append, List.mem_append] at hp
    simp only [linear, List.forall_mem_append] at h
    simp only [linear, codeOps_append]
    rcases hp with hp | hp
    · exact (((mentions_linearAll ho hids test _ h.1.1.1 hp).left _).left _).left _
    · exact ((mentions_linearAll ho hids body _ h.1.2 hp).right _).left _
  | branch test cond body (some orelse), l => fun h hp => by
    simp only [flat, List.flatMap_append, List.mem_append] at hp
    simp only [linear, List.forall_mem_append] at h
    simp only [linear, codeOps_append]
    rcases hp with (hp | hp) | hp
    · have htest := mentions_linearAll ho hids test _ h.1.1.1.1.1 hp
      exact ((((htest.left _).left _).left _).left _).left _
    · exact ((((mentions_linearAll ho hids body _ h.1.1.1.2 hp).right _).left _).left _).left _
    · exact ((mentions_linearAll ho hids orelse _ h.1.2 hp).right _).left _
  | whileLoop test cond body none, l => fun h hp => by
    simp only [flat, List.flatMap_append, List.mem_append] at hp
    simp only [linear, List.forall_mem_append] at h
    simp only [linear, codeOps_append]
    rcases hp with hp | hp
    · exact ((((mentions_linearAll ho hids test _ h.1.1.1.2 hp).right _).left _).left _).left _
    · exact ((mentions_linearAll ho hids body _ h.1.2 hp).right _).left _
  | whileLoop test cond body (some orelse), l => fun h hp => by
    simp only [flat, List.flatMap_append, List.mem_append] at hp
    simp only [linear, List.forall_mem_append] at h
    simp only [linear, codeOps_append]
    rcases hp with (hp | hp) | hp
    · have htest := mentions_linearAll ho hids test _ h.1.1.1.1.1.2 hp
      exact (((((htest.right _).left _).left _).left _).left _).left _
    · exact ((((mentions_linearAll ho hids body _ h.1.1.1.2 hp).right _).left _).left _).left _
    · exact ((mentions_linearAll ho hids orelse _ h.1.2 hp).right _).left _
  | forLoop iterator item bind body none, l => fun h hp => by
    simp only [flat, List.flatMap_append, List.mem_append] at hp
    simp only [linear, List.forall_mem_append] at h
    simp only [linear, codeOps_append]
    rcases hp with hp | hp
    · exact (((mentions_linearAll ho hids bind _ h.1.1.2 hp).right _).left _).left _
    · exact ((mentions_linearAll ho hids body _ h.1.2 hp).right _).left _
  | forLoop iterator item bind body (some orelse), l => fun h hp => by
    simp only [flat, List.flatMap_append, List.mem_append] at hp
    simp only [linear, List.forall_mem_append] at h
    simp only [linear, codeOps_append]
    rcases hp with (hp | hp) | hp
    · have hbind := mentions_linearAll ho hids bind _ h.1.1.1.1.2 hp
      exact ((((hbind.right _).left _).left _).left _).left _
    · exact ((((mentions_linearAll ho hids body _ h.1.1.1.2 hp).right _).left _).left _).left _
    · exact ((mentions_linearAll ho hids orelse _ h.1.2 hp).right _).left _

/-- A package that code mentions at some depth is shown in a row of its text. -/
theorem mentions_linearAll (ho : o.OneLine) (hids : ∀ x ∈ ids, OneLine x) :
    (code : List Step) → (l : Labels) → (∀ i ∈ (linearAll code l).1, i.From o ids) →
    .package p ∈ mentionsOf true code → WritesRow (ShownIn p) (codeOps filename (linearAll code l).1)
  | [], _ => fun _ hp => nomatch hp
  | s :: rest, l => fun h hp => by
    rw [mentionsOf, flatAll, List.flatMap_append, List.mem_append] at hp
    rw [linearAll, codeOps_append]
    rw [linearAll, List.forall_mem_append] at h
    rcases hp with hp | hp
    · exact (mentions_linear ho hids s l h.1 hp).left _
    · exact (mentions_linearAll ho hids rest _ h.2 hp).right _

end

end Code.Step

end Goward
