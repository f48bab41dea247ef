import StyleAudit.Proofs.Selector.FirstClass
import StyleAudit.Proofs.Text.Words

/-!
# The names in a selector

A selector lists the names behind its dots, as far as the dots stand outside of
attributes and interpolations and no digit follows.  A selector without a class
still has words, and then the first of them counts.  Both are told here by where
a name stands in the selector, without regard to how it is found.
-/

namespace StyleAudit

namespace Selector

/-- A whole name stands at the front of the text: no character of a name follows
it. -/
def LeadsWithName (text name : Text) : Prop :=
  ∃ behind, text = name ++ behind ∧ Text.IsName name ∧
    ∀ c rest, behind = c :: rest → Text.isNameChar c = false

/-- The selector names a class: behind a dot outside of attributes and
interpolations there is a name that does not begin with a digit. -/
def NamesClass (selector name : Text) : Prop :=
  ∃ front rest, selector = front ++ '.' :: rest ∧
  stretchAfter none front = none ∧
    LeadsWithName rest name ∧ ∀ c others, name = c :: others → c.isDigit = false

/-- The first word of the selector. -/
def IsFirstWord (selector name : Text) : Prop :=
  ∃ front rest, selector = front ++ rest ∧
  (∀ c ∈ front, Text.isNameChar c = false) ∧
    LeadsWithName rest name

variable {selector text name : Text}

/-! ## One name -/

theorem eq_false_of_dropWhile_eq_cons {test : Char → Bool} {c : Char}
    {rest : Text} (behind : text.dropWhile test = c :: rest) :
    test c = false := by
  have stopped := List.head?_dropWhile_not test text
  rw [behind] at stopped
  exact stopped

/-- The name at the front of a text is all that it begins with. -/
theorem leadsWithName_iff :
    LeadsWithName text name ↔
      name = Text.nameRun text ∧ ∃ c rest,
        text = c :: rest ∧ Text.isNameChar c = true := by
  constructor
  · rintro ⟨behind, rfl, isName, ended⟩
    obtain ⟨c, others, rfl⟩ := List.exists_cons_of_ne_nil isName.1
    refine ⟨?_, c, others ++ behind, rfl, isName.2 c List.mem_cons_self⟩
    rw [Text.nameRun, List.takeWhile_append_of_pos isName.2]
    cases behind with
    | nil => rw [List.takeWhile_nil, List.append_nil]
    | cons d rest =>
        rw [List.takeWhile_cons_of_neg (by simp [ended d rest rfl]),
          List.append_nil]
  · rintro ⟨rfl, c, rest, rfl, named⟩
    refine ⟨(c :: rest).dropWhile Text.isNameChar,
      List.takeWhile_append_dropWhile.symm, ⟨?_, ?_⟩,
      fun _ _ => eq_false_of_dropWhile_eq_cons⟩
    · rw [Text.nameRun, List.takeWhile_cons_of_pos named]
      exact List.cons_ne_nil _ _
    · exact List.all_eq_true.mp List.all_takeWhile

theorem classAt?_isNameChar_iff :
    classAt? Text.isNameChar text = some name ↔
      LeadsWithName text name ∧ ∀ c others, name = c :: others →
        c.isDigit = false := by
  rw [classAt?_eq_some_iff, leadsWithName_iff]
  constructor
  · rintro ⟨rfl, c, rest, rfl, named, noDigit⟩
    refine ⟨⟨rfl, c, rest, rfl, named⟩, ?_⟩
    intro d others same
    rw [List.takeWhile_cons_of_pos named] at same
    rwa [← (List.cons.inj same).1]
  · rintro ⟨⟨rfl, c, rest, rfl, named⟩, noDigit⟩
    exact ⟨rfl, c, rest, rfl, named,
      noDigit c _ (List.takeWhile_cons_of_pos named)⟩

/-! ## All names -/

/-- A dot does not open a brace, so what stands in front of it says whether it
is in the open. -/
theorem stretchAfter_cons_dot (close : Option Char) (c : Char)
    (front rest : Text) :
    stretchAfter close (c :: front) =
      stretchAfter (stretchStep close c (front ++ '.' :: rest)) front := by
  have begins : front ++ ['.'] <+: front ++ '.' :: rest :=
    (List.prefix_append_right_inj front).mpr (List.prefix_append ['.'] rest)
  rw [stretchAfter, stretchStep_of_isPrefix close c begins]

private theorem mem_classNamesFrom_iff {close : Option Char} :
    name ∈ classNamesFrom close selector ↔
      ∃ front rest, selector = front ++ '.' :: rest ∧
      stretchAfter close front = none ∧
        classAt? Text.isNameChar rest = some name := by
  induction selector generalizing close with
  | nil => simp [classNamesFrom]
  | cons c text ih =>
      rw [classNamesFrom_cons, List.mem_append, ih]
      constructor
      · rintro (here | ⟨front, rest, rfl, outside, found⟩)
        · split at here
          · rename_i dot
            obtain ⟨rfl, rfl⟩ := dot
            exact ⟨[], text, rfl, rfl, Option.mem_toList.mp here⟩
          · cases here
        · refine ⟨c :: front, rest, rfl, ?_, found⟩
          rw [stretchAfter_cons_dot close c front rest]
          exact outside
      · rintro ⟨front, rest, same, outside, found⟩
        cases front with
        | nil =>
            obtain ⟨rfl, rfl⟩ := List.cons.inj same
            obtain rfl : close = none := outside
            rw [if_pos ⟨rfl, rfl⟩]
            exact .inl (Option.mem_toList.mpr found)
        | cons d front =>
            obtain ⟨rfl, rfl⟩ := List.cons.inj same
            refine .inr ⟨front, rest, rfl, ?_, found⟩
            rwa [stretchAfter_cons_dot close c front rest] at outside

/-- The list of classes holds the names that stand behind dots in the open. -/
theorem mem_classNames_iff : name ∈ classNames selector ↔
    NamesClass selector name := by
  rw [classNames, mem_classNamesFrom_iff, NamesClass]
  simp only [classAt?_isNameChar_iff]

theorem firstIdentifier?_eq_some_iff :
    firstIdentifier? selector = some name ↔ IsFirstWord selector name := by
  rw [firstIdentifier?]
  constructor
  · intro found
    split at found
    · cases found
    · rename_i c rest behind
      refine ⟨selector.takeWhile (!Text.isNameChar ·), c :: rest, ?_, ?_, ?_⟩
      · rw [← behind, List.takeWhile_append_dropWhile]
      · intro d member
        simpa using List.all_eq_true.mp List.all_takeWhile d member
      · have named : Text.isNameChar c = true := by
          simpa using eq_false_of_dropWhile_eq_cons behind
        exact leadsWithName_iff.mpr
          ⟨(Option.some.inj found).symm, c, rest, rfl, named⟩
  · rintro ⟨front, text, rfl, noName, leads⟩
    obtain ⟨rfl, c, rest, rfl, named⟩ := leadsWithName_iff.mp leads
    rw [List.dropWhile_append_of_pos fun d member => by simp [noName d member],
      List.dropWhile_cons_of_neg (by simp [named])]

end Selector

end StyleAudit
