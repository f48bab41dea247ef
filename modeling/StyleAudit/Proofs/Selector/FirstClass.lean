import StyleAudit.Proofs.Text.Ends
import StyleAudit.Selector

/-!
# The class a rule is named after

A rule is declared under the first class of its selector, and the selector is
checked by the list of its classes.  The two are found in different ways.  The
first class is searched for behind every dot, also behind one in an attribute or
an interpolation, and a backslash may be part of it; the list passes over
attributes and interpolations, and ends a class in front of a backslash.  Where
the first class stands outside of both and holds no backslash, it is the first
of the list.
-/

namespace StyleAudit

namespace Selector

/-- What stands in front of the dot of the first class, and the class. -/
def firstClassAt? : Text → Option (Text × Text)
  | [] => none
  | c :: rest =>
    let later := (firstClassAt? rest).map fun place => (c :: place.1, place.2)
    if c = '.' then
      ((classAt? isDeclaredChar rest).map fun name => ([], name)).or later
    else later

/-- How one character changes whether the text is in an attribute or an
interpolation: the mark that ends the stretch, before and after the
character. -/
def stretchStep (close : Option Char) (c : Char) (rest : Text) : Option Char :=
  match close with
  | some stop => if c = stop then none else some stop
  | none =>
    if c = '[' then some ']'
    else if c = '#' ∧ Text.beginsWith ['{'] rest then some '}'
    else none

/-- The mark that ends the attribute or interpolation into which a text leads,
if it leads into one. -/
def stretchAfter (close : Option Char) : Text → Option Char
  | [] => close
  | c :: rest => stretchAfter (stretchStep close c rest) rest

/-! ## One dot -/

theorem classAt?_eq_some_iff {inName : Char → Bool} {text name : Text} :
    classAt? inName text = some name ↔
      name = text.takeWhile inName ∧ ∃ c rest,
        text = c :: rest ∧ inName c = true ∧
        c.isDigit = false := by
  cases text with
  | nil => simp [classAt?]
  | cons c rest =>
      rw [classAt?]
      split
      · rename_i starts
        rw [Bool.and_eq_true, Bool.not_eq_true'] at starts
        rw [Option.some.injEq, eq_comm]
        exact ⟨fun same => ⟨same, c, rest, rfl, starts⟩, fun found => found.1⟩
      · rename_i starts
        rw [Bool.and_eq_true, Bool.not_eq_true'] at starts
        refine iff_of_false nofun ?_
        rintro ⟨-, d, others, same, begins⟩
        obtain ⟨rfl, rfl⟩ := List.cons.inj same
        exact starts begins

theorem isDeclaredChar_eq_isNameChar {c : Char} (unescaped : c ≠ '\\') :
    isDeclaredChar c = Text.isNameChar c := by
  simp [isDeclaredChar, unescaped]

private theorem takeWhile_isDeclaredChar {text : Text}
    (unescaped : '\\' ∉ text.takeWhile isDeclaredChar) :
    text.takeWhile isDeclaredChar = text.takeWhile Text.isNameChar := by
  induction text with
  | nil => rfl
  | cons c rest ih =>
      by_cases declared : isDeclaredChar c = true
      · rw [List.takeWhile_cons_of_pos declared, List.mem_cons, not_or]
          at unescaped
        have named := isDeclaredChar_eq_isNameChar (Ne.symm unescaped.1)
        rw [List.takeWhile_cons_of_pos declared, ih unescaped.2,
          List.takeWhile_cons_of_pos (named ▸ declared)]
      · have unnamed : ¬ Text.isNameChar c = true := fun named =>
          declared (by rw [isDeclaredChar, named, Bool.true_or])
        rw [List.takeWhile_cons_of_neg declared,
          List.takeWhile_cons_of_neg unnamed]

/-- A class without a backslash is read in the same way by both. -/
theorem classAt?_isNameChar_of_some {text name : Text}
    (found : classAt? isDeclaredChar text = some name)
    (unescaped : '\\' ∉ name) :
    classAt? Text.isNameChar text = some name := by
  obtain ⟨rfl, c, rest, rfl, declared, noDigit⟩ := classAt?_eq_some_iff.mp found
  refine classAt?_eq_some_iff.mpr ⟨takeWhile_isDeclaredChar unescaped, c, rest,
    rfl, ?_, noDigit⟩
  rw [List.takeWhile_cons_of_pos declared, List.mem_cons, not_or] at unescaped
  rwa [← isDeclaredChar_eq_isNameChar (Ne.symm unescaped.1)]

theorem classAt?_isNameChar_of_none {text : Text}
    (missing : classAt? isDeclaredChar text = none) :
    classAt? Text.isNameChar text = none := by
  rw [Option.eq_none_iff_forall_not_mem]
  intro name found
  obtain ⟨-, c, rest, rfl, named, noDigit⟩ := classAt?_eq_some_iff.mp found
  have declared : isDeclaredChar c = true := by
    rw [isDeclaredChar, named, Bool.true_or]
  have also := classAt?_eq_some_iff.mpr ⟨rfl, c, rest, rfl, declared, noDigit⟩
  rw [missing] at also
  cases also

/-! ## All dots -/

/-- Does a class begin with this character? -/
def BeginsClass (c : Char) (rest : Text) : Prop :=
  ∃ name, c = '.' ∧ classAt? isDeclaredChar rest = some name

theorem firstClassAt?_of_class {rest name : Text}
    (isClass : classAt? isDeclaredChar rest = some name) :
    firstClassAt? ('.' :: rest) = some ([], name) := by
  rw [firstClassAt?, if_pos rfl, isClass, Option.map_some, Option.some_or]

theorem firstClassAt?_of_not_beginsClass {c : Char} {rest : Text}
    (passed : ¬ BeginsClass c rest) :
    firstClassAt? (c :: rest) =
      (firstClassAt? rest).map fun place => (c :: place.1, place.2) := by
  rw [firstClassAt?]
  split
  · rename_i dot
    have missing : classAt? isDeclaredChar rest = none := by
      rw [Option.eq_none_iff_forall_not_mem]
      exact fun name found => passed ⟨name, dot, found⟩
    rw [missing, Option.map_none, Option.none_or]
  · rfl

theorem firstClass?_eq_map (selector : Text) :
    firstClass? selector = (firstClassAt? selector).map (·.2) := by
  induction selector with
  | nil => rfl
  | cons c rest ih =>
      have later : ((firstClassAt? rest).map fun place =>
          (c :: place.1, place.2)).map (·.2) =
          firstClass? rest := by
        rw [ih, Option.map_map]
        rfl
      rw [firstClass?, firstClassAt?]
      split
      · rw [Option.map_or, later, Option.map_map]
        cases classAt? isDeclaredChar rest <;> rfl
      · exact later.symm

/-- A dot follows what stands in front of the first class. -/
theorem isPrefix_of_mem_firstClassAt? {selector : Text} {place : Text × Text}
    (found : place ∈ firstClassAt? selector) :
    place.1 ++ ['.'] <+: selector := by
  induction selector generalizing place with
  | nil => cases found
  | cons c rest ih =>
      by_cases here : BeginsClass c rest
      · obtain ⟨name, rfl, isClass⟩ := here
        obtain rfl :=
          Option.some.inj ((firstClassAt?_of_class isClass).symm.trans found)
        exact List.cons_prefix_cons.mpr ⟨rfl, List.nil_prefix⟩
      · rw [firstClassAt?_of_not_beginsClass here] at found
        obtain ⟨later, foundLater, rfl⟩ := Option.map_eq_some_iff.mp found
        exact List.cons_prefix_cons.mpr ⟨rfl, ih foundLater⟩

theorem stretchStep_of_isPrefix (close : Option Char) (c : Char)
    {front rest : Text} (begins : front ++ ['.'] <+: rest) :
    stretchStep close c front = stretchStep close c rest := by
  have sameBrace : Text.beginsWith ['{'] front =
      Text.beginsWith ['{'] rest := by
    obtain ⟨behind, rfl⟩ := begins
    rw [Bool.eq_iff_iff, Text.beginsWith_iff, Text.beginsWith_iff]
    cases front <;> simp
  unfold stretchStep
  rw [sameBrace]

/-- The list of classes, character by character: a dot in the open may begin
one. -/
theorem classNamesFrom_cons (close : Option Char) (c : Char) (rest : Text) :
    classNamesFrom close (c :: rest) =
      (if close = none ∧
        c = '.' then (classAt? Text.isNameChar rest).toList else []) ++
        classNamesFrom (stretchStep close c rest) rest := by
  cases close with
  | some stop => simp [classNamesFrom, stretchStep]
  | none =>
      rw [classNamesFrom, stretchStep]
      by_cases bracket : c = '['
      · simp [bracket]
      · by_cases brace : c = '#' ∧ Text.beginsWith ['{'] rest
        · simp [brace]
        · by_cases dot : c = '.' <;> simp [bracket, brace, dot]

/-- The induction is along the selector, from inside an attribute or
interpolation or from outside of any. -/
theorem firstClass?_eq_head?_of_exposed (close : Option Char) {selector : Text}
    (exposed : ∀ place ∈ firstClassAt? selector,
      stretchAfter close place.1 = none)
    (unescaped : ∀ place ∈ firstClassAt? selector, '\\' ∉ place.2) :
    firstClass? selector = (classNamesFrom close selector).head? := by
  induction selector generalizing close with
  | nil => rfl
  | cons c rest ih =>
      by_cases here : BeginsClass c rest
      · obtain ⟨name, rfl, isClass⟩ := here
        have front := firstClassAt?_of_class isClass
        obtain rfl : close = none := exposed _ front
        have listed := classAt?_isNameChar_of_some isClass (unescaped _ front)
        rw [firstClass?_eq_map, front, classNamesFrom_cons,
          if_pos ⟨rfl, rfl⟩, listed]
        rfl
      · have front := firstClassAt?_of_not_beginsClass here
        have unlisted : (if close = none ∧
            c = '.' then (classAt? Text.isNameChar rest).toList
            else []) = [] := by
          split
          · rename_i dot
            have missing : classAt? isDeclaredChar rest = none :=
              Option.eq_none_iff_forall_not_mem.mpr fun name found =>
                here ⟨name, dot.2, found⟩
            rw [classAt?_isNameChar_of_none missing, Option.toList_none]
          · rfl
        have same : firstClass? (c :: rest) = firstClass? rest := by
          rw [firstClass?_eq_map, firstClass?_eq_map, front, Option.map_map]
          rfl
        rw [same, classNamesFrom_cons, unlisted, List.nil_append]
        apply ih
        · intro place found
          have later := exposed (c :: place.1, place.2)
            (by rw [front]; exact Option.mem_map_of_mem _ found)
          rwa [stretchAfter,
            stretchStep_of_isPrefix close c
              (isPrefix_of_mem_firstClassAt? found)] at later
        · intro place found
          exact unescaped (c :: place.1, place.2)
            (by rw [front]; exact Option.mem_map_of_mem _ found)

private theorem isNameChar_of_mem_classNamesFrom {close : Option Char}
    {selector name : Text} (listed : name ∈ classNamesFrom close selector) :
    ∀ c ∈ name, Text.isNameChar c = true := by
  induction selector generalizing close with
  | nil => cases listed
  | cons c rest ih =>
      rw [classNamesFrom_cons] at listed
      rcases List.mem_append.mp listed with here | later
      · split at here
        · obtain ⟨rfl, -⟩ := classAt?_eq_some_iff.mp (Option.mem_toList.mp here)
          exact List.all_eq_true.mp List.all_takeWhile
        · cases here
      · exact ih later

/-- The class that names a rule is the first of its selector's classes, if it
stands outside of attributes and interpolations and holds no backslash.  Outside
of them, only a backslash makes a difference. -/
theorem firstClass?_eq_head?_iff (selector : Text)
    (exposed : ∀ place ∈ firstClassAt? selector,
      stretchAfter none place.1 = none) :
    firstClass? selector = (classNames selector).head? ↔
      ∀ place ∈ firstClassAt? selector, '\\' ∉ place.2 := by
  constructor
  · intro agree place found escaped
    rw [firstClass?_eq_map, found, Option.map_some] at agree
    have named := isNameChar_of_mem_classNamesFrom
      (List.mem_of_head? agree.symm) '\\' escaped
    revert named
    decide
  · exact firstClass?_eq_head?_of_exposed none exposed

/-- A selector with a dot behind an attribute that holds none, a number, and an
escape in front of the first class, and with dots and an escape in the parts
behind it. -/
theorem firstClass?_eq_head?_mixed :
    let selector :=
      "[a]>1.5 b\\:c.c-x:not(.d)[e='.f'] #\x7b$g.h\x7d .i\\:j".toList
    firstClass? selector = (classNames selector).head? ∧
      classNames selector = ["c-x".toList, "d".toList, "i".toList] := by
  intro selector
  refine ⟨(firstClass?_eq_head?_iff selector ?_).mpr ?_, ?_⟩ <;> decide +kernel

/-- A dot in the value of an attribute names the rule, and the selector does not
list it. -/
theorem firstClass?_ne_head?_attribute :
    firstClass? "[data-x='.y'] .c-a".toList = some "y".toList ∧
      (classNames "[data-x='.y'] .c-a".toList).head? = some "c-a".toList := by
  decide +kernel

end Selector

end StyleAudit
