import StyleAudit.Proofs.Text.Ends
import StyleAudit.Proofs.Text.Trim
import StyleAudit.Text.Alphanumeric

/-!
# Words and names

A word is a stretch without blanks.  Reading a word in front of a blank, or at
the end of a text, finds the whole of it.  Names are words, since no character
of a name is a blank.
-/

namespace StyleAudit

namespace Text

/-- The text holds no blank. -/
def BlankFree (text : Text) : Prop :=
  ∀ c ∈ text, isBlank c = false

-- Named, since a search may also settle on trying all characters there are.
instance (text : Text) : Decidable (BlankFree text) :=
  List.decidableBAll (fun c => isBlank c = false) text

theorem BlankFree.not_mem {text : Text} (blankFree : BlankFree text) {c : Char}
    (blank : isBlank c = true) : c ∉ text := by
  intro member
  rw [blankFree c member] at blank
  cases blank

theorem BlankFree.trimmed {text : Text} (blankFree : BlankFree text) :
    Trimmed text :=
  trimmed_iff.mpr ⟨fun c first => blankFree c (List.mem_of_mem_head? first),
    fun c last => blankFree c (List.mem_of_mem_getLast? last)⟩

/-! ## Cutting at the first character of a kind -/

theorem splitFirst?_append_cons {stop : Char → Bool} {front : Text} {c : Char}
    (passed : ∀ d ∈ front, stop d = false) (stopped : stop c = true)
    (rest : Text) :
    splitFirst? stop (front ++ c :: rest) = some (front, rest) := by
  induction front with
  | nil => rw [List.nil_append, splitFirst?, if_pos stopped]
  | cons d front ih =>
      have later :=
        ih fun other member => passed other (List.mem_cons_of_mem d member)
      have notHere : ¬ stop d = true := by simp [passed d List.mem_cons_self]
      rw [List.cons_append, splitFirst?, if_neg notHere, later]
      rfl

theorem splitFirst?_eq_none {stop : Char → Bool} {text : Text}
    (passed : ∀ c ∈ text, stop c = false) : splitFirst? stop text = none := by
  induction text with
  | nil => rfl
  | cons c rest ih =>
      have later :=
        ih fun other member => passed other (List.mem_cons_of_mem c member)
      have notHere : ¬ stop c = true := by simp [passed c List.mem_cons_self]
      rw [splitFirst?, if_neg notHere, later]
      rfl

theorem of_splitFirst?_eq_none {stop : Char → Bool} {text : Text}
    (none : splitFirst? stop text = none) : ∀ c ∈ text, stop c = false := by
  induction text with
  | nil => exact nofun
  | cons c rest ih =>
      rw [splitFirst?] at none
      split at none
      · cases none
      · rename_i passed
        rw [Option.map_eq_none_iff] at none
        exact List.forall_mem_cons.mpr ⟨Bool.eq_false_iff.mpr passed, ih none⟩

theorem splitFirst?_eq_some {stop : Char → Bool} {text front rest : Text}
    (found : splitFirst? stop text = some (front, rest)) :
    ∃ c, text = front ++ c :: rest ∧ stop c = true ∧ ∀ d ∈ front,
      stop d = false := by
  induction text generalizing front with
  | nil => cases found
  | cons c text ih =>
      rw [splitFirst?] at found
      split at found
      · rename_i stopped
        cases found
        exact ⟨c, rfl, stopped, nofun⟩
      · rename_i passed
        obtain ⟨⟨later, behind⟩, foundLater, parts⟩ :=
          Option.map_eq_some_iff.mp found
        cases parts
        obtain ⟨d, rfl, stopped, others⟩ := ih foundLater
        refine ⟨d, rfl, stopped, ?_⟩
        intro e member
        rcases List.mem_cons.mp member with rfl | inLater
        · exact Bool.eq_false_iff.mpr passed
        · exact others e inLater

theorem splitFirst?_beq_iff {mark : Char} {text front rest : Text} :
    splitFirst? (· == mark) text = some (front, rest) ↔
      text = front ++ mark :: rest ∧ mark ∉ front := by
  constructor
  · intro found
    obtain ⟨c, rfl, stopped, others⟩ := splitFirst?_eq_some found
    obtain rfl := eq_of_beq stopped
    exact ⟨rfl, fun member => absurd (others c member) (by simp)⟩
  · rintro ⟨rfl, absent⟩
    apply splitFirst?_append_cons
    · intro d member
      exact beq_eq_false_iff_ne.mpr fun same => absent (same ▸ member)
    · exact beq_self_eq_true mark

theorem splitLast?_append_cons {mark : Char} {back : Text}
    (single : mark ∉ back) (front : Text) :
    splitLast? mark (front ++ mark :: back) = some (front, back) := by
  have reversed : (front ++ mark :: back).reverse = back.reverse ++ mark ::
      front.reverse := by
    simp
  have cut : splitFirst? (· == mark) (front ++ mark :: back).reverse =
      some (back.reverse, front.reverse) :=
    splitFirst?_beq_iff.mpr
      ⟨reversed, fun member => single (List.mem_reverse.mp member)⟩
  rw [splitLast?, cut, Option.map_some, List.reverse_reverse,
    List.reverse_reverse]

theorem splitLast?_eq_none {mark : Char} {text : Text} (absent : mark ∉ text) :
    splitLast? mark text = none := by
  have passed : ∀ c ∈ text.reverse, (c == mark) = false := by
    intro c member
    rw [beq_eq_false_iff_ne]
    rintro rfl
    exact absent (List.mem_reverse.mp member)
  rw [splitLast?, splitFirst?_eq_none passed, Option.map_none]

theorem splitWord_append_space {word : Text} (blankFree : BlankFree word)
    (rest : Text) :
    splitWord (word ++ ' ' :: rest) = (word, rest) := by
  rw [splitWord, splitFirst?_append_cons blankFree isBlank_space]
  rfl

theorem splitWord_of_blankFree {word : Text} (blankFree : BlankFree word) :
    splitWord word = (word, []) := by
  rw [splitWord, splitFirst?_eq_none blankFree]
  rfl

/-- What may stand behind a word: nothing, or a blank and more. -/
def AtBlank (text : Text) : Prop :=
  ∀ c rest, text = c :: rest → isBlank c = true

theorem takeWhile_word {word behind : Text} (blankFree : BlankFree word)
    (ended : AtBlank behind) :
    (word ++ behind).takeWhile (!isBlank ·) = word := by
  rw [List.takeWhile_append_of_pos fun c member => by simp [blankFree c member]]
  cases behind with
  | nil => rw [List.takeWhile_nil, List.append_nil]
  | cons c rest =>
      rw [List.takeWhile_cons_of_neg (by simp [ended c rest rfl]),
        List.append_nil]

theorem dropWhile_word {word behind : Text} (blankFree : BlankFree word)
    (ended : AtBlank behind) :
    (word ++ behind).dropWhile (!isBlank ·) = behind := by
  rw [List.dropWhile_append_of_pos fun c member => by simp [blankFree c member]]
  cases behind with
  | nil => rfl
  | cons c rest => rw [List.dropWhile_cons_of_neg (by simp [ended c rest rfl])]

theorem words_of_blankFree {word : Text} (blankFree : BlankFree word)
    (nonempty : word ≠ []) : words word = [word] := by
  induction word with
  | nil => exact (nonempty rfl).elim
  | cons c rest ih =>
      have filled : ¬ isBlank c = true := by
        simp [blankFree c List.mem_cons_self]
      cases rest with
      | nil => simp only [words, filled, if_false, Bool.false_eq_true]
      | cons d rest =>
          have others : BlankFree (d :: rest) := fun other member =>
            blankFree other (List.mem_cons_of_mem c member)
          have next : ¬ isBlank d = true := by
            simp [others d List.mem_cons_self]
          have later := ih others (List.cons_ne_nil d rest)
          rw [words.eq_def]
          simp only [filled, next, later, if_false,
            Bool.false_eq_true, consFirst]

/-! ## Blanks made one -/

/-- The number of characters that are no blanks. -/
def ink (text : Text) : Nat :=
  text.countP (!isBlank ·)

theorem ink_append (left right : Text) :
    ink (left ++ right) = ink left + ink right :=
  List.countP_append

theorem ink_cons_of_blank {c : Char} (blank : isBlank c = true) (rest : Text) :
    ink (c :: rest) = ink rest := by
  rw [ink, List.countP_cons_of_neg (by simp [blank]), ink]

theorem ink_eq_zero_iff {text : Text} :
    ink text = 0 ↔ text.all isBlank = true := by
  simp [ink, List.countP_eq_zero]

private theorem ink_flatten_consFirst (c : Char) (pieces : List Text) :
    ink (consFirst c pieces).flatten = ink (c :: pieces.flatten) := by
  cases pieces with
  | nil => rfl
  | cons piece pieces => rfl

private theorem ink_flatten_words (text : Text) :
    ink (words text).flatten = ink text := by
  induction text with
  | nil => rfl
  | cons c rest ih =>
      have behind : ink (c :: (words rest).flatten) = ink (c :: rest) := by
        rw [← List.singleton_append, ink_append, ih, ← ink_append,
          List.singleton_append]
      rw [words.eq_def]
      simp only
      split
      · rename_i blank
        rw [ink_cons_of_blank blank, ih]
      · cases rest with
        | nil => rfl
        | cons d rest =>
            simp only
            split
            · rw [List.flatten_cons, List.singleton_append, behind]
            · rw [ink_flatten_consFirst, behind]

private theorem ink_join (pieces : List Text) :
    ink (join [' '] pieces) = ink pieces.flatten := by
  fun_induction join [' '] pieces with
  | case1 => rfl
  | case2 piece => rw [List.flatten_cons, List.flatten_nil, List.append_nil]
  | case3 piece next pieces ih =>
      have space : ink [' '] = 0 := by decide
      rw [ink_append, ink_append, ih, space, Nat.add_zero]
      exact (ink_append piece (next :: pieces).flatten).symm

/-- Nothing but blanks is lost when blanks are made one. -/
theorem ink_normalizeBlanks (text : Text) :
    ink (normalizeBlanks text) = ink text := by
  rw [normalizeBlanks, ink_join, ink_flatten_words]

private theorem words_append_blanks (text : Text) {blanks : Text}
    (blank : blanks.all isBlank = true) :
    words (text ++ blanks) = words text := by
  have none : words blanks = [] := by
    induction blanks with
    | nil => rfl
    | cons c rest ih =>
        rw [List.all_cons, Bool.and_eq_true] at blank
        rw [words.eq_def]
        simp only [blank.1, if_true]
        exact ih blank.2
  induction text with
  | nil => exact none
  | cons c rest ih =>
      rw [List.cons_append, words.eq_def, words.eq_def]
      simp only [ih]
      cases rest with
      | nil =>
          cases blanks with
          | nil => rfl
          | cons d blanks =>
              rw [List.all_cons, Bool.and_eq_true] at blank
              rw [List.nil_append]
              simp only [blank.1, if_true]
              rfl
      | cons d rest => rfl

theorem normalizeBlanks_append_blanks (text : Text) {blanks : Text}
    (blank : blanks.all isBlank = true) :
    normalizeBlanks (text ++ blanks) = normalizeBlanks text := by
  rw [normalizeBlanks, normalizeBlanks, words_append_blanks text blank]

/-! ## Names -/

/-- A name: at least one character, all of them characters of names. -/
def IsName (text : Text) : Prop :=
  text ≠ [] ∧ ∀ c ∈ text, isNameChar c = true

instance (text : Text) : Decidable (IsName text) :=
  have := List.decidableBAll (fun c => isNameChar c = true) text
  inferInstanceAs (Decidable (text ≠ [] ∧ ∀ c ∈ text, isNameChar c = true))

/-- The code points of some ranges, one by one. -/
def Ranges.codes (ranges : Ranges) : List Nat :=
  ranges.flatMap fun range => List.range' range.1 (range.2 + 1 - range.1)

theorem Ranges.toNat_mem_codes {ranges : Ranges} {c : Char}
    (contained : ranges.contains c = true) : c.toNat ∈ ranges.codes := by
  obtain ⟨range, member, holds⟩ := List.any_eq_true.mp contained
  simp only [Bool.and_eq_true, decide_eq_true_eq] at holds
  refine List.mem_flatMap.mpr ⟨range, member, ?_⟩
  rw [List.mem_range'_1]
  omega

/-- No code point lies in both. -/
def Ranges.disjoint (left right : Ranges) : Bool :=
  left.all fun a => right.all fun b => Nat.blt a.2 b.1 || Nat.blt b.2 a.1

theorem Ranges.contains_eq_false_of_disjoint {left right : Ranges}
    (apart : left.disjoint right = true) {c : Char}
    (contained : left.contains c = true) :
    right.contains c = false := by
  rw [← Bool.not_eq_true]
  intro also
  obtain ⟨a, inLeft, aHolds⟩ := List.any_eq_true.mp contained
  obtain ⟨b, inRight, bHolds⟩ := List.any_eq_true.mp also
  have separate :=
    List.all_eq_true.mp (List.all_eq_true.mp apart a inLeft) b inRight
  simp only [Bool.and_eq_true, decide_eq_true_eq] at aHolds bHolds
  simp only [Bool.or_eq_true, Nat.blt_eq] at separate
  omega

private theorem isBlank_eq_false_of_isNameChar {c : Char}
    (named : isNameChar c = true) :
    isBlank c = false := by
  rw [← Bool.not_eq_true]
  intro blank
  by_cases ascii : c.toNat < 0x80
  · have table : ∀ code ∈ blankRanges.codes, code < 0x80 →
        isNameChar (Char.ofNat code) = false := by
      decide +kernel
    have absent := table c.toNat (Ranges.toNat_mem_codes blank) ascii
    rw [Char.ofNat_toNat, named] at absent
    exact Bool.noConfusion absent
  · have apart : blankRanges.disjoint alphanumericRanges = true := by
      decide +kernel
    have absent := Ranges.contains_eq_false_of_disjoint apart blank
    have noHyphen : c ≠ '-' := fun same => ascii (by simp [same])
    have noUnderscore : c ≠ '_' := fun same => ascii (by simp [same])
    simp [isNameChar, isAlphanumeric, ascii, absent, noHyphen, noUnderscore]
      at named

theorem IsName.blankFree {name : Text} (isName : IsName name) :
    BlankFree name :=
  fun c member => isBlank_eq_false_of_isNameChar (isName.2 c member)

theorem IsName.not_mem {name : Text} (isName : IsName name) {c : Char}
    (noNameChar : isNameChar c = false) : c ∉ name := by
  intro member
  have named := isName.2 c member
  rw [noNameChar] at named
  exact Bool.noConfusion named

theorem IsName.beginsWith_append {name : Text} (isName : IsName name) {c : Char}
    (noNameChar : isNameChar c = false) (rest : Text) :
    beginsWith [c] (name ++ rest) = false := by
  obtain ⟨first, others, rfl⟩ := List.exists_cons_of_ne_nil isName.1
  rw [← Bool.not_eq_true, beginsWith_iff, List.cons_append,
    List.cons_prefix_cons]
  rintro ⟨rfl, -⟩
  exact isName.not_mem noNameChar List.mem_cons_self

end Text

end StyleAudit
