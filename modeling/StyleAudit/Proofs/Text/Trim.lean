import StyleAudit.Text.Basic

/-!
# Trimmed texts

A text is trimmed when it has no blank at either end.  Trimming finds such a
text again behind any number of blanks.
-/

namespace StyleAudit

namespace Text

/-- The text has no blank at either end. -/
def Trimmed (text : Text) : Prop :=
  trim text = text

instance (text : Text) : Decidable (Trimmed text) :=
  inferInstanceAs (Decidable (trim text = text))

theorem trimStart_cons_of_blank {c : Char} (blank : isBlank c = true)
    (rest : Text) :
    trimStart (c :: rest) = trimStart rest := by
  rw [trimStart, List.dropWhile_cons_of_pos blank, trimStart]

theorem trimStart_cons_of_filled {c : Char} (filled : isBlank c = false)
    (rest : Text) :
    trimStart (c :: rest) = c :: rest := by
  rw [trimStart, List.dropWhile_cons_of_neg (by simp [filled])]

theorem length_trimStart_le (text : Text) :
    (trimStart text).length ≤ text.length :=
  (List.dropWhile_suffix isBlank).length_le

theorem length_trimEnd_le (text : Text) :
    (trimEnd text).length ≤ text.length := by
  have shorter := length_trimStart_le text.reverse
  rw [List.length_reverse] at shorter
  rw [trimEnd, List.length_reverse]
  exact shorter

theorem Trimmed.trimStart_eq {text : Text} (trimmed : Trimmed text) :
    trimStart text = text := by
  have whole : (trim text).length = text.length := congrArg List.length trimmed
  have back := length_trimEnd_le (trimStart text)
  have front := length_trimStart_le text
  rw [trim] at whole
  exact (List.dropWhile_suffix isBlank).eq_of_length (by
    rw [trimStart] at *
    omega)

theorem Trimmed.trimEnd_eq {text : Text} (trimmed : Trimmed text) :
    trimEnd text = text := by
  have whole : trimEnd (trimStart text) = text := trimmed
  rwa [trimmed.trimStart_eq] at whole

theorem trimStart_append_of_eq_nil {front : Text} (none : trimStart front = [])
    (rest : Text) :
    trimStart (front ++ rest) = trimStart rest := by
  rw [trimStart] at none
  rw [trimStart, List.dropWhile_append, none, List.isEmpty_nil,
    if_pos rfl, trimStart]

theorem trimStart_append_of_ne_nil {front : Text}
    (filled : trimStart front ≠ []) (rest : Text) :
    trimStart (front ++ rest) = trimStart front ++ rest := by
  have reaches : (front.dropWhile isBlank).isEmpty = false :=
    List.isEmpty_eq_false_iff.mpr filled
  rw [trimStart, List.dropWhile_append, reaches, if_neg Bool.false_ne_true,
    trimStart]

theorem trimStart_append {front : Text} (nonempty : front ≠ [])
    (trimmed : trimStart front = front) (rest : Text) :
    trimStart (front ++ rest) = front ++ rest := by
  have filled : trimStart front ≠ [] := by rwa [trimmed]
  rw [trimStart_append_of_ne_nil filled, trimmed]

theorem trimEnd_concat_of_blank {c : Char} (blank : isBlank c = true)
    (front : Text) :
    trimEnd (front ++ [c]) = trimEnd front := by
  have shorter := trimStart_cons_of_blank blank front.reverse
  rw [trimStart, trimStart] at shorter
  rw [trimEnd, List.reverse_concat, shorter, trimEnd]

theorem trimEnd_concat_of_filled {c : Char} (filled : isBlank c = false)
    (front : Text) : trimEnd (front ++ [c]) = front ++ [c] := by
  have same := trimStart_cons_of_filled filled front.reverse
  rw [trimStart] at same
  rw [trimEnd, List.reverse_concat, same, List.reverse_cons,
    List.reverse_reverse]

theorem trimEnd_cons_of_filled {c : Char} (filled : isBlank c = false)
    (rest : Text) :
    trimEnd (c :: rest) = c :: trimEnd rest := by
  have own : [c].dropWhile isBlank = [c] :=
    List.dropWhile_cons_of_neg (by simp [filled])
  rw [trimEnd, List.reverse_cons, List.dropWhile_append, own, trimEnd]
  split
  · rename_i nothing
    rw [List.isEmpty_iff.mp nothing]
    rfl
  · rw [List.reverse_concat]

theorem trimEnd_append {rest : Text} (front : Text) (nonempty : rest ≠ [])
    (trimmed : trimEnd rest = rest) :
    trimEnd (front ++ rest) = front ++ rest := by
  obtain ⟨init, c, rfl⟩ := (List.eq_nil_or_concat rest).resolve_left nonempty
  rw [List.concat_eq_append] at trimmed ⊢
  cases blank : isBlank c with
  | true =>
      have shorter := length_trimEnd_le init
      rw [← trimEnd_concat_of_blank blank, trimmed, List.length_append,
        List.length_singleton] at shorter
      omega
  | false => rw [← List.append_assoc, trimEnd_concat_of_filled blank]

theorem trimEnd_isPrefix (text : Text) : trimEnd text <+: text := by
  have ends : text.reverse.dropWhile isBlank <:+ text.reverse :=
    List.dropWhile_suffix isBlank
  rw [← List.reverse_prefix, List.reverse_reverse] at ends
  exact ends

/-! ## Both ends -/

section Ends

variable {α : Type} {drop : α → Bool} {list : List α} {a : α}

theorem not_of_mem_head?_dropWhile (first : a ∈ (list.dropWhile drop).head?) :
    drop a = false := by
  have stopped := List.head?_dropWhile_not drop list
  rw [Option.mem_def.mp first] at stopped
  exact stopped

/-- Where members are dropped at both ends, the first one left is not to be
dropped. -/
theorem not_of_mem_head?_dropEnds
    (first : a ∈ ((list.dropWhile drop).reverse.dropWhile drop).reverse.head?) :
    drop a = false := by
  obtain ⟨rest, whole⟩ := List.head?_eq_some_iff.mp first
  have ends : (list.dropWhile drop).reverse.dropWhile drop <:+
      (list.dropWhile drop).reverse :=
    List.dropWhile_suffix drop
  rw [← List.reverse_prefix, List.reverse_reverse, whole] at ends
  obtain ⟨behind, split⟩ := ends
  have stopped : a ∈ (list.dropWhile drop).head? := by
    rw [← split]
    rfl
  exact not_of_mem_head?_dropWhile stopped

theorem not_of_mem_getLast?_dropEnds
    (last : a ∈
      ((list.dropWhile drop).reverse.dropWhile drop).reverse.getLast?) :
    drop a = false := by
  rw [List.getLast?_reverse] at last
  exact not_of_mem_head?_dropWhile last

end Ends

theorem trimmed_iff {text : Text} :
    Trimmed text ↔
      (∀ c ∈ text.head?, isBlank c = false) ∧ ∀ c ∈ text.getLast?,
        isBlank c = false := by
  constructor
  · intro trimmed
    rw [← trimmed]
    exact ⟨fun _ => not_of_mem_head?_dropEnds,
      fun _ => not_of_mem_getLast?_dropEnds⟩
  · rintro ⟨first, last⟩
    have front : trimStart text = text := by
      cases text with
      | nil => rfl
      | cons c rest => exact trimStart_cons_of_filled (first c rfl) rest
    have back : trimEnd text = text := by
      rcases List.eq_nil_or_concat text with rfl | ⟨init, c, rfl⟩
      · rfl
      · rw [List.concat_eq_append] at last ⊢
        exact trimEnd_concat_of_filled (last c (by simp)) init
    rw [Trimmed, trim, front, back]

theorem trimmed_trim (text : Text) : Trimmed (trim text) :=
  trimmed_iff.mpr
    ⟨fun _ => not_of_mem_head?_dropEnds, fun _ => not_of_mem_getLast?_dropEnds⟩

private theorem trim_concat_of_blank {c : Char} (blank : isBlank c = true)
    (front : Text) :
    trim (front ++ [c]) = trim front := by
  by_cases none : trimStart front = []
  · rw [trim, trimStart_append_of_eq_nil none, trimStart_cons_of_blank blank,
      trim, none]
    rfl
  · rw [trim, trimStart_append_of_ne_nil none, trimEnd_concat_of_blank blank,
      trim]

theorem trim_append_of_blank {blanks : Text}
    (blank : ∀ c ∈ blanks, isBlank c = true) (front : Text) :
    trim (front ++ blanks) = trim front := by
  induction blanks generalizing front with
  | nil => rw [List.append_nil]
  | cons c blanks ih =>
      have others : ∀ d ∈ blanks, isBlank d = true :=
        fun d member => blank d (List.mem_cons_of_mem c member)
      rw [List.append_cons, ih others,
        trim_concat_of_blank (blank c List.mem_cons_self)]

theorem trim_trimEnd (text : Text) : trim (trimEnd text) = trim text := by
  have whole : trimEnd text ++ (text.reverse.takeWhile isBlank).reverse =
      text := by
    rw [trimEnd, ← List.reverse_append, List.takeWhile_append_dropWhile,
      List.reverse_reverse]
  have blank : ∀ c ∈ (text.reverse.takeWhile isBlank).reverse,
      isBlank c = true := by
    intro c member
    exact List.all_eq_true.mp List.all_takeWhile c (List.mem_reverse.mp member)
  calc
    trim (trimEnd text) =
      trim (trimEnd text ++ (text.reverse.takeWhile isBlank).reverse) :=
      (trim_append_of_blank blank _).symm
    _ = trim text := by rw [whole]

theorem trim_isInfix (text : Text) : trim text <:+: text :=
  (trimEnd_isPrefix _).isInfix.trans (List.dropWhile_suffix isBlank).isInfix

theorem trimmed_append_space {front back : Text} (nonempty : front ≠ [])
    (trimmedFront : trimStart front = front) (filled : back ≠ [])
    (trimmedBack : trimEnd back = back) : Trimmed (front ++ ' ' :: back) := by
  have ends := trimEnd_append (front ++ [' ']) filled trimmedBack
  rw [List.append_assoc, List.singleton_append] at ends
  rw [Trimmed, trim, trimStart_append nonempty trimmedFront, ends]

end Text

end StyleAudit
