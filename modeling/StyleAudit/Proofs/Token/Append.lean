import StyleAudit.Proofs.Token.Lookahead

/-!
# The tokens of a text with more behind it

A token reaches as far as its characters tell, and at most looks ahead to the
line behind it.  So nothing that is put behind a closing brace changes the
tokens in front of the brace, or the brace.  Behind it there may be a gap, and a
newline ends the gap even where it stops inside a line comment.
-/

namespace StyleAudit

namespace Token

variable {text rest more : Text}

/-! ## Looking ahead -/

/-- What a text begins with does not depend on what follows a character that the
beginning does not hold. -/
theorem isPrefix_append_iff_of_mem {mark : Char} {front : Text}
    (clean : mark ∉ front) (there : mark ∈ text) (more : Text) :
    front <+: text ++ more ↔ front <+: text := by
  refine ⟨fun begins => ?_,
    fun begins => begins.trans (List.prefix_append text more)⟩
  rcases Nat.le_total front.length text.length with shorter | longer
  · exact List.prefix_of_prefix_length_le begins (List.prefix_append text more)
      shorter
  · have inside : text <+: front :=
      List.prefix_of_prefix_length_le (List.prefix_append text more)
        begins longer
    exact (clean (inside.subset there)).elim

theorem beginsWith_append {front : Text} (clean : '}' ∉ front)
    (closes : '}' ∈ text) (more : Text) :
    Text.beginsWith front (text ++ more) = Text.beginsWith front text := by
  rw [Bool.eq_iff_iff, Text.beginsWith_iff, Text.beginsWith_iff,
    isPrefix_append_iff_of_mem clean closes]

theorem isDocLine_append (closes : '}' ∈ text) (more : Text) :
    isDocLine (text ++ more) = isDocLine text := by
  rw [Bool.eq_iff_iff, isDocLine_iff, isDocLine_iff,
    isPrefix_append_iff_of_mem (by decide) closes,
    isPrefix_append_iff_of_mem (by decide) closes]

theorem isLineComment_append (closes : '}' ∈ text) (more : Text) :
    isLineComment (text ++ more) = isLineComment text := by
  rw [isLineComment, isLineComment, isDocLine_append closes,
    beginsWith_append (by decide) closes]

/-! ## Measures -/

private theorem dropWhile_append_of_mem {α : Type} {test : α → Bool} {mark : α}
    {list : List α} (stops : test mark = false) (there : mark ∈ list)
    (more : List α) :
    mark ∈ list.dropWhile test ∧
      (list ++ more).dropWhile test = list.dropWhile test ++ more := by
  induction list with
  | nil => cases there
  | cons a rest ih =>
      rw [List.cons_append, List.dropWhile_cons, List.dropWhile_cons]
      split
      · rename_i passes
        apply ih
        rcases List.mem_cons.mp there with rfl | later
        · rw [stops] at passes
          cases passes
        · exact later
      · exact ⟨there, rfl⟩

private theorem docLinesLength_append
    (closes : '}' ∈ text.drop (docLinesLength text)) (more : Text) :
    docLinesLength (text ++ more) = docLinesLength text := by
  induction text with
  | nil => cases closes
  | cons c rest ih =>
      rw [docLinesLength] at closes
      rw [List.cons_append, docLinesLength, docLinesLength]
      split
      · rename_i newline
        rw [if_pos newline] at closes
        have inRest : '}' ∈ rest := by
          have inText := List.mem_of_mem_drop closes
          rcases List.mem_cons.mp inText with same | later
          · rw [newline] at same
            cases same
          · exact later
        obtain ⟨ahead, skipped⟩ := @dropWhile_append_of_mem Char
          (fun d => d == ' ' || d == '\t' || d == '\r') '}' rest rfl inRest more
        rw [skipped, isDocLine_append ahead]
        split
        · rename_i continues
          rw [if_pos continues, Nat.add_comm, List.drop_succ_cons] at closes
          rw [ih closes]
        · rfl
      · rename_i inLine
        rw [if_neg inLine, Nat.add_comm, List.drop_succ_cons] at closes
        rw [ih closes]

/-! ## Lexemes -/

theorem lt_length_of_mem_drop {α : Type} {mark : α} {list : List α} {n : Nat}
    (there : mark ∈ list.drop n) : n < list.length := by
  have filled := List.length_pos_of_mem there
  rw [List.length_drop] at filled
  omega

namespace Lexeme

private theorem docLines_append (closes : '}' ∈ rest.drop (docLines rest).tail)
    (more : Text) :
    docLines (rest ++ more) = docLines rest := by
  have shorter : docLinesLength rest ≤ rest.length :=
    Nat.le_of_lt (lt_length_of_mem_drop closes)
  rw [docLines, docLines, docLinesLength_append closes,
    List.take_append_of_le_length shorter]

/-- A token does not change when more is put behind a closing brace that follows
it. -/
theorem read_append {c : Char} (closes : '}' ∈ rest.drop (read c rest).tail)
    (more : Text) :
    read c (rest ++ more) = read c rest := by
  have inRest := List.mem_of_mem_drop closes
  by_cases lines : c = '/' ∧ Text.beginsWith ['/', '/'] rest = true
  · obtain ⟨rfl, slashes⟩ := lines
    have slashesToo : Text.beginsWith ['/', '/'] (rest ++ more) = true := by
      rw [beginsWith_append (by decide) inRest, slashes]
    rw [read_of_slashes slashes] at closes ⊢
    rw [read_of_slashes slashesToo, docLines_append closes]
  · have noLines :
        ¬ (c = '/' ∧ Text.beginsWith ['/', '/'] (rest ++ more) = true) := by
      rw [beginsWith_append (by decide) inRest]
      exact lines
    have split := List.take_append_drop (read c rest).tail rest
    have follows : Follows (rest.drop (read c rest).tail)
        (rest.drop (read c rest).tail ++ more) := by
      obtain ⟨d, others, behind⟩ :=
        List.exists_cons_of_ne_nil (List.ne_nil_of_mem closes)
      rw [behind]
      exact .inl rfl
    have reach : (read c rest).tail =
        (rest.take (read c rest).tail).length := by
      rw [List.length_take, Nat.min_eq_left (tail_read_le c rest)]
    have same :=
      @read_change _ _ _ c follows.offersNoMore (List.ne_nil_of_mem closes)
        (by rw [split]; exact lines)
        (by rw [← List.append_assoc, split]; exact noLines)
      (by rw [split]; exact reach)
    rw [← List.append_assoc, split] at same
    exact same

/-- Only a closing brace is read as one. -/
theorem eq_of_closeBrace {c : Char} : (read c rest).kind = .closeBrace →
    c = '}' := by
  have step : ∀ {test : Prop} [Decidable test] {left right : Lexeme},
      (test → left.kind = .closeBrace → c = '}') →
      (right.kind = .closeBrace → c = '}') →
        (if test then left else right).kind = .closeBrace → c = '}' := by
    intro test _ left right ifLeft ifRight
    split
    · rename_i passes
      exact ifLeft passes
    · exact ifRight
  unfold read
  refine step (fun _ => nofun) ?_
  refine step (fun brace _ => brace) ?_
  refine step (fun _ => nofun) ?_
  refine step (fun _ => nofun) ?_
  refine step (fun _ => nofun) ?_
  refine step (fun _ => nofun) ?_
  refine step (fun _ => by unfold comment; split <;> exact nofun) ?_
  refine step (fun _ => by unfold string; split <;> exact nofun) ?_
  refine step (fun _ => by unfold parameters; split <;> exact nofun) ?_
  refine step (fun _ => by unfold interpolation; split <;> exact nofun) ?_
  refine step (fun _ kind => absurd kind ?_) ?_
  · exact kind_signed (motive := (· ≠ .closeBrace)) '@' rest (by simp) (by simp)
  refine step (fun _ kind => absurd kind ?_) ?_
  · exact kind_signed (motive := (· ≠ .closeBrace)) '$' rest (by simp) (by simp)
  exact step (fun _ => nofun) nofun

theorem read_closeBrace (rest : Text) : read '}' rest = single .closeBrace := by
  rw [read, if_neg (by decide), if_pos rfl]

end Lexeme

/-! ## Gaps -/

theorem gapLength_append {flag : Bool}
    (closes : '}' ∈ text.drop (gapLength flag text)) (more : Text) :
    gapLength flag (text ++ more) = gapLength flag text := by
  induction text generalizing flag with
  | nil => cases closes
  | cons c rest ih =>
      have inText := List.mem_of_mem_drop closes
      cases flag with
      | true =>
          rw [gapLength_inside, List.drop_succ_cons] at closes
          rw [List.cons_append, gapLength_inside, gapLength_inside, ih closes]
      | false =>
          by_cases blank : Text.isBlank c = true
          · rw [gapLength_of_blank blank, List.drop_succ_cons] at closes
            rw [List.cons_append, gapLength_of_blank blank,
              gapLength_of_blank blank, ih closes]
          · by_cases slashes : isLineComment (c :: rest) = true
            · have stillSlashes := slashes
              rw [← isLineComment_append inText more, List.cons_append]
                at stillSlashes
              rw [gapLength_of_lineComment blank slashes, List.drop_succ_cons]
                at closes
              rw [List.cons_append, gapLength_of_lineComment blank slashes,
                gapLength_of_lineComment blank stillSlashes, ih closes]
            · have noSlashes := slashes
              rw [← isLineComment_append inText more, List.cons_append]
                at noSlashes
              rw [List.cons_append, gapLength_of_token blank slashes,
                gapLength_of_token blank noSlashes]

/-- A newline ends a text that is all gap, also where it is in the middle of a
line comment. -/
theorem gapLength_append_newline {flag : Bool}
    (whole : gapLength flag text = text.length) (more : Text) :
    gapLength flag (text ++ '\n' :: more) =
      text.length + (gapLength false more + 1) := by
  induction text generalizing flag with
  | nil =>
      cases flag with
      | true =>
          rw [List.nil_append, gapLength_inside, List.length_nil, Nat.zero_add]
          rfl
      | false =>
          rw [List.nil_append, gapLength_of_blank Text.isBlank_newline,
            List.length_nil, Nat.zero_add]
  | cons c rest ih =>
      have ended : AtLineEnd ('\n' :: more) := .inr ⟨more, rfl⟩
      have sameComment : isLineComment (c :: rest ++ '\n' :: more) =
          isLineComment (c :: rest) := by
        rw [Bool.eq_iff_iff, isLineComment_iff, isLineComment_iff,
          isPrefix_append_iff_of_atLineEnd (by decide) ended,
          isPrefix_append_iff_of_atLineEnd (by decide) ended,
          isPrefix_append_iff_of_atLineEnd (by decide) ended]
      cases flag with
      | true =>
          rw [gapLength_inside, List.length_cons] at whole
          rw [List.cons_append, gapLength_inside, ih (Nat.succ.inj whole),
            List.length_cons]
          omega
      | false =>
          by_cases blank : Text.isBlank c = true
          · rw [gapLength_of_blank blank, List.length_cons] at whole
            rw [List.cons_append, gapLength_of_blank blank,
              ih (Nat.succ.inj whole), List.length_cons]
            omega
          · by_cases slashes : isLineComment (c :: rest) = true
            · rw [gapLength_of_lineComment blank slashes, List.length_cons]
                at whole
              rw [← sameComment, List.cons_append] at slashes
              rw [List.cons_append, gapLength_of_lineComment blank slashes,
                ih (Nat.succ.inj whole), List.length_cons]
              omega
            · rw [gapLength_of_token blank slashes] at whole
              cases whole

theorem gapLength_le (flag : Bool) (text : Text) :
    gapLength flag text ≤ text.length := by
  induction text generalizing flag with
  | nil => exact Nat.le_of_eq (by rw [gapLength, List.length_nil])
  | cons c rest ih =>
      rw [List.length_cons]
      cases flag with
      | true =>
          rw [gapLength_inside]
          exact Nat.succ_le_succ (ih _)
      | false =>
          rw [gapLength]
          split
          · rw [Nat.add_comm]
            exact Nat.succ_le_succ (ih _)
          · split
            · rw [Nat.add_comm]
              exact Nat.succ_le_succ (ih _)
            · exact Nat.zero_le _

theorem gaps_append (closes : '}' ∈ afterGap text) (more : Text) :
    leadingGap (text ++ more) = leadingGap text ∧
      afterGap (text ++ more) = afterGap text ++ more := by
  have shorter := Nat.le_of_lt (lt_length_of_mem_drop closes)
  rw [leadingGap, afterGap, gapLength_append closes,
    List.take_append_of_le_length shorter,
    List.drop_append_of_le_length shorter]
  exact ⟨rfl, rfl⟩

theorem gaps_append_newline (whole : afterGap text = []) (more : Text) :
    leadingGap (text ++ '\n' :: more) = text ++ '\n' :: leadingGap more ∧
      afterGap (text ++ '\n' :: more) = afterGap more := by
  have all : gapLength false text = text.length := by
    have short : text.length ≤ gapLength false text :=
      List.drop_eq_nil_iff.mp whole
    exact Nat.le_antisymm (gapLength_le false text) short
  rw [leadingGap, afterGap, gapLength_append_newline all,
    List.take_length_add_append, List.drop_length_add_append,
    List.take_succ_cons, List.drop_succ_cons]
  exact ⟨rfl, rfl⟩

/-! ## Scanning -/

private theorem scanFrom_ne_nil (position : Position) (text : Text) :
    scanFrom position text ≠ [] := by
  cases text with
  | nil =>
      rw [scanFrom]
      exact List.cons_ne_nil _ _
  | cons c rest =>
      rw [scanFrom]
      exact List.cons_ne_nil _ _

theorem eq_nil_of_scanFrom {position : Position} {last : Token}
    (scanned : scanFrom position text = [last]) : text = [] := by
  cases text with
  | nil => rfl
  | cons c rest =>
      rw [scanFrom] at scanned
      exact (scanFrom_ne_nil _ _ (List.cons.inj scanned).2).elim

/-- Behind tokens that end with a closing brace, the pass goes on as it would at
the start of a text. -/
theorem scanFrom_append_newline {position : Position} {front : List Token}
    {brace last : Token}
    (scanned : scanFrom position text = front ++ [brace, last])
    (closing : brace.kind = .closeBrace) (more : Text) :
    '}' ∈ text ∧
      scanFrom position (text ++ '\n' :: more) =
        front ++ { brace with gap := brace.gap ++ '\n' :: leadingGap more } ::
          scanFrom (position.advance (text ++ '\n' :: leadingGap more))
            (afterGap more) := by
  induction front generalizing position text with
  | nil =>
      cases text with
      | nil =>
          rw [scanFrom] at scanned
          cases scanned
      | cons c rest =>
          rw [scanFrom_cons] at scanned
          obtain ⟨rfl, later⟩ := List.cons.inj scanned
          obtain rfl := Lexeme.eq_of_closeBrace closing
          rw [Lexeme.read_closeBrace] at later ⊢
          have whole : afterGap rest = [] := eq_nil_of_scanFrom later
          have gap : leadingGap rest = rest := by
            have joined := leadingGap_append_afterGap rest
            rwa [whole, List.append_nil] at joined
          obtain ⟨longer, behind⟩ := gaps_append_newline whole more
          refine ⟨List.mem_cons_self, ?_⟩
          rw [List.cons_append, scanFrom_cons, Lexeme.read_closeBrace]
          simp only [Lexeme.single, List.take_zero, List.drop_zero, longer,
            behind, gap, List.nil_append]
          rw [← Position.advance_append]
          rfl
  | cons token front ih =>
      cases text with
      | nil =>
          rw [scanFrom] at scanned
          exact absurd (List.cons.inj scanned).2 (by simp)
      | cons c rest =>
          rw [scanFrom_cons] at scanned
          obtain ⟨first, later⟩ := List.cons.inj scanned
          obtain ⟨closes, tail⟩ := ih later
          have behind : '}' ∈ rest.drop (Lexeme.read c rest).tail :=
            List.mem_of_mem_drop closes
          have shorter := Nat.le_of_lt (lt_length_of_mem_drop behind)
          obtain ⟨gap, after⟩ := gaps_append closes ('\n' :: more)
          refine ⟨List.mem_cons_of_mem c (List.mem_of_mem_drop behind), ?_⟩
          rw [List.cons_append, scanFrom_cons, Lexeme.read_append behind]
          simp only [List.take_append_of_le_length shorter,
            List.drop_append_of_le_length shorter, gap, after, tail]
          have joined : c :: rest.take (Lexeme.read c rest).tail ++
              (leadingGap (rest.drop (Lexeme.read c rest).tail) ++
                (afterGap (rest.drop (Lexeme.read c rest).tail) ++ '\n' ::
                  leadingGap more)) =
                  c :: rest ++ '\n' :: leadingGap more := by
            rw [← List.append_assoc (leadingGap _), leadingGap_append_afterGap,
              ← List.append_assoc, List.cons_append, List.take_append_drop]
          rw [first, ← Position.advance_append, ← Position.advance_append,
            joined]
          rfl

/-- The same for a text without tokens. -/
theorem scan_append_newline_of_gap {last : Token} (scanned : scan text = [last])
    (more : Text) :
    scan (text ++ '\n' :: more) =
      scanFrom (Position.first.advance (text ++ '\n' :: leadingGap more))
        (afterGap more) := by
  obtain ⟨gap, behind⟩ := gaps_append_newline (eq_nil_of_scanFrom scanned) more
  rw [scan, gap, behind]

/-- What is put behind a text that ends with a closing brace, on a new line, is
scanned on its own.  The tokens in front stay as they are, but for the gap
behind the brace. -/
theorem scan_append_newline {front : List Token} {brace last : Token}
    (scanned : scan text = front ++ [brace, last])
    (closing : brace.kind = .closeBrace) (more : Text) :
    scan (text ++ '\n' :: more) =
      front ++ { brace with gap := brace.gap ++ '\n' :: leadingGap more } ::
        scanFrom (Position.first.advance (text ++ '\n' :: leadingGap more))
          (afterGap more) := by
  rw [scan] at scanned ⊢
  obtain ⟨closes, tail⟩ := scanFrom_append_newline scanned closing more
  obtain ⟨gap, behind⟩ := gaps_append closes ('\n' :: more)
  rw [gap, behind, tail, ← Position.advance_append, ← List.append_assoc,
    leadingGap_append_afterGap]

end Token

end StyleAudit
