import StyleAudit.Text.Basic

/-!
# Parts of a text

Reading takes a text apart.  The parts stand in the text one after the other
without overlap, so what one character contributes to the parts it contributes
to the text.
-/

namespace StyleAudit

namespace Text

/-- How often characters of a kind are in texts. -/
def weight (test : Char → Bool) (texts : List Text) : Nat :=
  texts.flatten.countP test

section Weight

variable {test : Char → Bool}

theorem weight_nil : weight test [] = 0 :=
  rfl

theorem weight_cons (text : Text) (rest : List Text) :
    weight test (text :: rest) = text.countP test + weight test rest := by
  rw [weight, List.flatten_cons, List.countP_append, weight]

theorem weight_append (front back : List Text) :
    weight test (front ++ back) = weight test front + weight test back := by
  rw [weight, List.flatten_append, List.countP_append, weight, weight]

theorem weight_eq_zero {texts : List Text}
    (absent : ∀ text ∈ texts, text.countP test = 0) :
    weight test texts = 0 := by
  induction texts with
  | nil => exact weight_nil
  | cons text rest ih =>
      rw [List.forall_mem_cons] at absent
      rw [weight_cons, absent.1, ih absent.2]

theorem weight_sublist {part whole : List Text} (sublist : part.Sublist whole) :
    weight test part ≤ weight test whole := by
  induction sublist with
  | slnil => exact Nat.le_refl _
  | cons text _ ih =>
      rw [weight_cons]
      omega
  | cons_cons text _ ih =>
      rw [weight_cons, weight_cons]
      omega

end Weight

/-- The parts stand in the whole one after the other. -/
inductive InTurn : List Text → Text → Prop where
  | nil (whole : Text) : InTurn [] whole
  | cons {parts : List Text} {rest : Text} (before part : Text) :
      InTurn parts rest → InTurn (part :: parts) (before ++ (part ++ rest))

namespace InTurn

theorem behind {parts : List Text} {whole : Text} (inTurn : InTurn parts whole)
    (front : Text) :
    InTurn parts (front ++ whole) := by
  cases inTurn with
  | nil => exact .nil _
  | cons before part later =>
      rw [← List.append_assoc]
      exact .cons (front ++ before) part later

theorem append {left right : List Text} {front back : Text}
    (inFront : InTurn left front) (inBack : InTurn right back) :
    InTurn (left ++ right) (front ++ back) := by
  induction inFront with
  | nil whole => exact inBack.behind whole
  | cons before part _ ih =>
      rw [List.append_assoc, List.append_assoc]
      exact .cons before part ih

theorem of_isInfix {parts : List Text} {whole larger : Text}
    (inTurn : InTurn parts whole) (inside : whole <:+: larger) :
    InTurn parts larger := by
  obtain ⟨front, back, rfl⟩ := inside
  have ended := (inTurn.behind front).append (.nil back)
  rwa [List.append_nil] at ended

theorem singleton {part whole : Text} (inside : part <:+: whole) :
    InTurn [part] whole := by
  have alone : InTurn [part] ([] ++ (part ++ [])) := .cons [] part (.nil [])
  rw [List.nil_append, List.append_nil] at alone
  exact alone.of_isInfix inside

theorem pair (left right : Text) : InTurn [left, right] (left ++ right) :=
  (singleton (List.infix_refl left)).append (singleton (List.infix_refl right))

/-- A part may be replaced by parts of it. -/
theorem replace {left right inner : List Text} {part whole : Text}
    (inTurn : InTurn (left ++ part :: right) whole)
    (inPart : InTurn inner part) :
    InTurn (left ++ (inner ++ right)) whole := by
  induction left generalizing whole with
  | nil =>
      cases inTurn with
      | cons before _ later => exact (inPart.append later).behind before
  | cons first left ih =>
      cases inTurn with
      | cons before _ later => exact .cons before first (ih later)

theorem replace_last {left inner : List Text} {part whole : Text}
    (inTurn : InTurn (left ++ [part]) whole) (inPart : InTurn inner part) :
    InTurn (left ++ inner) whole := by
  have replaced := inTurn.replace inPart
  rwa [List.append_nil] at replaced

theorem narrow {first second left right whole : Text}
    (inTurn : InTurn [left, right] whole) (inLeft : first <:+: left)
    (inRight : second <:+: right) : InTurn [first, second] whole := by
  have split : InTurn ([] ++ left :: [right]) whole := inTurn
  have begun : InTurn ([first] ++ [right]) whole :=
    split.replace (.singleton inLeft)
  exact begun.replace_last (.singleton inRight)

theorem isInfix {parts : List Text} {whole : Text}
    (inTurn : InTurn parts whole) :
    ∀ part ∈ parts, part <:+: whole := by
  induction inTurn with
  | nil => exact nofun
  | cons before part _ ih =>
      intro other member
      rcases List.mem_cons.mp member with rfl | later
      · exact ⟨before, _, by rw [List.append_assoc]⟩
      · exact (ih other later).trans
          ((List.suffix_append part _).trans
            (List.suffix_append before _)).isInfix

/-- Characters of a kind occur at most as often in the parts as in the whole. -/
theorem countP_le {parts : List Text} {whole : Text}
    (inTurn : InTurn parts whole) (test : Char → Bool) :
    weight test parts ≤ whole.countP test := by
  induction inTurn with
  | nil => exact Nat.zero_le _
  | cons before part _ ih =>
      rw [weight_cons, List.countP_append, List.countP_append]
      omega

end InTurn

/-- A property that goes over to parts, and to texts put together with a space
between them. -/
structure Inherited (property : Text → Prop) : Prop where
  part : ∀ {part whole : Text}, part <:+: whole → property whole → property part
  joined : ∀ {left right : Text}, property left → property right →
    property (left ++ ' ' :: right)

theorem inherited_not_mem {c : Char} (noSpace : c ≠ ' ') :
    Inherited fun text => c ∉ text where
  part inside absent member := absent (inside.subset member)
  joined absentLeft absentRight member := by
    simp only [List.mem_append, List.mem_cons] at member
    rcases member with inLeft | same | inRight
    · exact absentLeft inLeft
    · exact noSpace same
    · exact absentRight inRight

end Text

end StyleAudit
