import StyleAudit.Proofs.Stylesheet.Relocation

/-!
# A stylesheet further down

When a text is moved down by whole lines, columns stay and everything else moves
by the same number of bytes and lines.  Each step of reading keeps to this:
tokens, their outline and the stylesheet move along, and so does a fault.
-/

namespace StyleAudit

/-- How far a text is moved. -/
structure Shift where
  bytes : Nat
  lines : Nat
deriving DecidableEq, Repr

/-! ## What moves -/

/-- The position, moved. -/
def Position.shift (shift : Shift) (position : Position) : Position :=
  ⟨position.offset + shift.bytes, position.line + shift.lines, position.column⟩

/-- The span, moved. -/
def Span.shift (shift : Shift) (span : Span) : Span :=
  ⟨span.start.shift shift, span.stop.shift shift⟩

/-- The token, moved. -/
def Token.shift (shift : Shift) (token : Token) : Token :=
  { token with span := token.span.shift shift }

/-- The comment, moved. -/
def Comment.shift (shift : Shift) (comment : Comment) : Comment :=
  { comment with span := comment.span.shift shift }

/-- The path, moved. -/
def ImportTarget.shift (shift : Shift) (target : ImportTarget) : ImportTarget :=
  { target with span := target.span.shift shift }

/-- The orphan, moved. -/
def Orphan.shift (shift : Shift) (orphan : Orphan) : Orphan :=
  { orphan with span := orphan.span.shift shift }

/-- The head, moved. -/
def Head.shift (shift : Shift) : Head → Head
  | .importing kind targets =>
    .importing kind (targets.map (ImportTarget.shift shift))
  | head => head

namespace Node

mutual

/-- The node with all inside it, moved. -/
def shift (shift : Shift) : Node → Node
  | .rule selector doc children span =>
    .rule selector (doc.map (Comment.shift shift)) (shiftAll shift children)
      (span.shift shift)
  | .atRule head doc none span =>
    .atRule head (doc.map (Comment.shift shift)) none (span.shift shift)
  | .atRule head doc (some body) span =>
    .atRule head (doc.map (Comment.shift shift)) (some (shiftAll shift body))
      (span.shift shift)
  | .importing kind targets span =>
    .importing kind (targets.map (ImportTarget.shift shift)) (span.shift shift)
  | .including name arguments none span =>
    .including name arguments none (span.shift shift)
  | .including name arguments (some body) span =>
    .including name arguments (some (shiftAll shift body)) (span.shift shift)

/-- The nodes, moved. -/
def shiftAll (shift : Shift) : List Node → List Node
  | [] => []
  | node :: rest => node.shift shift :: shiftAll shift rest

end

mutual

theorem shift_eq_moved (shift : Shift) :
    ∀ node : Node, node.shift shift = node.moved (Position.shift shift)
  | .rule selector doc children span => by
      rw [Node.shift, moved, shiftAll_eq_movedAll]
      rfl
  | .atRule head doc none span => by
      rw [Node.shift, moved]
      rfl
  | .atRule head doc (some body) span => by
      rw [Node.shift, moved, shiftAll_eq_movedAll]
      rfl
  | .importing kind targets span => by
      rw [Node.shift, moved]
      rfl
  | .including name arguments none span => by
      rw [Node.shift, moved]
      rfl
  | .including name arguments (some body) span => by
      rw [Node.shift, moved, shiftAll_eq_movedAll]
      rfl

theorem shiftAll_eq_movedAll (shift : Shift) :
    ∀ nodes : List Node,
      shiftAll shift nodes = movedAll (Position.shift shift) nodes
  | [] => by rw [shiftAll, movedAll]
  | node ::
      rest => by rw [shiftAll, movedAll, shift_eq_moved, shiftAll_eq_movedAll]

end

end Node

/-- The stylesheet, moved. -/
def Stylesheet.shift (shift : Shift) (sheet : Stylesheet) : Stylesheet :=
  ⟨Node.shiftAll shift sheet.nodes, sheet.orphans.map (Orphan.shift shift)⟩

namespace Item

mutual

/-- The item with all inside it, moved. -/
def shift (shift : Shift) : Item → Item
  | .comment style token => .comment style (token.shift shift)
  | .separator token => .separator (token.shift shift)
  | .statement head semicolon =>
    .statement (head.map (Token.shift shift))
      (semicolon.map (Token.shift shift))
  | .block head opening items closing =>
    .block (head.map (Token.shift shift)) (opening.shift shift)
      (shiftAll shift items) (closing.shift shift)

/-- The items, moved. -/
def shiftAll (shift : Shift) : List Item → List Item
  | [] => []
  | item :: rest => item.shift shift :: shiftAll shift rest

end

mutual

theorem shift_eq_moved (shift : Shift) :
    ∀ item : Item, item.shift shift = item.moved (Position.shift shift)
  | .comment style token => by
      rw [Item.shift, moved]
      rfl
  | .separator token => by
      rw [Item.shift, moved]
      rfl
  | .statement head semicolon => by
      rw [Item.shift, moved]
      rfl
  | .block head opening items closing => by
      rw [Item.shift, moved, shiftAll_eq_movedAll]
      rfl

theorem shiftAll_eq_movedAll (shift : Shift) :
    ∀ items : List Item,
      shiftAll shift items = movedAll (Position.shift shift) items
  | [] => by rw [shiftAll, movedAll]
  | item ::
      rest => by rw [shiftAll, movedAll, shift_eq_moved, shiftAll_eq_movedAll]

end

theorem shiftAll_singleton (shift : Shift) (item : Item) :
    shiftAll shift [item] = [item.shift shift] := by
  rw [shiftAll, shiftAll]

end Item

/-- The fault, moved. -/
def Outline.Fault.shift (shift : Shift) (fault : Fault) : Fault :=
  { fault with span := fault.span.shift shift }

/-! ## Reading, further down -/

section Reading

variable (shift : Shift)

theorem Position.next_shift (position : Position) (c : Char) :
    (position.shift shift).next c = (position.next c).shift shift := by
  rw [next, next]
  split
  · simp only [Position.shift, Nat.add_right_comm]
  · simp only [Position.shift, Nat.add_right_comm]

theorem Position.advance_shift (position : Position) (text : Text) :
    (position.shift shift).advance text =
      (position.advance text).shift shift := by
  induction text generalizing position with
  | nil => rfl
  | cons c rest ih => rw [advance_cons, advance_cons, next_shift, ih]

theorem Token.scanFrom_shift (position : Position) (text : Text) :
    scanFrom (position.shift shift) text =
      (scanFrom position text).map (Token.shift shift) := by
  fun_induction scanFrom position text with
  | case1 position =>
      rw [scanFrom]
      rfl
  | case2 position c rest token ih =>
      have moved : readFrom (position.shift shift) c rest =
          token.shift shift := by
        rw [readFrom, Position.advance_shift]
        rfl
      rw [scanFrom, List.map_cons, ← ih, moved, ← Position.advance_shift]
      rfl

theorem Head.ofTokens_shift (tokens : List Token) :
    ofTokens (tokens.map (Token.shift shift)) =
      (ofTokens tokens).shift shift := by
  have moved := ofTokens_moved (Position.shift shift) tokens
  cases head : ofTokens tokens <;> rw [head] at moved <;> exact moved

theorem Outline.ofTokens_shift (tokens : List Token) :
    ofTokens (tokens.map (Token.shift shift)) =
      ((ofTokens tokens).mapError (Fault.shift shift)).map
        (Item.shiftAll shift) := by
  have same : Item.shiftAll shift = Item.movedAll (Position.shift shift) :=
    funext (Item.shiftAll_eq_movedAll shift)
  rw [same]
  exact ofTokens_moved (Position.shift shift) tokens

theorem Stylesheet.ofItems_shift {items : List Item}
    (shaped : Item.Shaped items) (pending : Option Comment) :
    ofItems (pending.map (Comment.shift shift)) (Item.shiftAll shift items) =
      (ofItems pending items).shift shift := by
  rw [Item.shiftAll_eq_movedAll, Stylesheet.shift, Node.shiftAll_eq_movedAll]
  exact ofItems_moved (Position.shift shift) shaped pending

end Reading

end StyleAudit
