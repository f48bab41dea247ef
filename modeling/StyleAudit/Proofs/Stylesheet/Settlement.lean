import StyleAudit.Proofs.Outline.Shape
import StyleAudit.Proofs.Stylesheet.Placement

/-!
# What the tokens tell about comments

A comment matters where an item can begin: at the start of the text, and behind
a brace or a semicolon.  What becomes of it there can be read off the tokens
behind it, without looking at blocks at all: the first one that is no semicolon
decides.  `gather` goes over the tokens once and knows of each whether an item
can begin there.
-/

namespace StyleAudit

/-! ## Comments among the tokens -/

namespace Token

/-- Does the token end an item, or open or close a block? -/
def Kind.isCut : Kind → Bool
  | .openBrace | .closeBrace | .semicolon => true
  | _ => false

/-- Can an item begin behind the tokens?  The last of them that is no comment
tells. -/
def atItem (front : List Token) : Bool :=
  (front.filter (!·.kind.isComment)).getLast?.all (·.kind.isCut)

/-- The tokens where an item can begin, each with those behind it. -/
def itemPlaces : (front : List Token) → List Token → List (Token × List Token)
  | _, [] => []
  | front, token :: back =>
    (if atItem front then [(token, back)] else []) ++
      itemPlaces (front ++ [token]) back

/-- Does a block open before anything ends? -/
def opensBlock (tokens : List Token) : Bool :=
  (tokens.find? (·.kind.isBoundary)).any (·.kind == .openBrace)

/-- Do the tokens begin with a rule, or with an at-rule that is no import and no
include? -/
def startsDeclaration : List Token → Bool
  | { kind := .atKeyword keyword, .. } :: _ =>
    (ImportKind.ofKeyword? keyword).isNone && keyword != "include".toList
  | { kind := .comment _ _, .. } :: _ => false
  | tokens => opensBlock tokens

/-- Do the tokens begin with an import that has a block? -/
def startsImportBlock : List Token → Bool
  | { kind := .atKeyword keyword, .. } :: rest =>
    (ImportKind.ofKeyword? keyword).isSome && opensBlock rest
  | _ => false

end Token

/-- What becomes of a comment. -/
inductive Fate where
  /-- It documents what begins there. -/
  | documents (start : Position)
  | orphaned (reason : OrphanReason)
deriving DecidableEq, Repr

/-- The fate of a comment in front of the tokens.  The first one that is no
semicolon decides. -/
def Fate.before (tokens : List Token) : Fate :=
  match tokens.dropWhile (·.kind == .semicolon) with
  | [] => .orphaned .trailing
  | next :: rest =>
    match next.kind with
    | .comment _ _ => .orphaned .superseded
    | .closeBrace | .endOfInput => .orphaned .trailing
    | _ =>
      if Token.startsDeclaration (next :: rest) then .documents next.span.start
      else .orphaned .notDeclarable

/-- A comment with its fate. -/
structure Settlement where
  comment : Comment
  fate : Fate
deriving DecidableEq, Repr

namespace Settlement

/-- The fate of the comment at a place, if there is one. -/
def at? (place : Token × List Token) : Option Settlement :=
  match place.1.kind with
  | .comment style _ =>
    some ⟨⟨style, place.1.text, place.1.span⟩, .before place.2⟩
  | _ => none

/-- What the comment documents, by where that begins. -/
def doc? (settlement : Settlement) : Option (Comment × Position) :=
  match settlement.fate with
  | .documents start => some (settlement.comment, start)
  | .orphaned _ => none

/-- The orphan that the comment becomes.  A plain comment becomes one only when
another comment takes its place. -/
def orphan? (settlement : Settlement) : Option Orphan :=
  match settlement.fate with
  | .documents _ => none
  | .orphaned reason =>
    if settlement.comment.style = .block ∧ reason ≠ .superseded then none
    else some ⟨settlement.comment.span, reason⟩

end Settlement

/-- Where the rule or at-rule at a place begins, if there is one. -/
def Token.declaredAt? (place : Token × List Token) : Option Position :=
  if startsDeclaration (place.1 :: place.2) then some place.1.span.start
  else none

/-! ## Comments in a stylesheet -/

/-- Where the node begins, if it is a rule or an at-rule. -/
def Node.declaredAt? : Node → Option Position
  | .rule _ _ _ span | .atRule _ _ _ span => some span.start
  | .importing _ _ _ | .including _ _ _ _ => none

/-- The comment that documents the node, with where the node begins. -/
def Node.documented? (node : Node) : Option (Comment × Position) :=
  node.doc.map fun comment => (comment, node.span.start)

namespace Stylesheet

/-- Where the rules and at-rules begin. -/
def declared (sheet : Stylesheet) : List Position :=
  (Node.walkList sheet.nodes).filterMap Node.declaredAt?

/-- The comments that document something, with where that begins. -/
def documented (sheet : Stylesheet) : List (Comment × Position) :=
  (Node.walkList sheet.nodes).filterMap Node.documented?

theorem declared_append (left right : Stylesheet) :
    (left.append right).declared = left.declared ++ right.declared := by
  rw [declared, append, Node.walkList_append, List.filterMap_append]
  rfl

theorem documented_append (left right : Stylesheet) :
    (left.append right).documented = left.documented ++ right.documented := by
  rw [documented, append, Node.walkList_append, List.filterMap_append]
  rfl

end Stylesheet

/-! ## A pass over the tokens -/

namespace Token

variable {α : Type} {find : Token × List Token → Option α}

/-- What is found at the places where an item can begin, when it is known
whether one can begin at the first token. -/
def gather (find : Token × List Token → Option α) : (atItem : Bool) →
    List Token → List α
  | _, [] => []
  | atItem, token :: back =>
    (if atItem then (find (token, back)).toList else []) ++
      gather find (if token.kind.isComment then atItem else token.kind.isCut)
        back

private theorem atItem_concat (front : List Token) (token : Token) :
    atItem (front ++ [token]) =
      if token.kind.isComment then atItem front else token.kind.isCut := by
  cases isComment : token.kind.isComment <;> simp [atItem, isComment]

theorem filterMap_itemPlaces (find : Token × List Token → Option α)
    (front tokens : List Token) :
    (itemPlaces front tokens).filterMap find =
      gather find (atItem front) tokens := by
  induction tokens generalizing front with
  | nil => rfl
  | cons token back ih =>
      rw [itemPlaces, gather, List.filterMap_append, ih, atItem_concat]
      congr 1
      split
      · rw [List.filterMap_cons, List.filterMap_nil]
        cases find (token, back) <;> rfl
      · rfl

/-- Nothing is found where an item ends. -/
def Quiet (find : Token × List Token → Option α) : Prop :=
  ∀ token back, token.kind = .semicolon ∨ token.kind = .closeBrace ∨
    token.kind = .endOfInput →
    find (token, back) = none

theorem gather_of_comment {token : Token}
    (isComment : token.kind.isComment = true) (back : List Token) :
    gather find true (token :: back) = (find (token, back)).toList ++
      gather find true back := by
  rw [gather, if_pos rfl, if_pos isComment]

theorem gather_of_ending (quiet : Quiet find) {token : Token}
    (ending : token.kind = .semicolon ∨ token.kind = .closeBrace)
    (atItem : Bool) (back : List Token) :
    gather find atItem (token :: back) = gather find true back := by
  have nothing : find (token, back) = none := by
    apply quiet
    rcases ending with kind | kind
    · exact .inl kind
    · exact .inr (.inl kind)
  have plain : token.kind.isComment = false ∧ token.kind.isCut = true := by
    rcases ending with kind | kind <;> rw [kind] <;> exact ⟨rfl, rfl⟩
  rw [gather, nothing, plain.1, plain.2]
  cases atItem <;> rfl

/-- Behind a head, nothing is looked for at the token that ends it. -/
theorem gather_of_cut {token : Token} (isCut : token.kind.isCut = true)
    (back : List Token) :
    gather find false (token :: back) = gather find true back := by
  have notComment : token.kind.isComment = false := by
    cases kind : token.kind <;> simp_all [Kind.isCut, Kind.isComment]
  rw [gather, isCut, notComment]
  rfl

theorem gather_of_nothing {token : Token} {back : List Token}
    (notComment : token.kind.isComment = false)
    (nothing : find (token, back) = none) :
    gather find false (token :: back) = gather find true (token :: back) := by
  rw [gather, gather, notComment, nothing]
  rfl

private theorem gather_inside {tokens : List Token}
    (inside : ∀ token ∈ tokens, token.kind.isBoundary = false)
    (back : List Token) :
    gather find false (tokens ++ back) = gather find false back := by
  induction tokens with
  | nil => rfl
  | cons token rest ih =>
      have notCut : token.kind.isCut = false := by
        have notBoundary := inside token List.mem_cons_self
        cases kind : token.kind <;> simp_all [Kind.isBoundary, Kind.isCut]
      rw [List.cons_append, gather, notCut, ite_self,
        ih fun other member => inside other (List.mem_cons_of_mem token member)]
      rfl

theorem gather_head {first : Token} {rest : List Token}
    (isHead : IsHead (first :: rest)) (back : List Token) :
    gather find true (first :: rest ++ back) =
      (find (first, rest ++ back)).toList ++ gather find false back := by
  obtain ⟨_, _, same, notComment⟩ := isHead.begins
  cases same
  have rest' : ∀ token ∈ rest, token.kind.isBoundary = false :=
    fun token member =>
    isHead.inside token (List.mem_cons_of_mem first member)
  have notCut : first.kind.isCut = false := by
    have notBoundary := isHead.inside first List.mem_cons_self
    cases kind : first.kind <;> simp_all [Kind.isBoundary, Kind.isCut]
  rw [List.cons_append, gather, if_pos rfl, notComment, notCut]
  exact congrArg _ (gather_inside rest' back)

theorem gather_append (find : Token × List Token → Option α) (atItem : Bool)
    (left right : List Token) :
    ∃ found later, gather find atItem (left ++ right) =
      found ++ gather find later right := by
  induction left generalizing atItem with
  | nil => exact ⟨[], atItem, rfl⟩
  | cons token rest ih =>
      obtain ⟨found, later, split⟩ :=
        ih (if token.kind.isComment then atItem else token.kind.isCut)
      rw [List.cons_append, gather, split, ← List.append_assoc]
      exact ⟨_, later, rfl⟩

theorem opensBlock_inside {tokens : List Token}
    (inside : ∀ token ∈ tokens, token.kind.isBoundary = false)
    (back : List Token) :
    opensBlock (tokens ++ back) = opensBlock back := by
  have nowhere : tokens.find? (·.kind.isBoundary) = none := by
    rw [List.find?_eq_none]
    intro token member
    rw [inside token member]
    exact Bool.false_ne_true
  rw [opensBlock, opensBlock, List.find?_append, nowhere, Option.none_or]

end Token

/-! ## What the tokens of a head begin -/

namespace Head

/-- Does an item with this head become a rule or an at-rule, given whether it
has a block? -/
def isDeclaration (block : Bool) : Head → Bool
  | .style _ => block
  | .atRule _ => true
  | .importing _ _ | .including _ _ => false

/-- Does the head load other stylesheets? -/
def isImport : Head → Bool
  | .importing _ _ => true
  | .style _ | .atRule _ | .including _ _ => false

theorem includingOf_eq (tokens : List Token) :
    ∃ name arguments, includingOf tokens = .including name arguments := by
  unfold includingOf
  split <;> exact ⟨_, _, rfl⟩

/-- What a head that begins with a keyword can say. -/
theorem ofTokens_keyword (keyword : Text) (span : Span) (text gap : Text)
    (rest : List Token) :
    let head := ofTokens (⟨.atKeyword keyword, span, text, gap⟩ :: rest)
    (∃ kind targets, ImportKind.ofKeyword? keyword = some kind ∧
      head = .importing kind targets) ∨
      (∃ name arguments, ImportKind.ofKeyword? keyword = none ∧
        keyword = "include".toList ∧
        head = .including name arguments) ∨
      ∃ rule, ImportKind.ofKeyword? keyword = none ∧
      keyword ≠ "include".toList ∧
        head = .atRule rule := by
  intro head
  cases loads : ImportKind.ofKeyword? keyword with
  | some kind =>
      exact .inl ⟨kind, targets rest, rfl, by simp only [head, ofTokens, loads]⟩
  | none =>
      have others : head = if keyword = "include".toList then includingOf rest
          else .atRule (atRuleOf keyword rest) := by
        simp only [head, ofTokens, loads]
      by_cases included : keyword = "include".toList
      · rw [if_pos included] at others
        obtain ⟨name, arguments, isInclude⟩ := includingOf_eq rest
        exact .inr
          (.inl ⟨name, arguments, rfl, included, others.trans isInclude⟩)
      · rw [if_neg included] at others
        exact .inr (.inr ⟨_, rfl, included, others⟩)

theorem startsDeclaration_append {head : List Token}
    (isHead : Token.IsHead head) (back : List Token) :
    Token.startsDeclaration (head ++ back) =
      (ofTokens head).isDeclaration (Token.opensBlock back) := by
  have inside := Token.opensBlock_inside isHead.inside back
  obtain ⟨⟨kind, span, text, gap⟩, rest, rfl, notComment⟩ := isHead.begins
  rw [List.cons_append] at inside ⊢
  cases kind with
  | atKeyword keyword =>
      rw [Token.startsDeclaration]
      rcases ofTokens_keyword keyword span text gap rest with
        ⟨kind, targets, loads, reads⟩ | ⟨name, arguments, loads,
          included, reads⟩ |
        ⟨rule, loads, other, reads⟩
      · rw [reads, loads]
        rfl
      · rw [reads, loads, included]
        rfl
      · rw [reads, loads, bne_iff_ne.mpr other]
        rfl
  | comment style text => cases notComment
  | _ => exact inside

theorem startsImportBlock_append {head : List Token}
    (isHead : Token.IsHead head) (back : List Token) :
    Token.startsImportBlock (head ++ back) =
      ((ofTokens head).isImport && Token.opensBlock back) := by
  obtain ⟨⟨kind, span, text, gap⟩, rest, rfl, notComment⟩ := isHead.begins
  have inside : Token.opensBlock (rest ++ back) = Token.opensBlock back :=
    Token.opensBlock_inside
      (fun token member => isHead.inside token (List.mem_cons_of_mem _ member))
      back
  rw [List.cons_append]
  cases kind with
  | atKeyword keyword =>
      rw [Token.startsImportBlock, inside]
      rcases ofTokens_keyword keyword span text gap rest with
        ⟨kind, targets, loads, reads⟩ | ⟨name, arguments, loads,
          included, reads⟩ |
        ⟨rule, loads, other, reads⟩
      · rw [reads, loads]
        rfl
      · rw [reads, loads]
        rfl
      · rw [reads, loads]
        rfl
  | _ => rfl

end Head

/-! ## Fates -/

/-- The token begins an item that is no comment. -/
structure Token.IsStart (token : Token) : Prop where
  notComment : token.kind.isComment = false
  ends : token.kind.isBoundary = true → token.kind = .openBrace

namespace Fate

theorem before_of_semicolon {token : Token} (kind : token.kind = .semicolon)
    (back : List Token) : before (token :: back) = before back := by
  simp [before, kind]

theorem before_of_comment {token : Token} {style : CommentStyle} {text : Text}
    (kind : token.kind = .comment style text) (back : List Token) :
    before (token :: back) = .orphaned .superseded := by
  simp [before, kind]

theorem before_of_ending {token : Token}
    (ending : token.kind = .closeBrace ∨ token.kind = .endOfInput)
    (back : List Token) :
    before (token :: back) = .orphaned .trailing := by
  rcases ending with kind | kind <;> simp [before, kind]

theorem before_of_isStart {token : Token} (isStart : token.IsStart)
    (back : List Token) :
    before (token :: back) =
      if Token.startsDeclaration (token :: back) then
        .documents token.span.start
      else .orphaned .notDeclarable := by
  obtain ⟨notComment, ends⟩ := isStart
  cases kind : token.kind <;>
    simp_all [before, Token.Kind.isComment, Token.Kind.isBoundary]

end Fate

end StyleAudit
