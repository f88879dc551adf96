import AcademicMarkup.Token.Lexer
import AcademicMarkup.Tree

/-!
Reading a document from its tokens. Every production either reads a construct from the front of
the tokens and gives what is left, or does not match, and then the next alternative sees the same
tokens. Wherever a production matches it takes a token, so it can be repeated until it does not. A
production takes the reader of the nodes inside it as a parameter. The nodes at one level are read
with the nodes of the next level inside them, and at the nesting limit with none, so the whole
grammar is a recursion on the levels that are left.
-/
namespace AcademicMarkup

abbrev Production (α : Type) := List Token → Option (α × List Token)

namespace Production

variable {α β : Type}

/-- The production leaves fewer tokens wherever it matches. -/
def Consuming (p : Production α) : Prop :=
  ∀ ⦃ts : List Token⦄ ⦃a : α⦄ ⦃rest : List Token⦄, p ts = some (a, rest) → rest.length < ts.length

def map (f : α → β) (p : Production α) : Production β :=
  fun ts => (p ts).map fun (a, rest) => (f a, rest)

theorem Consuming.map {p : Production α} (hp : p.Consuming) (f : α → β) :
    (p.map f).Consuming := by
  intro ts b rest h
  obtain ⟨⟨a, rest'⟩, ha, heq⟩ := Option.map_eq_some_iff.mp h
  obtain ⟨-, rfl⟩ := Prod.mk.inj heq
  exact hp ha

/-- The first production, or the second where the first does not match. -/
def orElse (p q : Production α) : Production α := fun ts => (p ts).orElse fun _ => q ts

theorem Consuming.orElse {p q : Production α} (hp : p.Consuming) (hq : q.Consuming) :
    (p.orElse q).Consuming := by
  intro ts a rest h
  unfold Production.orElse at h
  cases hts : p ts with
  | none => exact hq (by simpa [hts] using h)
  | some x => exact hp (by simpa [hts] using h)

/-- What a production reads from the front, as often as it matches. -/
def many (p : Production α) (hp : p.Consuming) (ts : List Token) : List α × List Token :=
  match h : p ts with
  | none => ([], ts)
  | some (a, rest) =>
    have : rest.length < ts.length := hp h
    let (as, last) := many p hp rest
    (a :: as, last)
termination_by ts.length

theorem length_many_le (p : Production α) (hp : p.Consuming) (ts : List Token) :
    (many p hp ts).2.length ≤ ts.length := by
  fun_induction many p hp ts with
  | case1 => simp
  | case2 ts a rest _ hlt as last heq ih =>
    rw [heq] at ih
    simp only at ih ⊢
    omega

/-- One token that satisfies a test. -/
def token (test : Token → Bool) : Production Token
  | [] => none
  | t :: ts => if test t then some (t, ts) else none

theorem consuming_token (test : Token → Bool) : (token test).Consuming := by
  intro ts a rest h
  cases ts with
  | nil => simp [token] at h
  | cons t ts =>
    simp only [token] at h
    split at h
    · obtain ⟨rfl, rfl⟩ := by simpa using h
      simp
    · simp at h

end Production

/-- A production that is known to take a token wherever it matches, so that it can be repeated. -/
structure Reader (α : Type) where
  production : Production α
  consuming : production.Consuming

namespace Reader

def many {α : Type} (r : Reader α) : List Token → List α × List Token :=
  Production.many r.production r.consuming

theorem length_many_le {α : Type} (r : Reader α) (ts : List Token) :
    (r.many ts).2.length ≤ ts.length :=
  Production.length_many_le r.production r.consuming ts

end Reader

namespace Grammar

/-- The quote that closes an opening quote. -/
def closingQuote? (text : String) : Option String :=
  if text == "\"" then some "\"" else if text == "“" then some "”" else none

/-- Tokens up to the closing quote, or through the first token that breaks the line. -/
def quoted (closing : String) : List Token → Option ((List Token × Option Token) × List Token)
  | [] => none
  | t :: ts =>
    if t.text == closing then some (([], some t), ts)
    else if t.hasNewline then some (([t], none), ts)
    else (quoted closing ts).map fun ((content, close), rest) => ((t :: content, close), rest)

theorem length_quoted_lt {closing : String} {ts rest : List Token}
    {x : List Token × Option Token} (h : quoted closing ts = some (x, rest)) :
    rest.length < ts.length := by
  induction ts generalizing x with
  | nil => simp [quoted] at h
  | cons t ts ih =>
    simp only [quoted] at h
    split at h
    · obtain ⟨-, rfl⟩ := by simpa using h
      simp
    · split at h
      · obtain ⟨-, rfl⟩ := by simpa using h
        simp
      · obtain ⟨y, hy, heq⟩ := Option.map_eq_some_iff.mp h
        obtain ⟨-, rfl⟩ := Prod.mk.inj heq
        have hlt := ih hy
        simp only [List.length_cons]
        omega

/-- A quotation. An opening quote with neither a closing quote nor a line break after it is
not one. -/
def quotation : Production Quotation
  | [] => none
  | opening :: ts => do
    let closing ← closingQuote? opening.text
    let ((content, close), rest) ← quoted closing ts
    return (⟨opening, content, close⟩, rest)

theorem consuming_quotation : quotation.Consuming := by
  intro ts q rest h
  cases ts with
  | nil => simp [quotation] at h
  | cons opening ts =>
    simp only [quotation, Option.bind_eq_bind, Option.bind_eq_some_iff] at h
    obtain ⟨closing, -, ⟨⟨content, close⟩, rest'⟩, hquoted, heq⟩ := h
    obtain ⟨-, rfl⟩ := by simpa using heq
    have hlt := length_quoted_lt hquoted
    simp only [List.length_cons]
    omega

/-- A block, unterminated where the first token that no child takes does not close it. -/
def block (inner : Reader Node) : Production Block
  | [] => none
  | opening :: ts =>
    if opening.isOpening then
      match inner.many ts with
      | (children, closing :: rest) =>
        if opening.pairsWith closing then some (⟨opening, children, some closing⟩, rest)
        else some (⟨opening, children, none⟩, closing :: rest)
      | (children, []) => some (⟨opening, children, none⟩, [])
    else none

theorem consuming_block (inner : Reader Node) : (block inner).Consuming := by
  intro ts b rest h
  cases ts with
  | nil => simp [block] at h
  | cons opening ts =>
    have hle := inner.length_many_le ts
    simp only [block] at h
    split at h
    · split at h
      · rename_i children closing after heq
        rw [heq] at hle
        simp only [List.length_cons] at hle ⊢
        split at h
        · obtain ⟨-, rfl⟩ := by simpa using h
          omega
        · obtain ⟨-, rfl⟩ := by simpa using h
          simp only [List.length_cons]
          omega
      · obtain ⟨-, rfl⟩ := by simpa using h
        simp
    · simp at h

/-- A terminated block of one kind, in its three parts. Where no bracket of the kind closes any more
there is none, and that is seen without reading the children. -/
def enclosed (inner : Reader Node) (kind : Enclosure) :
    Production (Token × List Node × Token)
  | [] => none
  | first :: ts =>
    if first.opens? == some kind && ts.any (·.closes? == some kind) then
      match block inner (first :: ts) with
      | some (⟨opening, children, some closing⟩, rest) => some ((opening, children, closing), rest)
      | _ => none
    else none

theorem consuming_enclosed (inner : Reader Node) (kind : Enclosure) :
    (enclosed inner kind).Consuming := by
  intro ts x rest h
  cases ts with
  | nil => simp [enclosed] at h
  | cons first ts =>
    simp only [enclosed] at h
    split at h
    · split at h
      · rename_i hblock
        obtain ⟨-, rfl⟩ := by simpa using h
        exact consuming_block inner hblock
      · simp at h
    · simp at h

/-- A script operator with its operand. -/
def script (inner : Reader Node) : Production Argument
  | [] => none
  | operator :: ts =>
    if operator.isScriptOperator then
      (inner.production ts).map fun (operand, rest) => (.script operator operand, rest)
    else none

theorem consuming_script (inner : Reader Node) : (script inner).Consuming := by
  intro ts a rest h
  cases ts with
  | nil => simp [script] at h
  | cons operator ts =>
    simp only [script] at h
    split at h
    · obtain ⟨⟨operand, rest'⟩, hoperand, heq⟩ := Option.map_eq_some_iff.mp h
      obtain ⟨-, rfl⟩ := Prod.mk.inj heq
      have hlt := inner.consuming hoperand
      simp only [List.length_cons]
      omega
    · simp at h

def argument (inner : Reader Node) : Production Argument :=
  (script inner).orElse ((block inner).map .block)

def argumentReader (inner : Reader Node) : Reader Argument :=
  ⟨argument inner, (consuming_script inner).orElse ((consuming_block inner).map _)⟩

/-- The rules among nodes: every arrow with the two nodes beside it. A node between two arrows
is the target of one rule and the pattern of the next. -/
def rules : List Node → List RewriteRule
  | pattern :: middle :: target :: rest =>
    match middle.arrow? with
    | some arrow => ⟨pattern, arrow, target⟩ :: rules (middle :: target :: rest)
    | none => rules (middle :: target :: rest)
  | _ => []

/-- The clause of rewrite rules after the arguments of a command. -/
def clause (inner : Reader Node) : Production Clause
  | [] => none
  | keyword :: ts =>
    if keyword.text == Token.clauseKeyword then
      (enclosed inner .brace ts).map fun ((opening, children, closing), rest) =>
        (⟨keyword, opening, rules (Node.nonBlank children), closing⟩, rest)
    else none

theorem consuming_clause (inner : Reader Node) : (clause inner).Consuming := by
  intro ts c rest h
  cases ts with
  | nil => simp [clause] at h
  | cons keyword ts =>
    simp only [clause] at h
    split at h
    · obtain ⟨⟨body, rest'⟩, hbody, heq⟩ := Option.map_eq_some_iff.mp h
      obtain ⟨-, rfl⟩ := Prod.mk.inj heq
      have hlt := consuming_enclosed inner .brace hbody
      simp only [List.length_cons]
      omega
    · simp at h

/-- A command name with all the arguments that follow and the clause, if one follows. -/
def command (inner : Reader Node) : Production Command
  | [] => none
  | ident :: ts =>
    if ident.isIdentifier && ident.text != Token.definitionKeyword then
      let (arguments, rest) := (argumentReader inner).many ts
      match clause inner rest with
      | some (clause, last) => some (⟨ident, arguments, some clause⟩, last)
      | none => some (⟨ident, arguments, none⟩, rest)
    else none

theorem consuming_command (inner : Reader Node) : (command inner).Consuming := by
  intro ts c rest h
  cases ts with
  | nil => simp [command] at h
  | cons ident ts =>
    have hle := (argumentReader inner).length_many_le ts
    simp only [command] at h
    split at h
    · split at h
      · rename_i hclause
        obtain ⟨-, rfl⟩ := by simpa using h
        have hlt := consuming_clause inner hclause
        simp only [List.length_cons]
        omega
      · obtain ⟨-, rfl⟩ := by simpa using h
        simp only [List.length_cons]
        omega
    · simp at h

/-- What is more than one token, or is not text. -/
def construct (inner : Reader Node) : Production Node :=
  (quotation.map .quotation).orElse
    (((command inner).map .command).orElse ((block inner).map .block))

theorem consuming_construct (inner : Reader Node) : (construct inner).Consuming :=
  (consuming_quotation.map Node.quotation).orElse
    (((consuming_command inner).map Node.command).orElse ((consuming_block inner).map Node.block))

/-- A node at the nesting limit, which holds no other. -/
def leafNode : Production Node :=
  (quotation.map .quotation).orElse <|
    (Production.token fun t => !t.isClosing).map fun t =>
      if t.isOpening || t.isIdentifier then .misplaced t else .text t

theorem consuming_leafNode : leafNode.Consuming :=
  (consuming_quotation.map Node.quotation).orElse ((Production.consuming_token _).map _)

/-- A node inside another. It leaves a closing bracket to the block around it. -/
def innerNode (inner : Reader Node) : Production Node :=
  (construct inner).orElse ((Production.token fun t => !t.isClosing).map .text)

theorem consuming_innerNode (inner : Reader Node) : (innerNode inner).Consuming :=
  (consuming_construct inner).orElse ((Production.consuming_token _).map Node.text)

/-- A node between no brackets, where a closing bracket is misplaced. -/
def outerNode (inner : Reader Node) : Production Node :=
  (construct inner).orElse <|
    (Production.token fun _ => true).map fun t => if t.isClosing then .misplaced t else .text t

theorem consuming_outerNode (inner : Reader Node) : (outerNode inner).Consuming :=
  (consuming_construct inner).orElse ((Production.consuming_token _).map _)

/-- A variable in brackets of its own. -/
def binder? (n : Node) : Option Binder := do
  let b ← n.block?
  let _ ← b.kind?
  let name ← b.onlyToken?
  let closing ← b.closing
  if name.isVariable then some ⟨b.opening, name, closing⟩ else none

/-- A rule of a definition has its pattern in square brackets and its target in braces. -/
def definitionRule? (r : RewriteRule) : Option DefinitionRule := do
  let pattern ← r.pattern.block?
  let target ← r.target.block?
  let patternClosing ← pattern.closing
  if pattern.isKind .bracket && target.isKind .brace then
    some ⟨pattern.opening, (Node.nonBlank pattern.children).filterMap binder?, patternClosing,
      r.arrow, target⟩
  else none

/-- A definition: its keyword, the defined command alone in square brackets, and rules in
braces. -/
def definition (inner : Reader Node) : Production Definition
  | [] => none
  | keyword :: ts =>
    if keyword.text == Token.definitionKeyword then do
      let ((headerOpening, header, headerClosing), ts) ← enclosed inner .bracket ts
      let [.command defined] := header | none
      let ((bodyOpening, body, bodyClosing), ts) ← enclosed inner .brace ts
      return (⟨keyword, headerOpening, defined.ident, headerClosing, bodyOpening,
        (rules (Node.nonBlank body)).filterMap definitionRule?, bodyClosing⟩, ts)
    else none

theorem consuming_definition (inner : Reader Node) : (definition inner).Consuming := by
  intro ts d rest h
  cases ts with
  | nil => simp [definition] at h
  | cons keyword ts =>
    simp only [definition] at h
    split at h
    · simp only [Option.bind_eq_bind, Option.bind_eq_some_iff] at h
      obtain ⟨⟨⟨headerOpening, header, headerClosing⟩, ts₁⟩, hheader, h⟩ := h
      split at h
      · simp only [Option.bind_eq_some_iff] at h
        obtain ⟨⟨⟨bodyOpening, body, bodyClosing⟩, ts₂⟩, hbody, heq⟩ := h
        obtain ⟨-, rfl⟩ := by simpa using heq
        have h₁ := consuming_enclosed inner .bracket hheader
        have h₂ := consuming_enclosed inner .brace hbody
        simp only [List.length_cons]
        omega
      · simp at h
    · simp at h

/-- An item of a document; definitions are read only where they are allowed. -/
def item (definitions : Bool) (inner : Reader Node) : Production Item :=
  let node := (outerNode inner).map .node
  if definitions then ((definition inner).map .definition).orElse node else node

theorem consuming_item (definitions : Bool) (inner : Reader Node) :
    (item definitions inner).Consuming := by
  unfold item
  have hnode := (consuming_outerNode inner).map Item.node
  split
  · exact ((consuming_definition inner).map .definition).orElse hnode
  · exact hnode

/-- A node inside another, with as many levels below its own as given. -/
def nodeWithin : Nat → Reader Node
  | 0 => ⟨leafNode, consuming_leafNode⟩
  | levels + 1 => ⟨innerNode (nodeWithin levels), consuming_innerNode (nodeWithin levels)⟩

/-- The number of levels of nodes that hold others. -/
def maxNesting : Nat := 64

def itemReader (definitions : Bool) : Reader Item :=
  ⟨item definitions (nodeWithin (maxNesting - 1)), consuming_item definitions _⟩

end Grammar

namespace Document

/-- The document that tokens make up. No token is left over: a node between no brackets takes
any token. -/
def ofTokens (definitions : Bool) (ts : List Token) : Document :=
  ((Grammar.itemReader definitions).many ts).1

def ofSource (source : String) : Document := ofTokens true (Token.ofSource source)

end Document

end AcademicMarkup
