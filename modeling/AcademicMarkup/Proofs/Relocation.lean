import AcademicMarkup.Proofs.Reading

/-!
A document read from other tokens with the same texts. Nothing that is read depends on where a token
stands, so a function on tokens that keeps their texts commutes with reading: the document is the
same but for the tokens in it.
-/
namespace AcademicMarkup

/-! A function applied to every token of a document. -/

def Quotation.mapTokens (f : Token → Token) (q : Quotation) : Quotation :=
  ⟨f q.opening, q.content.map f, q.closing.map f⟩

def Binder.mapTokens (f : Token → Token) (b : Binder) : Binder :=
  ⟨f b.opening, f b.name, f b.closing⟩

mutual

def Node.mapTokens (f : Token → Token) : Node → Node
  | .text t => .text (f t)
  | .quotation q => .quotation (q.mapTokens f)
  | .misplaced t => .misplaced (f t)
  | .command c => .command (c.mapTokens f)
  | .block b => .block (b.mapTokens f)
  | .definition d => .definition (d.mapTokens f)

def Node.mapTokensAll (f : Token → Token) : List Node → List Node
  | [] => []
  | n :: ns => n.mapTokens f :: Node.mapTokensAll f ns

def Block.mapTokens (f : Token → Token) : Block → Block
  | ⟨opening, children, closing⟩ => ⟨f opening, Node.mapTokensAll f children, closing.map f⟩

def Command.mapTokens (f : Token → Token) : Command → Command
  | ⟨ident, arguments, clause⟩ =>
    ⟨f ident, Argument.mapTokensAll f arguments, Clause.mapTokensOption f clause⟩

def Argument.mapTokens (f : Token → Token) : Argument → Argument
  | .block b => .block (b.mapTokens f)
  | .script operator operand => .script (f operator) (operand.mapTokens f)

def Argument.mapTokensAll (f : Token → Token) : List Argument → List Argument
  | [] => []
  | a :: as => a.mapTokens f :: Argument.mapTokensAll f as

def Clause.mapTokensOption (f : Token → Token) : Option Clause → Option Clause
  | none => none
  | some ⟨keyword, opening, rules, closing⟩ =>
    some ⟨f keyword, f opening, RewriteRule.mapTokensAll f rules, f closing⟩

def RewriteRule.mapTokensAll (f : Token → Token) : List RewriteRule → List RewriteRule
  | [] => []
  | ⟨pattern, arrow, target⟩ :: rules =>
    ⟨pattern.mapTokens f, f arrow, target.mapTokens f⟩ :: RewriteRule.mapTokensAll f rules

def Definition.mapTokens (f : Token → Token) : Definition → Definition
  | ⟨keyword, headerOpening, ident, headerClosing, bodyOpening, rules, bodyClosing⟩ =>
    ⟨f keyword, f headerOpening, f ident, f headerClosing, f bodyOpening,
      DefinitionRule.mapTokensAll f rules, f bodyClosing⟩

def DefinitionRule.mapTokensAll (f : Token → Token) : List DefinitionRule → List DefinitionRule
  | [] => []
  | ⟨patternOpening, binders, patternClosing, arrow, target⟩ :: rules =>
    ⟨f patternOpening, binders.map (Binder.mapTokens f), f patternClosing, f arrow,
      target.mapTokens f⟩ :: DefinitionRule.mapTokensAll f rules

end

def RewriteRule.mapTokens (f : Token → Token) (r : RewriteRule) : RewriteRule :=
  ⟨r.pattern.mapTokens f, f r.arrow, r.target.mapTokens f⟩

def Clause.mapTokens (f : Token → Token) (c : Clause) : Clause :=
  ⟨f c.keyword, f c.opening, c.rules.map (RewriteRule.mapTokens f), f c.closing⟩

def DefinitionRule.mapTokens (f : Token → Token) (r : DefinitionRule) : DefinitionRule :=
  ⟨f r.patternOpening, r.binders.map (Binder.mapTokens f), f r.patternClosing, f r.arrow,
    r.target.mapTokens f⟩

def Item.mapTokens (f : Token → Token) : Item → Item
  | .node n => .node (n.mapTokens f)
  | .definition d => .definition (d.mapTokens f)

section

variable (f : Token → Token)

theorem Node.mapTokensAll_eq (ns : List Node) :
    Node.mapTokensAll f ns = ns.map (Node.mapTokens f) := by
  induction ns with
  | nil => rfl
  | cons n ns ih => rw [Node.mapTokensAll, ih, List.map_cons]

theorem Argument.mapTokensAll_eq (as : List Argument) :
    Argument.mapTokensAll f as = as.map (Argument.mapTokens f) := by
  induction as with
  | nil => rfl
  | cons a as ih => rw [Argument.mapTokensAll, ih, List.map_cons]

theorem RewriteRule.mapTokensAll_eq (rules : List RewriteRule) :
    RewriteRule.mapTokensAll f rules = rules.map (RewriteRule.mapTokens f) := by
  induction rules with
  | nil => rfl
  | cons r rules ih =>
    obtain ⟨pattern, arrow, target⟩ := r
    rw [List.map_cons, ← ih]
    rfl

theorem Clause.mapTokensOption_eq (clause : Option Clause) :
    Clause.mapTokensOption f clause = clause.map (Clause.mapTokens f) := by
  cases clause with
  | none => rfl
  | some c =>
    obtain ⟨keyword, opening, rules, closing⟩ := c
    rw [Clause.mapTokensOption, RewriteRule.mapTokensAll_eq]
    rfl

theorem Block.mapTokens_mk (opening : Token) (children : List Node) (closing : Option Token) :
    Block.mapTokens f ⟨opening, children, closing⟩ =
      ⟨f opening, children.map (Node.mapTokens f), closing.map f⟩ := by
  rw [Block.mapTokens, Node.mapTokensAll_eq]

theorem Command.mapTokens_mk (ident : Token) (arguments : List Argument) (clause : Option Clause) :
    Command.mapTokens f ⟨ident, arguments, clause⟩ =
      ⟨f ident, arguments.map (Argument.mapTokens f), clause.map (Clause.mapTokens f)⟩ := by
  rw [Command.mapTokens, Argument.mapTokensAll_eq, Clause.mapTokensOption_eq]

theorem DefinitionRule.mapTokensAll_eq (rules : List DefinitionRule) :
    DefinitionRule.mapTokensAll f rules = rules.map (DefinitionRule.mapTokens f) := by
  induction rules with
  | nil => rfl
  | cons r rules ih =>
    obtain ⟨patternOpening, binders, patternClosing, arrow, target⟩ := r
    rw [List.map_cons, ← ih]
    rfl

theorem Definition.mapTokens_eq (d : Definition) :
    d.mapTokens f = ⟨f d.keyword, f d.headerOpening, f d.ident, f d.headerClosing,
      f d.bodyOpening, d.rules.map (DefinitionRule.mapTokens f), f d.bodyClosing⟩ := by
  obtain ⟨keyword, headerOpening, ident, headerClosing, bodyOpening, rules, bodyClosing⟩ := d
  rw [← DefinitionRule.mapTokensAll_eq]
  rfl

end

/-! What is asked of a token depends on its text alone. -/

/-- The function keeps the texts of tokens. -/
def KeepsTexts (f : Token → Token) : Prop := ∀ t, (f t).text = t.text

namespace KeepsTexts

variable {f : Token → Token} (hf : KeepsTexts f)

include hf

theorem opens? (t : Token) : (f t).opens? = t.opens? := by rw [Token.opens?, hf, Token.opens?]

theorem closes? (t : Token) : (f t).closes? = t.closes? := by
  rw [Token.closes?, hf, Token.closes?]

theorem isOpening (t : Token) : (f t).isOpening = t.isOpening := by
  rw [Token.isOpening, hf.opens?, Token.isOpening]

theorem isClosing (t : Token) : (f t).isClosing = t.isClosing := by
  rw [Token.isClosing, hf.closes?, Token.isClosing]

theorem pairsWith (t u : Token) : (f t).pairsWith (f u) = t.pairsWith u := by
  rw [Token.pairsWith, hf.isOpening, hf.opens?, hf.closes?, Token.pairsWith]

theorem isIdentifier (t : Token) : (f t).isIdentifier = t.isIdentifier := by
  rw [Token.isIdentifier, hf, Token.isIdentifier]

theorem isVariable (t : Token) : (f t).isVariable = t.isVariable := by
  rw [Token.isVariable, hf, Token.isVariable]

theorem isBlank (t : Token) : (f t).isBlank = t.isBlank := by
  rw [Token.isBlank, hf, Token.isBlank]

theorem hasNewline (t : Token) : (f t).hasNewline = t.hasNewline := by
  rw [Token.hasNewline, hf, Token.hasNewline]

theorem isScriptOperator (t : Token) : (f t).isScriptOperator = t.isScriptOperator := by
  rw [Token.isScriptOperator, hf, Token.isScriptOperator]

end KeepsTexts

/-! Productions commute with the function. -/

namespace Production

variable {α β : Type}

/-- Reading from mapped tokens gives what is read from the tokens, mapped. -/
def Natural (f : Token → Token) (g : α → α) (p : Production α) : Prop :=
  ∀ ts, p (ts.map f) = (p ts).map (Prod.map g (List.map f))

variable {f : Token → Token} {g : α → α} {p q : Production α}

theorem Natural.orElse (hp : Natural f g p) (hq : Natural f g q) : Natural f g (p.orElse q) := by
  intro ts
  rw [Production.orElse, hp, hq, Production.orElse]
  cases p ts <;> rfl

theorem Natural.map {g' : β → β} (hp : Natural f g p) (h : α → β)
    (hg : ∀ a, h (g a) = g' (h a)) : Natural f g' (p.map h) := by
  intro ts
  rw [Production.map, hp, Production.map]
  cases p ts with
  | none => rfl
  | some x => simp [Prod.map, hg]

theorem Natural.token {test : Token → Bool} (htest : ∀ t, test (f t) = test t) :
    Natural f f (token test) := by
  intro ts
  cases ts with
  | nil => rfl
  | cons t ts =>
    rw [List.map_cons, Production.token, Production.token, htest]
    split <;> rfl

theorem Natural.many (hp : Natural f g p) (hc : p.Consuming) (ts : List Token) :
    many p hc (ts.map f) = Prod.map (List.map g) (List.map f) (many p hc ts) := by
  fun_induction Production.many p hc ts with
  | case1 ts hnone =>
    rw [many_of_eq_none hc (by rw [hp, hnone]; rfl)]
    rfl
  | case2 ts a rest hmatch _ as last heq ih =>
    have hmapped : p (ts.map f) = some (g a, rest.map f) := by
      rw [hp, hmatch]
      rfl
    rw [many_of_eq_some hc hmapped, ih, heq]
    rfl

theorem Natural.readerMany {r : Reader α} (hr : Natural f g r.production) (ts : List Token) :
    r.many (ts.map f) = Prod.map (List.map g) (List.map f) (r.many ts) :=
  hr.many r.consuming ts

end Production

namespace Grammar

open Production

variable {f : Token → Token}

/-! Views of nodes, and the rules among nodes. -/

section Rules

variable (hf : KeepsTexts f)

theorem token?_mapTokens (n : Node) : (n.mapTokens f).token? = n.token?.map f := by
  cases n <;> rfl

theorem block?_mapTokens (n : Node) :
    (n.mapTokens f).block? = n.block?.map (Block.mapTokens f) := by
  cases n <;> rfl

theorem rules_cons (pattern middle target : Node) (rest : List Node) :
    rules (pattern :: middle :: target :: rest) =
      (middle.arrow?.map fun arrow => ⟨pattern, arrow, target⟩).toList ++
        rules (middle :: target :: rest) := by
  rw [rules]
  cases middle.arrow? <;> rfl

theorem opening_mapTokens (b : Block) : (b.mapTokens f).opening = f b.opening := by
  cases b
  rfl

theorem closing_mapTokens (b : Block) : (b.mapTokens f).closing = b.closing.map f := by
  cases b
  rfl

theorem onlyToken?_mapTokens (b : Block) : (b.mapTokens f).onlyToken? = b.onlyToken?.map f := by
  obtain ⟨opening, children, closing⟩ := b
  rw [Block.mapTokens_mk]
  rcases children with _ | ⟨n, _ | ⟨_, _⟩⟩
  · rfl
  · exact token?_mapTokens n
  · rfl

include hf

theorem isBlank_mapTokens (n : Node) : (n.mapTokens f).isBlank = n.isBlank := by
  rw [Node.isBlank, token?_mapTokens, Node.isBlank]
  cases n.token? with
  | none => rfl
  | some t => exact hf.isBlank t

theorem nonBlank_mapTokens (ns : List Node) :
    Node.nonBlank (ns.map (Node.mapTokens f)) = (Node.nonBlank ns).map (Node.mapTokens f) := by
  have htest : (fun n : Node => !n.isBlank) ∘ Node.mapTokens f = fun n => !n.isBlank := by
    funext n
    simp [isBlank_mapTokens hf]
  rw [Node.nonBlank, List.filter_map, htest, Node.nonBlank]

theorem arrow?_mapTokens (n : Node) : (n.mapTokens f).arrow? = n.arrow?.map f := by
  rw [Node.arrow?, token?_mapTokens, Node.arrow?]
  cases n.token? with
  | none => rfl
  | some t =>
    by_cases harrow : t.text == Token.arrow <;> simp [Option.filter, hf t, harrow]

theorem rules_mapTokens (ns : List Node) :
    rules (ns.map (Node.mapTokens f)) = (rules ns).map (RewriteRule.mapTokens f) := by
  induction ns with
  | nil => rfl
  | cons pattern ns ih =>
    rcases ns with _ | ⟨middle, _ | ⟨target, rest⟩⟩
    · rfl
    · rfl
    · simp only [List.map_cons] at ih ⊢
      rw [rules_cons, rules_cons, ih, arrow?_mapTokens hf]
      cases middle.arrow? <;> rfl

theorem kind?_mapTokens (b : Block) : (b.mapTokens f).kind? = b.kind? := by
  obtain ⟨opening, children, closing⟩ := b
  cases closing with
  | none => rfl
  | some closing => simp [Block.mapTokens_mk, Block.kind?, hf.pairsWith, hf.opens?]

theorem isKind_mapTokens (b : Block) (kind : Enclosure) :
    (b.mapTokens f).isKind kind = b.isKind kind := by
  rw [Block.isKind, kind?_mapTokens hf, Block.isKind]

theorem binder?_mapTokens (n : Node) :
    binder? (n.mapTokens f) = (binder? n).map (Binder.mapTokens f) := by
  rw [binder?, block?_mapTokens, binder?]
  cases n.block? with
  | none => rfl
  | some b =>
    simp only [Option.bind_eq_bind, Option.map_some, Option.bind_some, kind?_mapTokens hf,
      onlyToken?_mapTokens, closing_mapTokens]
    cases b.kind? with
    | none => rfl
    | some kind =>
      cases b.onlyToken? with
      | none => rfl
      | some name =>
        cases b.closing with
        | none => rfl
        | some closing =>
          simp only [Option.bind_some, Option.map_some, hf.isVariable]
          split
          · rw [opening_mapTokens]
            rfl
          · rfl

theorem definitionRule?_mapTokens (r : RewriteRule) :
    definitionRule? (r.mapTokens f) = (definitionRule? r).map (DefinitionRule.mapTokens f) := by
  have hbinders : ∀ ns : List Node, (Node.nonBlank (ns.map (Node.mapTokens f))).filterMap binder? =
      ((Node.nonBlank ns).filterMap binder?).map (Binder.mapTokens f) := by
    intro ns
    have hbinder : binder? ∘ Node.mapTokens f = fun n => (binder? n).map (Binder.mapTokens f) :=
      funext (binder?_mapTokens hf)
    rw [nonBlank_mapTokens hf, List.filterMap_map, hbinder, List.map_filterMap]
  have hchildren : ∀ b : Block, (b.mapTokens f).children = b.children.map (Node.mapTokens f) := by
    intro b
    obtain ⟨opening, children, closing⟩ := b
    rw [Block.mapTokens_mk]
  rw [definitionRule?, RewriteRule.mapTokens, block?_mapTokens, block?_mapTokens, definitionRule?]
  cases r.pattern.block? with
  | none => rfl
  | some pattern =>
    cases r.target.block? with
    | none => rfl
    | some target =>
      simp only [Option.bind_eq_bind, Option.map_some, Option.bind_some, isKind_mapTokens hf,
        closing_mapTokens, opening_mapTokens, hchildren, hbinders]
      cases pattern.closing with
      | none => rfl
      | some closing =>
        simp only [Option.map_some, Option.bind_some]
        split <;> rfl

end Rules

/-! Each production, given the reader inside it. -/

theorem natural_quoted (hf : KeepsTexts f) (closing : String) (ts : List Token) :
    quoted closing (ts.map f) = (quoted closing ts).map
      (Prod.map (Prod.map (List.map f) (Option.map f)) (List.map f)) := by
  induction ts with
  | nil => rfl
  | cons t ts ih =>
    rw [List.map_cons, quoted, quoted, hf t, hf.hasNewline]
    split
    · rfl
    · split
      · rfl
      · rw [ih]
        cases quoted closing ts <;> rfl

theorem natural_quotation (hf : KeepsTexts f) :
    Natural f (Quotation.mapTokens f) quotation := by
  intro ts
  cases ts with
  | nil => rfl
  | cons opening ts =>
    rw [List.map_cons, quotation, quotation, hf]
    cases closingQuote? opening.text with
    | none => rfl
    | some closing =>
      simp only [Option.bind_eq_bind, Option.bind_some, natural_quoted hf]
      cases quoted closing ts <;> rfl

section Layer

variable {inner : Reader Node} (hf : KeepsTexts f)
  (hinner : Natural f (Node.mapTokens f) inner.production)

include hf hinner

theorem natural_block : Natural f (Block.mapTokens f) (block inner) := by
  intro ts
  cases ts with
  | nil => rfl
  | cons opening ts =>
    rw [List.map_cons, block, block, hf.isOpening, hinner.readerMany]
    split
    · obtain ⟨children, last⟩ := inner.many ts
      cases last with
      | nil => simp [Prod.map, Block.mapTokens_mk]
      | cons closing rest =>
        simp only [Prod.map, List.map_cons, hf.pairsWith]
        split <;> simp [Block.mapTokens_mk]
    · rfl

theorem natural_enclosed (kind : Enclosure) :
    Natural f (Prod.map f (Prod.map (List.map (Node.mapTokens f)) f)) (enclosed inner kind) := by
  intro ts
  cases ts with
  | nil => rfl
  | cons first ts =>
    have hany : (ts.map f).any (·.closes? == some kind) = ts.any (·.closes? == some kind) := by
      rw [List.any_map]
      congr 1
      funext t
      simp [hf.closes?]
    have hblock := natural_block hf hinner (first :: ts)
    rw [List.map_cons] at hblock
    rw [List.map_cons, enclosed, enclosed, hf.opens?, hany, hblock]
    split
    · cases block inner (first :: ts) with
      | none => rfl
      | some x =>
        obtain ⟨⟨opening, children, closing⟩, rest⟩ := x
        cases closing <;> simp [Prod.map, Block.mapTokens_mk]
    · rfl

theorem natural_script : Natural f (Argument.mapTokens f) (script inner) := by
  intro ts
  cases ts with
  | nil => rfl
  | cons operator ts =>
    rw [List.map_cons, script, script, hf.isScriptOperator, hinner]
    split
    · cases inner.production ts <;> rfl
    · rfl

theorem natural_argument : Natural f (Argument.mapTokens f) (argument inner) :=
  (natural_script hf hinner).orElse ((natural_block hf hinner).map Argument.block fun _ => rfl)

theorem natural_clause : Natural f (Clause.mapTokens f) (clause inner) := by
  intro ts
  cases ts with
  | nil => rfl
  | cons keyword ts =>
    rw [List.map_cons, clause, clause, hf keyword, natural_enclosed hf hinner]
    split
    · cases enclosed inner .brace ts with
      | none => rfl
      | some x => simp [Prod.map, Clause.mapTokens, nonBlank_mapTokens hf, rules_mapTokens hf]
    · rfl

theorem natural_command : Natural f (Command.mapTokens f) (command inner) := by
  intro ts
  cases ts with
  | nil => rfl
  | cons ident ts =>
    have harguments : Natural f (Argument.mapTokens f) (argumentReader inner).production :=
      natural_argument hf hinner
    rw [List.map_cons, command, command, hf.isIdentifier, hf ident, harguments.readerMany]
    split
    · obtain ⟨arguments, rest⟩ := (argumentReader inner).many ts
      simp only [Prod.map, natural_clause hf hinner rest]
      cases clause inner rest with
      | none => simp [Command.mapTokens_mk]
      | some x => simp [Command.mapTokens_mk]
    · rfl

theorem natural_construct : Natural f (Node.mapTokens f) (construct inner) :=
  ((natural_quotation hf).map Node.quotation fun _ => rfl).orElse
    (((natural_command hf hinner).map Node.command fun _ => rfl).orElse
      ((natural_block hf hinner).map Node.block fun _ => rfl))

theorem natural_innerNode : Natural f (Node.mapTokens f) (innerNode inner) := by
  refine (natural_construct hf hinner).orElse ((Natural.token ?_).map Node.text fun _ => rfl)
  simp [hf.isClosing]

theorem natural_outerNode : Natural f (Node.mapTokens f) (outerNode inner) := by
  refine (natural_construct hf hinner).orElse (Natural.map (Natural.token ?_) _ fun t => ?_)
  · exact fun _ => rfl
  · simp only [hf.isClosing]
    split <;> rfl

theorem natural_definition : Natural f (Definition.mapTokens f) (definition inner) := by
  intro ts
  cases ts with
  | nil => rfl
  | cons keyword ts =>
    have hrules : ∀ rs : List RewriteRule,
        (rs.map (RewriteRule.mapTokens f)).filterMap definitionRule? =
          (rs.filterMap definitionRule?).map (DefinitionRule.mapTokens f) := by
      intro rs
      have hrule : definitionRule? ∘ RewriteRule.mapTokens f =
          fun r => (definitionRule? r).map (DefinitionRule.mapTokens f) :=
        funext (definitionRule?_mapTokens hf)
      rw [List.filterMap_map, hrule, List.map_filterMap]
    rw [List.map_cons, definition, definition, hf keyword]
    split
    · rw [natural_enclosed hf hinner]
      cases enclosed inner .bracket ts with
      | none => rfl
      | some x =>
        obtain ⟨⟨headerOpening, header, headerClosing⟩, mid⟩ := x
        simp only [Option.bind_eq_bind, Option.map_some, Option.bind_some, Prod.map]
        cases header with
        | nil => rfl
        | cons n others =>
          cases others with
          | cons _ _ => simp
          | nil =>
            cases n with
            | text _ => rfl
            | quotation _ => rfl
            | misplaced _ => rfl
            | block _ => rfl
            | definition _ => rfl
            | command defined =>
              obtain ⟨ident, arguments, clause⟩ := defined
              simp only [List.map_cons, List.map_nil, Node.mapTokens, Command.mapTokens,
                natural_enclosed hf hinner .brace mid]
              cases enclosed inner .brace mid with
              | none => rfl
              | some y => simp [Prod.map, Definition.mapTokens_eq, nonBlank_mapTokens hf,
                  rules_mapTokens hf, hrules]
    · rfl

theorem natural_item (definitions : Bool) :
    Natural f (Item.mapTokens f) (item definitions inner) := by
  have hnode : Natural f (Item.mapTokens f) ((outerNode inner).map .node) :=
    (natural_outerNode hf hinner).map Item.node fun _ => rfl
  unfold item
  split
  · exact ((natural_definition hf hinner).map Item.definition fun _ => rfl).orElse hnode
  · exact hnode

end Layer

theorem natural_leafNode (hf : KeepsTexts f) : Natural f (Node.mapTokens f) leafNode := by
  refine ((natural_quotation hf).map Node.quotation fun _ => rfl).orElse
    (Natural.map (Natural.token ?_) _ fun t => ?_)
  · simp [hf.isClosing]
  · simp only [hf.isOpening, hf.isIdentifier]
    split <;> rfl

theorem natural_nodeWithin (hf : KeepsTexts f) (levels : Nat) :
    Natural f (Node.mapTokens f) (nodeWithin levels).production := by
  induction levels with
  | zero => exact natural_leafNode hf
  | succ levels ih => exact natural_innerNode hf ih

end Grammar

/-- Reading commutes with a function that keeps the texts of tokens. -/
theorem Document.ofTokens_map {f : Token → Token} (hf : KeepsTexts f) (definitions : Bool)
    (ts : List Token) :
    ofTokens definitions (ts.map f) = (ofTokens definitions ts).map (Item.mapTokens f) := by
  have hitem := Grammar.natural_item hf (Grammar.natural_nodeWithin hf (Grammar.maxNesting - 1))
    definitions
  have hreader : Production.Natural f (Item.mapTokens f)
      (Grammar.itemReader definitions).production := hitem
  exact congrArg Prod.fst (hreader.readerMany ts)

end AcademicMarkup
