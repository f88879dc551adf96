import AcademicMarkup.Proofs.BracketMatching
import AcademicMarkup.Proofs.DefinitionRules
import AcademicMarkup.Proofs.QuotationEnds

/-!
Blocks without their close. Such a block has stopped at the end of the tokens or at a bracket that
closes another kind. No node and no argument begins with a closing bracket, so nothing can follow
the block, nor what ends with it, in a block, among arguments or before a clause. Only between the
items of a document something can: the bracket itself, misplaced.
-/
namespace AcademicMarkup

open Production Grammar

/-! The blocks that are open where a construct ends. -/

mutual

/-- The blocks without their close that end where the node does, from the outside in. -/
def Node.openBlocks : Node → List Block
  | .text _ => []
  | .quotation _ => []
  | .misplaced _ => []
  | .command c => c.openBlocks
  | .block b => b.openBlocks
  | .definition _ => []

def Block.openBlocks : Block → List Block
  | ⟨_, _, some _⟩ => []
  | ⟨opening, children, none⟩ => ⟨opening, children, none⟩ :: Node.lastOpenBlocks children

def Command.openBlocks : Command → List Block
  | ⟨_, _, some _⟩ => []
  | ⟨_, arguments, none⟩ => Argument.lastOpenBlocks arguments

def Argument.openBlocks : Argument → List Block
  | .block b => b.openBlocks
  | .script _ operand => operand.openBlocks

/-- Those of the last node. -/
def Node.lastOpenBlocks : List Node → List Block
  | [] => []
  | [n] => n.openBlocks
  | _ :: n :: ns => Node.lastOpenBlocks (n :: ns)

/-- Those of the last argument. -/
def Argument.lastOpenBlocks : List Argument → List Block
  | [] => []
  | [a] => a.openBlocks
  | _ :: a :: as => Argument.lastOpenBlocks (a :: as)

end

def Item.openBlocks : Item → List Block
  | .node n => n.openBlocks
  | .definition _ => []

theorem Node.mem_lastOpenBlocks {b : Block} {ns : List Node} :
    b ∈ Node.lastOpenBlocks ns ↔ ∃ n ∈ ns.getLast?, b ∈ n.openBlocks := by
  induction ns with
  | nil => simp [Node.lastOpenBlocks]
  | cons n ns ih =>
    cases ns with
    | nil => simp [Node.lastOpenBlocks]
    | cons m ns => rw [Node.lastOpenBlocks, ih, List.getLast?_cons_cons]

theorem Argument.mem_lastOpenBlocks {b : Block} {as : List Argument} :
    b ∈ Argument.lastOpenBlocks as ↔ ∃ a ∈ as.getLast?, b ∈ a.openBlocks := by
  induction as with
  | nil => simp [Argument.lastOpenBlocks]
  | cons a as ih =>
    cases as with
    | nil => simp [Argument.lastOpenBlocks]
    | cons a' as => rw [Argument.lastOpenBlocks, ih, List.getLast?_cons_cons]

theorem Block.openBlocks_eq_nil {b : Block} (h : b.closing.isSome) : b.openBlocks = [] := by
  obtain ⟨opening, children, _ | closing⟩ := b
  · simp at h
  · rfl

theorem Block.mem_openBlocks_self {b : Block} (h : b.closing = none) : b ∈ b.openBlocks := by
  obtain ⟨opening, children, closing⟩ := b
  obtain rfl : closing = none := h
  exact List.mem_cons_self

theorem lastToken_cases : TreeCases
    (fun n => ∀ b ∈ n.openBlocks, b.lastToken = n.lastToken)
    (fun b => ∀ b' ∈ b.openBlocks, b'.lastToken = b.lastToken)
    (fun a => ∀ b ∈ a.openBlocks, b.lastToken = a.lastToken) where
  text _ := by simp [Node.openBlocks]
  quotation _ := by simp [Node.openBlocks]
  misplaced _ := by simp [Node.openBlocks]
  definition _ := by simp [Node.openBlocks]
  command ident arguments clause ih := by
    intro b hb
    cases clause with
    | some c => simp [Node.openBlocks, Command.openBlocks] at hb
    | none =>
      obtain ⟨a, ha, hb⟩ := Argument.mem_lastOpenBlocks.mp hb
      rw [ih a (List.mem_of_getLast? ha) b hb, Node.lastToken, Command.lastToken,
        Argument.lastTokenOr_eq, ha]
      rfl
  block _ ih := ih
  children opening children closing ih := by
    intro b hb
    cases closing with
    | some c => simp [Block.openBlocks] at hb
    | none =>
      rw [Block.openBlocks] at hb
      rcases List.mem_cons.mp hb with rfl | hb
      · rfl
      · obtain ⟨n, hn, hb⟩ := Node.mem_lastOpenBlocks.mp hb
        rw [ih n (List.mem_of_getLast? hn) b hb, Block.lastToken, Node.lastTokenOr_eq, hn]
        rfl
  argument _ ih := ih
  script _ _ ih := ih

/-- A block that is open where an item ends has its last token there. -/
theorem Item.lastToken_of_mem_openBlocks {i : Item} {b : Block} (h : b ∈ i.openBlocks) :
    b.lastToken = i.lastToken := by
  cases i with
  | node n => exact lastToken_cases.node n b h
  | definition d => simp [Item.openBlocks] at h

/-! Where an open block has stopped. -/

/-- The tokens end, or a bracket follows that closes another kind than the block opens. -/
def Block.StopsBefore (b : Block) (rest : List Token) : Prop :=
  ∀ t ∈ rest.head?, t.isClosing ∧ t.closes? ≠ b.opening.opens?

/-- What is read does not begin with a closing bracket, and what is open at its end has stopped at
the rest. -/
structure EdgeRead {α : Type} (first last : α → Token) (opens : α → List Block) (a : α)
    (ts rest : List Token) : Prop where
  takes : Takes first last a ts rest
  begins : ¬ (first a).isClosing
  stops : ∀ b ∈ opens a, b.StopsBefore rest

namespace EdgeRead

variable {α : Type} {first last : α → Token} {opens : α → List Block} {as : List α}
  {ts rest : List Token}

/-- Before a token that is no closing bracket nothing is open. -/
theorem openBlocks_eq_nil (h : Chain (EdgeRead first last opens) as ts rest)
    (hrest : ∃ t ∈ rest.head?, ¬ t.isClosing) :
    (∀ a ∈ as, opens a = []) ∧ ∃ t ∈ ts.head?, ¬ t.isClosing := by
  induction h with
  | nil ts => exact ⟨by simp, hrest⟩
  | cons hfirst _ ih =>
    obtain ⟨hclosed, t, ht, hclosing⟩ := ih hrest
    refine ⟨List.forall_mem_cons.mpr ⟨?_, hclosed⟩, ?_⟩
    · refine List.eq_nil_iff_forall_not_mem.mpr fun b hb => hclosing ?_
      exact (hfirst.stops b hb t ht).1
    · obtain ⟨_, rfl, -⟩ := hfirst.takes
      exact ⟨_, rfl, hfirst.begins⟩

/-- Only the last can be open at its end. -/
theorem openBlocks_dropLast (h : Chain (EdgeRead first last opens) as ts rest) :
    ∀ a ∈ as.dropLast, opens a = [] := by
  rcases List.eq_nil_or_concat as with rfl | ⟨init, a, rfl⟩
  · simp
  · rw [List.concat_eq_append] at h ⊢
    rw [List.dropLast_concat]
    obtain ⟨mid, hinit, hlast⟩ := h.exists_of_append
    cases hlast with
    | cons hfirst _ =>
      obtain ⟨_, rfl, -⟩ := hfirst.takes
      exact (openBlocks_eq_nil hinit ⟨_, rfl, hfirst.begins⟩).1

theorem stops_getLast? (h : Chain (EdgeRead first last opens) as ts rest) :
    ∀ a ∈ as.getLast?, ∀ b ∈ opens a, b.StopsBefore rest := by
  intro a ha
  rw [← List.dropLast_append_getLast? a ha] at h
  obtain ⟨mid, -, hlast⟩ := h.exists_of_append
  cases hlast with
  | cons hfirst hnil =>
    cases hnil with
    | nil => exact hfirst.stops

end EdgeRead

/-- What is known of a node inside another. -/
abbrev NodeEdge : Node → List Token → List Token → Prop :=
  EdgeRead Node.firstToken Node.lastToken Node.openBlocks

/-! One layer of the grammar keeps it. -/

theorem Token.not_isClosing_of_closingQuote? {t : Token} {quote : String}
    (h : closingQuote? t.text = some quote) : ¬ t.isClosing :=
  (notBracket_of_test (fun text => (closingQuote? text).isSome) (by decide) (by simp [h])).2

section Layer

variable {ts rest : List Token}

theorem edge_text {t : Token} (h : ¬ t.isClosing) : NodeEdge (.text t) (t :: rest) rest :=
  ⟨takes_text, h, by simp [Node.openBlocks]⟩

theorem edge_misplaced {t : Token} (h : ¬ t.isClosing) :
    NodeEdge (.misplaced t) (t :: rest) rest :=
  ⟨takes_misplaced, h, by simp [Node.openBlocks]⟩

theorem edge_quotation {q : Quotation} (hq : quotation ts = some (q, rest)) :
    NodeEdge (.quotation q) ts rest := by
  obtain ⟨quote, hquote, -⟩ := quotation_stopsFirst hq
  exact ⟨takes_quotation hq, Token.not_isClosing_of_closingQuote? hquote,
    by simp [Node.openBlocks]⟩

theorem edge_block {b : Block} (hb : BlockRead NodeEdge b ts rest) :
    EdgeRead Block.opening Block.lastToken Block.openBlocks b ts rest := by
  have htakes := takes_block (hb.mono fun hn => hn.takes)
  cases hb with
  | closed hopening _ _ =>
    refine ⟨htakes, fun hclosing => Token.not_isOpening_of_isClosing hclosing hopening, ?_⟩
    simp [Block.openBlocks]
  | @unclosed opening children _ _ hopening hchain hrest =>
    refine ⟨htakes, fun hclosing => Token.not_isOpening_of_isClosing hclosing hopening, ?_⟩
    intro b hb
    rw [Block.openBlocks] at hb
    rcases List.mem_cons.mp hb with rfl | hb
    · intro t ht
      obtain ⟨hclosing, hpairs⟩ := hrest t ht
      refine ⟨hclosing, fun hkind => hpairs ?_⟩
      simp [Token.pairsWith, hopening, hkind]
    · obtain ⟨n, hn, hb⟩ := Node.mem_lastOpenBlocks.mp hb
      exact EdgeRead.stops_getLast? hchain n hn b hb

theorem edge_argument {a : Argument} (ha : ArgumentRead NodeEdge a ts rest) :
    EdgeRead Argument.firstToken Argument.lastToken Argument.openBlocks a ts rest := by
  have htakes := takes_argument (ha.mono fun hn => hn.takes)
  cases ha with
  | block hb => exact ⟨htakes, (edge_block hb).begins, (edge_block hb).stops⟩
  | script hoperator hoperand =>
    exact ⟨htakes, (Token.notBracket_of_isScriptOperator hoperator).2, hoperand.stops⟩

theorem edge_command {c : Command} (hc : CommandRead NodeEdge c ts rest) :
    EdgeRead Command.ident Command.lastToken Command.openBlocks c ts rest := by
  have htakes := takes_command (hc.mono fun hn => hn.takes)
  cases hc with
  | plain hident _ hchain =>
    refine ⟨htakes, (Token.notBracket_of_isIdentifier hident).2, fun b hb => ?_⟩
    obtain ⟨a, ha, hb⟩ := Argument.mem_lastOpenBlocks.mp hb
    exact EdgeRead.stops_getLast? (hchain.mono edge_argument) a ha b hb
  | withClause hident _ _ _ =>
    refine ⟨htakes, (Token.notBracket_of_isIdentifier hident).2, ?_⟩
    simp [Command.openBlocks]

theorem edge_construct {n : Node} (hn : ConstructRead NodeEdge n ts rest) :
    NodeEdge n ts rest := by
  cases hn with
  | quotation hq => exact edge_quotation hq
  | command hc =>
    obtain ⟨htakes, hbegins, hstops⟩ := edge_command hc
    exact ⟨htakes, hbegins, hstops⟩
  | block hb =>
    obtain ⟨htakes, hbegins, hstops⟩ := edge_block hb
    exact ⟨htakes, hbegins, hstops⟩

end Layer

theorem nodeWithin_edge (levels : Nat) : (nodeWithin levels).production.Ensures NodeEdge := by
  refine nodeWithin_ensures (R := fun _ => NodeEdge) ?_ ?_ levels
  · intro n ts rest h
    cases h with
    | quotation hq => exact edge_quotation hq
    | text _ _ _ hclosing => exact edge_text hclosing
    | misplaced _ _ hclosing => exact edge_misplaced hclosing
  · intro levels n ts rest h
    cases h with
    | construct hn => exact edge_construct hn
    | text _ hclosing => exact edge_text hclosing

theorem readAs_edge : ReadAs NodeEdge := ⟨nodeWithin_edge, fun h => h.takes⟩

/-! Only the last part of a construct is open at its end. -/

theorem dropLast_sublist_dropLast {α : Type} {xs ys : List α} (h : xs.Sublist ys) :
    xs.dropLast.Sublist ys.dropLast := by
  have htail := h.reverse.tail
  rwa [List.tail_reverse, List.tail_reverse, List.reverse_sublist] at htail

/-- Between brackets that close nothing but the last node is open at its end. -/
theorem children_dropLast {b : Block} {ts rest : List Token} (hb : BlockRead NodeEdge b ts rest) :
    ∀ n ∈ b.children.dropLast, n.openBlocks = [] := by
  cases hb with
  | closed _ _ hchain => exact EdgeRead.openBlocks_dropLast hchain
  | unclosed _ hchain _ => exact EdgeRead.openBlocks_dropLast hchain

/-- A pattern is not the last node between its braces, and neither is a target before the last. -/
theorem rules_dropLast {ns : List Node} (h : ∀ n ∈ ns.dropLast, n.openBlocks = []) :
    (∀ r ∈ rules (Node.nonBlank ns), r.pattern.openBlocks = []) ∧
      ∀ r ∈ (rules (Node.nonBlank ns)).dropLast, r.target.openBlocks = [] := by
  constructor
  · intro r hr
    have hsub := dropLast_sublist_dropLast
      ((sublist_of_mem_rules hr).trans List.filter_sublist)
    exact h _ (hsub.subset (by simp))
  · intro r hr
    have hsub := dropLast_sublist_dropLast ((targets_sublist (Node.nonBlank ns)).trans
      ((List.drop_sublist 2 _).trans List.filter_sublist))
    rw [← List.map_dropLast] at hsub
    exact h _ (hsub.subset (List.mem_map_of_mem hr))

/-- The rules of a definition are closed on both sides. -/
def Definition.RulesClosed (d : Definition) : Prop :=
  ∀ r ∈ d.rules, r.patternOpening.pairsWith r.patternClosing ∧ r.target.openBlocks = []

theorem definition_rulesClosed {S : Node → List Token → List Token → Prop} {d : Definition}
    {ts rest : List Token} (hd : DefinitionRead S d ts rest) : d.RulesClosed := by
  cases hd with
  | intro _ _ _ _ _ =>
    intro d hd
    obtain ⟨r, -, hrule⟩ := List.mem_filterMap.mp hd
    obtain ⟨children, -, hbracket, -, -, -, hbrace⟩ := parts_of_definitionRule? hrule
    obtain ⟨_, hclosing, hpairs, -⟩ := Block.brackets_of_isKind hbracket
    obtain rfl := Option.some.inj hclosing
    obtain ⟨closing, hclosing, -⟩ := Block.brackets_of_isKind hbrace
    exact ⟨hpairs, Block.openBlocks_eq_nil (by simp [hclosing])⟩

/-- Nothing follows what ends with an open block in the list that holds it, no clause follows it,
and it is no pattern. A block without its close has stopped at a place of all the tokens. -/
def Subject.OpenAtEnd (all : List Token) : Subject → Prop
  | .block b => (∀ n ∈ b.children.dropLast, n.openBlocks = []) ∧
      (b.closing = none → ∃ rest, b.lastToken :: rest <:+ all ∧ b.StopsBefore rest)
  | .command c => (∀ a ∈ c.arguments.dropLast, a.openBlocks = []) ∧
      (c.clause.isSome → ∀ a ∈ c.arguments, a.openBlocks = [])
  | .clause c => (∀ r ∈ c.rules, r.pattern.openBlocks = []) ∧
      ∀ r ∈ c.rules.dropLast, r.target.openBlocks = []
  | .definition d => d.RulesClosed
  | _ => True

theorem openAtEnd_cases (all : List Token) :
    PlaceCases NodeEdge all (Subject.OpenAtEnd all) where
  node _ := trivial
  text _ _ _ := trivial
  quotation _ _ := trivial
  misplaced _ _ := trivial
  block hts hb := by
    have hedge := edge_block hb
    refine ⟨children_dropLast hb, fun hclosing => ?_⟩
    exact ⟨_, hedge.takes.last_suffix.trans hts, hedge.stops _ (Block.mem_openBlocks_self hclosing)⟩
  command _ hc := by
    cases hc with
    | plain _ _ hchain =>
      exact ⟨EdgeRead.openBlocks_dropLast (hchain.mono edge_argument), by simp⟩
    | withClause _ _ hchain hclause =>
      have hedges := hchain.mono edge_argument
      refine ⟨EdgeRead.openBlocks_dropLast hedges, fun _ => ?_⟩
      cases hclause with
      | @intro keyword _ _ _ _ _ hkeyword _ _ =>
        have hident : keyword.isIdentifier := by
          simp [Token.isIdentifier, hkeyword, Token.clauseKeyword]
        exact (EdgeRead.openBlocks_eq_nil hedges
          ⟨keyword, rfl, (Token.notBracket_of_isIdentifier hident).2⟩).1
  script _ _ _ := trivial
  clause _ hc := by
    cases hc with
    | intro _ _ hb => exact rules_dropLast (children_dropLast hb)
  definition _ hd := definition_rulesClosed hd

/-! The items of a document. -/

section Items

variable {definitions : Bool} {i : Item} {ts rest : List Token}

theorem item_stops (hi : ItemRead definitions NodeEdge i ts rest) :
    ∀ b ∈ i.openBlocks, b.StopsBefore rest := by
  cases hi with
  | definition _ _ => simp [Item.openBlocks]
  | node hn =>
    cases hn with
    | construct hn => exact (edge_construct hn).stops
    | text _ _ => simp [Item.openBlocks, Node.openBlocks]
    | misplaced _ _ => simp [Item.openBlocks, Node.openBlocks]

/-- An item that begins with a closing bracket is that bracket. -/
theorem item_misplaced (hi : ItemRead definitions NodeEdge i ts rest)
    (h : i.firstToken.isClosing) : i = .node (.misplaced i.firstToken) := by
  cases hi with
  | definition _ hd =>
    cases hd with
    | @intro keyword _ _ _ _ _ _ _ _ _ hkeyword _ _ _ _ =>
      have hident : keyword.isIdentifier := by
        simp [Token.isIdentifier, hkeyword, Token.definitionKeyword]
      exact absurd h (Token.notBracket_of_isIdentifier hident).2
  | node hn =>
    cases hn with
    | construct hn => exact absurd h (edge_construct hn).begins
    | text _ hclosing => exact absurd h hclosing
    | misplaced _ _ => rfl

end Items

namespace Document

/-- After an item with an open block at its end stands the bracket at which the block stopped. -/
theorem misplaced_after_open {definitions : Bool} {ts : List Token} {i next : Item}
    (h : [i, next] <:+: ofTokens definitions ts) {b : Block} (hb : b ∈ i.openBlocks) :
    ∃ t rest, next = .node (.misplaced t) ∧ b.lastToken :: t :: rest <:+ ts ∧
      b.StopsBefore (t :: rest) := by
  obtain ⟨before, after, hdoc⟩ := h
  have hchain := ofTokens_chain definitions (nodeWithin_edge _) ts
  rw [← hdoc, List.append_assoc] at hchain
  obtain ⟨mid, hbefore, hpair⟩ := hchain.exists_of_append
  obtain ⟨taken, rfl, -⟩ :=
    Takes.chain (hbefore.mono fun hi => takes_item (hi.mono fun hn => hn.takes))
  cases hpair with
  | cons hi hrest =>
    cases hrest with
    | cons hnext _ =>
      have hstops := item_stops hi b hb
      obtain ⟨more, rfl, -⟩ := takes_item (hnext.mono fun hn => hn.takes)
      have hlast := (takes_item (hi.mono fun hn => hn.takes)).last_suffix
      rw [← Item.lastToken_of_mem_openBlocks hb] at hlast
      exact ⟨next.firstToken, _, item_misplaced hnext (hstops _ rfl).1,
        hlast.trans (List.suffix_append taken mid), hstops⟩

/-- A block without its close has stopped at the end of the tokens or at a bracket that closes
another kind. Nothing follows it in the list that holds it, nor anything that ends with it, except
that between the items of a document the bracket at which it stopped follows, misplaced. No pattern
of a clause or a definition ends with such a block. -/
theorem unterminated_at_end (definitions : Bool) (ts : List Token) :
    (located definitions ts).map (Item.mapTokens (Token.restored ts)) = ofTokens definitions ts ∧
    (∀ x ∈ (located definitions ts).subjects, x.OpenAtEnd (Token.numbered ts)) ∧
    ∀ i next, [i, next] <:+: located definitions ts → ∀ b ∈ i.openBlocks,
      ∃ t rest, next = .node (.misplaced t) ∧ b.lastToken :: t :: rest <:+ Token.numbered ts ∧
        b.StopsBefore (t :: rest) :=
  ⟨map_restored_located definitions ts,
    (openAtEnd_cases (Token.numbered ts)).ofTokens readAs_edge definitions,
    fun _ _ h _ hb => misplaced_after_open h hb⟩

/-- In `[\f_{x)y` one bracket stops a block, the command in it, and the block that is the operand of
the command's script. -/
theorem unterminated_at_end_operand :
    ∃ i next b, [i, next] <:+: located true (Token.ofSource "[\\f_\x7bx)y") ∧ b ∈ i.openBlocks ∧
      b.opening.text = "\x7b" ∧ ∃ t, next = .node (.misplaced t) ∧ t.isClosing ∧
        t.closes? ≠ b.opening.opens? := by
  have hview : (located true (Token.ofSource "[\\f_\x7bx)y")).map
      (fun i => i.openBlocks.map fun b => b.opening.text) = [["[", "\x7b"], [], []] := by
    decide +kernel
  obtain ⟨i, others, hdoc, hopen, hothers⟩ := List.map_eq_cons_iff.mp hview
  obtain ⟨next, after, rfl, -, -⟩ := List.map_eq_cons_iff.mp hothers
  have hmem : "\x7b" ∈ i.openBlocks.map fun b => b.opening.text := by simp [hopen]
  obtain ⟨b, hb, htext⟩ := List.mem_map.mp hmem
  have hpair : [i, next] <:+: located true (Token.ofSource "[\\f_\x7bx)y") :=
    ⟨[], after, hdoc.symm⟩
  obtain ⟨-, -, hnext⟩ := unterminated_at_end true (Token.ofSource "[\\f_\x7bx)y")
  obtain ⟨t, rest, hmisplaced, -, hstops⟩ := hnext i next hpair b hb
  exact ⟨i, next, b, hpair, hb, htext, t, hmisplaced, hstops t rfl⟩

end Document

end AcademicMarkup
