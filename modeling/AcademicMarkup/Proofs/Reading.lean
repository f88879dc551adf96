import AcademicMarkup.Tree.Grammar

/-!
What the productions read, said once for everything that is proved about documents. A relation
between a node and the tokens before and after it gives such a relation for each construct around
nodes: one layer of the grammar. A relation that holds of the leaves and is kept by a layer then
holds of every node that is read, at every level.
-/
namespace AcademicMarkup

namespace Production

variable {α β : Type}

/-- Whatever the production reads is related to the tokens before and after it. -/
def Ensures (p : Production α) (R : α → List Token → List Token → Prop) : Prop :=
  ∀ ⦃ts : List Token⦄ ⦃a : α⦄ ⦃rest : List Token⦄, p ts = some (a, rest) → R a ts rest

/-- Where the production does not match, the tokens have ended or a bracket closes. -/
def StopsAtClosing (p : Production α) : Prop :=
  ∀ ⦃ts : List Token⦄, p ts = none → ∀ t ∈ ts.head?, t.isClosing

/-- Things read one after the other, each where the one before it stopped. -/
inductive Chain (R : α → List Token → List Token → Prop) :
    List α → List Token → List Token → Prop
  | nil (ts : List Token) : Chain R [] ts ts
  | cons {a : α} {as : List α} {ts mid rest : List Token} :
      R a ts mid → Chain R as mid rest → Chain R (a :: as) ts rest

theorem Chain.mono {R S : α → List Token → List Token → Prop} {as : List α}
    {ts rest : List Token} (h : Chain R as ts rest)
    (hRS : ∀ {a ts rest}, R a ts rest → S a ts rest) : Chain S as ts rest := by
  induction h with
  | nil ts => exact Chain.nil ts
  | cons hfirst _ ih => exact Chain.cons (hRS hfirst) ih

/-- What holds of each thing that is read, whatever it is read from. -/
theorem Chain.forall_mem {P : α → Prop} {as : List α} {ts rest : List Token}
    (h : Chain (fun a _ _ => P a) as ts rest) : ∀ a ∈ as, P a := by
  induction h with
  | nil ts => simp
  | cons hfirst _ ih => exact List.forall_mem_cons.mpr ⟨hfirst, ih⟩

/-- What is read first, and what is read after it. -/
theorem Chain.exists_of_append {R : α → List Token → List Token → Prop} {as bs : List α}
    {ts rest : List Token} (h : Chain R (as ++ bs) ts rest) :
    ∃ mid, Chain R as ts mid ∧ Chain R bs mid rest := by
  induction as generalizing ts with
  | nil => exact ⟨ts, Chain.nil ts, h⟩
  | cons a as ih =>
    cases h with
    | cons hfirst hrest =>
      obtain ⟨mid, has, hbs⟩ := ih hrest
      exact ⟨mid, Chain.cons hfirst has, hbs⟩

theorem map_eq_some {p : Production α} {f : α → β} {ts rest : List Token} {b : β}
    (h : p.map f ts = some (b, rest)) : ∃ a, p ts = some (a, rest) ∧ f a = b := by
  obtain ⟨⟨a, rest'⟩, ha, heq⟩ := Option.map_eq_some_iff.mp h
  obtain ⟨rfl, rfl⟩ := Prod.mk.inj heq
  exact ⟨a, ha, rfl⟩

theorem map_eq_none {p : Production α} {f : α → β} {ts : List Token}
    (h : p.map f ts = none) : p ts = none :=
  Option.map_eq_none_iff.mp h

theorem orElse_eq_some {p q : Production α} {ts : List Token} {x : α × List Token}
    (h : p.orElse q ts = some x) : p ts = some x ∨ p ts = none ∧ q ts = some x := by
  unfold Production.orElse at h
  cases hts : p ts with
  | none => exact Or.inr ⟨rfl, by simpa [hts] using h⟩
  | some y => exact Or.inl (by simpa [hts] using h)

theorem orElse_eq_none {p q : Production α} {ts : List Token}
    (h : p.orElse q ts = none) : p ts = none ∧ q ts = none := by
  unfold Production.orElse at h
  cases hts : p ts with
  | none => exact ⟨rfl, by simpa [hts] using h⟩
  | some y => simp [hts] at h

theorem token_eq_some {test : Token → Bool} {ts rest : List Token} {t : Token}
    (h : token test ts = some (t, rest)) : ts = t :: rest ∧ test t := by
  cases ts with
  | nil => simp [token] at h
  | cons u us =>
    simp only [token] at h
    split at h
    · rename_i htest
      obtain ⟨rfl, rfl⟩ := by simpa using h
      exact ⟨rfl, htest⟩
    · simp at h

theorem token_eq_none {test : Token → Bool} {ts : List Token} (h : token test ts = none) :
    ∀ t ∈ ts.head?, ¬ test t := by
  cases ts with
  | nil => simp
  | cons u us => simpa [token] using h

theorem StopsAtClosing.orElse_notClosing {p : Production β} (f : Token → β) :
    (p.orElse ((token fun t => !t.isClosing).map f)).StopsAtClosing := by
  intro ts h t ht
  have htoken := token_eq_none (map_eq_none (orElse_eq_none h).2) t ht
  simpa using htoken

theorem many_of_eq_none {p : Production α} (hp : p.Consuming) {ts : List Token}
    (h : p ts = none) : many p hp ts = ([], ts) := by
  rw [many]
  split
  · rfl
  · rename_i hmatch
    simp [h] at hmatch

theorem many_of_eq_some {p : Production α} (hp : p.Consuming) {ts rest : List Token} {a : α}
    (h : p ts = some (a, rest)) :
    many p hp ts = (a :: (many p hp rest).1, (many p hp rest).2) := by
  rw [many]
  split
  · rename_i hmatch
    simp [h] at hmatch
  · rename_i hmatch
    rw [h] at hmatch
    obtain ⟨rfl, rfl⟩ := by simpa using hmatch
    rfl

theorem many_chain {p : Production α} (hp : p.Consuming)
    {R : α → List Token → List Token → Prop} (hR : p.Ensures R) (ts : List Token) :
    Chain R (many p hp ts).1 ts (many p hp ts).2 := by
  fun_induction many p hp ts with
  | case1 ts => exact Chain.nil ts
  | case2 ts a rest hmatch _ as last heq ih =>
    rw [heq] at ih
    exact Chain.cons (hR hmatch) ih

theorem many_stops {p : Production α} (hp : p.Consuming) (ts : List Token) :
    p (many p hp ts).2 = none := by
  fun_induction many p hp ts with
  | case1 ts hnone => exact hnone
  | case2 ts a rest hmatch _ as last heq ih =>
    rw [heq] at ih
    exact ih

end Production

namespace Reader

variable {α : Type} {r : Reader α} {ts rest : List Token} {a : α}

theorem many_of_eq_none (h : r.production ts = none) : r.many ts = ([], ts) :=
  Production.many_of_eq_none r.consuming h

theorem many_of_eq_some (h : r.production ts = some (a, rest)) :
    r.many ts = (a :: (r.many rest).1, (r.many rest).2) :=
  Production.many_of_eq_some r.consuming h

end Reader

namespace Grammar

open Production

variable {R : Node → List Token → List Token → Prop}

/-- A block and its children. One without its close has stopped at the end of the tokens or at a
bracket that closes another. -/
inductive BlockRead (R : Node → List Token → List Token → Prop) :
    Block → List Token → List Token → Prop
  | closed {opening closing : Token} {children : List Node} {ts rest : List Token} :
      opening.isOpening → opening.pairsWith closing → Chain R children ts (closing :: rest) →
      BlockRead R ⟨opening, children, some closing⟩ (opening :: ts) rest
  | unclosed {opening : Token} {children : List Node} {ts rest : List Token} :
      opening.isOpening → Chain R children ts rest →
      (∀ t ∈ rest.head?, t.isClosing ∧ ¬ opening.pairsWith t) →
      BlockRead R ⟨opening, children, none⟩ (opening :: ts) rest

inductive ArgumentRead (R : Node → List Token → List Token → Prop) :
    Argument → List Token → List Token → Prop
  | block {b : Block} {ts rest : List Token} :
      BlockRead R b ts rest → ArgumentRead R (.block b) ts rest
  | script {operator : Token} {operand : Node} {ts rest : List Token} :
      operator.isScriptOperator → R operand ts rest →
      ArgumentRead R (.script operator operand) (operator :: ts) rest

/-- A clause keeps the rules among the nodes that were read between its braces. -/
inductive ClauseRead (R : Node → List Token → List Token → Prop) :
    Clause → List Token → List Token → Prop
  | intro {keyword opening closing : Token} {children : List Node} {ts rest : List Token} :
      keyword.text = Token.clauseKeyword → opening.opens? = some .brace →
      BlockRead R ⟨opening, children, some closing⟩ ts rest →
      ClauseRead R ⟨keyword, opening, rules (Node.nonBlank children), closing⟩
        (keyword :: ts) rest

inductive CommandRead (R : Node → List Token → List Token → Prop) :
    Command → List Token → List Token → Prop
  | plain {ident : Token} {arguments : List Argument} {ts rest : List Token} :
      ident.isIdentifier → ident.text ≠ Token.definitionKeyword →
      Chain (ArgumentRead R) arguments ts rest →
      CommandRead R ⟨ident, arguments, none⟩ (ident :: ts) rest
  | withClause {ident : Token} {arguments : List Argument} {clause : Clause}
      {ts mid rest : List Token} :
      ident.isIdentifier → ident.text ≠ Token.definitionKeyword →
      Chain (ArgumentRead R) arguments ts mid → ClauseRead R clause mid rest →
      CommandRead R ⟨ident, arguments, some clause⟩ (ident :: ts) rest

/-- What a node holds that is not a single token. -/
inductive ConstructRead (R : Node → List Token → List Token → Prop) :
    Node → List Token → List Token → Prop
  | quotation {q : Quotation} {ts rest : List Token} :
      Grammar.quotation ts = some (q, rest) → ConstructRead R (.quotation q) ts rest
  | command {c : Command} {ts rest : List Token} :
      CommandRead R c ts rest → ConstructRead R (.command c) ts rest
  | block {b : Block} {ts rest : List Token} :
      BlockRead R b ts rest → ConstructRead R (.block b) ts rest

/-- The token begins no construct: no quotation, no block, and no command. -/
structure BeginsNothing (t : Token) (ts : List Token) : Prop where
  quotation : Grammar.quotation (t :: ts) = none
  opening : ¬ t.isOpening
  identifier : t.isIdentifier → t.text = Token.definitionKeyword

inductive InnerRead (R : Node → List Token → List Token → Prop) :
    Node → List Token → List Token → Prop
  | construct {n : Node} {ts rest : List Token} :
      ConstructRead R n ts rest → InnerRead R n ts rest
  | text {t : Token} {ts : List Token} :
      BeginsNothing t ts → ¬ t.isClosing → InnerRead R (.text t) (t :: ts) ts

/-- A node between no brackets. -/
inductive OuterRead (R : Node → List Token → List Token → Prop) :
    Node → List Token → List Token → Prop
  | construct {n : Node} {ts rest : List Token} :
      ConstructRead R n ts rest → OuterRead R n ts rest
  | text {t : Token} {ts : List Token} :
      BeginsNothing t ts → ¬ t.isClosing → OuterRead R (.text t) (t :: ts) ts
  | misplaced {t : Token} {ts : List Token} :
      BeginsNothing t ts → t.isClosing → OuterRead R (.misplaced t) (t :: ts) ts

/-- A node at the nesting limit. -/
inductive LeafRead : Node → List Token → List Token → Prop
  | quotation {q : Quotation} {ts rest : List Token} :
      Grammar.quotation ts = some (q, rest) → LeafRead (.quotation q) ts rest
  | text {t : Token} {ts : List Token} :
      Grammar.quotation (t :: ts) = none → ¬ t.isOpening → ¬ t.isIdentifier → ¬ t.isClosing →
      LeafRead (.text t) (t :: ts) ts
  | misplaced {t : Token} {ts : List Token} :
      Grammar.quotation (t :: ts) = none → t.isOpening ∨ t.isIdentifier → ¬ t.isClosing →
      LeafRead (.misplaced t) (t :: ts) ts

/-- A definition keeps the rules of its body that have the form of a definition's. -/
inductive DefinitionRead (R : Node → List Token → List Token → Prop) :
    Definition → List Token → List Token → Prop
  | intro {keyword headerOpening headerClosing bodyOpening bodyClosing : Token}
      {defined : Command} {body : List Node} {ts mid rest : List Token} :
      keyword.text = Token.definitionKeyword → headerOpening.opens? = some .bracket →
      BlockRead R ⟨headerOpening, [.command defined], some headerClosing⟩ ts mid →
      bodyOpening.opens? = some .brace →
      BlockRead R ⟨bodyOpening, body, some bodyClosing⟩ mid rest →
      DefinitionRead R
        ⟨keyword, headerOpening, defined.ident, headerClosing, bodyOpening,
          (rules (Node.nonBlank body)).filterMap definitionRule?, bodyClosing⟩
        (keyword :: ts) rest

inductive ItemRead (definitions : Bool) (R : Node → List Token → List Token → Prop) :
    Item → List Token → List Token → Prop
  | node {n : Node} {ts rest : List Token} :
      OuterRead R n ts rest → ItemRead definitions R (.node n) ts rest
  | definition {d : Definition} {ts rest : List Token} :
      definitions → DefinitionRead R d ts rest → ItemRead definitions R (.definition d) ts rest

/-! What is known of the nodes inside a construct may be weakened. -/

theorem BlockRead.mono {S : Node → List Token → List Token → Prop} {b : Block}
    {ts rest : List Token} (h : BlockRead R b ts rest)
    (hRS : ∀ {n ts rest}, R n ts rest → S n ts rest) : BlockRead S b ts rest := by
  cases h with
  | closed hopening hpairs hchain => exact BlockRead.closed hopening hpairs (hchain.mono hRS)
  | unclosed hopening hchain hrest => exact BlockRead.unclosed hopening (hchain.mono hRS) hrest

theorem ClauseRead.mono {S : Node → List Token → List Token → Prop} {c : Clause}
    {ts rest : List Token} (h : ClauseRead R c ts rest)
    (hRS : ∀ {n ts rest}, R n ts rest → S n ts rest) : ClauseRead S c ts rest := by
  cases h with
  | intro hkeyword hkind hblock => exact ClauseRead.intro hkeyword hkind (hblock.mono hRS)

theorem DefinitionRead.mono {S : Node → List Token → List Token → Prop} {d : Definition}
    {ts rest : List Token} (h : DefinitionRead R d ts rest)
    (hRS : ∀ {n ts rest}, R n ts rest → S n ts rest) : DefinitionRead S d ts rest := by
  cases h with
  | intro hkeyword hbracket hheader hbrace hbody =>
    exact DefinitionRead.intro hkeyword hbracket (hheader.mono hRS) hbrace (hbody.mono hRS)

theorem ArgumentRead.mono {S : Node → List Token → List Token → Prop} {a : Argument}
    {ts rest : List Token} (h : ArgumentRead R a ts rest)
    (hRS : ∀ {n ts rest}, R n ts rest → S n ts rest) : ArgumentRead S a ts rest := by
  cases h with
  | block hblock => exact ArgumentRead.block (hblock.mono hRS)
  | script hoperator hoperand => exact ArgumentRead.script hoperator (hRS hoperand)

theorem CommandRead.mono {S : Node → List Token → List Token → Prop} {c : Command}
    {ts rest : List Token} (h : CommandRead R c ts rest)
    (hRS : ∀ {n ts rest}, R n ts rest → S n ts rest) : CommandRead S c ts rest := by
  cases h with
  | plain hident hname hchain =>
    exact CommandRead.plain hident hname (hchain.mono fun ha => ha.mono hRS)
  | withClause hident hname hchain hclause =>
    exact CommandRead.withClause hident hname (hchain.mono fun ha => ha.mono hRS)
      (hclause.mono hRS)

theorem ItemRead.mono {definitions : Bool} {S : Node → List Token → List Token → Prop} {i : Item}
    {ts rest : List Token} (h : ItemRead definitions R i ts rest)
    (hRS : ∀ {n ts rest}, R n ts rest → S n ts rest) : ItemRead definitions S i ts rest := by
  cases h with
  | definition hallowed hd => exact ItemRead.definition hallowed (hd.mono hRS)
  | node hn =>
    refine ItemRead.node ?_
    cases hn with
    | text hbegins hclosing => exact OuterRead.text hbegins hclosing
    | misplaced hbegins hclosing => exact OuterRead.misplaced hbegins hclosing
    | construct hn =>
      refine OuterRead.construct ?_
      cases hn with
      | quotation hq => exact ConstructRead.quotation hq
      | command hc => exact ConstructRead.command (hc.mono hRS)
      | block hb => exact ConstructRead.block (hb.mono hRS)

/-! Each production reads one layer around what the reader inside it reads. -/

section Layer

variable {inner : Reader Node}

theorem block_ensures (hR : inner.production.Ensures R)
    (hstop : inner.production.StopsAtClosing) : (block inner).Ensures (BlockRead R) := by
  intro ts b rest h
  cases ts with
  | nil => simp [block] at h
  | cons opening ts =>
    have hchain := many_chain inner.consuming hR ts
    have hnone := hstop (many_stops inner.consuming ts)
    simp only [block, Reader.many] at h
    split at h
    · rename_i hopening
      split at h
      · rename_i children closing after heq
        rw [heq] at hchain hnone
        split at h
        · rename_i hpairs
          obtain ⟨rfl, rfl⟩ := by simpa using h
          exact BlockRead.closed hopening hpairs hchain
        · rename_i hpairs
          obtain ⟨rfl, rfl⟩ := by simpa using h
          refine BlockRead.unclosed hopening hchain ?_
          intro t ht
          have hclosing := hnone t ht
          obtain rfl : closing = t := by simpa using ht
          exact ⟨hclosing, hpairs⟩
      · rename_i children heq
        obtain ⟨rfl, rfl⟩ := by simpa using h
        rw [heq] at hchain
        exact BlockRead.unclosed hopening hchain (by simp)
    · simp at h

theorem isOpening_of_block_eq_none {t : Token} {ts : List Token}
    (h : block inner (t :: ts) = none) : ¬ t.isOpening := by
  intro hopening
  simp only [block, hopening, if_true] at h
  split at h
  · split at h <;> simp at h
  · simp at h

theorem enclosed_ensures (hR : inner.production.Ensures R)
    (hstop : inner.production.StopsAtClosing) (kind : Enclosure) :
    (enclosed inner kind).Ensures fun (opening, children, closing) ts rest =>
      opening.opens? = some kind ∧ BlockRead R ⟨opening, children, some closing⟩ ts rest := by
  intro ts x rest h
  cases ts with
  | nil => simp [enclosed] at h
  | cons first ts =>
    simp only [enclosed] at h
    split at h
    · rename_i hkind
      split at h
      · rename_i opening children closing after hblock
        obtain ⟨rfl, rfl⟩ := by simpa using h
        have hread := block_ensures hR hstop hblock
        cases hread with
        | closed hopening hpairs hchain =>
          refine ⟨?_, BlockRead.closed hopening hpairs hchain⟩
          simp only [Bool.and_eq_true, beq_iff_eq] at hkind
          exact hkind.1
      · simp at h
    · simp at h

theorem argument_ensures (hR : inner.production.Ensures R)
    (hstop : inner.production.StopsAtClosing) : (argument inner).Ensures (ArgumentRead R) := by
  intro ts a rest h
  rcases orElse_eq_some h with hscript | ⟨-, hblock⟩
  · cases ts with
    | nil => simp [script] at hscript
    | cons operator ts =>
      simp only [script] at hscript
      split at hscript
      · rename_i hoperator
        obtain ⟨⟨operand, rest'⟩, hoperand, heq⟩ := Option.map_eq_some_iff.mp hscript
        obtain ⟨rfl, rfl⟩ := Prod.mk.inj heq
        exact ArgumentRead.script hoperator (hR hoperand)
      · simp at hscript
  · obtain ⟨b, hb, rfl⟩ := map_eq_some hblock
    exact ArgumentRead.block (block_ensures hR hstop hb)

theorem clause_ensures (hR : inner.production.Ensures R)
    (hstop : inner.production.StopsAtClosing) : (clause inner).Ensures (ClauseRead R) := by
  intro ts c rest h
  cases ts with
  | nil => simp [clause] at h
  | cons keyword ts =>
    simp only [clause] at h
    split at h
    · rename_i hkeyword
      obtain ⟨⟨⟨opening, children, closing⟩, rest'⟩, hbody, heq⟩ := Option.map_eq_some_iff.mp h
      obtain ⟨rfl, rfl⟩ := Prod.mk.inj heq
      obtain ⟨hkind, hblock⟩ := enclosed_ensures hR hstop .brace hbody
      exact ClauseRead.intro (by simpa using hkeyword) hkind hblock
    · simp at h

theorem command_ensures (hR : inner.production.Ensures R)
    (hstop : inner.production.StopsAtClosing) : (command inner).Ensures (CommandRead R) := by
  intro ts c rest h
  cases ts with
  | nil => simp [command] at h
  | cons ident ts =>
    have hchain := many_chain (argumentReader inner).consuming (argument_ensures hR hstop) ts
    simp only [command] at h
    split at h
    · rename_i hident
      simp only [Bool.and_eq_true, bne_iff_ne, ne_eq] at hident
      split at h
      · rename_i clause last hclause
        obtain ⟨rfl, rfl⟩ := by simpa using h
        exact CommandRead.withClause hident.1 hident.2 hchain (clause_ensures hR hstop hclause)
      · obtain ⟨rfl, rfl⟩ := by simpa using h
        exact CommandRead.plain hident.1 hident.2 hchain
    · simp at h

theorem identifier_of_command_eq_none {t : Token} {ts : List Token}
    (h : command inner (t :: ts) = none) (hident : t.isIdentifier) :
    t.text = Token.definitionKeyword := by
  by_cases hkeyword : t.text = Token.definitionKeyword
  · exact hkeyword
  · simp only [command, hident, Bool.true_and, bne_iff_ne, ne_eq, hkeyword, not_false_eq_true,
      if_true] at h
    split at h <;> simp at h

theorem construct_ensures (hR : inner.production.Ensures R)
    (hstop : inner.production.StopsAtClosing) : (construct inner).Ensures (ConstructRead R) := by
  intro ts n rest h
  rcases orElse_eq_some h with hquotation | ⟨-, h⟩
  · obtain ⟨q, hq, rfl⟩ := map_eq_some hquotation
    exact ConstructRead.quotation hq
  · rcases orElse_eq_some h with hcommand | ⟨-, hblock⟩
    · obtain ⟨c, hc, rfl⟩ := map_eq_some hcommand
      exact ConstructRead.command (command_ensures hR hstop hc)
    · obtain ⟨b, hb, rfl⟩ := map_eq_some hblock
      exact ConstructRead.block (block_ensures hR hstop hb)

theorem beginsNothing_of_construct_eq_none {t : Token} {ts : List Token}
    (h : construct inner (t :: ts) = none) : BeginsNothing t ts := by
  obtain ⟨hquotation, h⟩ := orElse_eq_none h
  obtain ⟨hcommand, hblock⟩ := orElse_eq_none h
  exact ⟨map_eq_none hquotation, isOpening_of_block_eq_none (map_eq_none hblock),
    identifier_of_command_eq_none (map_eq_none hcommand)⟩

theorem innerNode_ensures (hR : inner.production.Ensures R)
    (hstop : inner.production.StopsAtClosing) : (innerNode inner).Ensures (InnerRead R) := by
  intro ts n rest h
  rcases orElse_eq_some h with hconstruct | ⟨hnone, htext⟩
  · exact InnerRead.construct (construct_ensures hR hstop hconstruct)
  · obtain ⟨t, ht, rfl⟩ := map_eq_some htext
    obtain ⟨rfl, hclosing⟩ := token_eq_some ht
    exact InnerRead.text (beginsNothing_of_construct_eq_none hnone) (by simpa using hclosing)

theorem outerNode_ensures (hR : inner.production.Ensures R)
    (hstop : inner.production.StopsAtClosing) : (outerNode inner).Ensures (OuterRead R) := by
  intro ts n rest h
  rcases orElse_eq_some h with hconstruct | ⟨hnone, htoken⟩
  · exact OuterRead.construct (construct_ensures hR hstop hconstruct)
  · obtain ⟨t, ht, rfl⟩ := map_eq_some htoken
    obtain ⟨rfl, -⟩ := token_eq_some ht
    have hbegins := beginsNothing_of_construct_eq_none hnone
    split
    · rename_i hclosing
      exact OuterRead.misplaced hbegins hclosing
    · rename_i hclosing
      exact OuterRead.text hbegins hclosing

theorem definition_ensures (hR : inner.production.Ensures R)
    (hstop : inner.production.StopsAtClosing) :
    (definition inner).Ensures (DefinitionRead R) := by
  intro ts d rest h
  cases ts with
  | nil => simp [definition] at h
  | cons keyword ts =>
    simp only [definition] at h
    split at h
    · rename_i hkeyword
      simp only [Option.bind_eq_bind, Option.bind_eq_some_iff] at h
      obtain ⟨⟨⟨headerOpening, header, headerClosing⟩, mid⟩, hheader, h⟩ := h
      split at h
      · rename_i defined hdefined
        obtain rfl : header = [.command defined] := hdefined
        simp only [Option.bind_eq_some_iff] at h
        obtain ⟨⟨⟨bodyOpening, body, bodyClosing⟩, last⟩, hbody, heq⟩ := h
        obtain ⟨rfl, rfl⟩ := by simpa using heq
        obtain ⟨hbracket, hheader⟩ := enclosed_ensures hR hstop .bracket hheader
        obtain ⟨hbrace, hbody⟩ := enclosed_ensures hR hstop .brace hbody
        exact DefinitionRead.intro (by simpa using hkeyword) hbracket hheader hbrace hbody
      · simp at h
    · simp at h

theorem item_ensures (definitions : Bool) (hR : inner.production.Ensures R)
    (hstop : inner.production.StopsAtClosing) :
    (item definitions inner).Ensures (ItemRead definitions R) := by
  intro ts i rest h
  have hnode : ∀ {i : Item} {rest : List Token},
      (outerNode inner).map .node ts = some (i, rest) → ItemRead definitions R i ts rest := by
    intro i rest h
    obtain ⟨n, hn, rfl⟩ := map_eq_some h
    exact ItemRead.node (outerNode_ensures hR hstop hn)
  unfold item at h
  split at h
  · rename_i hallowed
    rcases orElse_eq_some h with hdefinition | ⟨-, h⟩
    · obtain ⟨d, hd, rfl⟩ := map_eq_some hdefinition
      exact ItemRead.definition hallowed (definition_ensures hR hstop hd)
    · exact hnode h
  · exact hnode h

end Layer

theorem leafNode_ensures : leafNode.Ensures LeafRead := by
  intro ts n rest h
  rcases orElse_eq_some h with hquotation | ⟨hnone, htoken⟩
  · obtain ⟨q, hq, rfl⟩ := map_eq_some hquotation
    exact LeafRead.quotation hq
  · obtain ⟨t, ht, rfl⟩ := map_eq_some htoken
    obtain ⟨rfl, hclosing⟩ := token_eq_some ht
    have hclosing : ¬ t.isClosing := by simpa using hclosing
    split
    · rename_i hbegins
      exact LeafRead.misplaced (map_eq_none hnone) (by simpa using hbegins) hclosing
    · rename_i hbegins
      simp only [Bool.or_eq_true, not_or] at hbegins
      exact LeafRead.text (map_eq_none hnone) hbegins.1 hbegins.2 hclosing

theorem nodeWithin_stops (levels : Nat) : (nodeWithin levels).production.StopsAtClosing := by
  cases levels with
  | zero => exact StopsAtClosing.orElse_notClosing _
  | succ levels => exact StopsAtClosing.orElse_notClosing _

/-- Induction on the levels that are left. The relation may depend on them. -/
theorem nodeWithin_ensures {R : Nat → Node → List Token → List Token → Prop}
    (leaf : ∀ {n ts rest}, LeafRead n ts rest → R 0 n ts rest)
    (layer : ∀ {levels n ts rest}, InnerRead (R levels) n ts rest → R (levels + 1) n ts rest)
    (levels : Nat) : (nodeWithin levels).production.Ensures (R levels) := by
  induction levels with
  | zero =>
    intro ts n rest h
    exact leaf (leafNode_ensures h)
  | succ levels ih =>
    intro ts n rest h
    exact layer (innerNode_ensures ih (nodeWithin_stops levels) h)

/-- The induction on the levels with a relation that is known to hold at all of them. -/
theorem nodeWithin_ensures_and {R : Nat → Node → List Token → List Token → Prop}
    {S : Node → List Token → List Token → Prop}
    (known : ∀ levels, (nodeWithin levels).production.Ensures S)
    (leaf : ∀ {n ts rest}, LeafRead n ts rest → R 0 n ts rest)
    (layer : ∀ {levels n ts rest},
      InnerRead (fun n ts rest => S n ts rest ∧ R levels n ts rest) n ts rest →
        R (levels + 1) n ts rest) (levels : Nat) :
    (nodeWithin levels).production.Ensures fun n ts rest => S n ts rest ∧ R levels n ts rest := by
  induction levels with
  | zero =>
    intro ts n rest h
    exact ⟨known 0 h, leaf (leafNode_ensures h)⟩
  | succ levels ih =>
    intro ts n rest h
    exact ⟨known (levels + 1) h, layer (innerNode_ensures ih (nodeWithin_stops levels) h)⟩

theorem itemReader_ensures (definitions : Bool)
    (hR : (nodeWithin (maxNesting - 1)).production.Ensures R) :
    (itemReader definitions).production.Ensures (ItemRead definitions R) :=
  item_ensures definitions hR (nodeWithin_stops _)

theorem itemReader_stops {definitions : Bool} {ts : List Token}
    (h : (itemReader definitions).production ts = none) : ts = [] := by
  have houter : outerNode (nodeWithin (maxNesting - 1)) ts = none := by
    simp only [itemReader, item] at h
    split at h
    · exact map_eq_none (orElse_eq_none h).2
    · exact map_eq_none h
  have htoken := token_eq_none (map_eq_none (orElse_eq_none houter).2)
  cases ts with
  | nil => rfl
  | cons t ts => simp at htoken

theorem quoted_eq {closing : String} {ts rest content : List Token} {close : Option Token}
    (h : quoted closing ts = some ((content, close), rest)) :
    ts = content ++ close.toList ++ rest := by
  induction ts generalizing content close with
  | nil => simp [quoted] at h
  | cons t ts ih =>
    simp only [quoted] at h
    split at h
    · obtain ⟨⟨rfl, rfl⟩, rfl⟩ := by simpa using h
      rfl
    · split at h
      · obtain ⟨⟨rfl, rfl⟩, rfl⟩ := by simpa using h
        rfl
      · obtain ⟨⟨⟨content', close'⟩, rest'⟩, hquoted, heq⟩ := Option.map_eq_some_iff.mp h
        obtain ⟨⟨rfl, rfl⟩, rfl⟩ := by simpa using heq
        simpa using ih hquoted

/-- A quotation takes exactly its own tokens. -/
theorem quotation_eq {ts rest : List Token} {q : Quotation}
    (h : quotation ts = some (q, rest)) : ts = q.tokens ++ rest := by
  cases ts with
  | nil => simp [quotation] at h
  | cons opening ts =>
    simp only [quotation, Option.bind_eq_bind, Option.bind_eq_some_iff] at h
    obtain ⟨closing, -, ⟨⟨content, close⟩, rest'⟩, hquoted, heq⟩ := h
    obtain ⟨rfl, rfl⟩ := by simpa using heq
    simpa [Quotation.tokens] using quoted_eq hquoted

end Grammar

namespace Document

/-- The reading of a document ends only where the tokens do. -/
theorem leftover_eq_nil (definitions : Bool) (ts : List Token) :
    ((Grammar.itemReader definitions).many ts).2 = [] :=
  Grammar.itemReader_stops (Production.many_stops (Grammar.itemReader definitions).consuming ts)

theorem ofTokens_chain {R : Node → List Token → List Token → Prop} (definitions : Bool)
    (hR : (Grammar.nodeWithin (Grammar.maxNesting - 1)).production.Ensures R) (ts : List Token) :
    Production.Chain (Grammar.ItemRead definitions R) (ofTokens definitions ts) ts [] := by
  have hchain := Production.many_chain (Grammar.itemReader definitions).consuming
    (Grammar.itemReader_ensures definitions hR) ts
  rwa [show (Production.many _ (Grammar.itemReader definitions).consuming ts).2 = [] from
    leftover_eq_nil definitions ts] at hchain

end Document

end AcademicMarkup
