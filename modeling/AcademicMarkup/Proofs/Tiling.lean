import AcademicMarkup.Proofs.Contiguity
import AcademicMarkup.Proofs.KeptTokens

/-!
A document lies over its tokens without gaps. The spans of its items fill the range of the tokens,
and in every construct the spans of the parts fill the span of the whole, up to the contents of
clauses and definitions, of which only the rules are kept: these lie in order between their
brackets. Where there are no clauses and no definitions, the tokens that the tree keeps are all the
tokens.
-/
namespace AcademicMarkup

open Production Grammar

/-- Rules one after the other, column by column: a node between two arrows is the target of one
rule and the pattern of the next. -/
def RewriteRule.Before (r r' : RewriteRule) : Prop :=
  r.pattern.span.stop ≤ r'.pattern.span.start ∧ r.arrow.span.stop ≤ r'.arrow.span.start ∧
    r.target.span.stop ≤ r'.target.span.start

structure Clause.Tiled (c : Clause) : Prop where
  keyword : Span.Contiguous c.keyword.span.start [c.keyword.span, c.opening.span]
    c.opening.span.stop
  closing : Span.Ordered c.opening.span.stop [c.closing.span] c.closing.span.stop
  rules : ∀ r ∈ c.rules, Span.Ordered c.opening.span.stop
    [r.pattern.span, r.arrow.span, r.target.span] c.closing.span.start
  order : c.rules.Pairwise RewriteRule.Before

structure Definition.Tiled (d : Definition) : Prop where
  keyword : Span.Contiguous d.keyword.span.start
    [d.keyword.span, d.headerOpening.span, d.ident.span] d.ident.span.stop
  headerClosing : d.ident.span.stop ≤ d.headerClosing.span.start
  bodyOpening : Span.Contiguous d.headerClosing.span.start
    [d.headerClosing.span, d.bodyOpening.span] d.bodyOpening.span.stop
  bodyClosing : Span.Ordered d.bodyOpening.span.stop [d.bodyClosing.span] d.bodyClosing.span.stop
  rules : ∀ r ∈ d.rules, Span.Ordered d.bodyOpening.span.stop
    [r.patternOpening.span, r.patternClosing.span, r.arrow.span, r.target.span]
    d.bodyClosing.span.start

/-- The parts of a construct fill its span. -/
def Subject.Tiled : Subject → Prop
  | .node n => n.span.start ≤ n.span.stop
  | .text t => t.span.start ≤ t.span.stop
  | .quotation q => Span.Contiguous q.span.start (q.tokens.map Token.span) q.span.stop
  | .misplaced t => t.span.start ≤ t.span.stop
  | .block b => Span.Contiguous b.span.start
      (b.opening.span :: b.children.map Node.span ++ b.closing.toList.map Token.span) b.span.stop
  | .command c => Span.Contiguous c.span.start
      (c.ident.span :: c.arguments.map Argument.span ++ c.clause.toList.map Clause.span)
      c.span.stop
  | .script operator operand =>
      Span.Contiguous operator.span.start [operator.span, operand.span] operand.span.stop
  | .clause c => c.Tiled
  | .definition d => d.Tiled

/-- What is read fills the tokens from where they begin to where the rest begins, and so do its
parts. -/
def Covers {α : Type} (span : α → Span) (subjects : α → List Subject) (a : α)
    (ts rest : List Token) : Prop :=
  ∀ ⦃start stop : Nat⦄, Span.Contiguous start (ts.map Token.span) stop →
    (span a).start = start ∧ (span a).start ≤ (span a).stop ∧
      Span.Contiguous (span a).stop (rest.map Token.span) stop ∧ ∀ x ∈ subjects a, x.Tiled

theorem Covers.chain {α : Type} {span : α → Span} {subjects : α → List Subject} {as : List α}
    {ts rest : List Token} (h : Chain (Covers span subjects) as ts rest) {start stop : Nat}
    (hts : Span.Contiguous start (ts.map Token.span) stop) :
    ∃ mid, Span.Contiguous start (as.map span) mid ∧
      Span.Contiguous mid (rest.map Token.span) stop ∧ ∀ a ∈ as, ∀ x ∈ subjects a, x.Tiled := by
  induction h generalizing start with
  | nil ts => exact ⟨start, rfl, hts, by simp⟩
  | cons hfirst _ ih =>
    obtain ⟨hstart, hle, hmid, hparts⟩ := hfirst hts
    obtain ⟨mid, hrest, hlast, hall⟩ := ih hmid
    refine ⟨mid, ⟨hstart, hle, hrest⟩, hlast, ?_⟩
    simpa using ⟨hparts, hall⟩

/-! The span of a construct ends where its last part does. -/

theorem Node.lastTokenOr_eq (default : Token) (ns : List Node) :
    Node.lastTokenOr default ns = (ns.getLast?.map Node.lastToken).getD default := by
  induction ns with
  | nil => rfl
  | cons n ns ih =>
    cases ns with
    | nil => rfl
    | cons m ns => rw [Node.lastTokenOr, ih, List.getLast?_cons_cons]

theorem Argument.lastTokenOr_eq (default : Token) (as : List Argument) :
    Argument.lastTokenOr default as = (as.getLast?.map Argument.lastToken).getD default := by
  induction as with
  | nil => rfl
  | cons a as ih =>
    cases as with
    | nil => rfl
    | cons b as => rw [Argument.lastTokenOr, ih, List.getLast?_cons_cons]

theorem Argument.span_stop (a : Argument) : a.span.stop = a.lastToken.span.stop := by
  cases a <;> rfl

theorem Block.span_stop_unclosed {opening : Token} {children : List Node} {stop : Nat}
    (h : Span.Contiguous opening.span.stop (children.map Node.span) stop) :
    (Block.span ⟨opening, children, none⟩).stop = stop := by
  rw [h.stop_eq, List.getLast?_map]
  simp only [Block.span, Span.through, Block.lastToken, Node.lastTokenOr_eq]
  cases children.getLast? <;> rfl

theorem Command.span_stop_plain {ident : Token} {arguments : List Argument} {stop : Nat}
    (h : Span.Contiguous ident.span.stop (arguments.map Argument.span) stop) :
    (Command.span ⟨ident, arguments, none⟩).stop = stop := by
  rw [h.stop_eq, List.getLast?_map]
  simp only [Command.span, Span.through, Command.lastToken, Argument.lastTokenOr_eq]
  cases arguments.getLast? with
  | none => rfl
  | some a => exact a.span_stop.symm

theorem Quotation.span_stop {q : Quotation} {start stop : Nat}
    (h : Span.Contiguous start (q.tokens.map Token.span) stop) : q.span.stop = stop := by
  obtain ⟨opening, content, closing⟩ := q
  rw [h.stop_eq, List.getLast?_map]
  simp only [Quotation.span, Span.through, Quotation.lastToken, Quotation.tokens]
  cases closing with
  | none => simp [List.getLast?_cons, List.getLastD_eq_getLast?]
  | some c =>
    rw [Option.toList_some, List.getLast?_concat]
    rfl

/-! The rules among nodes keep the order of the nodes. -/

theorem Node.eq_text_of_arrow? {n : Node} {arrow : Token} (h : n.arrow? = some arrow) :
    n = .text arrow := by
  cases n with
  | text t =>
    simp only [Node.arrow?, Node.token?, Option.filter_eq_some_iff, Option.some.injEq] at h
    rw [h.1]
  | quotation q => simp [Node.arrow?, Node.token?] at h
  | misplaced t => simp [Node.arrow?, Node.token?] at h
  | command c => simp [Node.arrow?, Node.token?] at h
  | block b => simp [Node.arrow?, Node.token?] at h
  | definition d => simp [Node.arrow?, Node.token?] at h

/-- A rule is three of the nodes, in their order. -/
theorem sublist_of_mem_rules {ns : List Node} {r : RewriteRule} (h : r ∈ rules ns) :
    [r.pattern, .text r.arrow, r.target].Sublist ns := by
  fun_induction rules ns with
  | case1 pattern middle target rest arrow harrow ih =>
    obtain rfl := Node.eq_text_of_arrow? harrow
    rcases List.mem_cons.mp h with rfl | h
    · exact List.sublist_append_left [pattern, .text arrow, target] rest
    · exact (ih h).cons pattern
  | case2 pattern middle target rest harrow ih => exact (ih h).cons pattern
  | case3 ns hshort => simp at h

theorem arrow_of_mem_rules {ns : List Node} {r : RewriteRule} (h : r ∈ rules ns) :
    r.arrow.text = Token.arrow := by
  fun_induction rules ns with
  | case1 pattern middle target rest arrow harrow ih =>
    rcases List.mem_cons.mp h with rfl | h
    · simpa using (Option.filter_eq_some_iff.mp harrow).2
    · exact ih h
  | case2 pattern middle target rest harrow ih => exact ih h
  | case3 ns hshort => simp at h

/-- Each node is the target of one rule at most. -/
theorem targets_sublist (ns : List Node) :
    ((rules ns).map RewriteRule.target).Sublist (ns.drop 2) := by
  fun_induction rules ns with
  | case1 pattern middle target rest arrow _ ih => exact ih.cons_cons target
  | case2 pattern middle target rest _ ih => exact ih.cons target
  | case3 ns _ => exact List.nil_sublist _

theorem spans_of_mem_rules {ns : List Node} {start stop : Nat} {r : RewriteRule}
    (hns : Span.Ordered start (ns.map Node.span) stop) (h : r ∈ rules ns) :
    Span.Ordered start [r.pattern.span, r.arrow.span, r.target.span] stop :=
  hns.sublist ((sublist_of_mem_rules h).map Node.span)

theorem rules_pairwise {ns : List Node} {start stop : Nat}
    (hns : Span.Ordered start (ns.map Node.span) stop) :
    (rules ns).Pairwise RewriteRule.Before := by
  fun_induction rules ns generalizing start with
  | case1 pattern middle target rest arrow harrow ih =>
    obtain rfl := Node.eq_text_of_arrow? harrow
    obtain ⟨-, -, hmiddle⟩ := hns
    have htarget := hmiddle.2.2
    have hrest := htarget.2.2
    refine List.pairwise_cons.mpr ⟨?_, ih hmiddle⟩
    -- a later rule takes its three nodes from the tail, so each column moves on by one node
    intro r hr
    have hsub := (sublist_of_mem_rules hr).map Node.span
    exact ⟨(hmiddle.sublist hsub).1, (htarget.sublist hsub.tail).1,
      (hrest.sublist hsub.tail.tail).1⟩
  | case2 pattern middle target rest harrow ih => exact ih hns.2.2
  | case3 ns hshort => exact List.Pairwise.nil

theorem nonBlank_spans {ns : List Node} {start stop : Nat}
    (h : Span.Contiguous start (ns.map Node.span) stop) :
    Span.Ordered start ((Node.nonBlank ns).map Node.span) stop :=
  h.ordered.sublist (List.filter_sublist.map Node.span)

theorem mem_of_mem_rules {ns : List Node} {r : RewriteRule} (h : r ∈ rules (Node.nonBlank ns)) :
    r.pattern ∈ ns ∧ r.target ∈ ns := by
  have hsub := (sublist_of_mem_rules h).trans List.filter_sublist
  exact ⟨hsub.subset (by simp), hsub.subset (by simp)⟩

theorem eq_block_of_block? {n : Node} {b : Block} (h : n.block? = some b) : n = .block b := by
  cases n with
  | block b' => exact congrArg Node.block (Option.some.inj h)
  | text t => simp [Node.block?] at h
  | quotation q => simp [Node.block?] at h
  | misplaced t => simp [Node.block?] at h
  | command c => simp [Node.block?] at h
  | definition d => simp [Node.block?] at h

/-- The rule of a definition is a rule from a block in square brackets to one in braces. -/
theorem parts_of_definitionRule? {r : RewriteRule} {d : DefinitionRule}
    (h : definitionRule? r = some d) :
    ∃ children, r.pattern = .block ⟨d.patternOpening, children, some d.patternClosing⟩ ∧
      Block.isKind ⟨d.patternOpening, children, some d.patternClosing⟩ .bracket ∧
      d.binders = (Node.nonBlank children).filterMap binder? ∧ r.arrow = d.arrow ∧
      r.target = .block d.target ∧ d.target.isKind .brace := by
  simp only [definitionRule?, Option.bind_eq_bind, Option.bind_eq_some_iff] at h
  obtain ⟨pattern, hpattern, target, htarget, closing, hclosing, h⟩ := h
  split at h
  · rename_i hkinds
    obtain ⟨hbracket, hbrace⟩ := Bool.and_eq_true_iff.mp hkinds
    obtain rfl := by simpa using h
    obtain ⟨opening, children, closing'⟩ := pattern
    obtain rfl : closing' = some closing := hclosing
    exact ⟨children, eq_block_of_block? hpattern, hbracket, rfl, rfl,
      eq_block_of_block? htarget, hbrace⟩
  · simp at h

theorem blocks_of_definitionRule? {r : RewriteRule} {d : DefinitionRule}
    (h : definitionRule? r = some d) :
    ∃ children, r.pattern = .block ⟨d.patternOpening, children, some d.patternClosing⟩ ∧
      r.arrow = d.arrow ∧ r.target = .block d.target := by
  obtain ⟨children, hpattern, -, -, harrow, htarget, -⟩ := parts_of_definitionRule? h
  exact ⟨children, hpattern, harrow, htarget⟩

/-! One layer of the grammar keeps what is covered. -/

section Layer

variable {ts rest : List Token}

/-- A node that is a single token covers it. -/
theorem covers_leaf {n : Node} {t : Token} (hspan : n.span = t.span)
    (hparts : t.span.start ≤ t.span.stop → ∀ x ∈ n.subjects, x.Tiled) :
    Covers Node.span Node.subjects n (t :: rest) rest := by
  intro start stop h
  obtain ⟨hstart, hle, hrest⟩ := h
  rw [hspan]
  exact ⟨hstart, hle, hrest, hparts hle⟩

theorem covers_text {t : Token} : Covers Node.span Node.subjects (.text t) (t :: rest) rest :=
  covers_leaf rfl fun hle => by simpa [Subject.Tiled] using ⟨hle, hle⟩

theorem covers_misplaced {t : Token} :
    Covers Node.span Node.subjects (.misplaced t) (t :: rest) rest :=
  covers_leaf rfl fun hle => by simpa [Subject.Tiled] using ⟨hle, hle⟩

theorem covers_quotation {q : Quotation} (hq : quotation ts = some (q, rest)) :
    Covers Node.span Node.subjects (.quotation q) ts rest := by
  intro start stop h
  rw [quotation_eq hq, List.map_append] at h
  obtain ⟨mid, htokens, hrest⟩ := Span.contiguous_append.mp h
  have hstart : q.span.start = start := htokens.1
  have hstop : q.span.stop = mid := Quotation.span_stop htokens
  have hle : q.span.start ≤ q.span.stop := by
    rw [hstart, hstop]
    exact htokens.le
  refine ⟨hstart, hle, by rwa [← hstop] at hrest, ?_⟩
  rw [← hstart, ← hstop] at htokens
  simpa [Subject.Tiled] using ⟨hle, htokens⟩

/-- Between the brackets of a block its children lie without a gap. -/
theorem closed_spans {opening closing : Token} {children : List Node}
    (hb : BlockRead (Covers Node.span Node.subjects) ⟨opening, children, some closing⟩ ts rest)
    {start stop : Nat} (h : Span.Contiguous start (ts.map Token.span) stop) :
    opening.span.start = start ∧ opening.span.start ≤ opening.span.stop ∧
      Span.Contiguous opening.span.stop (children.map Node.span) closing.span.start ∧
      closing.span.start ≤ closing.span.stop ∧
      Span.Contiguous closing.span.stop (rest.map Token.span) stop ∧
      ∀ n ∈ children, ∀ x ∈ n.subjects, x.Tiled := by
  cases hb with
  | closed _ _ hchain =>
    obtain ⟨hstart, hle, hts⟩ := h
    obtain ⟨mid, hchildren, ⟨hclosing, hle', hrest⟩, hall⟩ := Covers.chain hchain hts
    refine ⟨hstart, hle, ?_, hle', hrest, hall⟩
    rwa [hclosing]

theorem covers_block {b : Block} (hb : BlockRead (Covers Node.span Node.subjects) b ts rest) :
    Covers Block.span Block.subjects b ts rest := by
  intro start stop h
  obtain ⟨opening, children, closing⟩ := b
  cases closing with
  | some closing =>
    obtain ⟨hstart, hle, hchildren, hle', hrest, hall⟩ := closed_spans hb h
    have htile : Span.Contiguous opening.span.start
        (opening.span :: children.map Node.span ++ [closing.span]) closing.span.stop :=
      ⟨rfl, hle, hchildren.append ⟨rfl, hle', rfl⟩⟩
    refine ⟨hstart, htile.le, hrest, ?_⟩
    simpa [Subject.Tiled] using ⟨htile, fun x n hn => hall n hn x⟩
  | none =>
    cases hb with
    | unclosed _ hchain _ =>
      obtain ⟨hstart, hle, hts⟩ := h
      obtain ⟨mid, hchildren, hrest, hall⟩ := Covers.chain hchain hts
      have hstop := Block.span_stop_unclosed hchildren
      have htile : Span.Contiguous opening.span.start
          (opening.span :: children.map Node.span) mid := ⟨rfl, hle, hchildren⟩
      rw [← hstop] at hrest htile
      refine ⟨hstart, htile.le, hrest, ?_⟩
      simpa [Subject.Tiled] using ⟨htile, fun x n hn => hall n hn x⟩

theorem covers_argument {a : Argument}
    (ha : ArgumentRead (Covers Node.span Node.subjects) a ts rest) :
    Covers Argument.span Argument.subjects a ts rest := by
  cases ha with
  | block hb => exact covers_block hb
  | @script operator operand ts rest _ hoperand =>
    intro start stop h
    obtain ⟨hstart, hle, hts⟩ := h
    obtain ⟨hoperator, hle', hrest, hall⟩ := hoperand hts
    have htile : Span.Contiguous operator.span.start [operator.span, operand.span]
        operand.span.stop := ⟨rfl, hle, hoperator, hle', rfl⟩
    refine ⟨hstart, htile.le, hrest, ?_⟩
    simpa [Subject.Tiled] using ⟨htile, hall⟩

theorem covers_clause {c : Clause} (hc : ClauseRead (Covers Node.span Node.subjects) c ts rest) :
    Covers Clause.span Clause.subjects c ts rest := by
  cases hc with
  | @intro keyword opening closing children ts rest _ _ hb =>
    intro start stop h
    obtain ⟨hstart, hle, hts⟩ := h
    obtain ⟨hopening, hle', hchildren, hle'', hrest, hall⟩ := closed_spans hb hts
    have hbetween := hchildren.le
    have hspans := nonBlank_spans hchildren
    have htiled : Clause.Tiled ⟨keyword, opening, rules (Node.nonBlank children), closing⟩ :=
      { keyword := ⟨rfl, hle, hopening, hle', rfl⟩
        closing := ⟨hbetween, hle'', Nat.le_refl _⟩
        rules := fun r hr => spans_of_mem_rules hspans hr
        order := rules_pairwise hspans }
    refine ⟨hstart, ?_, hrest, ?_⟩
    · simp only [Clause.span, Span.through]
      omega
    · have hrules : ∀ r ∈ rules (Node.nonBlank children), ∀ x ∈ r.subjects, x.Tiled := by
        intro r hr x hx
        obtain ⟨hpattern, htarget⟩ := mem_of_mem_rules hr
        rcases List.mem_append.mp hx with hx | hx
        · exact hall _ hpattern x hx
        · exact hall _ htarget x hx
      simpa [Subject.Tiled] using ⟨htiled, fun x r hr => hrules r hr x⟩

theorem covers_command {c : Command}
    (hc : CommandRead (Covers Node.span Node.subjects) c ts rest) :
    Covers Command.span Command.subjects c ts rest := by
  have hargument : ∀ {as : List Argument} {ts rest : List Token},
      Chain (ArgumentRead (Covers Node.span Node.subjects)) as ts rest →
      Chain (Covers Argument.span Argument.subjects) as ts rest := by
    intro as ts rest h
    exact h.mono fun ha => covers_argument ha
  cases hc with
  | @plain ident arguments ts rest _ _ hchain =>
    intro start stop h
    obtain ⟨hstart, hle, hts⟩ := h
    obtain ⟨mid, harguments, hrest, hall⟩ := Covers.chain (hargument hchain) hts
    have hstop := Command.span_stop_plain harguments
    have htile : Span.Contiguous ident.span.start
        (ident.span :: arguments.map Argument.span) mid := ⟨rfl, hle, harguments⟩
    rw [← hstop] at hrest htile
    refine ⟨hstart, htile.le, hrest, ?_⟩
    simpa [Subject.Tiled] using ⟨htile, fun x a ha => hall a ha x⟩
  | @withClause ident arguments clause ts mid rest _ _ hchain hclause =>
    intro start stop h
    obtain ⟨hstart, hle, hts⟩ := h
    obtain ⟨mid, harguments, hmid, hall⟩ := Covers.chain (hargument hchain) hts
    obtain ⟨hkeyword, hle', hrest, hparts⟩ := covers_clause hclause hmid
    have htile : Span.Contiguous ident.span.start
        (ident.span :: arguments.map Argument.span ++ [clause.span]) clause.span.stop :=
      ⟨rfl, hle, harguments.append ⟨hkeyword, hle', rfl⟩⟩
    refine ⟨hstart, htile.le, hrest, ?_⟩
    intro x hx
    simp only [Command.subjects_mk, Option.toList_some, List.flatMap_cons, List.flatMap_nil,
      List.append_nil, List.mem_cons, List.mem_append, List.mem_flatMap] at hx
    rcases hx with rfl | ⟨a, ha, hx⟩ | hx
    · exact htile
    · exact hall a ha x hx
    · exact hparts x hx

theorem covers_construct {n : Node}
    (hn : ConstructRead (Covers Node.span Node.subjects) n ts rest) :
    Covers Node.span Node.subjects n ts rest := by
  cases hn with
  | quotation hq => exact covers_quotation hq
  | command hc =>
    intro start stop h
    obtain ⟨hstart, hle, hrest, hall⟩ := covers_command hc h
    exact ⟨hstart, hle, hrest, by simpa using ⟨hle, hall⟩⟩
  | block hb =>
    intro start stop h
    obtain ⟨hstart, hle, hrest, hall⟩ := covers_block hb h
    exact ⟨hstart, hle, hrest, by simpa using ⟨hle, hall⟩⟩

theorem definitionRule_spans {body : List Node} {start stop : Nat} {d : DefinitionRule}
    (hspans : Span.Ordered start ((Node.nonBlank body).map Node.span) stop)
    (hall : ∀ n ∈ body, ∀ x ∈ n.subjects, x.Tiled)
    (hd : d ∈ (rules (Node.nonBlank body)).filterMap definitionRule?) :
    Span.Ordered start
        [d.patternOpening.span, d.patternClosing.span, d.arrow.span, d.target.span] stop ∧
      ∀ x ∈ d.target.subjects, x.Tiled := by
  obtain ⟨r, hr, hrule⟩ := List.mem_filterMap.mp hd
  obtain ⟨children, hpattern, harrow, htarget⟩ := blocks_of_definitionRule? hrule
  obtain ⟨hmem, hmem'⟩ := mem_of_mem_rules hr
  have hordered := spans_of_mem_rules hspans hr
  rw [hpattern, harrow, htarget] at hordered
  rw [hpattern] at hmem
  rw [htarget] at hmem'
  constructor
  · have htile : Subject.Tiled (.block ⟨d.patternOpening, children, some d.patternClosing⟩) :=
      hall _ hmem _ (by simp)
    obtain ⟨-, hle, hrest⟩ := htile
    obtain ⟨mid, hchildren, hclosing, hle', -⟩ := Span.contiguous_append.mp hrest
    obtain ⟨hstart, -, hlater⟩ := hordered
    exact ⟨hstart, hle, hclosing ▸ hchildren.le, hle', hlater⟩
  · intro x hx
    exact hall _ hmem' x (by simp [hx])

theorem covers_definition {d : Definition}
    (hd : DefinitionRead (Covers Node.span Node.subjects) d ts rest) :
    Covers Definition.span Definition.subjects d ts rest := by
  cases hd with
  | @intro keyword headerOpening headerClosing bodyOpening bodyClosing defined body ts mid rest
      _ _ hheader _ hbody =>
    intro start stop h
    obtain ⟨hstart, hle, hts⟩ := h
    obtain ⟨hopening, hle₁, ⟨hident, hle₂, hclosing⟩, hle₃, hmid, hheaderParts⟩ :=
      closed_spans hheader hts
    obtain ⟨hbodyStart, hle₄, hbodySpans, hle₅, hrest, hall⟩ := closed_spans hbody hmid
    have htile : Subject.Tiled (.command defined) :=
      hheaderParts _ (List.mem_singleton_self _) _ (by simp [defined.mem_subjects_self])
    obtain ⟨-, hidentLe, hidentRest⟩ := htile
    have hidentStop := hidentRest.le
    have hbetween := hbodySpans.le
    have hrules := fun d => definitionRule_spans (d := d) (nonBlank_spans hbodySpans) hall
    have htiled : Definition.Tiled ⟨keyword, headerOpening, defined.ident, headerClosing,
        bodyOpening, (rules (Node.nonBlank body)).filterMap definitionRule?, bodyClosing⟩ :=
      { keyword := ⟨rfl, hle, hopening, hle₁, hident, hidentLe, rfl⟩
        headerClosing := hclosing ▸ hidentStop
        bodyOpening := ⟨rfl, hle₃, hbodyStart, hle₄, rfl⟩
        bodyClosing := ⟨hbetween, hle₅, Nat.le_refl _⟩
        rules := fun d hd => (hrules d hd).1 }
    refine ⟨hstart, ?_, hrest, ?_⟩
    · have hdefined : defined.span.start ≤ defined.span.stop := hle₂
      have hdefinedStart : defined.span.start = headerOpening.span.stop := hident
      have hdefinedStop : defined.span.stop = headerClosing.span.start := hclosing
      simp only [Definition.span, Span.through]
      omega
    · intro x hx
      rw [Definition.subjects_eq] at hx
      rcases List.mem_cons.mp hx with rfl | hx
      · exact htiled
      · obtain ⟨d, hd, hx⟩ := List.mem_flatMap.mp hx
        exact (hrules d hd).2 x hx

theorem covers_item {definitions : Bool} {i : Item}
    (hi : ItemRead definitions (Covers Node.span Node.subjects) i ts rest) :
    Covers Item.span Item.subjects i ts rest := by
  cases hi with
  | definition _ hd => exact covers_definition hd
  | node hn =>
    cases hn with
    | construct hn => exact covers_construct hn
    | text _ _ => exact covers_text
    | misplaced _ _ => exact covers_misplaced

end Layer

theorem nodeWithin_covers (levels : Nat) :
    (nodeWithin levels).production.Ensures (Covers Node.span Node.subjects) := by
  refine nodeWithin_ensures (R := fun _ => Covers Node.span Node.subjects) ?_ ?_ levels
  · intro n ts rest h
    cases h with
    | quotation hq => exact covers_quotation hq
    | text _ _ _ _ => exact covers_text
    | misplaced _ _ _ => exact covers_misplaced
  · intro levels n ts rest h
    cases h with
    | construct hn => exact covers_construct hn
    | text _ _ => exact covers_text

theorem Subject.Tiled.span_le {x : Subject} (h : x.Tiled) : x.span.start ≤ x.span.stop := by
  cases x with
  | node n => exact h
  | text t => exact h
  | misplaced t => exact h
  | quotation q => exact Span.Contiguous.le h
  | block b => exact Span.Contiguous.le h
  | command c => exact Span.Contiguous.le h
  | script operator operand => exact Span.Contiguous.le h
  | clause c =>
    obtain ⟨hbetween, hle, -⟩ := h.closing
    exact Nat.le_trans h.keyword.le (Nat.le_trans hbetween hle)
  | definition d =>
    obtain ⟨hbetween, hle, -⟩ := h.bodyClosing
    have hheader := h.keyword.le
    have hclosing := h.headerClosing
    have hbody := h.bodyOpening.le
    simp only [Subject.span, Definition.span, Span.through]
    omega

namespace Document

/-- How a document lies over the tokens it is read from, which fill the range between two
offsets. -/
structure Tiling (definitions : Bool) (ts : List Token) (start stop : Nat) : Prop where
  leftover : ((itemReader definitions).many ts).2 = []
  items : Span.Contiguous start ((ofTokens definitions ts).map Item.span) stop
  parts : ∀ x ∈ (ofTokens definitions ts).subjects, x.Tiled
  spans : ∀ x ∈ (ofTokens definitions ts).subjects, x.span.start ≤ x.span.stop
  tokens : (ofTokens definitions ts).WithoutRules → (ofTokens definitions ts).tokens = ts

theorem tiling_ofTokens (definitions : Bool) {ts : List Token} {start stop : Nat}
    (h : Span.Contiguous start (ts.map Token.span) stop) : Tiling definitions ts start stop := by
  have hchain := (ofTokens_chain definitions (nodeWithin_covers _) ts).mono
    fun hi => covers_item hi
  obtain ⟨mid, hitems, hend, hall⟩ := Covers.chain hchain h
  obtain rfl : mid = stop := hend
  have hparts : ∀ x ∈ (ofTokens definitions ts).subjects, x.Tiled := by
    intro x hx
    rw [subjects_eq] at hx
    obtain ⟨i, hi, hx⟩ := List.mem_flatMap.mp hx
    exact hall i hi x hx
  exact
    { leftover := leftover_eq_nil definitions ts
      items := hitems
      parts := hparts
      spans := fun x hx => (hparts x hx).span_le
      tokens := tokens_ofTokens definitions ts }

/-- Every document tiles its tokens, and the document of a source text tiles the text: where it
has neither clauses nor definitions, the text can be read off the tree. -/
theorem tiles_source :
    (∀ (definitions : Bool) (ts : List Token) (start stop : Nat),
      Span.Contiguous start (ts.map Token.span) stop → Tiling definitions ts start stop) ∧
    ∀ source : String, Tiling true (Token.ofSource source) 0 source.utf8ByteSize ∧
      ((ofSource source).WithoutRules →
        Token.joinedText (ofSource source).tokens = source) := by
  refine ⟨fun definitions ts start stop h => tiling_ofTokens definitions h, ?_⟩
  intro source
  refine ⟨tiling_ofTokens true (Token.contiguous_ofSource source), ?_⟩
  intro h
  rw [ofSource, tokens_ofTokens true _ h, Token.joinedText_ofSource]

theorem tiles_source_clause :
    (Span.Contiguous 0 ((Token.ofSource "\\a\\where!\x7bx=>y\x7d(").map Token.span) 16 ∧
      Tiling false (Token.ofSource "\\a\\where!\x7bx=>y\x7d(") 0 16) ∧
    (ofSource "\\x^[)").WithoutRules ∧
      Token.joinedText (ofSource "\\x^[)").tokens = "\\x^[)" := by
  have hts : Span.Contiguous 0
      ((Token.ofSource "\\a\\where!\x7bx=>y\x7d(").map Token.span) 16 := by decide +kernel
  have hrules : (ofSource "\\x^[)").WithoutRules := by decide +kernel
  exact ⟨⟨hts, tiles_source.1 false _ 0 16 hts⟩, hrules, (tiles_source.2 _).2 hrules⟩

end Document

end AcademicMarkup
