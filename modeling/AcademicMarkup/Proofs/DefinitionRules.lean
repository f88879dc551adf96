import AcademicMarkup.Proofs.BracketMachine
import AcademicMarkup.Proofs.MarkedSpans
import AcademicMarkup.Proofs.NormalForm
import AcademicMarkup.Proofs.ReadParts

/-!
The rules of a definition. They are cut out of the body wherever an arrow stands between two nodes,
and so a node could belong to two of them. It never does: the pattern of a rule is a block in square
brackets, the arrow is text and the target is a block in braces, so neither the arrow nor the target
begins another rule. The rules therefore lie one after the other in the body, and in each of them
the brackets of the pattern, the binders, the arrow and the target do.
-/
namespace AcademicMarkup

open Production Grammar

/-! What a rule and a binder consist of. -/

theorem Token.text_of_opens? {t : Token} {kind : Enclosure} (h : t.opens? = some kind) :
    t.text = kind.opening := by
  have htest := List.find?_some h
  exact (beq_iff_eq.mp htest).symm

theorem Token.text_of_closes? {t : Token} {kind : Enclosure} (h : t.closes? = some kind) :
    t.text = kind.closing := by
  have htest := List.find?_some h
  exact (beq_iff_eq.mp htest).symm

/-- A block of a kind has both brackets of the kind. -/
theorem Block.brackets_of_kind? {b : Block} {kind : Enclosure} (h : b.kind? = some kind) :
    ∃ closing, b.closing = some closing ∧ b.opening.pairsWith closing ∧
      b.opening.text = kind.opening ∧ closing.text = kind.closing := by
  obtain ⟨opening, children, closing⟩ := b
  cases closing with
  | none => simp [Block.kind?] at h
  | some closing =>
    by_cases hpairs : opening.pairsWith closing
    · obtain ⟨kind', hopens, hcloses⟩ := Token.pairsWith_iff.mp hpairs
      obtain rfl : kind' = kind := by simpa [Block.kind?, hpairs, hopens] using h
      exact ⟨closing, rfl, hpairs, Token.text_of_opens? hopens, Token.text_of_closes? hcloses⟩
    · simp [Block.kind?, hpairs] at h

theorem Block.brackets_of_isKind {b : Block} {kind : Enclosure} (h : b.isKind kind) :
    ∃ closing, b.closing = some closing ∧ b.opening.pairsWith closing ∧
      b.opening.text = kind.opening ∧ closing.text = kind.closing :=
  brackets_of_kind? (beq_iff_eq.mp h)

/-- A binder is a variable alone between two brackets. -/
theorem Grammar.parts_of_binder? {n : Node} {b : Binder} (h : binder? n = some b) :
    n = .block ⟨b.opening, [.text b.name], some b.closing⟩ ∧ b.opening.pairsWith b.closing ∧
      b.name.isVariable := by
  simp only [binder?, Option.bind_eq_bind, Option.bind_eq_some_iff] at h
  obtain ⟨⟨opening, children, closing?⟩, hblock, kind, hkind, name, hname, closing, hclosing, h⟩ :=
    h
  obtain rfl : closing? = some closing := hclosing
  split at h
  · rename_i hvariable
    obtain rfl := by simpa using h
    obtain ⟨_, hclosing, hpairs, -⟩ := Block.brackets_of_kind? hkind
    obtain rfl := Option.some.inj hclosing
    obtain ⟨only, honly, htoken⟩ := Option.bind_eq_some_iff.mp hname
    have hchildren : children = [only] := by
      rcases children with _ | ⟨m, _ | ⟨_, _⟩⟩
      · simp [Block.onlyChild?] at honly
      · simpa [Block.onlyChild?] using honly
      · simp [Block.onlyChild?] at honly
    have htext : only = .text name := by
      cases only with
      | text t => exact congrArg Node.text (Option.some.inj htoken)
      | quotation q => simp [Node.token?] at htoken
      | misplaced t => simp [Node.token?] at htoken
      | command c => simp [Node.token?] at htoken
      | block b => simp [Node.token?] at htoken
      | definition d => simp [Node.token?] at htoken
    refine ⟨?_, hpairs, hvariable⟩
    rw [eq_block_of_block? hblock, hchildren, htext]
  · simp at h

/-! No node belongs to two rules. -/

/-- Whether the rule has the form of a definition's. -/
def RewriteRule.defines (r : RewriteRule) : Bool := (definitionRule? r).isSome

def RewriteRule.nodes (r : RewriteRule) : List Node := [r.pattern, .text r.arrow, r.target]

def Node.isBlockOf (kind : Enclosure) (n : Node) : Bool := n.block?.any (·.isKind kind)

theorem RewriteRule.isBlockOf_of_defines {r : RewriteRule} (h : r.defines) :
    r.pattern.isBlockOf .bracket ∧ r.target.isBlockOf .brace := by
  obtain ⟨d, hd⟩ := Option.isSome_iff_exists.mp h
  obtain ⟨children, hpattern, hbracket, -, -, htarget, hbrace⟩ := parts_of_definitionRule? hd
  rw [hpattern, htarget]
  exact ⟨hbracket, hbrace⟩

theorem Node.not_isBlockOf_of_ne {n : Node} {kind other : Enclosure} (h : n.isBlockOf kind)
    (hne : other ≠ kind) : ¬ n.isBlockOf other := by
  intro hother
  cases hblock : n.block? with
  | none => simp [isBlockOf, hblock] at h
  | some b =>
    simp only [isBlockOf, hblock, Option.any_some, Block.isKind, beq_iff_eq] at h hother
    exact hne (Option.some.inj (hother.symm.trans h))

theorem Node.not_isBlockOf_of_arrow? {n : Node} {arrow : Token} (h : n.arrow? = some arrow)
    (kind : Enclosure) : ¬ n.isBlockOf kind := by
  rw [Node.eq_text_of_arrow? h]
  simp [isBlockOf, Node.block?]

/-- Only a block in square brackets is the pattern of a rule. -/
theorem filter_defines_cons {n : Node} (hn : ¬ n.isBlockOf .bracket) (ns : List Node) :
    (rules (n :: ns)).filter RewriteRule.defines = (rules ns).filter RewriteRule.defines := by
  rcases ns with _ | ⟨middle, _ | ⟨target, rest⟩⟩
  · rfl
  · rfl
  · rw [rules_cons, List.filter_append]
    cases middle.arrow? with
    | none => rfl
    | some arrow =>
      have hrule : ¬ (RewriteRule.mk n arrow target).defines :=
        fun h => hn (RewriteRule.isBlockOf_of_defines h).1
      simp [hrule]

/-- After a rule the next one begins behind its target. -/
theorem filter_defines_rule {pattern middle target : Node} {arrow : Token}
    (harrow : middle.arrow? = some arrow) (h : (RewriteRule.mk pattern arrow target).defines)
    (rest : List Node) :
    (rules (pattern :: middle :: target :: rest)).filter RewriteRule.defines =
      ⟨pattern, arrow, target⟩ :: (rules rest).filter RewriteRule.defines := by
  have htarget := Node.not_isBlockOf_of_ne (RewriteRule.isBlockOf_of_defines h).2
    (show Enclosure.bracket ≠ .brace by decide)
  rw [rules_cons, harrow, List.filter_append,
    filter_defines_cons (Node.not_isBlockOf_of_arrow? harrow _), filter_defines_cons htarget]
  simp [h]

theorem nodes_sublist (ns : List Node) :
    (((rules ns).filter RewriteRule.defines).flatMap RewriteRule.nodes).Sublist ns := by
  -- a rule takes three nodes at once, so the induction is on the number of nodes
  induction hlength : ns.length using Nat.strong_induction_on generalizing ns with
  | h length ih =>
    rcases ns with _ | ⟨pattern, _ | ⟨middle, _ | ⟨target, rest⟩⟩⟩
    · exact List.Sublist.slnil
    · exact List.nil_sublist _
    · exact List.nil_sublist _
    · have hskip := ih _ (by simp [← hlength]) (middle :: target :: rest) rfl
      have htake := ih _ (by simp only [← hlength, List.length_cons]; omega) rest rfl
      cases harrow : middle.arrow? with
      | none =>
        rw [rules_cons, harrow]
        exact hskip.cons pattern
      | some arrow =>
        by_cases hrule : (RewriteRule.mk pattern arrow target).defines
        · rw [filter_defines_rule harrow hrule, Node.eq_text_of_arrow? harrow]
          exact htake.append_left [pattern, .text arrow, target]
        · rw [rules_cons, harrow, List.filter_append]
          simpa [hrule] using hskip.cons pattern

/-! The places of the parts of a rule. -/

def Binder.spans (b : Binder) : List Span := [b.opening.span, b.name.span, b.closing.span]

/-- The spans of the parts of a rule, the binders between the brackets of the pattern. -/
def DefinitionRule.spans (r : DefinitionRule) : List Span :=
  r.patternOpening.span :: r.binders.flatMap Binder.spans ++
    [r.patternClosing.span, r.arrow.span, r.target.span]

theorem binder_tiled {n : Node} {b : Binder} (h : binder? n = some b)
    (hn : ∀ x ∈ n.subjects, x.Tiled) : Span.Contiguous n.span.start b.spans n.span.stop := by
  obtain ⟨rfl, -, -⟩ := parts_of_binder? h
  exact hn (.block ⟨b.opening, [.text b.name], some b.closing⟩) (by simp)

theorem binders_ordered {children : List Node} {start stop : Nat}
    (h : Span.Contiguous start (children.map Node.span) stop)
    (hall : ∀ n ∈ children, ∀ x ∈ n.subjects, x.Tiled) :
    Span.Ordered start (((Node.nonBlank children).filterMap binder?).flatMap Binder.spans)
      stop := by
  have hspans := nonBlank_spans h
  rw [List.map_eq_flatMap] at hspans
  rw [flatMap_filterMap]
  refine hspans.flatMap fun n hn start stop hself => ?_
  cases hbinder : binder? n with
  | none => exact hself.le
  | some b =>
    have htiled := binder_tiled hbinder (hall n (List.mem_of_mem_filter hn))
    simpa using hself.refine htiled.ordered

theorem Block.mem_subjects_of_child {b : Block} {n : Node} (hn : n ∈ b.children) {x : Subject}
    (hx : x ∈ n.subjects) : x ∈ (Node.block b).subjects :=
  List.mem_cons_of_mem _ (b.subset_subjects (List.mem_flatMap.mpr ⟨n, hn, hx⟩))

/-- The parts of a rule lie within the three nodes it is made of. -/
theorem rule_ordered {r : RewriteRule} {d : DefinitionRule} (h : definitionRule? r = some d)
    (hpattern : ∀ x ∈ r.pattern.subjects, x.Tiled) {start stop : Nat}
    (hnodes : Span.Ordered start (r.nodes.map Node.span) stop) :
    Span.Ordered start d.spans stop := by
  obtain ⟨children, heq, -, hbinders, harrow, htarget, -⟩ := parts_of_definitionRule? h
  have htiled : Subject.Tiled (.block ⟨d.patternOpening, children, some d.patternClosing⟩) :=
    hpattern _ (by simp [heq])
  obtain ⟨-, hle, hrest⟩ := htiled
  obtain ⟨mid, hchildren, hclosing, hle', hstop⟩ := Span.contiguous_append.mp hrest
  have hall : ∀ n ∈ children, ∀ x ∈ n.subjects, x.Tiled :=
    fun n hn x hx => hpattern x (heq ▸ Block.mem_subjects_of_child hn hx)
  have hinside : Span.Ordered r.pattern.span.start
      (d.patternOpening.span :: d.binders.flatMap Binder.spans ++ [d.patternClosing.span])
      r.pattern.span.stop := by
    rw [heq, hbinders]
    refine ⟨Nat.le_refl _, hle, Span.ordered_append.mpr ⟨mid, ?_, ?_⟩⟩
    · exact binders_ordered hchildren hall
    · exact ⟨Nat.le_of_eq hclosing.symm, hle', Nat.le_refl _⟩
  have hspans : d.spans = d.patternOpening.span :: d.binders.flatMap Binder.spans ++
      [d.patternClosing.span] ++ [r.arrow.span, r.target.span] := by
    simp [DefinitionRule.spans, harrow, htarget, Node.span, Block.span, Node.firstToken,
      Node.lastToken]
  rw [hspans]
  exact hnodes.refine hinside

theorem filterMap_definitionRule? (rs : List RewriteRule) :
    rs.filterMap definitionRule? = (rs.filter RewriteRule.defines).filterMap definitionRule? := by
  rw [List.filterMap_filter]
  refine List.filterMap_congr fun r _ => ?_
  cases hr : definitionRule? r <;> simp [RewriteRule.defines, hr]

/-- The parts of all rules lie one after the other in the body. -/
theorem rules_ordered {body : List Node} {start stop : Nat}
    (h : Span.Contiguous start (body.map Node.span) stop)
    (hall : ∀ n ∈ body, ∀ x ∈ n.subjects, x.Tiled) :
    Span.Ordered start
      (((rules (Node.nonBlank body)).filterMap definitionRule?).flatMap DefinitionRule.spans)
      stop := by
  have hnodes := (nonBlank_spans h).sublist ((nodes_sublist (Node.nonBlank body)).map Node.span)
  rw [List.map_flatMap] at hnodes
  rw [filterMap_definitionRule?, flatMap_filterMap]
  refine hnodes.flatMap fun r hr start stop hself => ?_
  have hpattern := (mem_of_mem_rules (List.mem_of_mem_filter hr)).1
  cases hd : definitionRule? r with
  | none => exact hself.le
  | some d => simpa using rule_ordered hd (hall _ hpattern) hself

/-! What is known of each rule by itself. -/

/-- A pattern in square brackets, an arrow and a terminated target in braces. Each binder is a
variable between two brackets of a kind, with nothing else between them. -/
structure DefinitionRule.WellFormed (r : DefinitionRule) : Prop where
  pattern : r.patternOpening.text = "[" ∧ r.patternClosing.text = "]"
  arrow : r.arrow.text = "=>"
  target : r.target.opening.text = "\x7b" ∧
    ∃ closing, r.target.closing = some closing ∧ closing.text = "\x7d"
  binders : ∀ b ∈ r.binders, b.opening.pairsWith b.closing ∧ b.name.isVariable ∧
    Span.Contiguous b.opening.span.start b.spans b.closing.span.stop

/-- The binders of a pattern come from nodes in it. -/
theorem exists_of_mem_binders {children : List Node} {b : Binder}
    (h : b ∈ (Node.nonBlank children).filterMap binder?) : ∃ n ∈ children, binder? n = some b := by
  obtain ⟨n, hn, hb⟩ := List.mem_filterMap.mp h
  exact ⟨n, List.mem_of_mem_filter hn, hb⟩

theorem rule_wellFormed {ns : List Node} {r : RewriteRule} (hr : r ∈ rules ns)
    {d : DefinitionRule} (h : definitionRule? r = some d)
    (hpattern : ∀ x ∈ r.pattern.subjects, x.Tiled) : d.WellFormed := by
  obtain ⟨children, heq, hbracket, hbinders, harrow, -, hbrace⟩ := parts_of_definitionRule? h
  obtain ⟨_, hclosing, -, hopens, hcloses⟩ := Block.brackets_of_isKind hbracket
  obtain rfl := Option.some.inj hclosing
  obtain ⟨closing, htarget, -, htargetOpens, htargetCloses⟩ := Block.brackets_of_isKind hbrace
  refine ⟨⟨hopens, hcloses⟩, ?_, ⟨htargetOpens, closing, htarget, htargetCloses⟩, ?_⟩
  · rw [← harrow]
    exact arrow_of_mem_rules hr
  · intro b hb
    rw [hbinders] at hb
    obtain ⟨n, hn, hbinder⟩ := exists_of_mem_binders hb
    obtain ⟨hnode, hpairs, hvariable⟩ := parts_of_binder? hbinder
    have htiled := binder_tiled hbinder fun x hx =>
      hpattern x (heq ▸ Block.mem_subjects_of_child hn hx)
    rw [hnode] at htiled
    exact ⟨hpairs, hvariable, htiled⟩

theorem binder_nonempty {n : Node} {b : Binder} (h : binder? n = some b)
    (hpos : ∀ x ∈ n.subjects, ∀ t ∈ x.ownTokens, t.span.start < t.span.stop) :
    ∀ s ∈ b.spans, s.start < s.stop := by
  obtain ⟨rfl, -, -⟩ := parts_of_binder? h
  have hbrackets := hpos (.block ⟨b.opening, [.text b.name], some b.closing⟩) (by simp)
  have hname := hpos (.text b.name) (by simp)
  simp only [Subject.ownTokens, Option.toList_some, List.forall_mem_cons] at hbrackets hname
  simpa [Binder.spans] using ⟨hbrackets.1, hname.1, hbrackets.2.1⟩

theorem Block.span_nonempty {b : Block} (h : Subject.Tiled (.block b))
    (hopening : b.opening.span.start < b.opening.span.stop) : b.span.start < b.span.stop := by
  obtain ⟨hstart, -, hrest⟩ := h
  have hle := hrest.le
  omega

/-- No part of a rule is empty if no token is. -/
theorem rule_nonempty {r : RewriteRule} {d : DefinitionRule} (h : definitionRule? r = some d)
    (htiled : ∀ x ∈ r.target.subjects, x.Tiled)
    (hpos : ∀ n ∈ r.nodes, ∀ x ∈ n.subjects, ∀ t ∈ x.ownTokens, t.span.start < t.span.stop) :
    ∀ s ∈ d.spans, s.start < s.stop := by
  obtain ⟨children, hpattern, -, hbinders, harrow, htarget, -⟩ := parts_of_definitionRule? h
  simp only [RewriteRule.nodes, List.forall_mem_cons, hpattern, harrow, htarget] at hpos htiled
  obtain ⟨hpatternPos, harrowPos, htargetPos, -⟩ := hpos
  have hbrackets := hpatternPos (.block ⟨d.patternOpening, children, some d.patternClosing⟩)
    (List.mem_cons_of_mem _ (Block.mem_subjects_self _))
  simp only [Subject.ownTokens, Option.toList_some, List.forall_mem_cons] at hbrackets
  have hbinderPos : ∀ s ∈ d.binders.flatMap Binder.spans, s.start < s.stop := by
    refine List.forall_mem_flatMap.mpr fun b hb => ?_
    rw [hbinders] at hb
    obtain ⟨n, hn, hbinder⟩ := exists_of_mem_binders hb
    exact binder_nonempty hbinder fun x hx => hpatternPos x (Block.mem_subjects_of_child hn hx)
  have harrowSelf := harrowPos (.text d.arrow) (by simp) d.arrow List.mem_cons_self
  have hself := List.mem_cons_of_mem (.node (.block d.target)) d.target.mem_subjects_self
  have htargetSpan := Block.span_nonempty (htiled _ hself)
    (htargetPos _ hself d.target.opening List.mem_cons_self)
  rw [DefinitionRule.spans, List.cons_append]
  refine List.forall_mem_cons.mpr ⟨hbrackets.1, List.forall_mem_append.mpr ⟨hbinderPos, ?_⟩⟩
  simpa using ⟨hbrackets.2.1, harrowSelf, htargetSpan⟩

/-! The rules of a definition in a document. -/

/-- The parts of the rules lie one after the other between the brackets of the body, so that a
target ends before the next pattern begins, and each rule is well formed. -/
structure Definition.RulesApart (d : Definition) : Prop where
  order : Span.Ordered d.bodyOpening.span.stop (d.rules.flatMap DefinitionRule.spans)
    d.bodyClosing.span.start
  nonempty : ∀ s ∈ d.rules.flatMap DefinitionRule.spans, s.start < s.stop
  targets : d.rules.Pairwise fun r r' => r.target.span.stop ≤ r'.patternOpening.span.start
  wellFormed : ∀ r ∈ d.rules, r.WellFormed

/-- Targets and later patterns are parts in order. -/
theorem targets_pairwise {rs : List DefinitionRule} {start stop : Nat}
    (h : Span.Ordered start (rs.flatMap DefinitionRule.spans) stop) :
    rs.Pairwise fun r r' => r.target.span.stop ≤ r'.patternOpening.span.start := by
  refine (List.pairwise_flatMap.mp h.pairwise).2.imp fun hlt => hlt _ ?_ _ ?_
  · simp [DefinitionRule.spans]
  · simp [DefinitionRule.spans]

/-- What is known of a node: its span and those of its parts, and where its tokens are. -/
abbrev Placed (all : List Token) (n : Node) (ts rest : List Token) : Prop :=
  Covers Node.span Node.subjects n ts rest ∧
    InnerPlaceCases.Settled (Takes Node.firstToken Node.lastToken) all
      (fun x => ∀ t ∈ x.ownTokens, t ∈ all) n ts rest

theorem readAs_placed (all : List Token) : ReadAs (Placed all) where
  reads levels _ _ _ h :=
    ⟨nodeWithin_covers levels h, (ownTokens_cases all).ofNodeWithin readAs_takes levels h⟩
  takes h := h.2.1

theorem rulesApart_of_read {all : List Token} {start stop : Nat}
    (hall : Span.Contiguous start (all.map Token.span) stop)
    (hpos : ∀ t ∈ all, t.span.start < t.span.stop) {d : Definition} {ts rest : List Token}
    (hts : ts <:+ all) (hd : DefinitionRead (Placed all) d ts rest) : d.RulesApart := by
  cases hd with
  | @intro keyword headerOpening headerClosing bodyOpening bodyClosing defined body ts mid rest
      _ _ hheader _ hbody =>
    have hmid : mid <:+ all := (takes_block (hheader.mono fun h => h.2.1)).suffix.trans
      ((List.suffix_cons keyword ts).trans hts)
    obtain ⟨before, rfl⟩ := hmid
    rw [List.map_append] at hall
    obtain ⟨_, -, hspans⟩ := Span.contiguous_append.mp hall
    obtain ⟨-, -, hchildren, -, -, htiled⟩ := closed_spans (hbody.mono fun h => h.1) hspans
    have htokens := InnerPlaceCases.children readAs_takes (hbody.mono fun h => h.2)
      (List.suffix_append before mid)
    have horder := rules_ordered hchildren htiled
    have hrule : ∀ d ∈ (rules (Node.nonBlank body)).filterMap definitionRule?,
        ∃ r ∈ rules (Node.nonBlank body), definitionRule? r = some d ∧ ∀ n ∈ r.nodes, n ∈ body := by
      intro d hd
      obtain ⟨r, hr, hrd⟩ := List.mem_filterMap.mp hd
      exact ⟨r, hr, hrd, fun n hn =>
        ((sublist_of_mem_rules hr).trans List.filter_sublist).subset hn⟩
    refine ⟨horder, List.forall_mem_flatMap.mpr fun d hd => ?_, targets_pairwise horder,
      fun d hd => ?_⟩
    · obtain ⟨r, hr, hrd, hnodes⟩ := hrule d hd
      refine rule_nonempty hrd (htiled _ (mem_of_mem_rules hr).2) fun n hn x hx t ht => ?_
      exact hpos t (htokens x (List.mem_flatMap.mpr ⟨n, hnodes n hn, hx⟩) t ht)
    · obtain ⟨r, hr, hrd, -⟩ := hrule d hd
      exact rule_wellFormed hr hrd (htiled _ (mem_of_mem_rules hr).1)

/-- What is to be shown of definitions. -/
def Subject.RulesApart : Subject → Prop
  | .definition d => d.RulesApart
  | _ => True

theorem rulesApart_cases {all : List Token} {start stop : Nat}
    (hall : Span.Contiguous start (all.map Token.span) stop)
    (hpos : ∀ t ∈ all, t.span.start < t.span.stop) :
    PlaceCases (Placed all) all Subject.RulesApart where
  node _ := trivial
  text _ _ _ := trivial
  quotation _ _ := trivial
  misplaced _ _ := trivial
  block _ _ := trivial
  command _ _ := trivial
  script _ _ _ := trivial
  clause _ _ := trivial
  definition hts hd := rulesApart_of_read hall hpos hts hd

namespace Document

theorem subject_of_mem_definitionList {doc : Document} {d : Definition}
    (h : d ∈ doc.definitionList) : .definition d ∈ doc.subjects := by
  obtain ⟨i, hi, heq⟩ := List.mem_filterMap.mp h
  cases i with
  | node n => simp at heq
  | definition d' =>
    obtain rfl : d' = d := by simpa using heq
    rw [subjects_eq]
    exact List.mem_flatMap.mpr ⟨_, hi, by simp [d'.subjects_eq]⟩

/-- The rules of a definition share no part: the brackets of their patterns, the binders, the arrows
and the targets lie one after the other between the brackets of the body. -/
theorem definition_rules_apart (source : String) (d : Definition)
    (hd : .definition d ∈ (ofSource source).subjects) : d.RulesApart :=
  (rulesApart_cases (Token.contiguous_ofSource source)
    fun _ ht => Token.start_lt_stop_of_mem_ofSource ht).ofTokens (readAs_placed _) true _ hd

/-- A definition in which two arrows stand around a block in braces, and two around one in square
brackets. -/
theorem definition_rules_apart_chained :
    ∃ d, .definition d ∈ (ofSource
        "\\macroRules![\\v]\x7b[\x7b$x\x7d($y)] => \x7ba\x7d => [] => \x7bb\x7d\x7d").subjects ∧
      d.rules.map (fun r => r.binders.length) = [2, 0] ∧ d.RulesApart := by
  have hrules : ∃ d ∈ (ofSource
      "\\macroRules![\\v]\x7b[\x7b$x\x7d($y)] => \x7ba\x7d => [] => \x7bb\x7d\x7d").definitionList,
      d.rules.map (fun r => r.binders.length) = [2, 0] := by decide +kernel
  obtain ⟨d, hd, hlengths⟩ := hrules
  have hsubject := subject_of_mem_definitionList hd
  exact ⟨d, hsubject, hlengths, definition_rules_apart _ d hsubject⟩

end Document

end AcademicMarkup
