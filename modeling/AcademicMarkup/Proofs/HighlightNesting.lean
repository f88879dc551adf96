import AcademicMarkup.Highlight
import AcademicMarkup.Proofs.LostTokens
import AcademicMarkup.Proofs.MarkedSpans
import AcademicMarkup.Proofs.TakenTokens

/-!
How highlights lie in each other. They are listed as the walk meets them, a construct before all
that it holds, and each of two constructs lies after the other or within it. So the depth that the
walk counts can be read off the list: it is the number of commands before a command that lie around
it.
-/
namespace AcademicMarkup

open Production Grammar

namespace Highlight

def isCommand : Highlight → Bool
  | command _ _ => true
  | definition _ => false
  | quotation _ => false

/-- The number of commands among these that lie around a span. -/
def commandsAround (hs : List Highlight) (s : Span) : Nat :=
  hs.countP fun h => h.isCommand && decide (h.span.Encloses s)

/-- Highlights between two offsets, each before those within it and those after it, where the
commands outside of all the others have the base as their depth. -/
structure Nested (start stop base : Nat) (hs : List Highlight) : Prop where
  within : ∀ h ∈ hs, start ≤ h.span.start ∧ h.span.start < h.span.stop ∧ h.span.stop ≤ stop
  starts : hs.Pairwise fun h g => h.span.start < g.span.start
  laminar : hs.Pairwise fun h g => h.span.stop ≤ g.span.start ∨ h.span.Encloses g.span
  depths : ∀ before h after, hs = before ++ h :: after → h.isCommand →
    h.depth = base + commandsAround before h.span

namespace Nested

variable {start mid stop base : Nat} {hs gs : List Highlight}

theorem nil : Nested start stop base [] where
  within := by simp
  starts := List.Pairwise.nil
  laminar := List.Pairwise.nil
  depths := by simp

theorem mono {start' stop' : Nat} (h : Nested start stop base hs) (hstart : start' ≤ start)
    (hstop : stop ≤ stop') : Nested start' stop' base hs where
  within g hg := by
    have hbounds := h.within g hg
    omega
  starts := h.starts
  laminar := h.laminar
  depths := h.depths

/-- Commands that end before a span do not lie around it. -/
theorem commandsAround_append (h : Nested start mid base hs) {s : Span} (hmid : mid ≤ s.start)
    (hpos : s.start < s.stop) (more : List Highlight) :
    commandsAround (hs ++ more) s = commandsAround more s := by
  have hzero : commandsAround hs s = 0 := by
    refine List.countP_eq_zero.mpr fun g hg => ?_
    have hbounds := h.within g hg
    rw [Bool.and_eq_true, decide_eq_true_eq]
    rintro ⟨-, hstart, hstop⟩
    omega
  rw [commandsAround] at hzero
  rw [commandsAround, List.countP_append, hzero, Nat.zero_add, commandsAround]

theorem append (hhs : Nested start mid base hs) (hgs : Nested mid stop base gs)
    (hle : start ≤ mid) (hle' : mid ≤ stop) : Nested start stop base (hs ++ gs) where
  within := List.forall_mem_append.mpr ⟨(hhs.mono (Nat.le_refl _) hle').within,
    (hgs.mono hle (Nat.le_refl _)).within⟩
  starts := by
    refine List.pairwise_append.mpr ⟨hhs.starts, hgs.starts, fun h hh g hg => ?_⟩
    have hbounds := hhs.within h hh
    have hbounds' := hgs.within g hg
    omega
  laminar := by
    refine List.pairwise_append.mpr ⟨hhs.laminar, hgs.laminar, fun h hh g hg => Or.inl ?_⟩
    have hbounds := hhs.within h hh
    have hbounds' := hgs.within g hg
    omega
  depths := by
    have hright : ∀ front h after, gs = front ++ h :: after → h.isCommand →
        h.depth = base + commandsAround (hs ++ front) h.span := by
      intro front h after heq hcommand
      obtain ⟨hstart, hpos, -⟩ := hgs.within h (by simp [heq])
      rw [hhs.commandsAround_append hstart hpos]
      exact hgs.depths front h after heq hcommand
    intro before h after heq hcommand
    rcases List.append_eq_append_iff.mp heq with ⟨front, rfl, hgs'⟩ | ⟨back, hhs', hback⟩
    · exact hright front h after hgs' hcommand
    · cases back with
      | nil =>
        rw [List.append_nil] at hhs'
        have hdepth := hright [] h after hback.symm hcommand
        rwa [List.append_nil, hhs'] at hdepth
      | cons g back =>
        obtain ⟨rfl, -⟩ := List.cons.inj hback
        exact hhs.depths before h back hhs' hcommand

/-- Things that lie one after the other, with what is highlighted in each. -/
theorem flatMap {α : Type} {span : α → Span} {f : α → List Highlight} {as : List α}
    (hspans : Span.Ordered start (as.map span) stop)
    (h : ∀ a ∈ as, Nested (span a).start (span a).stop base (f a)) :
    Nested start stop base (as.flatMap f) := by
  induction as generalizing start with
  | nil => exact nil
  | cons a as ih =>
    obtain ⟨ha, has⟩ := List.forall_mem_cons.mp h
    obtain ⟨hstart, hle, hrest⟩ := hspans
    rw [List.flatMap_cons]
    exact (ha.mono hstart (Nat.le_refl _)).append (ih hrest has) (Nat.le_trans hstart hle) hrest.le

/-- A construct before what it holds. A command counts for the commands that it holds. -/
theorem cons {h : Highlight} (hinner : Nested mid h.span.stop (base + h.isCommand.toNat) hs)
    (hstart : h.span.start < mid) (hpos : h.span.start < h.span.stop)
    (hdepth : h.isCommand → h.depth = base) :
    Nested h.span.start h.span.stop base (h :: hs) where
  within := List.forall_mem_cons.mpr ⟨⟨Nat.le_refl _, hpos, Nat.le_refl _⟩,
    (hinner.mono (Nat.le_of_lt hstart) (Nat.le_refl _)).within⟩
  starts := by
    refine List.pairwise_cons.mpr ⟨fun g hg => ?_, hinner.starts⟩
    have hbounds := hinner.within g hg
    omega
  laminar := by
    refine List.pairwise_cons.mpr ⟨fun g hg => Or.inr ?_, hinner.laminar⟩
    have hbounds := hinner.within g hg
    exact ⟨by omega, hbounds.2.2⟩
  depths := by
    intro before g after heq hcommand
    cases before with
    | nil =>
      obtain ⟨rfl, -⟩ := List.cons.inj heq
      exact hdepth hcommand
    | cons g' before =>
      obtain ⟨rfl, hhs⟩ := List.cons.inj heq
      have hbounds := hinner.within g (by simp [hhs])
      have hencloses : h.span.Encloses g.span := ⟨by omega, hbounds.2.2⟩
      rw [hinner.depths before g after hhs hcommand, commandsAround, commandsAround,
        List.countP_cons]
      cases h.isCommand with
      | false => simp
      | true =>
        simp only [Bool.toNat_true, Bool.true_and, hencloses, decide_true, if_true]
        omega

end Nested

end Highlight

/-! What is highlighted in each construct. -/

section Equations

open Highlight

def Node.highlights (scope : Scope) (n : Node) : List Highlight :=
  (n.walk stops scope).filterMap ofVisit?

def Block.highlights (scope : Scope) (b : Block) : List Highlight :=
  (b.walk stops scope).filterMap ofVisit?

def Command.highlights (scope : Scope) (c : Command) : List Highlight :=
  (c.walk stops scope).filterMap ofVisit?

def Argument.highlights (scope : Scope) (a : Argument) : List Highlight :=
  (a.walk stops scope).filterMap ofVisit?

def Item.highlights (i : Item) : List Highlight := (i.walk stops).filterMap ofVisit?

theorem Node.filterMap_walkAll (scope : Scope) (ns : List Node) :
    (Node.walkAll stops scope ns).filterMap ofVisit? = ns.flatMap (Node.highlights scope) := by
  induction ns with
  | nil => rfl
  | cons n ns ih =>
    rw [Node.walkAll, List.filterMap_append, ih, List.flatMap_cons, Node.highlights]

theorem Block.highlights_eq (scope : Scope) (b : Block) :
    b.highlights scope = b.children.flatMap (Node.highlights scope) := by
  obtain ⟨opening, children, closing⟩ := b
  exact Node.filterMap_walkAll scope children

theorem Argument.filterMap_walkAll (scope : Scope) (as : List Argument) :
    (Argument.walkAll stops scope as).filterMap ofVisit? =
      as.flatMap (Argument.highlights scope) := by
  induction as with
  | nil => rfl
  | cons a as ih =>
    rw [Argument.walkAll, List.filterMap_append, ih, List.flatMap_cons, Argument.highlights]

/-- The clause of a command is met and not entered. -/
theorem Command.highlights_eq (scope : Scope) (c : Command) :
    c.highlights scope = .command c scope.depth ::
      c.arguments.flatMap (Argument.highlights (scope.push c.name)) := by
  obtain ⟨ident, arguments, clause⟩ := c
  have hclause :
      (Clause.walkOption stops (scope.push ident.text) clause).filterMap ofVisit? = [] := by
    cases clause with
    | none => rfl
    | some clause =>
      cases clause
      rfl
  have harguments := Argument.filterMap_walkAll (scope.push ident.text) arguments
  calc Command.highlights scope ⟨ident, arguments, clause⟩
      = .command ⟨ident, arguments, clause⟩ scope.depth ::
          (Argument.walkAll stops (scope.push ident.text) arguments ++
            Clause.walkOption stops (scope.push ident.text) clause).filterMap ofVisit? := rfl
    _ = _ := by rw [List.filterMap_append, hclause, List.append_nil, harguments]; rfl

theorem Item.highlights_definition (d : Definition) :
    (Item.definition d).highlights = .definition d ::
      (d.rules.map fun r => Node.block r.target).flatMap (Node.highlights .root) := by
  have hrules : (d.rules.flatMap fun r => r.target.walk stops .root).filterMap ofVisit? =
      d.rules.flatMap fun r => r.target.highlights .root := by
    rw [List.filterMap_flatMap]
    rfl
  calc (Item.definition d).highlights
      = (d.walk stops .root).filterMap ofVisit? := rfl
    _ = .definition d ::
          (d.rules.flatMap fun r => r.target.walk stops .root).filterMap ofVisit? := by
        rw [Definition.walk_eq]
        rfl
    _ = _ := by rw [hrules, List.flatMap_map]; rfl

theorem Highlight.ofDocument_eq (doc : Document) :
    Highlight.ofDocument doc = doc.flatMap Item.highlights := by
  rw [Highlight.ofDocument, Document.walk, List.filterMap_flatMap]
  rfl

end Equations

/-! Reading from the tokens of a source text, which follow one another and are not empty. -/

def OnTokens {α : Type} (P : α → Prop) (a : α) (ts _rest : List Token) : Prop :=
  ∀ ⦃start stop : Nat⦄, Span.Contiguous start (ts.map Token.span) stop →
    (∀ t ∈ ts, t.span.start < t.span.stop) → P a

theorem OnTokens.chain {α : Type} {span : α → Span} {subjects : α → List Subject}
    {first last : α → Token} {P : α → Prop} {as : List α} {ts rest : List Token}
    (h : Chain (fun a ts rest => (Covers span subjects a ts rest ∧ Takes first last a ts rest) ∧
      OnTokens P a ts rest) as ts rest) {start stop : Nat}
    (hts : Span.Contiguous start (ts.map Token.span) stop)
    (hpos : ∀ t ∈ ts, t.span.start < t.span.stop) : ∀ a ∈ as, P a := by
  induction h generalizing start with
  | nil ts => simp
  | cons hfirst _ ih =>
    obtain ⟨⟨hcovers, more, rfl, -⟩, hP⟩ := hfirst
    obtain ⟨-, -, hmid, -⟩ := hcovers hts
    refine List.forall_mem_cons.mpr ⟨hP hts hpos, ih hmid fun t ht => hpos t ?_⟩
    exact List.mem_cons_of_mem _ (List.mem_append_right _ ht)

/-- What is highlighted in a thing is nested, with depths from that of the scope on. -/
def Nests {α : Type} (span : α → Span) (highlights : Scope → α → List Highlight) (a : α) : Prop :=
  ∀ scope : Scope, Highlight.Nested (span a).start (span a).stop scope.depth (highlights scope a)

section Layer

/-- What is known of a node that was read: where it lies, which tokens it takes, and how its
highlights lie. -/
abbrev Highlighted (n : Node) (ts rest : List Token) : Prop :=
  (Covers Node.span Node.subjects n ts rest ∧ Takes Node.firstToken Node.lastToken n ts rest) ∧
    OnTokens (Nests Node.span Node.highlights) n ts rest

variable {ts rest : List Token}

theorem nests_children {b : Block} (hb : BlockRead Highlighted b ts rest) {start stop : Nat}
    (hts : Span.Contiguous start (ts.map Token.span) stop)
    (hpos : ∀ t ∈ ts, t.span.start < t.span.stop) :
    ∀ n ∈ b.children, Nests Node.span Node.highlights n := by
  cases hb with
  | closed _ _ hchain =>
    exact OnTokens.chain hchain hts.2.2 (List.forall_mem_cons.mp hpos).2
  | unclosed _ hchain _ =>
    exact OnTokens.chain hchain hts.2.2 (List.forall_mem_cons.mp hpos).2

theorem nests_block {b : Block} (hb : BlockRead Highlighted b ts rest) :
    OnTokens (Nests Block.span Block.highlights) b ts rest := by
  intro start stop hts hpos scope
  have htile : Subject.Tiled (.block b) :=
    (covers_block (hb.mono fun h => h.1.1) hts).2.2.2 _ b.mem_subjects_self
  rw [Block.highlights_eq]
  refine Highlight.Nested.flatMap (htile.ordered.sublist ?_)
    fun n hn => nests_children hb hts hpos n hn scope
  exact (List.sublist_cons_self _ _).trans (List.sublist_append_left _ _)

theorem nests_argument {a : Argument} (ha : ArgumentRead Highlighted a ts rest) :
    OnTokens (Nests Argument.span Argument.highlights) a ts rest := by
  cases ha with
  | block hb => exact nests_block hb
  | script _ _ => exact fun _ _ _ _ _ => Highlight.Nested.nil

theorem nests_arguments {arguments : List Argument}
    (h : Chain (ArgumentRead Highlighted) arguments ts rest) {start stop : Nat}
    (hts : Span.Contiguous start (ts.map Token.span) stop)
    (hpos : ∀ t ∈ ts, t.span.start < t.span.stop) :
    ∀ a ∈ arguments, Nests Argument.span Argument.highlights a := by
  have hchain := h.mono fun ha => And.intro
    (And.intro (covers_argument (ha.mono fun h => h.1.1)) (takes_argument (ha.mono fun h => h.1.2)))
    (nests_argument ha)
  exact OnTokens.chain hchain hts hpos

theorem nests_command {c : Command} (hc : CommandRead Highlighted c ts rest) :
    OnTokens (Nests Command.span Command.highlights) c ts rest := by
  intro start stop hts hpos scope
  have htile : Subject.Tiled (.command c) :=
    (covers_command (hc.mono fun h => h.1.1) hts).2.2.2 _ c.mem_subjects_self
  have hparts : c.ident ∈ ts ∧
      ∀ a ∈ c.arguments, Nests Argument.span Argument.highlights a := by
    cases hc with
    | plain _ _ hchain =>
      exact ⟨List.mem_cons_self, nests_arguments hchain hts.2.2 (List.forall_mem_cons.mp hpos).2⟩
    | withClause _ _ hchain _ =>
      exact ⟨List.mem_cons_self, nests_arguments hchain hts.2.2 (List.forall_mem_cons.mp hpos).2⟩
  obtain ⟨-, -, hrest⟩ := htile
  have hident := hpos c.ident hparts.1
  have hinner : Highlight.Nested c.ident.span.stop c.span.stop (scope.depth + 1)
      (c.arguments.flatMap (Argument.highlights (scope.push c.name))) :=
    Highlight.Nested.flatMap (hrest.ordered.sublist (List.sublist_append_left _ _))
      fun a ha => hparts.2 a ha (scope.push c.name)
  rw [Command.highlights_eq]
  exact Highlight.Nested.cons (h := .command c scope.depth) hinner hident
    (Nat.lt_of_lt_of_le hident hrest.le) fun _ => rfl

theorem nests_quotation {q : Quotation} (hq : quotation ts = some (q, rest)) :
    OnTokens (Nests Node.span Node.highlights) (.quotation q) ts rest := by
  intro start stop hts hpos scope
  have htile : Subject.Tiled (.quotation q) := (covers_quotation hq hts).2.2.2 _ (by simp)
  obtain ⟨-, -, hrest⟩ := htile
  have hopening := hpos q.opening (by simp [quotation_eq hq, Quotation.tokens])
  exact Highlight.Nested.cons (h := .quotation q) Highlight.Nested.nil hopening
    (Nat.lt_of_lt_of_le hopening hrest.le) (by simp [Highlight.isCommand])

theorem nests_construct {n : Node} (hn : ConstructRead Highlighted n ts rest) :
    OnTokens (Nests Node.span Node.highlights) n ts rest := by
  cases hn with
  | quotation hq => exact nests_quotation hq
  | command hc => exact nests_command hc
  | block hb => exact nests_block hb

end Layer

theorem nodeWithin_highlighted (levels : Nat) :
    (nodeWithin levels).production.Ensures Highlighted := by
  refine nodeWithin_ensures_and (R := fun _ => OnTokens (Nests Node.span Node.highlights))
    (fun levels _ _ _ h => ⟨nodeWithin_covers levels h, nodeWithin_takes levels h⟩) ?_ ?_ levels
  · intro n ts rest h
    cases h with
    | quotation hq => exact nests_quotation hq
    | text _ _ _ _ => exact fun _ _ _ _ _ => Highlight.Nested.nil
    | misplaced _ _ _ => exact fun _ _ _ _ _ => Highlight.Nested.nil
  · intro levels n ts rest h
    cases h with
    | construct hn => exact nests_construct hn
    | text _ _ => exact fun _ _ _ _ _ => Highlight.Nested.nil

/-! Of the nodes between the brackets of a definition each is the target of one rule at most. -/

theorem definitionTargets_sublist (rs : List RewriteRule) :
    ((rs.filterMap definitionRule?).map fun d => Node.block d.target).Sublist
      (rs.map RewriteRule.target) := by
  induction rs with
  | nil => exact List.Sublist.slnil
  | cons r rs ih =>
    cases hr : definitionRule? r with
    | none =>
      rw [List.filterMap_cons_none hr]
      exact ih.cons _
    | some d =>
      obtain ⟨_, -, -, htarget⟩ := blocks_of_definitionRule? hr
      rw [List.filterMap_cons_some hr, List.map_cons, List.map_cons, htarget]
      exact ih.cons_cons _

section Items

variable {ts rest : List Token}

theorem nests_definition {d : Definition} (hd : DefinitionRead Highlighted d ts rest) :
    OnTokens (fun d => Highlight.Nested d.span.start d.span.stop 0 (Item.definition d).highlights)
      d ts rest := by
  intro start stop hts hpos
  have htiled : d.Tiled := (covers_definition (hd.mono fun h => h.1.1) hts).2.2.2 (.definition d)
    (by simp [d.subjects_eq])
  cases hd with
  | @intro keyword headerOpening headerClosing bodyOpening bodyClosing defined body ts mid rest
      _ _ hheader _ hbody =>
    obtain ⟨header, hmid, -⟩ := takes_block (hheader.mono fun h => h.1.2)
    obtain ⟨-, -, -, -, hmidSpans, -⟩ := closed_spans (hheader.mono fun h => h.1.1) hts.2.2
    obtain ⟨-, -, hbodySpans, -⟩ := closed_spans (hbody.mono fun h => h.1.1) hmidSpans
    have hmidPos : ∀ t ∈ mid, t.span.start < t.span.stop := by
      intro t ht
      exact hpos t (by simp [hmid, ht])
    have htargets := (definitionTargets_sublist _).trans
      ((targets_sublist (Node.nonBlank body)).trans
        ((List.drop_sublist 2 _).trans List.filter_sublist))
    have hinner := Highlight.Nested.flatMap (hbodySpans.ordered.sublist (htargets.map Node.span))
      fun n hn => nests_children hbody hmidSpans hmidPos n (htargets.subset hn) .root
    -- the body begins after the keyword and the header, and ends with its bracket
    obtain ⟨-, -, hopening, hle, hident, hle', -⟩ := htiled.keyword
    obtain ⟨-, hle₁, hbodyStart, hle₂, -⟩ := htiled.bodyOpening
    obtain ⟨hbetween, hle₃, -⟩ := htiled.bodyClosing
    have hheaderClosing := htiled.headerClosing
    have hkeyword := hpos keyword List.mem_cons_self
    dsimp only at hopening hle hident hle' hle₁ hbodyStart hle₂ hbetween hle₃ hheaderClosing
    rw [Item.highlights_definition]
    refine Highlight.Nested.cons (h := .definition _) (hinner.mono (Nat.le_refl _) hle₃) ?_ ?_
      (by simp [Highlight.isCommand])
    · simp only [Highlight.span, Definition.span, Span.through]
      omega
    · simp only [Highlight.span, Definition.span, Span.through]
      omega

theorem nests_item {definitions : Bool} {i : Item}
    (hi : ItemRead definitions Highlighted i ts rest) :
    OnTokens (fun i => Highlight.Nested i.span.start i.span.stop 0 i.highlights) i ts rest := by
  cases hi with
  | definition _ hd => exact nests_definition hd
  | node hn =>
    intro start stop hts hpos
    cases hn with
    | construct hn => exact nests_construct hn hts hpos .root
    | text _ _ => exact Highlight.Nested.nil
    | misplaced _ _ => exact Highlight.Nested.nil

end Items

namespace Highlight

theorem nested_ofTokens (definitions : Bool) {ts : List Token} {start stop : Nat}
    (hts : Span.Contiguous start (ts.map Token.span) stop)
    (hpos : ∀ t ∈ ts, t.span.start < t.span.stop) :
    Nested start stop 0 (ofDocument (.ofTokens definitions ts)) := by
  have hchain := (Document.ofTokens_chain definitions (nodeWithin_highlighted _) ts).mono
    fun hi => And.intro (And.intro (covers_item (hi.mono fun h => h.1.1))
      (takes_item (hi.mono fun h => h.1.2))) (nests_item hi)
  have hitems := (Document.tiling_ofTokens definitions hts).items
  rw [ofDocument_eq]
  exact Nested.flatMap hitems.ordered (OnTokens.chain hchain hts hpos)

/-- The highlights of a source text begin one after the other, each of two lies after the earlier
one or within it, and the depth of a command is the number of commands before it in the list that
lie around it. -/
theorem ofSource_nested (source : String) :
    (ofSource source).Pairwise (fun h g => h.span.start < g.span.start) ∧
    (ofSource source).Pairwise
      (fun h g => h.span.stop ≤ g.span.start ∨ h.span.Encloses g.span) ∧
    ∀ before h after, ofSource source = before ++ h :: after → h.isCommand →
      h.depth = commandsAround before h.span := by
  have hnested := nested_ofTokens true (Token.contiguous_ofSource source)
    fun t ht => Token.start_lt_stop_of_mem_ofSource ht
  refine ⟨hnested.starts, hnested.laminar, fun before h after heq hcommand => ?_⟩
  rw [hnested.depths before h after heq hcommand, Nat.zero_add]

/-- Two commands in the target of a definition, which is around both but is no command. -/
theorem ofSource_nested_target :
    ∃ d b c, ofSource "\\macroRules![\\v]\x7b[]=>\x7b\\b\x7b\\c\x7d\x7d\x7d" = [d, b, c] ∧
      c.isCommand ∧ c.depth = 1 ∧ commandsAround [d, b] c.span = 1 := by
  have hview : (ofSource "\\macroRules![\\v]\x7b[]=>\x7b\\b\x7b\\c\x7d\x7d\x7d").map
      (fun h => (h.isCommand, h.depth)) = [(false, 0), (true, 0), (true, 1)] := by decide +kernel
  obtain ⟨d, rest, heq, -, hrest⟩ := List.map_eq_cons_iff.mp hview
  obtain ⟨b, rest, rfl, -, hrest⟩ := List.map_eq_cons_iff.mp hrest
  obtain ⟨c, rest, rfl, hc, hrest⟩ := List.map_eq_cons_iff.mp hrest
  obtain rfl := List.map_eq_nil_iff.mp hrest
  obtain ⟨hcommand, hdepth⟩ := Prod.mk.inj hc
  refine ⟨d, b, c, heq, hcommand, hdepth, ?_⟩
  rw [← (ofSource_nested _).2.2 [d, b] c [] heq hcommand, hdepth]

end Highlight

end AcademicMarkup
