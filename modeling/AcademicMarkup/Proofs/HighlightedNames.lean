import AcademicMarkup.Proofs.BracketMatching
import AcademicMarkup.Proofs.HighlightNesting
import AcademicMarkup.Proofs.ReadParts

/-!
The command names among the highlights. Operands of scripts and rules are not entered, so commands
there are not highlighted by themselves. In a document without them every token that names a command
is highlighted once, in the order of the source, and no other token is: which tokens these are can
be told from the text of a token and from the quotations and misplaced tokens of the document.
-/
namespace AcademicMarkup

/-- Whether the token reads as the name of a command. -/
def Token.isCommandName (t : Token) : Bool :=
  t.isIdentifier && t.text != Token.definitionKeyword

namespace Subject

/-- Whether commands in the part are not highlighted by themselves. -/
def hidesCommands : Subject → Bool
  | script _ _ => true
  | x => x.holdsRules

/-- Whether the part takes a token as it is, whatever it reads: in a quotation, or misplaced. -/
def withholds (t : Token) : Subject → Bool
  | quotation q => q.tokens.contains t
  | misplaced u => u == t
  | _ => false

/-- The token that names the command. -/
def nameTokens : Subject → List Token
  | command c => [c.ident]
  | _ => []

/-- The test tells the name of a command from all other tokens of the part. -/
def SortedBy (names : Token → Bool) (x : Subject) : Prop := x.ownTokens.filter names = x.nameTokens

end Subject

namespace Document

/-- The document has no script, no clause and no definition. -/
def ShowsCommands (doc : Document) : Prop := ∀ x ∈ doc.subjects, ¬ x.hidesCommands

instance decidableShowsCommands (doc : Document) : Decidable doc.ShowsCommands :=
  inferInstanceAs (Decidable (∀ x ∈ doc.subjects, _))

/-- Whether a token of the document reads as a command name and neither stands in a quotation nor
is misplaced. -/
def namesCommand (doc : Document) (t : Token) : Bool :=
  t.isCommandName && !doc.subjects.any (Subject.withholds t)

end Document

/-- The spans of the command names among highlights, in order. -/
def Highlight.commandNames (hs : List Highlight) : List Span :=
  (hs.filter Highlight.isCommand).flatMap Highlight.identifierSpans

namespace Highlight

theorem commandNames_append (hs gs : List Highlight) :
    commandNames (hs ++ gs) = commandNames hs ++ commandNames gs := by
  rw [commandNames, List.filter_append, List.flatMap_append]
  rfl

theorem commandNames_flatMap {α : Type} (f : α → List Highlight) (as : List α) :
    commandNames (as.flatMap f) = as.flatMap fun a => commandNames (f a) := by
  induction as with
  | nil => rfl
  | cons a as ih => rw [List.flatMap_cons, commandNames_append, ih, List.flatMap_cons]

end Highlight

/-! Highlights against tokens, along the tree. -/

/-- What is known of the parts of a construct whose names are compared. -/
def Comparable (names : Token → Bool) (xs : List Subject) : Prop :=
  ∀ x ∈ xs, ¬ x.hidesCommands ∧ x.SortedBy names

theorem Argument.identifierSpansAll_eq_nil {names : Token → Bool} {as : List Argument}
    (h : ∀ a ∈ as, Comparable names a.subjects) : Argument.identifierSpansAll as = [] := by
  induction as with
  | nil => rfl
  | cons a as ih =>
    obtain ⟨ha, has⟩ := List.forall_mem_cons.mp h
    rw [Argument.identifierSpansAll, ih has, List.append_nil]
    cases a with
    | block b => rfl
    | script operator operand => exact absurd rfl (ha (.script operator operand) (by simp)).1

theorem commandNames_flatMap_eq {α : Type} {names : Token → Bool} {tokens : α → List Token}
    {subjects : α → List Subject} {highlights : α → List Highlight} {as : List α}
    (h : ∀ a ∈ as, Comparable names (subjects a) →
      Highlight.commandNames (highlights a) = ((tokens a).filter names).map Token.span)
    (hparts : Comparable names (as.flatMap subjects)) :
    Highlight.commandNames (as.flatMap highlights) =
      ((as.flatMap tokens).filter names).map Token.span := by
  rw [Highlight.commandNames_flatMap, List.filter_flatMap, List.map_flatMap]
  exact List.flatMap_congr fun a ha => h a ha (List.forall_mem_flatMap.mp hparts a ha)

theorem commandNames_highlights (names : Token → Bool) :
    TreeCases
      (fun n => ∀ scope, Comparable names n.subjects →
        Highlight.commandNames (n.highlights scope) = (n.tokens.filter names).map Token.span)
      (fun b => ∀ scope, Comparable names b.subjects →
        Highlight.commandNames (b.highlights scope) = (b.tokens.filter names).map Token.span)
      (fun a => ∀ scope, Comparable names a.subjects →
        Highlight.commandNames (a.highlights scope) = (a.tokens.filter names).map Token.span) where
  text t scope hparts := by
    have ht : [t].filter names = [] := (hparts (.text t) (by simp)).2
    rw [Node.tokens, ht]
    rfl
  quotation q scope hparts := by
    have hq : q.tokens.filter names = [] := (hparts (.quotation q) (by simp)).2
    rw [Node.tokens, hq]
    rfl
  misplaced t scope hparts := by
    have ht : [t].filter names = [] := (hparts (.misplaced t) (by simp)).2
    rw [Node.tokens, ht]
    rfl
  definition d scope hparts := absurd rfl (hparts (.definition d) (by simp [d.subjects_eq])).1
  command ident arguments clause ih scope hparts := by
    rw [Node.subjects_command, Command.subjects_mk] at hparts
    obtain ⟨⟨-, hself⟩, hparts⟩ := List.forall_mem_cons.mp (List.forall_mem_cons.mp hparts).2
    have harguments := (List.forall_mem_append.mp hparts).1
    have hname : [ident].filter names = [ident] := hself
    have hinner := commandNames_flatMap_eq (fun a ha => ih a ha (scope.push ident.text)) harguments
    have hscripts := Argument.identifierSpansAll_eq_nil (List.forall_mem_flatMap.mp harguments)
    calc Highlight.commandNames ((Node.command ⟨ident, arguments, clause⟩).highlights scope)
        = ident.span :: Argument.identifierSpansAll arguments ++ Highlight.commandNames
            (arguments.flatMap (Argument.highlights (scope.push ident.text))) := by
          change Highlight.commandNames (Command.highlights scope ⟨ident, arguments, clause⟩) = _
          rw [Command.highlights_eq]
          rfl
      _ = (([ident] ++ arguments.flatMap Argument.tokens).filter names).map Token.span := by
          rw [hscripts, hinner, List.filter_append, hname]
          rfl
      _ = _ := by rw [Node.tokens, Command.tokens, Argument.tokensAll_eq]; rfl
  block b ih scope hparts := ih scope (List.forall_mem_cons.mp hparts).2
  children opening children closing ih scope hparts := by
    rw [Block.subjects_mk] at hparts
    obtain ⟨⟨-, hself⟩, hparts⟩ := List.forall_mem_cons.mp hparts
    have hinner := commandNames_flatMap_eq (fun n hn => ih n hn scope) hparts
    have hbrackets : ([opening] ++ closing.toList).filter names = [] := hself
    rw [List.filter_append, List.append_eq_nil_iff] at hbrackets
    rw [Block.highlights_eq, hinner, Block.tokens, Node.tokensAll_eq, ← List.singleton_append,
      List.filter_append, List.filter_append, hbrackets.1, hbrackets.2, List.nil_append,
      List.append_nil]
  argument b ih := ih
  script operator operand ih scope hparts :=
    absurd rfl (hparts (.script operator operand) (by simp)).1

namespace Document

theorem ShowsCommands.withoutRules {doc : Document} (h : doc.ShowsCommands) :
    doc.WithoutRules := by
  intro x hx hrules
  refine h x hx ?_
  cases x with
  | clause c => rfl
  | definition d => rfl
  | _ => simp [Subject.holdsRules] at hrules

end Document

/-! Which tokens of a part name a command. -/

namespace Subject

theorem filter_ownTokens (x : Subject) :
    x.ownTokens.filter (fun t => x.nameTokens.contains t) = x.nameTokens := by
  cases x <;> simp [ownTokens, nameTokens]

theorem mem_ownTokens_of_withholds {x : Subject} {t : Token} (h : x.withholds t) :
    t ∈ x.ownTokens := by
  cases x with
  | quotation q => exact List.contains_iff_mem.mp h
  | misplaced u => exact List.mem_singleton.mpr (beq_iff_eq.mp h).symm
  | _ => simp [withholds] at h

theorem not_mem_nameTokens_of_withholds {x : Subject} {t : Token} (h : x.withholds t) :
    t ∉ x.nameTokens := by
  cases x with
  | command c => simp [withholds] at h
  | _ => exact List.not_mem_nil

end Subject

/-- The text of a token that is not withheld says whether it names a command. -/
theorem isCommandName_cases :
    ReadCases fun x => ∀ t ∈ x.ownTokens, x.withholds t ∨ (t.isCommandName ↔ t ∈ x.nameTokens) where
  node n := by simp [Subject.ownTokens]
  text {t ts} hbegins _ := by
    refine List.forall_mem_singleton.mpr (Or.inr ?_)
    simpa [Token.isCommandName, Subject.nameTokens] using hbegins.identifier
  quotation {q ts rest} _ t ht := Or.inl (List.contains_iff_mem.mpr ht)
  misplaced {t} _ := List.forall_mem_singleton.mpr (Or.inl (beq_self_eq_true t))
  block {opening children closing} hopening hpairs t ht := by
    have hbracket : t.isOpening ∨ t.isClosing := by
      rcases List.mem_cons.mp ht with rfl | ht
      · exact Or.inl hopening
      · exact Or.inr (Token.isClosing_of_pairsWith (hpairs t (Option.mem_toList.mp ht)))
    have hident : ¬ t.isIdentifier := by
      intro hident
      obtain ⟨hopening, hclosing⟩ := Token.notBracket_of_isIdentifier hident
      exact hbracket.elim hopening hclosing
    simp [Token.isCommandName, Subject.nameTokens, hident]
  command {ident arguments clause} hident hname := by
    refine List.forall_mem_singleton.mpr (Or.inr ?_)
    simp [Token.isCommandName, hident, hname, Subject.nameTokens]
  script {operator operand} hoperator := by
    refine List.forall_mem_singleton.mpr (Or.inr ?_)
    have hident : ¬ operator.isIdentifier := by
      simp only [Token.isScriptOperator, Bool.or_eq_true, beq_iff_eq] at hoperator
      rcases hoperator with htext | htext <;> simp [Token.isIdentifier, htext]
    simp [Token.isCommandName, Subject.nameTokens, hident]
  clause _ := by simp [Subject.ownTokens]
  definition _ := by simp [Subject.ownTokens]

namespace Document

/-- A token belongs to one part only, so no other part can withhold it. -/
theorem namesCommand_iff {definitions : Bool} {ts : List Token} (hts : ts.Nodup)
    (h : (ofTokens definitions ts).WithoutRules) {x : Subject}
    (hx : x ∈ (ofTokens definitions ts).subjects) {t : Token} (ht : t ∈ x.ownTokens) :
    (ofTokens definitions ts).namesCommand t ↔ t ∈ x.nameTokens := by
  have hnames : (ofTokens definitions ts).namesCommand t ↔
      t.isCommandName ∧ ∀ y ∈ (ofTokens definitions ts).subjects, ¬ y.withholds t := by
    simp [namesCommand]
  rw [hnames]
  rcases isCommandName_cases.ofTokens definitions ts x hx t ht with hwithholds | hiff
  · exact ⟨fun hall => absurd hwithholds (hall.2 x hx),
      fun hmem => absurd hmem (Subject.not_mem_nameTokens_of_withholds hwithholds)⟩
  · rw [hiff]
    refine ⟨And.left, fun hmem => ⟨hmem, fun y hy hwithholds => ?_⟩⟩
    obtain rfl := eq_of_mem_ownTokens hts h hx hy ht (Subject.mem_ownTokens_of_withholds hwithholds)
    exact Subject.not_mem_nameTokens_of_withholds hwithholds hmem

theorem comparable_ofTokens {definitions : Bool} {ts : List Token} (hts : ts.Nodup)
    (h : (ofTokens definitions ts).ShowsCommands) :
    Comparable (ofTokens definitions ts).namesCommand (ofTokens definitions ts).subjects := by
  intro x hx
  refine ⟨h x hx, ?_⟩
  rw [Subject.SortedBy, ← x.filter_ownTokens]
  refine List.filter_congr fun t ht => ?_
  rw [Bool.eq_iff_iff, namesCommand_iff hts h.withoutRules hx ht, List.contains_iff_mem]

end Document

namespace Highlight

theorem commandNames_ofDocument {names : Token → Bool} {doc : Document}
    (h : Comparable names doc.subjects) :
    commandNames (ofDocument doc) = (doc.tokens.filter names).map Token.span := by
  rw [Document.subjects_eq] at h
  rw [ofDocument_eq, Document.tokens]
  refine commandNames_flatMap_eq (fun i hi hparts => ?_) h
  cases i with
  | node n => exact (commandNames_highlights names).node n .root hparts
  | definition d => exact absurd rfl (hparts (.definition d) (by simp [d.subjects_eq])).1

/-- In a source without scripts, clauses and definitions the highlights of commands show the tokens
that name a command, each once and in order. -/
theorem names_shown_once (source : String) (h : (Document.ofSource source).ShowsCommands) :
    ((ofSource source).filter isCommand).flatMap identifierSpans =
      ((Token.ofSource source).filter (Document.ofSource source).namesCommand).map Token.span := by
  have hcomparable := Document.comparable_ofTokens (Token.nodup_ofSource source) h
  have htokens := Document.tokens_ofTokens true (Token.ofSource source) h.withoutRules
  calc ((ofSource source).filter isCommand).flatMap identifierSpans
      = ((Document.ofSource source).tokens.filter
          (Document.ofSource source).namesCommand).map Token.span :=
        commandNames_ofDocument hcomparable
    _ = _ := by rw [Document.ofSource, htokens]

/-- A command in an attribute block, one in a block that is not closed, and two names that are not
highlighted: in a quotation, and the keyword of a definition that is none. -/
theorem names_shown_once_unclosed :
    (Document.ofSource "\\a[\\b]\"\\c\" \\macroRules! (\\d").ShowsCommands ∧
    (((ofSource "\\a[\\b]\"\\c\" \\macroRules! (\\d").filter isCommand).flatMap
        identifierSpans).map (fun s => (s.start, s.stop)) = [(0, 2), (3, 5), (25, 27)] := by
  have hshows : (Document.ofSource "\\a[\\b]\"\\c\" \\macroRules! (\\d").ShowsCommands := by
    decide +kernel
  refine ⟨hshows, ?_⟩
  rw [names_shown_once _ hshows]
  decide +kernel

end Highlight

end AcademicMarkup
