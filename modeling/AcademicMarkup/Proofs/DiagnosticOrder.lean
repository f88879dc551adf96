import AcademicMarkup.Compilation
import AcademicMarkup.Proofs.Denoting
import AcademicMarkup.Proofs.LostTokens
import AcademicMarkup.Proofs.MarkedSpans
import AcademicMarkup.Proofs.SettledForm
import AcademicMarkup.Proofs.TakenTokens

/-!
The order of what is reported. The defects of the structure mark tokens of the source from left to
right, and the problems with commands mark tokens of the normal form: a construct is reported before
anything in it, and then nothing in it is looked at. So within each of the two kinds the diagnostics
stand in the order of the source and none overlaps another.
-/
namespace AcademicMarkup

open Production Grammar

namespace Takes

variable {α : Type} {first last : α → Token} {a : α}

/-- The span of what is read is the hull of the tokens that it takes. -/
theorem hull {taken rest : List Token} (h : Takes first last a (taken ++ rest) rest) :
    Token.hull? taken = some ((first a).span.through (last a).span) := by
  obtain ⟨more, heq, hlast⟩ := h
  obtain rfl : taken = first a :: more := List.append_cancel_right heq
  rw [Token.hull?, hlast]

theorem append_right {ts : List Token} (h : Takes first last a ts []) (rest : List Token) :
    Takes first last a (ts ++ rest) rest := by
  obtain ⟨more, rfl, hlast⟩ := h
  exact ⟨more, by simp, hlast⟩

theorem chain_flatMap {tokens : α → List Token} {as : List α}
    (h : ∀ a ∈ as, Takes first last a (tokens a) []) :
    Chain (Takes first last) as (as.flatMap tokens) [] := by
  induction as with
  | nil => exact Chain.nil []
  | cons a as ih =>
    obtain ⟨ha, has⟩ := List.forall_mem_cons.mp h
    exact Chain.cons (ha.append_right _) (ih has)

/-- Things that take their own tokens end, one after the other, with the last of them. -/
theorem getLastD_flatMap {tokens : α → List Token} {as : List α}
    (h : ∀ a ∈ as, Takes first last a (tokens a) []) (default : Token) :
    (as.flatMap tokens).getLastD default = (as.getLast?.map last).getD default := by
  obtain ⟨taken, heq, hlast⟩ := Takes.chain (chain_flatMap h)
  rw [heq, List.append_nil]
  exact hlast default

end Takes

/-! The defects of the structure. -/

/-- The defects of what is read mark the tokens that it takes. -/
def MarksDefects {α : Type} (defects : α → List Defect) (a : α) (ts rest : List Token) : Prop :=
  ∀ ⦃taken⦄, ts = taken ++ rest → Marks taken ((defects a).map Defect.span)

theorem MarksDefects.chain {α : Type} {first last : α → Token} {defects : α → List Defect}
    {as : List α} {ts rest : List Token}
    (h : Chain (fun a ts rest => Takes first last a ts rest ∧ MarksDefects defects a ts rest)
      as ts rest) : MarksDefects (List.flatMap defects) as ts rest := by
  induction h with
  | nil ts =>
    intro taken _
    exact Marks.nil taken
  | @cons a as ts mid rest hfirst htail ih =>
    intro taken heq
    obtain ⟨⟨more, rfl, -⟩, hmarks⟩ := hfirst
    obtain ⟨taken', rfl, -⟩ := Takes.chain (htail.mono And.left)
    obtain rfl : taken = (first a :: more) ++ taken' :=
      List.append_cancel_right (by simpa using heq.symm)
    rw [List.flatMap_cons, List.map_append]
    exact (hmarks rfl).append (ih rfl)

section Layer

/-- What is known of a node that was read: which tokens it takes and that its defects mark them. -/
abbrev Marked (n : Node) (ts rest : List Token) : Prop :=
  Takes Node.firstToken Node.lastToken n ts rest ∧ MarksDefects Node.defects n ts rest

variable {ts rest : List Token}

theorem marksDefects_block {b : Block} (hb : BlockRead Marked b ts rest) :
    MarksDefects Block.defects b ts rest := by
  have htakes := takes_block (hb.mono And.left)
  intro taken heq
  cases hb with
  | @closed opening closing children ts rest _ _ hchain =>
    obtain ⟨inner, rfl, -⟩ := Takes.chain (hchain.mono And.left)
    obtain rfl : taken = opening :: (inner ++ [closing]) :=
      List.append_cancel_right (by simpa using heq.symm)
    rw [Block.defects, Node.defectsAll_eq]
    exact (MarksDefects.chain hchain rfl).sublist ((List.sublist_append_left inner _).cons _)
  | unclosed _ _ _ =>
    rw [heq] at htakes
    exact Marks.single htakes.hull

theorem marksDefects_argument {a : Argument} (ha : ArgumentRead Marked a ts rest) :
    MarksDefects Argument.defects a ts rest := by
  intro taken heq
  cases ha with
  | block hb => exact marksDefects_block hb heq
  | @script operator operand ts rest _ hoperand =>
    obtain ⟨⟨more, rfl, -⟩, hmarks⟩ := hoperand
    obtain rfl : taken = operator :: (operand.firstToken :: more) :=
      List.append_cancel_right (by simpa using heq.symm)
    exact (hmarks rfl).sublist (List.sublist_cons_self _ _)

/-- The arguments of a command stand right after its name. -/
theorem marksDefects_arguments {ident : Token} {arguments : List Argument} {mid taken : List Token}
    (hchain : Chain (ArgumentRead Marked) arguments ts mid) (hmid : ∃ more, mid = more ++ rest)
    (heq : ident :: ts = taken ++ rest) :
    Marks taken ((arguments.flatMap Argument.defects).map Defect.span) := by
  have hchain := hchain.mono fun ha =>
    And.intro (takes_argument (ha.mono And.left)) (marksDefects_argument ha)
  obtain ⟨inner, rfl, -⟩ := Takes.chain (hchain.mono And.left)
  obtain ⟨more, rfl⟩ := hmid
  obtain rfl : taken = ident :: (inner ++ more) :=
    List.append_cancel_right (by simpa using heq.symm)
  exact (MarksDefects.chain hchain rfl).sublist ((List.sublist_append_left inner _).cons _)

theorem marksDefects_command {c : Command} (hc : CommandRead Marked c ts rest) :
    MarksDefects Command.defects c ts rest := by
  intro taken heq
  cases hc with
  | plain _ _ hchain =>
    rw [Command.defects, Argument.defectsAll_eq]
    exact marksDefects_arguments hchain ⟨[], rfl⟩ heq
  | @withClause _ _ clause _ _ _ _ _ hchain hclause =>
    obtain ⟨more, hmid, -⟩ := takes_clause (hclause.mono And.left)
    rw [Command.defects, Argument.defectsAll_eq]
    exact marksDefects_arguments hchain ⟨clause.keyword :: more, hmid⟩ heq

theorem marksDefects_quotation {q : Quotation} (hq : quotation ts = some (q, rest)) :
    MarksDefects Node.defects (.quotation q) ts rest := by
  intro taken heq
  have htakes := takes_quotation hq
  rw [heq] at htakes
  rw [Node.defects]
  split
  · exact Marks.nil taken
  · exact Marks.single htakes.hull

theorem marksDefects_construct {n : Node} (hn : ConstructRead Marked n ts rest) :
    MarksDefects Node.defects n ts rest := by
  cases hn with
  | quotation hq => exact marksDefects_quotation hq
  | command hc => exact marksDefects_command hc
  | block hb => exact marksDefects_block hb

theorem marksDefects_text (t : Token) : MarksDefects Node.defects (.text t) ts rest :=
  fun taken _ => Marks.nil taken

theorem marksDefects_misplaced {t : Token} :
    MarksDefects Node.defects (.misplaced t) (t :: rest) rest := by
  intro taken heq
  obtain rfl : taken = [t] := List.append_cancel_right heq.symm
  have hspan : (Defect.ofMisplaced t).span = t.span := by
    unfold Defect.ofMisplaced
    split <;> rfl
  rw [Node.defects, List.map_singleton, hspan]
  exact Marks.single rfl

theorem marksDefects_item {definitions : Bool} {i : Item}
    (hi : ItemRead definitions Marked i ts rest) : MarksDefects Item.defects i ts rest := by
  cases hi with
  | definition _ _ => exact fun taken _ => Marks.nil taken
  | node hn =>
    cases hn with
    | construct hn => exact marksDefects_construct hn
    | text _ _ => exact fun taken _ => Marks.nil taken
    | misplaced _ _ => exact marksDefects_misplaced

end Layer

theorem nodeWithin_marked (levels : Nat) : (nodeWithin levels).production.Ensures Marked := by
  refine nodeWithin_ensures_and (R := fun _ => MarksDefects Node.defects) nodeWithin_takes
    ?_ ?_ levels
  · intro n ts rest h
    cases h with
    | quotation hq => exact marksDefects_quotation hq
    | text _ _ _ _ => exact marksDefects_text _
    | misplaced _ _ _ => exact marksDefects_misplaced
  · intro levels n ts rest h
    cases h with
    | construct hn => exact marksDefects_construct hn
    | text _ _ => exact marksDefects_text _

theorem Document.marks_defects (definitions : Bool) (ts : List Token) :
    Marks ts ((ofTokens definitions ts).normalForm.defects.map Defect.span) := by
  have hchain := (ofTokens_chain definitions (nodeWithin_marked _) ts).mono
    fun hi => And.intro (takes_item (hi.mono And.left)) (marksDefects_item hi)
  exact MarksDefects.chain hchain (List.append_nil ts).symm

/-! The problems with commands. -/

/-- What is whole begins with the first of its own tokens and ends with the last. -/
theorem takes_own_tokens :
    PlainCases
      (fun n => (∀ x ∈ n.subjects, x.isWhole) → Takes Node.firstToken Node.lastToken n n.tokens [])
      (fun b => (∀ x ∈ b.subjects, x.isWhole) → Takes Block.opening Block.lastToken b b.tokens [])
      (fun a => (∀ x ∈ a.subjects, x.isWhole) →
        Takes Argument.firstToken Argument.lastToken a a.tokens []) where
  text t _ := takes_text
  quotation q _ := by
    have htakes := takes_quotation_tokens q []
    rwa [List.append_nil] at htakes
  misplaced t _ := takes_misplaced
  command ident arguments clause ih hwhole := by
    simp only [Node.subjects_command, Command.subjects_mk, List.forall_mem_cons,
      List.forall_mem_append, List.forall_mem_flatMap] at hwhole
    obtain ⟨-, hclause, harguments, -⟩ := hwhole
    obtain rfl : clause = none := by simpa [Subject.isWhole] using hclause
    refine ⟨Argument.tokensAll arguments, by rw [List.append_nil]; rfl, ?_⟩
    rw [Argument.tokensAll_eq, Takes.getLastD_flatMap fun a ha => ih a ha (harguments a ha)]
    exact (Argument.lastTokenOr_eq ident arguments).symm
  block b ih hwhole := ih fun x hx => hwhole x (List.mem_cons_of_mem _ hx)
  children opening children closing ih hwhole := by
    rw [Block.subjects_mk, List.forall_mem_cons] at hwhole
    obtain ⟨closing, rfl⟩ := Option.isSome_iff_exists.mp hwhole.1
    refine ⟨Node.tokensAll children ++ [closing], by rw [List.append_nil]; rfl, ?_⟩
    rw [getLastD_append]
    rfl
  argument b ih := ih
  script operator operand ih hwhole := by
    rw [Argument.subjects_script, List.forall_mem_cons] at hwhole
    obtain ⟨more, htokens, hlast⟩ := ih hwhole.2
    refine ⟨operand.tokens, by rw [List.append_nil]; rfl, ?_⟩
    rw [htokens, List.append_nil, List.getLastD_cons, hlast]
    rfl

/-- A command that leaves no content is reported, and that is all it does. -/
theorem Command.denote_eq_problem {table : Definitions} {invoke : Invocation}
    (hinvoke : ∀ c scope, invoke c scope = none) {scope : Scope} {c : Command}
    (h : (c.denote table invoke scope).content = []) :
    ∃ d, c.denote table invoke scope = .problem d ∧ d.span = c.span := by
  obtain ⟨ident, arguments, clause⟩ := c
  rcases @Command.denote_cases table invoke hinvoke scope ident arguments clause with
    ⟨d, -, hdenote⟩ | ⟨builtin, given, -, -, -, hdenote⟩
  · exact ⟨d, hdenote, Command.span_of_denote_eq_problem hinvoke hdenote⟩
  · rw [hdenote] at h
    split at h <;> simp [Meaning.wrap] at h

theorem Block.sublist_tokens (b : Block) : (b.children.flatMap Node.tokens).Sublist b.tokens := by
  obtain ⟨opening, children, closing⟩ := b
  rw [Block.tokens, Node.tokensAll_eq]
  exact ((List.sublist_append_left _ closing.toList).cons opening)

theorem Command.sublist_tokens_of_block {c : Command} {b : Block} (hb : .block b ∈ c.arguments) :
    (b.children.flatMap Node.tokens).Sublist c.tokens := by
  obtain ⟨ident, arguments, clause⟩ := c
  rw [Command.tokens, Argument.tokensAll_eq]
  have hargument : b.tokens.Sublist (arguments.flatMap Argument.tokens) :=
    List.sublist_flatten_of_mem (List.mem_map_of_mem hb)
  exact (b.sublist_tokens.trans hargument).cons ident

/-- Every diagnostic is all that comes of a command. -/
theorem denote_origin (table : Definitions) (invoke : Invocation) :
    DenotationCases table invoke
      (fun n d => ∀ e ∈ d.diagnostics, ∃ c scope, .command c ∈ n.subjects ∧ e.span = c.span ∧
        c.denote table invoke scope = .problem e)
      (fun ns d => ∀ e ∈ d.diagnostics, ∃ c scope, .command c ∈ ns.flatMap Node.subjects ∧
        e.span = c.span ∧ c.denote table invoke scope = .problem e) where
  text t := by simp [Meaning.single]
  quotation q := by simp [Meaning.single]
  misplaced t := by simp [Meaning.single]
  definition d := by simp [Meaning.empty]
  nil := by simp [Meaning.empty]
  cons := by
    intro n ns d e hd he x hx
    rw [List.flatMap_cons]
    rcases List.mem_append.mp hx with hx | hx
    · obtain ⟨c, scope, hc, hrest⟩ := hd x hx
      exact ⟨c, scope, List.mem_append_left _ hc, hrest⟩
    · obtain ⟨c, scope, hc, hrest⟩ := he x hx
      exact ⟨c, scope, List.mem_append_right _ hc, hrest⟩
  block := by
    intro b d hd x hx
    obtain ⟨c, scope, hc, hrest⟩ := hd x hx
    exact ⟨c, scope, List.mem_cons_of_mem _ (b.subset_subjects hc), hrest⟩
  problem := by
    intro c d scope hdenote _ hspan x hx
    obtain rfl := List.mem_singleton.mp hx
    exact ⟨c, scope, by simp [c.mem_subjects_self], hspan, hdenote⟩
  bare := by
    intro c builtin given scope _ _ _ _ x hx
    exact absurd hx List.not_mem_nil
  body := by
    intro c builtin given b d scope _ _ _ _ _ hb hd x hx
    obtain ⟨c', scope', hc', hrest⟩ := hd x hx
    refine ⟨c', scope', ?_, hrest⟩
    exact List.mem_cons_of_mem _ (Command.subset_subjects_of_block hb hc')

theorem marks_denote (table : Definitions) (invoke : Invocation) :
    DenotationCases table invoke
      (fun n d => (∀ x ∈ n.subjects, x.isWhole ∧ x.definition? = none) →
        Marks n.tokens (d.diagnostics.map Diagnostic.span))
      (fun ns d => (∀ x ∈ ns.flatMap Node.subjects, x.isWhole ∧ x.definition? = none) →
        Marks (ns.flatMap Node.tokens) (d.diagnostics.map Diagnostic.span)) where
  text t _ := Marks.nil _
  quotation q _ := Marks.nil _
  misplaced t _ := Marks.nil _
  definition d _ := Marks.nil _
  nil _ := Marks.nil _
  cons := by
    intro n ns d e hd he hwhole
    rw [List.flatMap_cons, List.forall_mem_append] at hwhole
    rw [Meaning.append, List.map_append, List.flatMap_cons]
    exact (hd hwhole.1).append (he hwhole.2)
  block := by
    intro b d hd hwhole
    refine (hd fun x hx => hwhole x ?_).sublist b.sublist_tokens
    exact List.mem_cons_of_mem _ (b.subset_subjects hx)
  problem := by
    intro c d scope _ _ hspan hwhole
    have htakes : Takes Node.firstToken Node.lastToken (.command c) (Node.tokens (.command c)) [] :=
      takes_own_tokens.node (fun x hx => (hwhole x hx).2) fun x hx => (hwhole x hx).1
    rw [← List.append_nil (Node.tokens _)] at htakes
    refine Marks.single ?_
    rw [hspan]
    exact htakes.hull
  bare := by
    intro c builtin given scope _ _ _ _ _
    exact Marks.nil _
  body := by
    intro c builtin given b d scope _ _ _ _ _ hb hd hwhole
    refine (hd fun x hx => hwhole x ?_).sublist (Command.sublist_tokens_of_block hb)
    exact List.mem_cons_of_mem _ (Command.subset_subjects_of_block hb hx)

namespace Document

theorem tokens_eq (doc : Document) : Document.tokens doc = doc.nodes.flatMap Node.tokens := by
  rw [Document.nodes, flatMap_filterMap, Document.tokens]
  refine List.flatMap_congr fun i _ => ?_
  cases i with
  | node n => simp [Item.tokens]
  | definition d => rfl

/-- The problems with the commands of a source mark its tokens. -/
theorem marks_problems (source : String) :
    Marks (Token.ofSource source)
      ((Document.denote (ofSource source).normalForm.definitions
        (ofSource source).normalForm.document).diagnostics.map Diagnostic.span) := by
  have hdoc : NodesDefineNothing (ofSource source) := nodesDefineNothing_ofTokens true _
  have hwhole : ∀ x ∈ nodeSubjects (normal (ofSource source)),
      x.isWhole ∧ x.definition? = none :=
    fun x hx => ⟨nodeSubjects_normal_whole hdoc x hx,
      List.forall_mem_flatMap.mpr hdoc.normal x hx⟩
  have hmarks := (marks_denote (ofSource source).normalForm.definitions _).document
    (ofSource source).normalForm.document hwhole
  rw [← tokens_eq] at hmarks
  exact hmarks.sublist (accounts_ofTokens true (Token.contiguous_ofSource source)).1

end Document

/-! The diagnostics of a source. -/

/-- Diagnostics in the order of a source. Each covers some of its tokens, and none begins before the
one in front of it is over. -/
structure Diagnostic.InOrder (source : String) (ds : List Diagnostic) : Prop where
  marksRun : ∀ d ∈ ds, d.span.MarksRun source
  pairwise : ds.Pairwise fun d e => d.span.stop ≤ e.span.start

namespace Diagnostic

theorem inOrder_of_marks {source : String} {ds : List Diagnostic}
    (h : Marks (Token.ofSource source) (ds.map Diagnostic.span)) : InOrder source ds where
  marksRun _ hd := h.marksRun _ (List.mem_map_of_mem hd)
  pairwise := List.pairwise_map.mp (h.pairwise (Token.pairwise_ofSource source))

/-- Diagnostics in order are not nested. -/
theorem InOrder.filter_encloses {source : String} {ds : List Diagnostic} (h : InOrder source ds)
    {d : Diagnostic} (hd : d ∈ ds) : ds.filter (fun e => d.span.Encloses e.span) = [d] := by
  obtain ⟨before, after, rfl⟩ := List.mem_iff_append.mp hd
  obtain ⟨hbefore, hafter, hcross⟩ := List.pairwise_append.mp h.pairwise
  have hnotBefore : before.filter (fun e => d.span.Encloses e.span) = [] := by
    rw [List.filter_eq_nil_iff]
    intro e he
    have hle := hcross e he d List.mem_cons_self
    have hpos := (h.marksRun e (List.mem_append_left _ he)).nonempty
    rw [decide_eq_true_eq]
    rintro ⟨hstart, hstop⟩
    omega
  have hnotAfter : after.filter (fun e => d.span.Encloses e.span) = [] := by
    rw [List.filter_eq_nil_iff]
    intro e he
    have hle := (List.pairwise_cons.mp hafter).1 e he
    have hpos := (h.marksRun e (List.mem_append_right _ (List.mem_cons_of_mem _ he))).nonempty
    rw [decide_eq_true_eq]
    rintro ⟨hstart, hstop⟩
    omega
  have hself : d.span.Encloses d.span := ⟨Nat.le_refl _, Nat.le_refl _⟩
  rw [List.filter_append, hnotBefore, List.nil_append,
    List.filter_cons_of_pos (by simpa using hself), hnotAfter]

end Diagnostic

namespace Compilation

/-- The diagnostics of a source are the defects of its structure and then the problems with its
commands, and each of the two lists is in the order of the source. A problem with a command is all
that comes of the command, and it is the only one within the span of the command; and a command of
which no content comes is reported with its own span. -/
theorem diagnostics_inOrder (options : Options) (source : String) :
    let normal := (Document.ofSource source).normalForm
    let structural := normal.defects.map Diagnostic.structural
    let problems := (normal.document.denote normal.definitions).diagnostics
    let denote := fun (c : Command) (scope : Scope) =>
      c.denote normal.definitions (Expander.never.invocation normal.definitions 0) scope
    (ofSource options source).diagnostics = structural ++ problems ∧
    Diagnostic.InOrder source structural ∧
    Diagnostic.InOrder source problems ∧
    (∀ d ∈ problems, problems.filter (fun e => d.span.Encloses e.span) = [d] ∧
      ∃ c scope, .command c ∈ Document.nodeSubjects normal.document ∧ d.span = c.span ∧
        denote c scope = .problem d) ∧
    ∀ c scope, (denote c scope).content = [] →
      ∃ d, (denote c scope).diagnostics = [d] ∧ d.span = c.span := by
  intro normal structural problems denote
  have hstructural : Diagnostic.InOrder source structural := by
    refine Diagnostic.inOrder_of_marks ?_
    have hmarks := Document.marks_defects true (Token.ofSource source)
    rwa [show structural.map Diagnostic.span = normal.defects.map Defect.span from List.map_map]
  have hproblems := Diagnostic.inOrder_of_marks (Document.marks_problems source)
  refine ⟨rfl, hstructural, hproblems, ?_, ?_⟩
  · intro d hd
    refine ⟨hproblems.filter_encloses hd, ?_⟩
    exact (denote_origin normal.definitions _).document normal.document d hd
  · intro c scope hcontent
    obtain ⟨d, hdenote, hspan⟩ := Command.denote_eq_problem (fun _ _ => rfl) hcontent
    exact ⟨d, congrArg Meaning.diagnostics hdenote, hspan⟩

theorem diagnostics_inOrder_skipped :
    let normal := (Document.ofSource "\\x\x7b\\y\x7d (\\z").normalForm
    let problems := (normal.document.denote normal.definitions).diagnostics
    Diagnostic.unsupportedCommand "\\x" ⟨0, 6, 1, 1⟩ ∈ problems ∧
      problems.filter (fun e => Span.Encloses ⟨0, 6, 1, 1⟩ e.span) =
        [.unsupportedCommand "\\x" ⟨0, 6, 1, 1⟩] := by
  have hmem : Diagnostic.unsupportedCommand "\\x" ⟨0, 6, 1, 1⟩ ∈
      (Document.denote (Document.ofSource "\\x\x7b\\y\x7d (\\z").normalForm.definitions
        (Document.ofSource "\\x\x7b\\y\x7d (\\z").normalForm.document).diagnostics := by
    decide +kernel
  exact ⟨hmem, ((diagnostics_inOrder .default "\\x\x7b\\y\x7d (\\z").2.2.2.1 _ hmem).1⟩

end Compilation

end AcademicMarkup
