import AcademicMarkup.Proofs.BracketMachine
import AcademicMarkup.Proofs.NormalForm
import AcademicMarkup.Proofs.Reading
import AcademicMarkup.Proofs.Subjects

/-!
The blocks of a document are the brackets that a stack machine matches. Where a bracket does not
close the block around it, the reading comes back out of all the blocks, arguments and scripts that
it does not close; the machine pops them one after the other. Quotations, clauses and definitions
take brackets out of this order, and so does the nesting limit.
-/
namespace AcademicMarkup

open Production Grammar BracketMachine

/-- What became of the bracket that the subject is or begins with. -/
def Subject.bracketEvent? : Subject → Option BracketEvent
  | .block ⟨opening, _, some closing⟩ => some (.paired opening closing)
  | .block ⟨opening, _, none⟩ => some (.unclosed opening)
  | .misplaced t => some (.stray t)
  | _ => none

/-- No token begins a quotation, a clause or a definition. -/
def Token.Plain (ts : List Token) : Prop :=
  ∀ t ∈ ts, t.text ≠ "\"" ∧ t.text ≠ "“" ∧ t.text ≠ Token.clauseKeyword ∧
    t.text ≠ Token.definitionKeyword

instance Token.decidablePlain (ts : List Token) : Decidable (Token.Plain ts) :=
  inferInstanceAs (Decidable (∀ t ∈ ts, _))

/-- A token that is misplaced because of the nesting limit. -/
def Subject.isTooDeep : Subject → Bool
  | .misplaced t => t.isOpening || t.isIdentifier
  | _ => false

def Shallow (xs : List Subject) : Prop := ∀ x ∈ xs, ¬ x.isTooDeep

instance decidableShallow (xs : List Subject) : Decidable (Shallow xs) :=
  inferInstanceAs (Decidable (∀ x ∈ xs, _))

/-- What is read with some brackets open accounts for what the machine reports up to the rest, and
has no defect where that is only pairs. -/
def Matches {α : Type} (stack : List Token) (subjects : α → List Subject)
    (defects : α → List Defect) (a : α) (ts rest : List Token) : Prop :=
  Token.Plain ts → Shallow (subjects a) →
    Token.Plain rest ∧
    (reportFrom stack ts).Perm
      ((subjects a).filterMap Subject.bracketEvent? ++ reportFrom stack rest) ∧
    (defects a = [] ↔ ∀ e ∈ (subjects a).filterMap Subject.bracketEvent?, e.isPaired)

theorem Token.Plain.tail {t : Token} {ts : List Token}
    (h : Token.Plain (t :: ts)) : Token.Plain ts :=
  fun u hu => h u (List.mem_cons_of_mem t hu)

theorem Token.Plain.quotation_eq_none {ts : List Token} (h : Token.Plain ts) :
    quotation ts = none := by
  cases ts with
  | nil => rfl
  | cons t ts =>
    obtain ⟨hquote, hquote', -⟩ := h t List.mem_cons_self
    simp [quotation, closingQuote?, hquote, hquote']

theorem Token.notBracket_of_test {t : Token} (test : String → Bool)
    (hbrackets : ∀ text ∈ ["\x7b", "(", "[", "\x7d", ")", "]"], test text = false)
    (h : test t.text) : ¬ t.isOpening ∧ ¬ t.isClosing := by
  have hnot : t.text ∉ ["\x7b", "(", "[", "\x7d", ")", "]"] := by
    intro hmem
    simp [hbrackets _ hmem] at h
  constructor
  · intro hopening
    rcases Token.opening_text hopening with htext | htext | htext <;> simp [htext] at hnot
  · intro hclosing
    rcases Token.closing_text hclosing with htext | htext | htext <;> simp [htext] at hnot

theorem Token.notBracket_of_isIdentifier {t : Token} (h : t.isIdentifier) :
    ¬ t.isOpening ∧ ¬ t.isClosing :=
  notBracket_of_test (fun text => Token.isIdentifier ⟨text, t.span⟩)
    (by simp [Token.isIdentifier]) h

theorem Token.notBracket_of_isScriptOperator {t : Token} (h : t.isScriptOperator) :
    ¬ t.isOpening ∧ ¬ t.isClosing :=
  notBracket_of_test (fun text => Token.isScriptOperator ⟨text, t.span⟩)
    (by simp [Token.isScriptOperator]) h

theorem Shallow.of_subset {xs ys : List Subject} (h : Shallow ys) (hsub : xs ⊆ ys) :
    Shallow xs :=
  fun t ht => h t (hsub ht)

theorem Matches.chain {α : Type} {stack : List Token} {subjects : α → List Subject}
    {defects : α → List Defect} {as : List α} {ts rest : List Token}
    (h : Chain (Matches stack subjects defects) as ts rest) :
    Matches stack (List.flatMap subjects) (List.flatMap defects) as ts rest := by
  induction h with
  | nil ts =>
    intro hts _
    exact ⟨hts, by simp, by simp⟩
  | @cons a as ts mid rest hfirst _ ih =>
    intro hts hshallow
    rw [List.flatMap_cons] at hshallow
    obtain ⟨hmid, hperm, hiff⟩ := hfirst hts (hshallow.of_subset (List.subset_append_left _ _))
    obtain ⟨hrest, hperm', hiff'⟩ := ih hmid (hshallow.of_subset (List.subset_append_right _ _))
    refine ⟨hrest, ?_, ?_⟩
    · rw [List.flatMap_cons, List.filterMap_append, List.append_assoc]
      exact hperm.trans (hperm'.append_left _)
    · simp only [List.flatMap_cons, List.append_eq_nil_iff, hiff, hiff', List.filterMap_append,
        List.mem_append]
      exact ⟨fun ⟨hl, hr⟩ e he => he.elim (hl e) (hr e),
        fun h => ⟨fun e he => h e (Or.inl he), fun e he => h e (Or.inr he)⟩⟩

section Layer

variable {ts rest : List Token}

/-- Nodes match whatever brackets are open around them. -/
def NodeMatches (n : Node) (ts rest : List Token) : Prop :=
  ∀ stack : List Token, Matches stack Node.subjects Node.defects n ts rest

theorem matches_block {b : Block} (hb : BlockRead NodeMatches b ts rest) (stack : List Token) :
    Matches stack Block.subjects Block.defects b ts rest := by
  intro hts hshallow
  cases hb with
  | @closed opening closing children ts rest hopening hpairs hchain =>
    have hchildren := Matches.chain (hchain.mono fun hn => hn (opening :: stack))
    rw [Block.subjects_mk] at hshallow
    obtain ⟨hrest, hperm, hiff⟩ := hchildren hts.tail
      (hshallow.of_subset (List.subset_cons_self _ _))
    refine ⟨hrest.tail, ?_, ?_⟩
    · rw [reportFrom_opening hopening]
      rw [reportFrom_paired hpairs] at hperm
      simpa [List.filterMap_cons, Subject.bracketEvent?] using hperm.trans List.perm_middle
    · simpa [Block.defects, Node.defectsAll_eq, Subject.bracketEvent?,
        BracketEvent.isPaired] using hiff
  | @unclosed opening children ts rest hopening hchain hstop =>
    have hchildren := Matches.chain (hchain.mono fun hn => hn (opening :: stack))
    rw [Block.subjects_mk] at hshallow
    obtain ⟨hrest, hperm, -⟩ := hchildren hts.tail
      (hshallow.of_subset (List.subset_cons_self _ _))
    refine ⟨hrest, ?_, ?_⟩
    · rw [reportFrom_opening hopening]
      rw [reportFrom_unclosed hstop] at hperm
      simpa [List.filterMap_cons, Subject.bracketEvent?] using hperm.trans List.perm_middle
    · simp [Block.defects, Subject.bracketEvent?, BracketEvent.isPaired]

theorem matches_argument {a : Argument} (ha : ArgumentRead NodeMatches a ts rest)
    (stack : List Token) : Matches stack Argument.subjects Argument.defects a ts rest := by
  cases ha with
  | block hb => exact matches_block hb stack
  | @script operator operand ts rest hoperator hoperand =>
    intro hts hshallow
    obtain ⟨hopening, hclosing⟩ := Token.notBracket_of_isScriptOperator hoperator
    rw [Argument.subjects_script] at hshallow ⊢
    obtain ⟨hrest, hperm, hiff⟩ := hoperand stack hts.tail
      (hshallow.of_subset (List.subset_cons_self _ _))
    refine ⟨hrest, ?_, ?_⟩
    · rw [reportFrom_other hopening hclosing]
      simpa [List.filterMap_cons, Subject.bracketEvent?] using hperm
    · simpa [Argument.defects, Subject.bracketEvent?] using hiff

theorem matches_command {c : Command} (hc : CommandRead NodeMatches c ts rest)
    (stack : List Token) : Matches stack Command.subjects Command.defects c ts rest := by
  intro hts hshallow
  have harguments : ∀ {as : List Argument} {ts rest : List Token},
      Chain (ArgumentRead NodeMatches) as ts rest →
      Matches stack (List.flatMap Argument.subjects) (List.flatMap Argument.defects) as ts rest :=
    fun h => Matches.chain (h.mono fun ha => matches_argument ha stack)
  cases hc with
  | @plain ident arguments ts rest hident _ hchain =>
    obtain ⟨hopening, hclosing⟩ := Token.notBracket_of_isIdentifier hident
    rw [Command.subjects_mk] at hshallow ⊢
    simp only [Option.toList_none, List.flatMap_nil, List.append_nil] at hshallow ⊢
    obtain ⟨hrest, hperm, hiff⟩ := harguments hchain hts.tail
      (hshallow.of_subset (List.subset_cons_self _ _))
    refine ⟨hrest, ?_, ?_⟩
    · rw [reportFrom_other hopening hclosing]
      simpa [List.filterMap_cons, Subject.bracketEvent?] using hperm
    · simpa [Command.defects, Argument.defectsAll_eq, Subject.bracketEvent?] using hiff
  | @withClause ident arguments clause ts mid rest _ _ hchain hclause =>
    -- the keyword of a clause is not among the tokens
    have hmid := (harguments hchain hts.tail
      (hshallow.of_subset (by simp [Command.subjects_mk]))).1
    cases hclause with
    | intro hkeyword _ _ => exact absurd hkeyword (hmid _ List.mem_cons_self).2.2.1

theorem matches_construct {n : Node} (hn : ConstructRead NodeMatches n ts rest) :
    NodeMatches n ts rest := by
  intro stack hts hshallow
  cases hn with
  | quotation hq => simp [hts.quotation_eq_none] at hq
  | command hc =>
    exact matches_command hc stack hts (hshallow.of_subset (List.subset_cons_self _ _))
  | block hb => exact matches_block hb stack hts (hshallow.of_subset (List.subset_cons_self _ _))

theorem matches_text {t : Token} (hopening : ¬ t.isOpening) (hclosing : ¬ t.isClosing) :
    NodeMatches (.text t) (t :: rest) rest := by
  intro stack hts _
  refine ⟨hts.tail, ?_, ?_⟩
  · rw [reportFrom_other hopening hclosing]
    simp [List.filterMap_cons, Subject.bracketEvent?]
  · simp [Node.defects, Subject.bracketEvent?]

theorem matches_item {definitions : Bool} {i : Item}
    (hi : ItemRead definitions NodeMatches i ts rest) :
    Matches [] Item.subjects Item.defects i ts rest := by
  cases hi with
  | definition _ hd =>
    intro hts _
    cases hd with
    | intro hkeyword _ _ _ _ => exact absurd hkeyword (hts _ List.mem_cons_self).2.2.2
  | node hn =>
    cases hn with
    | construct hn => exact matches_construct hn []
    | text hbegins hclosing => exact matches_text hbegins.opening hclosing []
    | @misplaced t rest _ hclosing =>
      intro hts _
      refine ⟨hts.tail, ?_, ?_⟩
      · rw [reportFrom_stray hclosing]
        simp [List.filterMap_cons, Subject.bracketEvent?]
      · simp [Item.defects, Node.defects, Subject.bracketEvent?, BracketEvent.isPaired]

end Layer

theorem nodeWithin_matches (levels : Nat) :
    (nodeWithin levels).production.Ensures NodeMatches := by
  refine nodeWithin_ensures (R := fun _ => NodeMatches) ?_ ?_ levels
  · intro n ts rest h
    cases h with
    | quotation hq =>
      intro stack hts _
      simp [hts.quotation_eq_none] at hq
    | text _ hopening _ hclosing => exact matches_text hopening hclosing
    | @misplaced t rest _ hbegins _ =>
      intro stack _ hshallow
      have htoo := hshallow (.misplaced t) (by simp)
      simp only [Subject.isTooDeep, Bool.or_eq_true] at htoo
      exact absurd hbegins htoo
  · intro levels n ts rest h
    cases h with
    | construct hn => exact matches_construct hn
    | text hbegins hclosing => exact matches_text hbegins.opening hclosing

/-- The blocks and the misplaced tokens of a document are what the machine reports, and the document
has no defect exactly where its brackets are balanced. -/
theorem Document.blocks_match_brackets (definitions : Bool) (ts : List Token)
    (hts : Token.Plain ts)
    (hshallow : Shallow (Document.ofTokens definitions ts).subjects) :
    ((Document.ofTokens definitions ts).subjects.filterMap Subject.bracketEvent?).Perm
        (ts.foldl step ⟨[], []⟩).report ∧
      ((Document.ofTokens definitions ts).normalForm.defects = [] ↔
        Balanced (Token.brackets ts)) := by
  have hchain := (Document.ofTokens_chain definitions (nodeWithin_matches _) ts).mono
    fun hi => matches_item hi
  rw [Document.subjects_eq] at hshallow ⊢
  obtain ⟨-, hperm, hiff⟩ := Matches.chain hchain hts hshallow
  rw [reportFrom_nil, List.map_nil, List.append_nil] at hperm
  refine ⟨hperm.symm, ?_⟩
  rw [← paired_iff_balanced]
  refine hiff.trans ⟨fun h e he => h e (hperm.mem_iff.mp he),
    fun h e he => h e (hperm.mem_iff.mpr he)⟩

theorem Document.blocks_match_brackets_script :
    Token.Plain (Token.ofSource "\\x^\x7b([\x7d)") ∧
    Shallow (Document.ofTokens true (Token.ofSource "\\x^\x7b([\x7d)")).subjects ∧
    ((Document.ofTokens true (Token.ofSource "\\x^\x7b([\x7d)")).subjects.filterMap
        Subject.bracketEvent?).Perm
      ((Token.ofSource "\\x^\x7b([\x7d)").foldl step ⟨[], []⟩).report ∧
    ((Document.ofTokens true (Token.ofSource "\\x^\x7b([\x7d)")).normalForm.defects = [] ↔
      Balanced (Token.brackets (Token.ofSource "\\x^\x7b([\x7d)"))) := by
  have hts : Token.Plain (Token.ofSource "\\x^\x7b([\x7d)") := by decide +kernel
  have hshallow :
      Shallow (Document.ofTokens true (Token.ofSource "\\x^\x7b([\x7d)")).subjects := by
    decide +kernel
  exact ⟨hts, hshallow, Document.blocks_match_brackets true _ hts hshallow⟩

end AcademicMarkup
