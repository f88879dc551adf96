import AcademicMarkup.Compilation
import AcademicMarkup.Proofs.BracketMatching

/-!
Malformed structure and the errors that it gives. The errors come from one pass over the tree and
the malformed constructs from another, the reading. Outside the rules of clauses and definitions
they are the same: there is an error exactly if an unterminated block or a token beyond the nesting
limit is met, and so a document with either is never complete. What stands in rules is not looked
at.
-/
namespace AcademicMarkup

open Production Grammar

namespace Subject

/-- An unterminated block, or a token that is misplaced because of the nesting limit. -/
def isMalformed (x : Subject) : Bool := x.isUnterminated || x.isTooDeep

/-- What is reported with an error: of misplaced tokens those that do not close. -/
def isReported : Subject → Bool
  | block b => !b.isTerminated
  | misplaced t => !t.isClosing
  | _ => false

end Subject

/-! The errors among the defects. -/

def Defect.isError (e : Defect) : Bool := (Diagnostic.structural e).isError

theorem any_flatMap_congr {α β γ : Type} {f : α → List β} {g : α → List γ} {p : β → Bool}
    {q : γ → Bool} {xs : List α} (h : ∀ x ∈ xs, (f x).any p = (g x).any q) :
    (xs.flatMap f).any p = (xs.flatMap g).any q := by
  induction xs with
  | nil => rfl
  | cons x xs ih =>
    obtain ⟨hx, hxs⟩ := List.forall_mem_cons.mp h
    rw [List.flatMap_cons, List.flatMap_cons, List.any_append, List.any_append, hx, ih hxs]

theorem Defect.isError_ofMisplaced (t : Token) : (Defect.ofMisplaced t).isError = !t.isClosing := by
  unfold Defect.ofMisplaced
  split
  · rename_i hclosing
    rw [hclosing]
    rfl
  · rename_i hclosing
    rw [Bool.not_eq_true] at hclosing
    rw [hclosing]
    rfl

theorem any_isReported :
    TreeCases (fun n => n.outsideRules.any Subject.isReported = n.defects.any Defect.isError)
      (fun b => b.outsideRules.any Subject.isReported = b.defects.any Defect.isError)
      (fun a => a.outsideRules.any Subject.isReported = a.defects.any Defect.isError) where
  text t := rfl
  quotation q := by
    rw [Node.defects]
    split <;> rfl
  misplaced t := by
    rw [Node.defects, List.any_cons, Defect.isError_ofMisplaced]
    rfl
  command ident arguments clause ih := by
    have hclause : (clause.toList.map Subject.clause).any Subject.isReported = false := by
      cases clause <;> rfl
    rw [Node.outsideRules_command, List.any_cons, List.any_cons, List.any_append, hclause,
      any_flatMap_congr ih, ← Argument.defectsAll_eq]
    simp [Subject.isReported, Node.defects, Command.defects]
  block b ih := ih
  definition d := by
    rw [Node.outsideRules, Node.walk, d.walk_stopAtRules]
    rfl
  children opening children closing ih := by
    rw [Block.outsideRules_mk, List.any_cons]
    cases closing with
    | none => rfl
    | some closing =>
      rw [any_flatMap_congr ih, ← Node.defectsAll_eq]
      rfl
  argument b ih := ih
  script operator operand ih := ih

theorem Document.any_isReported (doc : Document) :
    doc.outsideRules.any Subject.isReported = doc.normalForm.defects.any Defect.isError := by
  rw [outsideRules_eq, normalForm]
  refine any_flatMap_congr fun i _ => ?_
  cases i with
  | node n => exact AcademicMarkup.any_isReported.node n
  | definition d =>
    rw [Item.outsideRules, Item.walk, d.walk_stopAtRules]
    rfl

/-! What is misplaced in what was read. -/

/-- The malformed are those that are reported. -/
def Classified (xs : List Subject) : Prop := ∀ x ∈ xs, x.isReported = x.isMalformed

theorem classified_misplaced {t : Token} (h : t.isClosing = !(t.isOpening || t.isIdentifier)) :
    Classified (Node.misplaced t).outsideRules := by
  refine List.forall_mem_cons.mpr ⟨rfl, List.forall_mem_singleton.mpr ?_⟩
  simp [Subject.isReported, Subject.isMalformed, Subject.isUnterminated, Subject.isTooDeep, h]

section Layer

/-- What is known of a node that was read. -/
abbrev NodeClassified (n : Node) (_ts _rest : List Token) : Prop := Classified n.outsideRules

variable {ts rest : List Token}

theorem classified_block {b : Block} (hb : BlockRead NodeClassified b ts rest) :
    Classified b.outsideRules := by
  have hchildren : ∀ {opening : Token} {children : List Node} {closing : Option Token},
      (∀ n ∈ children, Classified n.outsideRules) →
        Classified (Block.mk opening children closing).outsideRules := by
    intro opening children closing hchildren
    rw [Block.outsideRules_mk]
    refine List.forall_mem_cons.mpr ⟨?_, List.forall_mem_flatMap.mpr hchildren⟩
    cases closing <;> rfl
  cases hb with
  | closed _ _ hchain => exact hchildren hchain.forall_mem
  | unclosed _ hchain _ => exact hchildren hchain.forall_mem

theorem classified_argument {a : Argument} (ha : ArgumentRead NodeClassified a ts rest) :
    Classified a.outsideRules := by
  cases ha with
  | block hb => exact classified_block hb
  | script _ hoperand => exact List.forall_mem_cons.mpr ⟨rfl, hoperand⟩

theorem classified_command {c : Command} (hc : CommandRead NodeClassified c ts rest) :
    Classified (Node.command c).outsideRules := by
  have hparts : ∀ {ident : Token} {arguments : List Argument} {clause : Option Clause}
      {ts rest : List Token}, Chain (ArgumentRead NodeClassified) arguments ts rest →
        Classified (Node.command ⟨ident, arguments, clause⟩).outsideRules := by
    intro ident arguments clause ts rest hchain
    have harguments := (hchain.mono fun ha => classified_argument ha).forall_mem
    rw [Node.outsideRules_command]
    refine List.forall_mem_cons.mpr ⟨rfl, List.forall_mem_cons.mpr ⟨rfl, ?_⟩⟩
    refine List.forall_mem_append.mpr ⟨List.forall_mem_flatMap.mpr harguments, ?_⟩
    cases clause <;> simp [Subject.isReported, Subject.isMalformed, Subject.isUnterminated,
      Subject.isTooDeep]
  cases hc with
  | plain _ _ hchain => exact hparts hchain
  | withClause _ _ hchain _ => exact hparts hchain

theorem classified_construct {n : Node} (hn : ConstructRead NodeClassified n ts rest) :
    Classified n.outsideRules := by
  cases hn with
  | quotation _ => exact List.forall_mem_cons.mpr ⟨rfl, List.forall_mem_singleton.mpr rfl⟩
  | command hc => exact classified_command hc
  | block hb => exact List.forall_mem_cons.mpr ⟨rfl, classified_block hb⟩

theorem classified_text (t : Token) : Classified (Node.text t).outsideRules :=
  List.forall_mem_cons.mpr ⟨rfl, List.forall_mem_singleton.mpr rfl⟩

/-- A closing bracket that closes nothing is not beyond the limit. -/
theorem classified_item {definitions : Bool} {i : Item}
    (hi : ItemRead definitions NodeClassified i ts rest) : Classified i.outsideRules := by
  cases hi with
  | @definition d _ _ _ _ =>
    rw [Item.outsideRules, Item.walk, d.walk_stopAtRules]
    exact List.forall_mem_singleton.mpr rfl
  | node hn =>
    cases hn with
    | construct hn => exact classified_construct hn
    | text _ _ => exact classified_text _
    | @misplaced t _ _ hclosing =>
      have hident : ¬ t.isIdentifier := fun h => (Token.notBracket_of_isIdentifier h).2 hclosing
      refine classified_misplaced ?_
      simp [hclosing, Token.not_isOpening_of_isClosing hclosing, hident]

end Layer

theorem nodeWithin_classified (levels : Nat) :
    (nodeWithin levels).production.Ensures NodeClassified := by
  refine nodeWithin_ensures (R := fun _ => NodeClassified) ?_ ?_ levels
  · intro n ts rest h
    cases h with
    | quotation _ => exact List.forall_mem_cons.mpr ⟨rfl, List.forall_mem_singleton.mpr rfl⟩
    | text _ _ _ _ => exact classified_text _
    | misplaced _ hbegins hclosing =>
      refine classified_misplaced ?_
      rcases hbegins with hopening | hident
      · simp [hclosing, hopening]
      · simp [hclosing, hident]
  · intro levels n ts rest h
    cases h with
    | construct hn => exact classified_construct hn
    | text _ _ => exact classified_text _

theorem Document.classified_ofTokens (definitions : Bool) (ts : List Token) :
    Classified (Document.outsideRules (ofTokens definitions ts)) := by
  have hchain := (ofTokens_chain definitions (nodeWithin_classified _) ts).mono
    fun hi => classified_item hi
  rw [outsideRules_eq]
  exact List.forall_mem_flatMap.mpr hchain.forall_mem

theorem Document.malformed_iff (definitions : Bool) (ts : List Token) :
    (∃ x ∈ Document.outsideRules (ofTokens definitions ts), x.isMalformed) ↔
      ∃ e ∈ (ofTokens definitions ts).normalForm.defects, e.isError := by
  have hclassified := classified_ofTokens definitions ts
  calc (∃ x ∈ Document.outsideRules (ofTokens definitions ts), x.isMalformed)
      ↔ ∃ x ∈ Document.outsideRules (ofTokens definitions ts), x.isReported :=
        exists_congr fun x => and_congr_right fun hx => by rw [hclassified x hx]
    _ ↔ _ := by rw [← List.any_eq_true, any_isReported, List.any_eq_true]

namespace Compilation

theorem isComplete_eq_false {options : Options} {source : String}
    (h : ∃ e ∈ (Document.ofSource source).normalForm.defects, e.isError) :
    (ofSource options source).isComplete = false := by
  have herror : (ofSource options source).diagnostics.any Diagnostic.isError := by
    obtain ⟨e, he, herror⟩ := h
    refine List.any_eq_true.mpr ⟨.structural e, ?_, herror⟩
    exact List.mem_append_left _ (List.mem_map_of_mem he)
  rw [isComplete, herror]
  rfl

/-- Outside the rules of clauses and definitions, a source has an unterminated block or a token
beyond the nesting limit exactly if its structure is reported with an error, and then it is not
complete. -/
theorem malformed_incomplete (options : Options) (source : String) :
    ((∃ x ∈ (Document.ofSource source).outsideRules, x.isMalformed) ↔
      ∃ e ∈ (Document.ofSource source).normalForm.defects, (Diagnostic.structural e).isError) ∧
    ((∃ x ∈ (Document.ofSource source).outsideRules, x.isMalformed) →
      (ofSource options source).isComplete = false) := by
  have hiff := Document.malformed_iff true (Token.ofSource source)
  exact ⟨hiff, fun hmalformed => isComplete_eq_false (hiff.mp hmalformed)⟩

theorem malformed_incomplete_clause :
    (∃ x ∈ (Document.ofSource "\\p\x7b(x\x7d\\where!\x7b a => b \x7d").outsideRules,
      x.isMalformed) ∧
    (ofSource .default "\\p\x7b(x\x7d\\where!\x7b a => b \x7d").isComplete = false := by
  have hmalformed :
      ∃ x ∈ (Document.ofSource "\\p\x7b(x\x7d\\where!\x7b a => b \x7d").outsideRules,
        x.isMalformed := by decide +kernel
  exact ⟨hmalformed, (malformed_incomplete .default _).2 hmalformed⟩

/-- In the rules of a clause or a definition an unterminated block is not reported. -/
theorem malformed_rules_complete :
    ((∃ x ∈ (Document.ofSource "\\p\x7bx\x7d\\where!\x7b a => (b \x7d").subjects,
      x.isMalformed) ∧
      (ofSource .default "\\p\x7bx\x7d\\where!\x7b a => (b \x7d").isComplete) ∧
    (∃ x ∈ (Document.ofSource "\\macroRules![\\x]\x7b [\x7b$a\x7d] => \x7b(b\x7d \x7d").subjects,
      x.isMalformed) ∧
      (ofSource .default "\\macroRules![\\x]\x7b [\x7b$a\x7d] => \x7b(b\x7d \x7d").isComplete := by
  decide +kernel

end Compilation

end AcademicMarkup
