import AcademicMarkup.Proofs.Reading
import AcademicMarkup.Proofs.Subjects

/-!
The tokens that a tree keeps. A clause keeps its rules and a definition its rules of the right form,
but not all that was read between their brackets. Everything else keeps all its tokens, so a
document without clauses and definitions has the tokens that it was read from.
-/
namespace AcademicMarkup

open Production Grammar

mutual

/-- The tokens of a node in the order of the source: leaves, brackets, command names and script
operators. Clauses and definitions keep their rules but not all that was read between them, and so
they are left out. -/
def Node.tokens : Node → List Token
  | .text t => [t]
  | .quotation q => q.tokens
  | .misplaced t => [t]
  | .command c => c.tokens
  | .block b => b.tokens
  | .definition _ => []

def Node.tokensAll : List Node → List Token
  | [] => []
  | n :: ns => n.tokens ++ Node.tokensAll ns

def Block.tokens : Block → List Token
  | ⟨opening, children, closing⟩ => opening :: Node.tokensAll children ++ closing.toList

def Command.tokens : Command → List Token
  | ⟨ident, arguments, _⟩ => ident :: Argument.tokensAll arguments

def Argument.tokens : Argument → List Token
  | .block b => b.tokens
  | .script operator operand => operator :: operand.tokens

def Argument.tokensAll : List Argument → List Token
  | [] => []
  | a :: as => a.tokens ++ Argument.tokensAll as

end

def Item.tokens : Item → List Token
  | .node n => n.tokens
  | .definition _ => []

def Document.tokens (doc : Document) : List Token := doc.flatMap Item.tokens

theorem Node.tokensAll_eq (ns : List Node) : Node.tokensAll ns = ns.flatMap Node.tokens := by
  induction ns with
  | nil => rfl
  | cons n ns ih => rw [Node.tokensAll, ih, List.flatMap_cons]

theorem Argument.tokensAll_eq (as : List Argument) :
    Argument.tokensAll as = as.flatMap Argument.tokens := by
  induction as with
  | nil => rfl
  | cons a as ih => rw [Argument.tokensAll, ih, List.flatMap_cons]

/-- Whether the subject keeps rules in place of all that was read. -/
def Subject.holdsRules : Subject → Bool
  | .clause _ => true
  | .definition _ => true
  | _ => false

/-- The document has neither a clause nor a definition. -/
def Document.WithoutRules (doc : Document) : Prop := ∀ x ∈ doc.subjects, ¬ x.holdsRules

instance Document.decidableWithoutRules (doc : Document) : Decidable doc.WithoutRules :=
  inferInstanceAs (Decidable (∀ x ∈ doc.subjects, _))

/-- What is read without rules keeps all tokens up to the rest. -/
def Keeps {α : Type} (tokens : α → List Token) (subjects : α → List Subject) (a : α)
    (ts rest : List Token) : Prop :=
  (∀ x ∈ subjects a, ¬ x.holdsRules) → ts = tokens a ++ rest

theorem Keeps.chain {α : Type} {tokens : α → List Token} {subjects : α → List Subject}
    {as : List α} {ts rest : List Token} (h : Chain (Keeps tokens subjects) as ts rest)
    (hparts : ∀ x ∈ as.flatMap subjects, ¬ x.holdsRules) :
    ts = as.flatMap tokens ++ rest := by
  induction h with
  | nil ts => rfl
  | cons hfirst _ ih =>
    simp only [List.flatMap_cons, List.mem_append] at hparts ⊢
    rw [hfirst fun x hx => hparts x (Or.inl hx), ih fun x hx => hparts x (Or.inr hx),
      List.append_assoc]

section Layer

variable {ts rest : List Token}

theorem keeps_block {b : Block} (hb : BlockRead (Keeps Node.tokens Node.subjects) b ts rest) :
    Keeps Block.tokens Block.subjects b ts rest := by
  intro hparts
  cases hb with
  | closed _ _ hchain =>
    rw [Block.subjects_mk] at hparts
    have htokens := Keeps.chain hchain fun x hx => hparts x (List.mem_cons_of_mem _ hx)
    simp [Block.tokens, Node.tokensAll_eq, htokens]
  | unclosed _ hchain _ =>
    rw [Block.subjects_mk] at hparts
    have htokens := Keeps.chain hchain fun x hx => hparts x (List.mem_cons_of_mem _ hx)
    simp [Block.tokens, Node.tokensAll_eq, htokens]

theorem keeps_argument {a : Argument}
    (ha : ArgumentRead (Keeps Node.tokens Node.subjects) a ts rest) :
    Keeps Argument.tokens Argument.subjects a ts rest := by
  cases ha with
  | block hb => exact keeps_block hb
  | script _ hoperand =>
    intro hparts
    rw [Argument.subjects_script] at hparts
    rw [hoperand fun x hx => hparts x (List.mem_cons_of_mem _ hx)]
    rfl

theorem keeps_command {c : Command}
    (hc : CommandRead (Keeps Node.tokens Node.subjects) c ts rest) :
    Keeps Command.tokens Command.subjects c ts rest := by
  intro hparts
  cases hc with
  | plain _ _ hchain =>
    have hchain := hchain.mono fun ha => keeps_argument ha
    have htokens := Keeps.chain hchain fun x hx => hparts x (by simp [hx])
    simp [Command.tokens, Argument.tokensAll_eq, htokens]
  | @withClause _ _ clause _ _ _ _ _ _ _ =>
    exact absurd rfl (hparts (.clause clause) (by simp [clause.mem_subjects_self]))

theorem keeps_construct {n : Node}
    (hn : ConstructRead (Keeps Node.tokens Node.subjects) n ts rest) :
    Keeps Node.tokens Node.subjects n ts rest := by
  intro hparts
  cases hn with
  | quotation hq => exact quotation_eq hq
  | command hc => exact keeps_command hc fun x hx => hparts x (List.mem_cons_of_mem _ hx)
  | block hb => exact keeps_block hb fun x hx => hparts x (List.mem_cons_of_mem _ hx)

theorem keeps_item {definitions : Bool} {i : Item}
    (hi : ItemRead definitions (Keeps Node.tokens Node.subjects) i ts rest) :
    Keeps Item.tokens Item.subjects i ts rest := by
  intro hparts
  cases hi with
  | @definition d _ _ _ _ => exact absurd rfl (hparts (.definition d) (by simp [d.subjects_eq]))
  | node hn =>
    cases hn with
    | construct hn => exact keeps_construct hn hparts
    | text _ _ => rfl
    | misplaced _ _ => rfl

end Layer

theorem nodeWithin_keeps (levels : Nat) :
    (nodeWithin levels).production.Ensures (Keeps Node.tokens Node.subjects) := by
  refine nodeWithin_ensures (R := fun _ => Keeps Node.tokens Node.subjects) ?_ ?_ levels
  · intro n ts rest h _
    cases h with
    | quotation hq => exact quotation_eq hq
    | text _ _ _ _ => rfl
    | misplaced _ _ _ => rfl
  · intro levels n ts rest h
    cases h with
    | construct hn => exact keeps_construct hn
    | text _ _ => exact fun _ => rfl

/-- No token of a document is lost outside clauses and definitions. -/
theorem Document.tokens_ofTokens (definitions : Bool) (ts : List Token)
    (h : (Document.ofTokens definitions ts).WithoutRules) :
    (Document.ofTokens definitions ts).tokens = ts := by
  have hchain := (Document.ofTokens_chain definitions (nodeWithin_keeps _) ts).mono
    fun hi => keeps_item hi
  rw [Document.WithoutRules, Document.subjects_eq] at h
  have htokens := Keeps.chain hchain h
  rw [List.append_nil] at htokens
  exact htokens.symm

end AcademicMarkup
