import AcademicMarkup.Proofs.KeptTokens
import AcademicMarkup.Proofs.ReadPlaces
import Mathlib.Data.List.Nodup
import Mathlib.Data.List.Perm.Basic

/-!
The parts of a document that was read. The grammar asks something of the tokens that a construct
has of its own, and what follows from that for each kind of construct holds of every part of the
document, also in the rules of clauses and definitions. Outside of these each token belongs to one
part only.
-/
namespace AcademicMarkup

open Production Grammar

/-- What is to be shown of a part, given what the grammar asks of its own tokens. -/
structure ReadCases (P : Subject → Prop) : Prop where
  node : ∀ n, P (.node n)
  text : ∀ {t ts}, BeginsNothing t ts → ¬ t.isClosing → P (.text t)
  quotation : ∀ {q ts rest}, quotation ts = some (q, rest) → P (.quotation q)
  misplaced : ∀ {t}, t.isClosing ∨ t.isOpening ∨ t.isIdentifier → P (.misplaced t)
  block : ∀ {opening children closing}, opening.isOpening →
    (∀ t ∈ closing, opening.pairsWith t) → P (.block ⟨opening, children, closing⟩)
  command : ∀ {ident arguments clause}, ident.isIdentifier →
    ident.text ≠ Token.definitionKeyword → P (.command ⟨ident, arguments, clause⟩)
  script : ∀ {operator operand}, operator.isScriptOperator → P (.script operator operand)
  clause : ∀ {c}, c.keyword.text = Token.clauseKeyword → P (.clause c)
  definition : ∀ {d}, d.keyword.text = Token.definitionKeyword → P (.definition d)

namespace ReadCases

variable {P : Subject → Prop}

/-- What the grammar asks does not depend on the place. -/
theorem placeCases (h : ReadCases P) (all : List Token) :
    PlaceCases (Takes Node.firstToken Node.lastToken) all P where
  node := h.node
  text _ hbegins hclosing := h.text hbegins hclosing
  quotation _ hq := h.quotation hq
  misplaced _ ht := h.misplaced ht
  block _ hb := by
    cases hb with
    | closed hopening hpairs _ =>
      refine h.block hopening fun t ht => ?_
      rwa [← Option.mem_some_iff.mp ht]
    | unclosed hopening _ _ => exact h.block hopening (by simp)
  command _ hc := by
    cases hc with
    | plain hident hname _ => exact h.command hident hname
    | withClause hident hname _ _ => exact h.command hident hname
  script _ hoperator _ := h.script hoperator
  clause _ hc := by
    cases hc with
    | intro hkeyword _ _ => exact h.clause hkeyword
  definition _ hd := by
    cases hd with
    | intro hkeyword _ _ _ _ => exact h.definition hkeyword

theorem ofTokens (h : ReadCases P) (definitions : Bool) (ts : List Token) :
    ∀ x ∈ (Document.ofTokens definitions ts).subjects, P x :=
  (h.placeCases ts).ofTokens readAs_takes definitions

end ReadCases

/-! Whose part a token is. -/

/-- The tokens that a part has of its own and that stand in no part inside it. -/
def Subject.ownTokens : Subject → List Token
  | .node _ => []
  | .text t => [t]
  | .quotation q => q.tokens
  | .misplaced t => [t]
  | .block b => b.opening :: b.closing.toList
  | .command c => [c.ident]
  | .script operator _ => [operator]
  | .clause _ => []
  | .definition _ => []

/-- The tokens of a part are among all the tokens. -/
theorem ownTokens_cases (all : List Token) :
    PlaceCases (Takes Node.firstToken Node.lastToken) all fun x => ∀ t ∈ x.ownTokens, t ∈ all where
  node _ := fun _ ht => absurd ht List.not_mem_nil
  text hts _ _ := List.forall_mem_singleton.mpr (hts.subset List.mem_cons_self)
  quotation hts hq := by
    rw [quotation_eq hq] at hts
    exact fun t ht => hts.subset (List.mem_append_left _ ht)
  misplaced hts _ := List.forall_mem_singleton.mpr (hts.subset List.mem_cons_self)
  block hts hb := by
    cases hb with
    | closed _ _ hchain =>
      obtain ⟨taken, rfl, -⟩ := Takes.chain hchain
      refine List.forall_mem_cons.mpr ⟨hts.subset List.mem_cons_self, ?_⟩
      exact List.forall_mem_singleton.mpr (hts.subset (by simp))
    | unclosed _ _ _ => exact List.forall_mem_singleton.mpr (hts.subset List.mem_cons_self)
  command hts hc := by
    cases hc with
    | plain _ _ _ => exact List.forall_mem_singleton.mpr (hts.subset List.mem_cons_self)
    | withClause _ _ _ _ => exact List.forall_mem_singleton.mpr (hts.subset List.mem_cons_self)
  script hts _ _ := List.forall_mem_singleton.mpr (hts.subset List.mem_cons_self)
  clause _ _ := fun _ ht => absurd ht List.not_mem_nil
  definition _ _ := fun _ ht => absurd ht List.not_mem_nil

theorem flatMap_ownTokens_perm {α : Type} {tokens : α → List Token} {subjects : α → List Subject}
    {as : List α}
    (ih : ∀ a ∈ as, (∀ x ∈ subjects a, ¬ x.holdsRules) →
      (tokens a).Perm ((subjects a).flatMap Subject.ownTokens))
    (hparts : ∀ x ∈ as.flatMap subjects, ¬ x.holdsRules) :
    (as.flatMap tokens).Perm ((as.flatMap subjects).flatMap Subject.ownTokens) := by
  rw [List.flatMap_assoc]
  exact List.Perm.flatMap_left as fun a ha => ih a ha (List.forall_mem_flatMap.mp hparts a ha)

theorem tokens_perm_ownTokens :
    TreeCases
      (fun n => (∀ x ∈ n.subjects, ¬ x.holdsRules) →
        n.tokens.Perm (n.subjects.flatMap Subject.ownTokens))
      (fun b => (∀ x ∈ b.subjects, ¬ x.holdsRules) →
        b.tokens.Perm (b.subjects.flatMap Subject.ownTokens))
      (fun a => (∀ x ∈ a.subjects, ¬ x.holdsRules) →
        a.tokens.Perm (a.subjects.flatMap Subject.ownTokens)) where
  text t _ := List.Perm.refl _
  quotation q _ := by simp [Node.tokens, Subject.ownTokens]
  misplaced t _ := List.Perm.refl _
  definition d hparts := absurd rfl (hparts (.definition d) (by simp [d.subjects_eq]))
  command ident arguments clause ih hparts := by
    rw [Node.subjects_command, Command.subjects_mk] at hparts
    obtain ⟨harguments, hclause⟩ := List.forall_mem_append.mp
      (List.forall_mem_cons.mp (List.forall_mem_cons.mp hparts).2).2
    cases clause with
    | some clause =>
      exact absurd rfl (hclause (.clause clause) (by simp [clause.mem_subjects_self]))
    | none =>
      have harguments := flatMap_ownTokens_perm ih harguments
      simpa [Node.tokens, Command.tokens, Argument.tokensAll_eq, Subject.ownTokens]
        using harguments
  block b ih hparts := ih (List.forall_mem_cons.mp hparts).2
  children opening children closing ih hparts := by
    rw [Block.subjects_mk] at hparts
    have hchildren := flatMap_ownTokens_perm ih (List.forall_mem_cons.mp hparts).2
    rw [Block.tokens, Node.tokensAll_eq, Block.subjects_mk, List.flatMap_cons]
    exact ((hchildren.append_right _).trans List.perm_append_comm).cons opening
  argument b ih := ih
  script operator operand ih hparts := (ih (List.forall_mem_cons.mp hparts).2).cons operator

namespace Document

theorem tokens_perm {doc : Document} (h : doc.WithoutRules) :
    doc.tokens.Perm (doc.subjects.flatMap Subject.ownTokens) := by
  rw [WithoutRules, subjects_eq] at h
  rw [tokens, subjects_eq]
  refine flatMap_ownTokens_perm (fun i hi hparts => ?_) h
  cases i with
  | node n => exact tokens_perm_ownTokens.node n hparts
  | definition d => exact absurd rfl (hparts (.definition d) (by simp [d.subjects_eq]))

/-- A token that does not stand among the tokens twice belongs to one part only. -/
theorem eq_of_mem_ownTokens {definitions : Bool} {ts : List Token} (hts : ts.Nodup)
    (h : (ofTokens definitions ts).WithoutRules) {x y : Subject}
    (hx : x ∈ (ofTokens definitions ts).subjects) (hy : y ∈ (ofTokens definitions ts).subjects)
    {t : Token} (htx : t ∈ x.ownTokens) (hty : t ∈ y.ownTokens) : x = y := by
  have hperm := tokens_perm h
  rw [tokens_ofTokens definitions ts h] at hperm
  have hdisjoint := (List.nodup_flatMap.mp (hperm.nodup_iff.mp hts)).2
  have hsymm : Std.Symm (Function.onFun List.Disjoint Subject.ownTokens) :=
    ⟨fun _ _ hxy _ hy hx => hxy hx hy⟩
  by_contra hne
  exact hdisjoint.forall hx hy hne htx hty

end Document

end AcademicMarkup
