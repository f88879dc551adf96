import AcademicMarkup.Proofs.JoinedTexts
import AcademicMarkup.Proofs.SettledForm
import AcademicMarkup.Proofs.SizedDelimiters
import AcademicMarkup.Proofs.TokenPlaces
import Mathlib.Data.List.ReduceOption

/-!
Formulas as their tokens. Much of a source is left out of a formula: white space inside brackets,
blocks that are not closed, scripts of such blocks, and all rules. The pieces on the two sides of
what was left out come together, but the first runs into the second only where rules stood between
them. So the tokens of a formula are those of its pieces, except where the pieces around some
rules run together.
-/
namespace AcademicMarkup

open Token

/-- A command for the size of a bracket, if the block grows. -/
def Block.sizePiece (b : Block) (name : String) : List (Option String) :=
  if b.isSized then [some name] else []

mutual

/-- The pieces that the normal form of a node puts into a formula, with none at each place where
rules are left out. -/
def Node.gappedPieces : Node → List (Option String)
  | .text t => [some t.text]
  | .quotation q => [some q.text]
  | .misplaced t => [some t.text]
  | .command c => c.gappedPieces
  | .block b => b.gappedPieces
  | .definition _ => [none]

/-- The pieces of each node, with the mark of those that may be cut at the ends. -/
def Node.gappedPiecesEach : List Node → List (Bool × List (Option String))
  | [] => []
  | n :: ns => (n.isBlank, n.gappedPieces) :: Node.gappedPiecesEach ns

def Block.gappedPieces : Block → List (Option String)
  | ⟨_, _, none⟩ => []
  | ⟨opening, children, some closing⟩ =>
    Block.sizePiece ⟨opening, children, some closing⟩ "\\left" ++ some opening.text ::
      ((trimBy (·.1) (Node.gappedPiecesEach children)).flatMap (·.2) ++
        (Block.sizePiece ⟨opening, children, some closing⟩ "\\right" ++ [some closing.text]))

def Command.gappedPieces : Command → List (Option String)
  | ⟨ident, arguments, clause⟩ =>
    some ident.text :: (Argument.gappedPiecesAll arguments ++ clause.toList.map fun _ => none)

def Argument.gappedPieces : Argument → List (Option String)
  | .block b => b.gappedPieces
  | .script operator operand =>
    if operand.isUnterminated then [] else some operator.text :: operand.gappedPieces

def Argument.gappedPiecesAll : List Argument → List (Option String)
  | [] => []
  | a :: as => a.gappedPieces ++ Argument.gappedPiecesAll as

end

def Item.gappedPieces : Item → List (Option String)
  | .node n => n.gappedPieces
  | .definition _ => [none]

def Document.gappedPieces (doc : Document) : List (Option String) :=
  doc.flatMap Item.gappedPieces

theorem Node.gappedPiecesEach_eq (ns : List Node) :
    Node.gappedPiecesEach ns = ns.map fun n => (n.isBlank, n.gappedPieces) := by
  induction ns with
  | nil => rfl
  | cons n ns ih => rw [Node.gappedPiecesEach, ih, List.map_cons]

theorem Argument.gappedPiecesAll_eq (as : List Argument) :
    Argument.gappedPiecesAll as = as.flatMap Argument.gappedPieces := by
  induction as with
  | nil => rfl
  | cons a as ih => rw [Argument.gappedPiecesAll, ih, List.flatMap_cons]

theorem Block.gappedPieces_closed (opening : Token) (children : List Node) (closing : Token) :
    Block.gappedPieces ⟨opening, children, some closing⟩ =
      Block.sizePiece ⟨opening, children, some closing⟩ "\\left" ++ some opening.text ::
        ((Node.trim children).flatMap Node.gappedPieces ++
          (Block.sizePiece ⟨opening, children, some closing⟩ "\\right" ++
            [some closing.text])) := by
  rw [Block.gappedPieces, Node.gappedPiecesEach_eq, trimBy_map, List.flatMap_map]
  rfl

/-! The pieces without the gaps are those of the normal form. -/

theorem reduceOption_flatMap_gapped {α : Type} {gapped : α → List (Option String)}
    {normal? : α → Option α} {pieces : α → List String} {as : List α}
    (ih : ∀ a ∈ as, (gapped a).reduceOption = (normal? a).toList.flatMap pieces) :
    (as.flatMap gapped).reduceOption = (as.filterMap normal?).flatMap pieces := by
  rw [List.reduceOption, List.filterMap_flatMap, flatMap_filterMap]
  exact List.flatMap_congr ih

theorem reduceOption_gappedPieces :
    TreeCases (fun n => n.gappedPieces.reduceOption = n.normal?.toList.flatMap Node.latexPieces)
      (fun b => b.gappedPieces.reduceOption = b.normal?.toList.flatMap Block.latexPieces)
      (fun a => a.gappedPieces.reduceOption = a.normal?.toList.flatMap Argument.latexPieces) where
  text t := rfl
  quotation q := rfl
  misplaced t := rfl
  definition d := rfl
  command ident arguments clause ih := by
    have harguments := reduceOption_flatMap_gapped ih
    rw [← Argument.gappedPiecesAll_eq, ← Argument.normals_eq, ← Argument.latexPiecesAll_eq]
      at harguments
    cases clause <;>
      simp [Node.gappedPieces, Command.gappedPieces, Node.normal?, Command.normal,
        Node.latexPieces, Command.latexPieces, List.reduceOption_append, harguments]
  block b ih := by
    rw [Node.gappedPieces, ih, Node.normal?]
    cases b.normal? <;> rfl
  children opening children closing ih := by
    cases closing with
    | none => rfl
    | some closing =>
      have hchildren := reduceOption_flatMap_gapped fun n hn => ih n (Node.mem_of_mem_trim hn)
      rw [← Node.latexPiecesAll_eq] at hchildren
      -- the normal form has the same brackets
      have hsized : Block.isSized
          ⟨opening, (Node.trim children).filterMap Node.normal?, some closing⟩ =
          Block.isSized ⟨opening, children, some closing⟩ := rfl
      rw [Block.gappedPieces_closed, Block.normal?_closed]
      cases h : Block.isSized ⟨opening, children, some closing⟩ <;>
        simp [Block.sizePiece, Block.latexPieces, List.reduceOption_append, hsized, h, hchildren]
  argument b ih := by
    rw [Argument.gappedPieces, ih, Argument.normal?]
    cases b.normal? <;> rfl
  script operator operand ih := by
    rw [Argument.gappedPieces, Argument.normal?]
    cases hnormal : operand.normal? with
    | none => simp [(Node.normal?_eq_none_iff operand).mp hnormal]
    | some normal =>
      have hterminated : ¬ operand.isUnterminated := by
        rw [← Node.normal?_eq_none_iff, hnormal]
        exact Option.some_ne_none normal
      rw [hnormal] at ih
      rw [if_neg hterminated, List.reduceOption_cons_of_some, ih]
      rfl

theorem Document.reduceOption_gappedPieces (doc : Document) :
    doc.gappedPieces.reduceOption = Node.latexPiecesAll doc.normal.nodes := by
  rw [normal, nodes_normalForm, Node.latexPiecesAll_eq, gappedPieces, List.reduceOption,
    List.filterMap_flatMap, flatMap_filterMap, nodes, flatMap_filterMap]
  refine List.flatMap_congr fun i _ => ?_
  cases i with
  | node n =>
    have hnode := AcademicMarkup.reduceOption_gappedPieces.node n
    rw [List.reduceOption] at hnode
    simpa [Item.gappedPieces] using hnode
  | definition d => rfl

/-! Pieces that come one after the other. -/

/-- The first piece, if there is one, does not run into the second. -/
def Seamless (x y : Option String) : Prop := ∀ p ∈ x, ∀ q ∈ y, ¬ RunsInto p q

/-- A piece does not run into the tokens that follow. -/
def FitsBefore (x : Option String) (ts : List Token) : Prop :=
  ∀ p ∈ x, ∀ t ∈ ts.head?, ¬ RunsInto p t.text

/-- Pieces after another, and before tokens, none of which runs into the next. -/
def Flows (rest : List Token) : Option String → List (Option String) → Prop
  | x, [] => FitsBefore x rest
  | x, y :: ys => Seamless x y ∧ y ≠ some "" ∧ Flows rest y ys

theorem seamless_some {x : Option String} {q : String} (h : ∀ p ∈ x, ¬ RunsInto p q) :
    Seamless x (some q) := by
  intro p hp q' hq
  obtain rfl := Option.mem_some_iff.mp hq
  exact h p hp

theorem fitsBefore_some {p : String} {ts : List Token}
    (h : ∀ t ∈ ts.head?, ¬ RunsInto p t.text) : FitsBefore (some p) ts := by
  intro p' hp
  obtain rfl := Option.mem_some_iff.mp hp
  exact h

/-- Tokens that do not run into one another. -/
structure Separate (ts : List Token) : Prop where
  apart : ts.IsChain fun t u => ¬ RunsInto t.text u.text
  nonempty : ∀ t ∈ ts, t.text ≠ ""

namespace Flows

variable {mid rest : List Token} {x y : Option String} {ps qs : List (Option String)}

theorem append (h : Flows mid x ps) (hqs : ∀ y, FitsBefore y mid → Flows rest y qs) :
    Flows rest x (ps ++ qs) := by
  induction ps generalizing x with
  | nil => exact hqs x h
  | cons p ps ih => exact ⟨h.1, h.2.1, ih h.2.2⟩

theorem isChain (h : Flows rest x ps) : (x :: ps).IsChain Seamless := by
  induction ps generalizing x with
  | nil => exact List.isChain_singleton x
  | cons p ps ih => exact List.isChain_cons_cons.mpr ⟨h.1, ih h.2.2⟩

theorem ne_empty (h : Flows rest x ps) : some "" ∉ ps := by
  induction ps generalizing x with
  | nil => exact List.not_mem_nil
  | cons p ps ih =>
    rw [List.mem_cons, not_or]
    exact ⟨h.2.1.symm, ih h.2.2⟩

end Flows

namespace Separate

variable {t : Token} {ts us : List Token}

theorem ofSource (source : String) : Separate (Token.ofSource source) :=
  ⟨isChain_ofSource source, fun _ ht => text_ne_empty_of_mem_ofSource ht⟩

theorem append_right (h : Separate (ts ++ us)) : Separate us :=
  ⟨h.apart.right_of_append, fun t ht => h.nonempty t (List.mem_append_right _ ht)⟩

theorem tail (h : Separate (t :: ts)) : Separate ts := @append_right [t] ts h

end Separate

/-! What is read, and the pieces that it leaves. -/

open Production Grammar

/-- What is read between tokens that do not run into one another leaves pieces that do not either,
whatever the piece before them is, as long as it does not run into the first token. -/
def Spaced (pieces : List (Option String)) (ts rest : List Token) : Prop :=
  Separate ts → Separate rest ∧ ∀ x, FitsBefore x ts → Flows rest x pieces

/-- An unterminated node leaves nothing, and stands before a closing bracket. -/
structure NodeSpaced (n : Node) (ts rest : List Token) : Prop where
  spaced : Spaced n.gappedPieces ts rest
  unterminated : n.isUnterminated → ∀ t ∈ rest.head?, t.isClosing

section Layer

variable {ts rest : List Token}

theorem Spaced.chain {α : Type} {pieces : α → List (Option String)} {as : List α}
    (h : Chain (fun a => Spaced (pieces a)) as ts rest) : Spaced (as.flatMap pieces) ts rest := by
  induction h with
  | nil ts => exact fun hts => ⟨hts, fun x hx => hx⟩
  | cons hfirst _ ih =>
    intro hts
    obtain ⟨hmid, hflows⟩ := hfirst hts
    obtain ⟨hrest, hmore⟩ := ih hmid
    exact ⟨hrest, fun x hx => (hflows x hx).append hmore⟩

/-- A bracket runs into nothing, and nothing runs into a bracket. -/
theorem fitsBefore_bracket {t : Token} (ht : t.isOpening ∨ t.isClosing) (ts : List Token) :
    FitsBefore (some t.text) ts :=
  fitsBefore_some fun u _ => bracket_not_runsInto ht u.text

theorem fitsBefore_closing (h : ∀ t ∈ rest.head?, t.isClosing) (x : Option String) :
    FitsBefore x rest :=
  fun p _ t ht => not_runsInto_bracket (Or.inr (h t ht)) p

/-- A run of tokens as one piece. -/
theorem spaced_run {us : List Token} (hne : us ≠ []) :
    Spaced [some (joinedText us)] (us ++ rest) rest := by
  intro hts
  obtain ⟨first, more, hfirst⟩ := List.exists_cons_of_ne_nil hne
  obtain ⟨front, last, hlast⟩ := (List.eq_nil_or_concat us).resolve_left hne
  have hmem : first ∈ us ∧ last ∈ us := by
    constructor
    · simp [hfirst]
    · simp [hlast]
  have hfirst_ne := hts.nonempty first (List.mem_append_left _ hmem.1)
  have hlast_ne := hts.nonempty last (List.mem_append_left _ hmem.2)
  refine ⟨hts.append_right, fun x hx => ⟨seamless_some fun p hp => ?_, fun heq => ?_,
    fitsBefore_some fun t ht => ?_⟩⟩
  · rw [hfirst, joinedText_cons, runsInto_append_right hfirst_ne]
    exact hx p hp first (by simp [hfirst])
  · have hjoined := Option.some.inj heq
    rw [hfirst, joinedText_cons, String.append_eq_empty_iff] at hjoined
    exact hfirst_ne hjoined.1
  · have hends := (List.isChain_append.mp hts.apart).2.2 last (by simp [hlast]) t ht
    have htext : joinedText us = joinedText front ++ last.text := by
      rw [hlast, List.concat_eq_append, joinedText_append, joinedText_cons, joinedText_nil,
        String.append_empty]
    rwa [htext, runsInto_append_left hlast_ne]

theorem spaced_token {t : Token} : Spaced [some t.text] (t :: rest) rest := by
  have hrun := @spaced_run rest [t] (List.cons_ne_nil t [])
  rwa [joinedText_cons, joinedText_nil, String.append_empty] at hrun

theorem spaced_quotation {q : Quotation} (hq : Grammar.quotation ts = some (q, rest)) :
    Spaced [some q.text] ts rest := by
  rw [quotation_eq hq]
  exact spaced_run (List.cons_ne_nil _ _)

/-- Anything may stand before and after a gap. -/
theorem flows_gap (x : Option String) : Flows rest x [none] := by
  simp [Flows, Seamless, FitsBefore]

/-- A command for a size begins with a backslash, so nothing runs into it. -/
theorem flows_sizePiece {ps : List (Option String)} (h : ∀ x, Flows rest x ps) (b : Block)
    {name : String} (hname : name.toList.head? = some '\\') (x : Option String) :
    Flows rest x (b.sizePiece name ++ ps) := by
  unfold Block.sizePiece
  split
  · refine ⟨seamless_some fun p _ => ?_, ?_, h _⟩
    · refine not_runsInto_of_head fun d hd => ?_
      obtain rfl := Option.mem_some_iff.mp (hname ▸ hd)
      rfl
    · rintro ⟨⟩
      simp at hname
  · exact h x

theorem flows_bracket {t : Token} (ht : t.isOpening ∨ t.isClosing) {ps : List (Option String)}
    (h : Flows rest (some t.text) ps) (x : Option String) : Flows rest x (some t.text :: ps) := by
  refine ⟨seamless_some fun p _ => not_runsInto_bracket ht p, fun heq => ?_, h⟩
  obtain ⟨c, htext, -⟩ := bracket_text ht
  simp [Option.some.inj heq] at htext

theorem spaced_block {b : Block} (hb : BlockRead NodeSpaced b ts rest) :
    Spaced b.gappedPieces ts rest := by
  intro hts
  cases hb with
  | unclosed _ hchain hclosing =>
    refine ⟨(Spaced.chain (hchain.mono NodeSpaced.spaced) hts.tail).1, fun x _ => ?_⟩
    exact fitsBefore_closing (fun t ht => (hclosing t ht).1) x
  | @closed opening closing children _ _ hopening hpairs hchain =>
    -- white space is cut on both sides, next to the brackets
    obtain ⟨leading, trailing, heq, -, -⟩ := exists_eq_trimBy Node.isBlank children
    rw [heq] at hchain
    obtain ⟨_, hfront, htrailing⟩ := (hchain.mono NodeSpaced.spaced).exists_of_append
    obtain ⟨_, hleading, hmiddle⟩ := hfront.exists_of_append
    obtain ⟨hstart, -⟩ := Spaced.chain hleading hts.tail
    obtain ⟨hstop, hflows⟩ := Spaced.chain hmiddle hstart
    obtain ⟨hrest, -⟩ := Spaced.chain htrailing hstop
    have hclosing : closing.isClosing := isClosing_of_pairsWith hpairs
    have hend : ∀ y, Flows rest y [some closing.text] :=
      flows_bracket (Or.inr hclosing) (fitsBefore_bracket (Or.inr hclosing) rest)
    refine ⟨hrest.tail, fun x _ => ?_⟩
    rw [Block.gappedPieces_closed]
    refine flows_sizePiece (fun y => flows_bracket (Or.inl hopening) ?_ y) _ rfl x
    refine (hflows _ (fitsBefore_bracket (Or.inl hopening) _)).append fun y _ => ?_
    exact flows_sizePiece hend _ rfl y

theorem spaced_argument {a : Argument} (ha : ArgumentRead NodeSpaced a ts rest) :
    Spaced a.gappedPieces ts rest := by
  cases ha with
  | block hb => exact spaced_block hb
  | @script operator operand _ _ _ hoperand =>
    intro hts
    obtain ⟨hrest, hflows⟩ := hoperand.spaced hts.tail
    refine ⟨hrest, fun x hx => ?_⟩
    rw [Argument.gappedPieces]
    split
    · rename_i hunterminated
      exact fitsBefore_closing (hoperand.unterminated hunterminated) x
    · exact ((spaced_token hts).2 x hx).append hflows

theorem spaced_command {c : Command} (hc : CommandRead NodeSpaced c ts rest) :
    Spaced c.gappedPieces ts rest := by
  intro hts
  cases hc with
  | plain _ _ hchain =>
    obtain ⟨hrest, hflows⟩ := Spaced.chain (hchain.mono spaced_argument) hts.tail
    refine ⟨hrest, fun x hx => ?_⟩
    rw [Command.gappedPieces, Option.toList_none, List.map_nil, List.append_nil,
      Argument.gappedPiecesAll_eq]
    exact ((spaced_token hts).2 x hx).append hflows
  | withClause _ _ hchain hclause =>
    obtain ⟨hmid, hflows⟩ := Spaced.chain (hchain.mono spaced_argument) hts.tail
    cases hclause with
    | intro _ _ hblock =>
      refine ⟨(spaced_block hblock hmid.tail).1, fun x hx => ?_⟩
      rw [Command.gappedPieces, Argument.gappedPiecesAll_eq]
      refine ((spaced_token hts).2 x hx).append fun y hy => (hflows y hy).append fun z _ => ?_
      exact flows_gap z

theorem nodeSpaced_construct {n : Node} (hn : ConstructRead NodeSpaced n ts rest) :
    NodeSpaced n ts rest := by
  cases hn with
  | quotation hq => exact ⟨spaced_quotation hq, fun h => absurd h Bool.false_ne_true⟩
  | command hc => exact ⟨spaced_command hc, fun h => absurd h Bool.false_ne_true⟩
  | @block b _ _ hb =>
    refine ⟨spaced_block hb, fun h => ?_⟩
    cases hb with
    | closed _ _ _ => simp [Node.isUnterminated, Block.isTerminated] at h
    | unclosed _ _ hclosing => exact fun t ht => (hclosing t ht).1

theorem nodeSpaced_text {t : Token} : NodeSpaced (.text t) (t :: rest) rest :=
  ⟨spaced_token, fun h => absurd h Bool.false_ne_true⟩

theorem nodeSpaced_misplaced {t : Token} : NodeSpaced (.misplaced t) (t :: rest) rest :=
  ⟨spaced_token, fun h => absurd h Bool.false_ne_true⟩

theorem spaced_item {definitions : Bool} {i : Item}
    (hi : ItemRead definitions NodeSpaced i ts rest) : Spaced i.gappedPieces ts rest := by
  cases hi with
  | node hn =>
    cases hn with
    | construct hn => exact (nodeSpaced_construct hn).spaced
    | text _ _ => exact spaced_token
    | misplaced _ _ => exact spaced_token
  | definition _ hd =>
    intro hts
    cases hd with
    | intro _ _ hheader _ hbody =>
      have hmid := (spaced_block hheader hts.tail).1
      exact ⟨(spaced_block hbody hmid).1, fun x _ => flows_gap x⟩

end Layer

theorem nodeWithin_spaced (levels : Nat) :
    (nodeWithin levels).production.Ensures NodeSpaced := by
  refine nodeWithin_ensures (R := fun _ => NodeSpaced) ?_ ?_ levels
  · intro n ts rest h
    cases h with
    | quotation hq => exact nodeSpaced_construct (ConstructRead.quotation hq)
    | text _ _ _ _ => exact nodeSpaced_text
    | misplaced _ _ _ => exact nodeSpaced_misplaced
  · intro levels n ts rest h
    cases h with
    | construct hn => exact nodeSpaced_construct hn
    | text _ _ => exact nodeSpaced_text

/-! Gaps. -/

/-- The piece before some gap runs into the piece after it. -/
def RunsAcrossGap (ps : List (Option String)) : Prop :=
  ∃ before p gap q after, ps = before ++ some p :: (gap ++ some q :: after) ∧
    gap ≠ [] ∧ (∀ x ∈ gap, x = none) ∧ RunsInto p q

theorem head?_reduceOption_eq_some_iff {ps : List (Option String)} {q : String} :
    ps.reduceOption.head? = some q ↔
      ∃ gap after, ps = gap ++ some q :: after ∧ ∀ x ∈ gap, x = none := by
  rw [List.reduceOption, List.head?_filterMap, List.findSome?_eq_some_iff]
  constructor
  · rintro ⟨gap, _, after, heq, rfl, hgap⟩
    exact ⟨gap, after, heq, hgap⟩
  · rintro ⟨gap, after, heq, hgap⟩
    exact ⟨gap, some q, after, heq, rfl, hgap⟩

/-- Neighbours among the pieces are those that have nothing but gaps between them. -/
theorem isChain_reduceOption_iff {R : String → String → Prop} {ps : List (Option String)} :
    ps.reduceOption.IsChain R ↔ ∀ before p gap q after,
      ps = before ++ some p :: (gap ++ some q :: after) → (∀ x ∈ gap, x = none) → R p q := by
  induction ps with
  | nil => simp
  | cons x ps ih =>
    -- either the first piece is the one before the gap, or the gap is in the rest
    have hfirst : (x :: ps).reduceOption.IsChain R ↔
        (∀ p ∈ x, ∀ q ∈ ps.reduceOption.head?, R p q) ∧ ps.reduceOption.IsChain R := by
      cases x with
      | none => simp
      | some p => simp [List.isChain_cons]
    rw [hfirst, ih]
    constructor
    · rintro ⟨hhead, hrest⟩ before p gap q after heq hgap
      cases before with
      | nil =>
        obtain ⟨rfl, rfl⟩ := List.cons.inj heq
        exact hhead p rfl q (head?_reduceOption_eq_some_iff.mpr ⟨gap, after, rfl, hgap⟩)
      | cons y before => exact hrest before p gap q after (List.cons.inj heq).2 hgap
    · intro h
      refine ⟨fun p hp q hq => ?_, fun before p gap q after heq hgap => ?_⟩
      · obtain ⟨gap, after, rfl, hgap⟩ := head?_reduceOption_eq_some_iff.mp hq
        exact h [] p gap q after (by rw [Option.mem_def.mp hp]; rfl) hgap
      · exact h (x :: before) p gap q after (by rw [heq]; rfl) hgap

theorem none_notMem_gappedPieces :
    TreeCases (fun n => (∀ x ∈ n.subjects, ¬ x.holdsRules) → none ∉ n.gappedPieces)
      (fun b => (∀ x ∈ b.subjects, ¬ x.holdsRules) → none ∉ b.gappedPieces)
      (fun a => (∀ x ∈ a.subjects, ¬ x.holdsRules) → none ∉ a.gappedPieces) where
  text t _ := by simp [Node.gappedPieces]
  quotation q _ := by simp [Node.gappedPieces]
  misplaced t _ := by simp [Node.gappedPieces]
  definition d h := absurd rfl (h (.definition d) (by simp [d.subjects_eq]))
  command ident arguments clause ih h := by
    rw [Node.subjects_command, Command.subjects_mk] at h
    cases clause with
    | some c => exact absurd rfl (h (.clause c) (by simp [c.mem_subjects_self]))
    | none =>
      have harguments : ∀ a ∈ arguments, none ∉ a.gappedPieces := by
        refine fun a ha => ih a ha fun x hx => h x ?_
        simp only [List.mem_cons, List.mem_append, List.mem_flatMap]
        exact Or.inr (Or.inr (Or.inl ⟨a, ha, hx⟩))
      simpa [Node.gappedPieces, Command.gappedPieces, Argument.gappedPiecesAll_eq]
        using harguments
  block b ih h := ih fun x hx => h x (List.mem_cons_of_mem _ hx)
  children opening children closing ih h := by
    rw [Block.subjects_mk] at h
    cases closing with
    | none => exact List.not_mem_nil
    | some closing =>
      have hchildren : ∀ n ∈ Node.trim children, none ∉ n.gappedPieces := by
        intro n hn
        have hn := Node.mem_of_mem_trim hn
        exact ih n hn fun x hx => h x (List.mem_cons_of_mem _ (List.mem_flatMap.mpr ⟨n, hn, hx⟩))
      have hsize : ∀ b : Block, ∀ name, none ∉ b.sizePiece name := by
        intro b name
        unfold Block.sizePiece
        split <;> simp
      rw [Block.gappedPieces_closed]
      simpa [hsize] using hchildren
  argument b ih := ih
  script operator operand ih h := by
    have hoperand := ih fun x hx => h x (List.mem_cons_of_mem _ hx)
    rw [Argument.gappedPieces]
    split
    · exact List.not_mem_nil
    · simpa using hoperand

namespace Document

theorem flows_ofTokens (definitions : Bool) {ts : List Token} (h : Separate ts) :
    Flows [] none (ofTokens definitions ts).gappedPieces := by
  have hchain := ofTokens_chain definitions (nodeWithin_spaced _) ts
  exact (Spaced.chain (hchain.mono spaced_item) h).2 none (by simp [FitsBefore])

theorem none_notMem_gappedPieces {doc : Document} (h : doc.WithoutRules) :
    none ∉ doc.gappedPieces := by
  rw [WithoutRules, subjects_eq, List.forall_mem_flatMap] at h
  rw [gappedPieces, List.mem_flatMap]
  rintro ⟨i, hi, hnone⟩
  cases i with
  | node n => exact AcademicMarkup.none_notMem_gappedPieces.node n (h _ hi) hnone
  | definition d => exact absurd rfl (h _ hi (.definition d) (by simp [d.subjects_eq]))

/-- The pieces of a formula, with a gap where rules were left out, do not run into one another
except across gaps, and the tokens of the formula are those of the pieces unless they do so. -/
theorem words_inline_iff (source : String) :
    (ofSource source).gappedPieces.reduceOption =
        Node.latexPiecesAll (ofSource source).normal.nodes ∧
      (ofSource source).gappedPieces.IsChain Seamless ∧
      (words (Latex.inline (ofSource source).normal.nodes) =
          (Node.latexPiecesAll (ofSource source).normal.nodes).flatMap words ↔
        ¬ RunsAcrossGap (ofSource source).gappedPieces) ∧
      ((ofSource source).WithoutRules →
        words (Latex.inline (ofSource source).normal.nodes) =
          (Node.latexPiecesAll (ofSource source).normal.nodes).flatMap words) := by
  have hpieces := reduceOption_gappedPieces (ofSource source)
  have hflows : Flows [] none (ofSource source).gappedPieces :=
    flows_ofTokens true (Separate.ofSource source)
  have hchain := (List.isChain_cons.mp hflows.isChain).2
  have hempty : "" ∉ Node.latexPiecesAll (ofSource source).normal.nodes := by
    rw [← hpieces, List.reduceOption_mem_iff]
    exact hflows.ne_empty
  have hwords : words (Latex.inline (ofSource source).normal.nodes) =
      (Node.latexPiecesAll (ofSource source).normal.nodes).flatMap words ↔
        ¬ RunsAcrossGap (ofSource source).gappedPieces := by
    rw [Latex.inline, words_join_iff hempty, ← hpieces, isChain_reduceOption_iff]
    constructor
    · rintro h ⟨before, p, gap, q, after, heq, -, hgap, hruns⟩
      exact h before p gap q after heq hgap hruns
    · intro h before p gap q after heq hgap hruns
      by_cases hnil : gap = []
      · subst hnil
        rw [heq] at hchain
        exact (List.isChain_cons_cons.mp hchain.right_of_append).1 p rfl q rfl hruns
      · exact h ⟨before, p, gap, q, after, heq, hnil, hgap, hruns⟩
  refine ⟨hpieces, hchain, hwords, fun hrules => hwords.mpr ?_⟩
  rintro ⟨before, p, gap, q, after, heq, hnil, hgap, -⟩
  obtain ⟨x, hx⟩ := List.exists_mem_of_ne_nil gap hnil
  refine none_notMem_gappedPieces hrules ?_
  rw [heq, ← hgap x hx]
  simp [hx]

/-- White space is cut next to brackets, and an unterminated block and a script of one go. -/
theorem words_inline_unclosed :
    (ofSource "\x7b \\a(b \x7d\\c^[d) e").WithoutRules ∧
      Latex.inline (ofSource "\x7b \\a(b \x7d\\c^[d) e").normal.nodes = "\x7b\\a\x7d\\c) e" ∧
      words (Latex.inline (ofSource "\x7b \\a(b \x7d\\c^[d) e").normal.nodes) =
        (Node.latexPiecesAll (ofSource "\x7b \\a(b \x7d\\c^[d) e").normal.nodes).flatMap words := by
  have hrules : (ofSource "\x7b \\a(b \x7d\\c^[d) e").WithoutRules := by decide +kernel
  exact ⟨hrules, by decide +kernel, (words_inline_iff _).2.2.2 hrules⟩

/-- A command name runs into the text after its clause. -/
theorem words_inline_clause :
    (ofSource "\\a\\where!\x7b\x7db").definitionList.isEmpty ∧
      Latex.inline (ofSource "\\a\\where!\x7b\x7db").normal.nodes = "\\ab" ∧
      words (Latex.inline (ofSource "\\a\\where!\x7b\x7db").normal.nodes) ≠
        (Node.latexPiecesAll (ofSource "\\a\\where!\x7b\x7db").normal.nodes).flatMap words := by
  decide +kernel

end Document

end AcademicMarkup
