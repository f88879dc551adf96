import AcademicMarkup.Latex
import AcademicMarkup.Denotation
import AcademicMarkup.Proofs.BracketMachine
import AcademicMarkup.Proofs.ReadParts

/-!
Formulas against their source. What a document writes into a formula is its tokens as they stand,
with a command for the size before each round or square bracket of a block that is closed. The
brackets are known by their places among the tokens: one pair of places for each such block, and
the pairs lie apart or within one another, however the blocks that are not closed lie around them.
-/
namespace AcademicMarkup

namespace Latex

/-- Whether a pair of places begins here. -/
def opensAt (pairs : List (Nat × Nat)) (place : Nat) : Bool := pairs.any (·.1 == place)

/-- Whether a pair of places ends here. -/
def closesAt (pairs : List (Nat × Nat)) (place : Nat) : Bool := pairs.any (·.2 == place)

/-- A token at a place, where the brackets at these pairs of places grow. -/
def sizedToken (pairs : List (Nat × Nat)) (place : Nat) (t : Token) : String :=
  (if opensAt pairs place then "\\left" else "") ++
    (if closesAt pairs place then "\\right" else "") ++ t.text

/-- Tokens from a place on, where the brackets at these pairs of places grow. -/
def sized (pairs : List (Nat × Nat)) : Nat → List Token → String
  | _, [] => ""
  | place, t :: ts => sizedToken pairs place t ++ sized pairs (place + 1) ts

/-- Pairs of places in a range, each before those within it and those after it. -/
structure Nested (start stop : Nat) (pairs : List (Nat × Nat)) : Prop where
  within : ∀ p ∈ pairs, start ≤ p.1 ∧ p.1 < p.2 ∧ p.2 < stop
  laminar : pairs.Pairwise fun p q => p.1 < q.1 ∧ (p.2 < q.1 ∨ q.2 < p.2)

end Latex

/-- The brackets of a round or square block that is closed. -/
def Block.growing? : Block → Option (Token × Token)
  | ⟨opening, _, some closing⟩ =>
    if opening.text = "(" ∨ opening.text = "[" then some (opening, closing) else none
  | ⟨_, _, none⟩ => none

def Subject.growing? : Subject → Option (Token × Token)
  | .block b => b.growing?
  | _ => none

mutual

/-- The places of the growing brackets of a node that stands after this number of tokens. -/
def Node.sizedPlaces (place : Nat) : Node → List (Nat × Nat)
  | .text _ => []
  | .quotation _ => []
  | .misplaced _ => []
  | .command c => c.sizedPlaces place
  | .block b => b.sizedPlaces place
  | .definition _ => []

def Node.sizedPlacesAll (place : Nat) : List Node → List (Nat × Nat)
  | [] => []
  | n :: ns => n.sizedPlaces place ++ Node.sizedPlacesAll (place + n.tokens.length) ns

def Block.sizedPlaces (place : Nat) : Block → List (Nat × Nat)
  | ⟨opening, children, closing⟩ =>
    (if (Block.growing? ⟨opening, children, closing⟩).isSome then
      [(place, place + 1 + (Node.tokensAll children).length)] else []) ++
      Node.sizedPlacesAll (place + 1) children

def Command.sizedPlaces (place : Nat) : Command → List (Nat × Nat)
  | ⟨_, arguments, _⟩ => Argument.sizedPlacesAll (place + 1) arguments

def Argument.sizedPlaces (place : Nat) : Argument → List (Nat × Nat)
  | .block b => b.sizedPlaces place
  | .script _ operand => operand.sizedPlaces (place + 1)

def Argument.sizedPlacesAll (place : Nat) : List Argument → List (Nat × Nat)
  | [] => []
  | a :: as => a.sizedPlaces place ++ Argument.sizedPlacesAll (place + a.tokens.length) as

end

def Document.sizedPlaces (doc : Document) : List (Nat × Nat) := Node.sizedPlacesAll 0 doc.nodes

/-- The places in things that stand one after the other. -/
def placesAll {α : Type} (tokens : α → List Token) (places : Nat → α → List (Nat × Nat)) :
    Nat → List α → List (Nat × Nat)
  | _, [] => []
  | place, a :: as => places place a ++ placesAll tokens places (place + (tokens a).length) as

/-! Writing tokens with sizes. -/

namespace Latex

variable {pairs more : List (Nat × Nat)} {start mid stop place : Nat} {ts us : List Token}

theorem sized_append (pairs : List (Nat × Nat)) (place : Nat) (ts us : List Token) :
    sized pairs place (ts ++ us) = sized pairs place ts ++ sized pairs (place + ts.length) us := by
  induction ts generalizing place with
  | nil => simp [sized]
  | cons t ts ih =>
    rw [List.cons_append, sized, sized, ih, String.append_assoc, List.length_cons]
    congr 3
    omega

/-- Where no bracket grows the tokens are written as they stand. -/
theorem sized_nil (place : Nat) (ts : List Token) : sized [] place ts = Token.joinedText ts := by
  induction ts generalizing place with
  | nil => rfl
  | cons t ts ih =>
    rw [sized, ih, Token.joinedText, Token.joinedText, List.map_cons, String.join_cons]
    simp [sizedToken, opensAt, closesAt]

theorem sized_congr
    (hopens : ∀ i, place ≤ i → i < place + ts.length → opensAt pairs i = opensAt more i)
    (hcloses : ∀ i, place ≤ i → i < place + ts.length → closesAt pairs i = closesAt more i) :
    sized pairs place ts = sized more place ts := by
  induction ts generalizing place with
  | nil => rfl
  | cons t ts ih =>
    rw [List.length_cons] at hopens hcloses
    have hrest : sized pairs (place + 1) ts = sized more (place + 1) ts :=
      ih (fun i hi hlt => hopens i (by omega) (by omega))
        (fun i hi hlt => hcloses i (by omega) (by omega))
    rw [sized, sized, hrest, sizedToken, sizedToken, hopens place (by omega) (by omega),
      hcloses place (by omega) (by omega)]

theorem opensAt_append (pairs more : List (Nat × Nat)) (place : Nat) :
    opensAt (pairs ++ more) place = (opensAt pairs place || opensAt more place) :=
  List.any_append

theorem closesAt_append (pairs more : List (Nat × Nat)) (place : Nat) :
    closesAt (pairs ++ more) place = (closesAt pairs place || closesAt more place) :=
  List.any_append

theorem opensAt_cons (p : Nat × Nat) (pairs : List (Nat × Nat)) (place : Nat) :
    opensAt (p :: pairs) place = (p.1 == place || opensAt pairs place) := rfl

theorem closesAt_cons (p : Nat × Nat) (pairs : List (Nat × Nat)) (place : Nat) :
    closesAt (p :: pairs) place = (p.2 == place || closesAt pairs place) := rfl

namespace Nested

theorem nil : Nested start stop [] := ⟨by simp, List.Pairwise.nil⟩

theorem mono {start' stop' : Nat} (h : Nested start stop pairs) (hstart : start' ≤ start)
    (hstop : stop ≤ stop') : Nested start' stop' pairs := by
  refine ⟨fun p hp => ?_, h.laminar⟩
  have hbounds := h.within p hp
  omega

theorem append (h : Nested start mid pairs) (h' : Nested mid stop more) (hle : start ≤ mid)
    (hle' : mid ≤ stop) : Nested start stop (pairs ++ more) := by
  refine ⟨List.forall_mem_append.mpr ⟨(h.mono (Nat.le_refl _) hle').within,
    (h'.mono hle (Nat.le_refl _)).within⟩,
    List.pairwise_append.mpr ⟨h.laminar, h'.laminar, fun p hp q hq => ?_⟩⟩
  have hbounds := h.within p hp
  have hbounds' := h'.within q hq
  omega

/-- A pair around all others. -/
theorem cons (h : Nested (start + 1) stop pairs) (hle : start + 1 ≤ stop) :
    Nested start (stop + 1) ((start, stop) :: pairs) := by
  refine ⟨List.forall_mem_cons.mpr ⟨⟨Nat.le_refl _, hle, Nat.lt_succ_self _⟩,
    (h.mono (Nat.le_succ _) (Nat.le_succ _)).within⟩,
    List.pairwise_cons.mpr ⟨fun p hp => ?_, h.laminar⟩⟩
  have hbounds := h.within p hp
  exact ⟨hbounds.1, Or.inr hbounds.2.2⟩

/-- Outside the range no pair begins or ends. -/
theorem outside (h : Nested start stop pairs) {i : Nat} (hi : i < start ∨ stop ≤ i) :
    opensAt pairs i = false ∧ closesAt pairs i = false := by
  constructor
  · refine List.any_eq_false.mpr fun p hp => ?_
    have hbounds := h.within p hp
    rw [beq_iff_eq]
    omega
  · refine List.any_eq_false.mpr fun p hp => ?_
    have hbounds := h.within p hp
    rw [beq_iff_eq]
    omega

/-- Each part of the tokens is written with the pairs that lie in it. -/
theorem sized_append (h : Nested place (place + ts.length) pairs)
    (h' : Nested (place + ts.length) stop more) (us : List Token) :
    sized (pairs ++ more) place (ts ++ us) =
      sized pairs place ts ++ sized more (place + ts.length) us := by
  rw [Latex.sized_append]
  congr 1
  · refine sized_congr (fun i _ hlt => ?_) (fun i _ hlt => ?_)
    · rw [opensAt_append, (h'.outside (Or.inl hlt)).1, Bool.or_false]
    · rw [closesAt_append, (h'.outside (Or.inl hlt)).2, Bool.or_false]
  · refine sized_congr (fun i hi _ => ?_) (fun i hi _ => ?_)
    · rw [opensAt_append, (h.outside (Or.inr hi)).1, Bool.false_or]
    · rw [closesAt_append, (h.outside (Or.inr hi)).2, Bool.false_or]

/-- Inside a pair the tokens are written with the other pairs, and a command for the size stands
before each of the two places. -/
theorem sized_cons (h : Nested (place + 1) (place + 1 + ts.length) pairs)
    (opening closing : Token) :
    sized ((place, place + 1 + ts.length) :: pairs) place (opening :: ts ++ [closing]) =
      "\\left" ++ opening.text ++ sized pairs (place + 1) ts ++ "\\right" ++ closing.text := by
  have hbefore := h.outside (i := place) (Or.inl (Nat.lt_succ_self place))
  have hafter := h.outside (Or.inr (Nat.le_refl _))
  have hinner : sized ((place, place + 1 + ts.length) :: pairs) (place + 1) ts =
      sized pairs (place + 1) ts := by
    refine sized_congr (fun i hi _ => ?_) (fun i _ hlt => ?_)
    · have hne : place ≠ i := by omega
      rw [opensAt_cons, beq_false_of_ne hne, Bool.false_or]
    · have hne : place + 1 + ts.length ≠ i := by omega
      rw [closesAt_cons, beq_false_of_ne hne, Bool.false_or]
  have hne : place + 1 + ts.length ≠ place := by omega
  rw [List.cons_append, sized, Latex.sized_append, hinner, sized, sized, sizedToken, sizedToken,
    opensAt_cons, opensAt_cons, closesAt_cons, closesAt_cons, hbefore.1, hbefore.2, hafter.1,
    hafter.2, beq_false_of_ne hne, beq_false_of_ne hne.symm]
  simp [String.append_assoc]

end Nested

end Latex

/-! What is written, along the tree. -/

/-- Tokens from a place on that are written as a text with these brackets growing, at these pairs
of places. -/
structure Sizes (place : Nat) (ts : List Token) (text : String) (brackets : List (Token × Token))
    (pairs : List (Nat × Nat)) : Prop where
  text : text = Latex.sized pairs place ts
  nested : Latex.Nested place (place + ts.length) pairs
  brackets : pairs.map (fun p => (ts[p.1 - place]?, ts[p.2 - place]?)) =
    brackets.map fun b => (some b.1, some b.2)

namespace Sizes

variable {place : Nat} {ts us : List Token} {text text' : String}
  {brackets brackets' : List (Token × Token)} {pairs pairs' : List (Nat × Nat)}

theorem plain (place : Nat) (ts : List Token) : Sizes place ts (Token.joinedText ts) [] [] :=
  ⟨(Latex.sized_nil place ts).symm, Latex.Nested.nil, rfl⟩

theorem append (h : Sizes place ts text brackets pairs)
    (h' : Sizes (place + ts.length) us text' brackets' pairs') :
    Sizes place (ts ++ us) (text ++ text') (brackets ++ brackets') (pairs ++ pairs') := by
  have hnested := h'.nested
  rw [Nat.add_assoc] at hnested
  refine ⟨?_, ?_, ?_⟩
  · rw [h.nested.sized_append h'.nested, h.text, h'.text]
  · rw [List.length_append]
    exact h.nested.append hnested (Nat.le_add_right _ _) (by omega)
  · rw [List.map_append, List.map_append, ← h.brackets, ← h'.brackets]
    congr 1
    · refine List.map_congr_left fun p hp => ?_
      have hbounds := h.nested.within p hp
      rw [List.getElem?_append_left (by omega), List.getElem?_append_left (by omega)]
    · refine List.map_congr_left fun p hp => ?_
      have hbounds := h'.nested.within p hp
      rw [List.getElem?_append_right (by omega), List.getElem?_append_right (by omega),
        Nat.sub_sub, Nat.sub_sub]

/-- A pair of brackets that grows. -/
theorem enclose (h : Sizes (place + 1) ts text brackets pairs) (opening closing : Token) :
    Sizes place (opening :: ts ++ [closing])
      ("\\left" ++ opening.text ++ text ++ "\\right" ++ closing.text)
      ((opening, closing) :: brackets) ((place, place + 1 + ts.length) :: pairs) := by
  refine ⟨?_, ?_, ?_⟩
  · rw [h.nested.sized_cons, h.text]
  · have hlength : place + (opening :: ts ++ [closing]).length = place + 1 + ts.length + 1 := by
      simp only [List.cons_append, List.length_cons, List.length_append, List.length_nil]
      omega
    rw [hlength]
    exact h.nested.cons (Nat.le_add_right _ _)
  · rw [List.map_cons, List.map_cons, ← h.brackets]
    congr 1
    · have hlast : place + 1 + ts.length - place = ts.length + 1 := by omega
      simp [hlast]
    · refine List.map_congr_left fun p hp => ?_
      have hbounds := h.nested.within p hp
      have hinner : ∀ i, place + 1 ≤ i → i < place + 1 + ts.length →
          (opening :: ts ++ [closing])[i - place]? = ts[i - (place + 1)]? := by
        intro i hi hlt
        rw [show i - place = i - (place + 1) + 1 by omega, List.cons_append,
          List.getElem?_cons_succ, List.getElem?_append_left (by omega)]
      rw [hinner p.1 (by omega) (by omega), hinner p.2 (by omega) (by omega)]

end Sizes

theorem Node.latexPiecesAll_eq (ns : List Node) :
    Node.latexPiecesAll ns = ns.flatMap Node.latexPieces := by
  induction ns with
  | nil => rfl
  | cons n ns ih => rw [Node.latexPiecesAll, ih, List.flatMap_cons]

theorem Argument.latexPiecesAll_eq (as : List Argument) :
    Argument.latexPiecesAll as = as.flatMap Argument.latexPieces := by
  induction as with
  | nil => rfl
  | cons a as ih => rw [Argument.latexPiecesAll, ih, List.flatMap_cons]

theorem Node.sizedPlacesAll_eq (place : Nat) (ns : List Node) :
    Node.sizedPlacesAll place ns = placesAll Node.tokens Node.sizedPlaces place ns := by
  induction ns generalizing place with
  | nil => rfl
  | cons n ns ih => rw [Node.sizedPlacesAll, ih, placesAll]

theorem Argument.sizedPlacesAll_eq (place : Nat) (as : List Argument) :
    Argument.sizedPlacesAll place as = placesAll Argument.tokens Argument.sizedPlaces place as := by
  induction as generalizing place with
  | nil => rfl
  | cons a as ih => rw [Argument.sizedPlacesAll, ih, placesAll]

theorem Block.growing?_eq_some {opening : Token} {children : List Node} {closing : Option Token}
    {brackets : Token × Token} (h : Block.growing? ⟨opening, children, closing⟩ = some brackets) :
    ∃ t, closing = some t ∧ brackets = (opening, t) := by
  cases closing with
  | none => exact absurd h (by simp [Block.growing?])
  | some t =>
    rw [Block.growing?, Option.ite_none_right_eq_some] at h
    exact ⟨t, rfl, (Option.some.inj h.2).symm⟩

theorem Block.join_latexPieces_of_sized {opening closing : Token} {children : List Node}
    (h : Block.isSized ⟨opening, children, some closing⟩ = true) :
    String.join (Block.latexPieces ⟨opening, children, some closing⟩) =
      "\\left" ++ opening.text ++ String.join (Node.latexPiecesAll children) ++
        "\\right" ++ closing.text := by
  simp [Block.latexPieces, h, String.append_assoc]

theorem Block.join_latexPieces_of_not_sized {opening : Token} {children : List Node}
    {closing : Option Token} (h : Block.isSized ⟨opening, children, closing⟩ = false) :
    String.join (Block.latexPieces ⟨opening, children, closing⟩) =
      opening.text ++ String.join (Node.latexPiecesAll children) ++
        Token.joinedText closing.toList := by
  cases closing <;> simp [Block.latexPieces, h, Token.joinedText, String.append_assoc]

/-- Whether a block is of a kind that grows by what its brackets are in the source. -/
def Subject.SizedAsWritten : Subject → Prop
  | .block b => b.isSized = b.growing?.isSome
  | _ => True

theorem sizedAsWritten_cases : ReadCases Subject.SizedAsWritten where
  node _ := trivial
  text _ _ := trivial
  quotation _ := trivial
  misplaced _ := trivial
  command _ _ := trivial
  script _ := trivial
  clause _ := trivial
  definition _ := trivial
  block {opening children closing} hopening hpairs := by
    cases closing with
    | none => rfl
    | some closing =>
      have hkind : Block.kind? ⟨opening, children, some closing⟩ = opening.opens? := by
        simp [Block.kind?, hpairs closing rfl]
      rcases Token.opening_text hopening with htext | htext | htext <;>
      · simp only [Subject.SizedAsWritten, Block.isSized, Block.isKind, hkind, Block.growing?,
          Token.opens?, htext, apply_ite Option.isSome, Option.isSome_some, Option.isSome_none]
        decide

/-- Nothing that was read is left out of a formula here, and a block grows if it should. -/
def Subject.Formulaic (x : Subject) : Prop := ¬ x.holdsRules ∧ x.SizedAsWritten

namespace Sizes

/-- Parts one after the other, each with its own pairs. -/
theorem parts {α : Type} {tokens : α → List Token} {pieces : α → List String}
    {subjects : α → List Subject} {places : Nat → α → List (Nat × Nat)} {as : List α}
    (ih : ∀ a ∈ as, (∀ x ∈ subjects a, x.Formulaic) → ∀ place,
      Sizes place (tokens a) (String.join (pieces a)) ((subjects a).filterMap Subject.growing?)
        (places place a))
    (h : ∀ x ∈ as.flatMap subjects, x.Formulaic) (place : Nat) :
    Sizes place (as.flatMap tokens) (String.join (as.flatMap pieces))
      ((as.flatMap subjects).filterMap Subject.growing?) (placesAll tokens places place as) := by
  induction as generalizing place with
  | nil => exact plain place []
  | cons a as ihas =>
    obtain ⟨ha, has⟩ := List.forall_mem_cons.mp ih
    rw [List.flatMap_cons] at h
    obtain ⟨hfirst, hmore⟩ := List.forall_mem_append.mp h
    rw [List.flatMap_cons, List.flatMap_cons, List.flatMap_cons, String.join_append,
      List.filterMap_append, placesAll]
    exact (ha hfirst place).append (ihas has hmore _)

/-- A block whose brackets stand as they are. -/
theorem bare {opening : Token} {closing : Option Token} {place : Nat} {ts : List Token}
    {text : String} {brackets : List (Token × Token)} {pairs : List (Nat × Nat)}
    (h : Sizes (place + 1) ts text brackets pairs) :
    Sizes place (opening :: ts ++ closing.toList)
      (opening.text ++ text ++ Token.joinedText closing.toList) brackets pairs := by
  have hblock := ((plain place [opening]).append h).append (plain _ closing.toList)
  simpa [Token.joinedText] using hblock

end Sizes

theorem sizes_cases :
    TreeCases
      (fun n => (∀ x ∈ n.subjects, x.Formulaic) → ∀ place,
        Sizes place n.tokens (String.join n.latexPieces)
          (n.subjects.filterMap Subject.growing?) (n.sizedPlaces place))
      (fun b => (∀ x ∈ b.subjects, x.Formulaic) → ∀ place,
        Sizes place b.tokens (String.join b.latexPieces)
          (b.subjects.filterMap Subject.growing?) (b.sizedPlaces place))
      (fun a => (∀ x ∈ a.subjects, x.Formulaic) → ∀ place,
        Sizes place a.tokens (String.join a.latexPieces)
          (a.subjects.filterMap Subject.growing?) (a.sizedPlaces place)) where
  text t _ place := Sizes.plain place [t]
  quotation q _ place := by
    have htext : String.join (Node.quotation q).latexPieces = Token.joinedText q.tokens := by
      simp [Node.latexPieces, Quotation.text]
    rw [htext]
    exact Sizes.plain place q.tokens
  misplaced t _ place := Sizes.plain place [t]
  definition d h := absurd rfl (h (.definition d) (by simp [d.subjects_eq])).1
  command ident arguments clause ih h place := by
    rw [Node.subjects_command, Command.subjects_mk] at h ⊢
    cases clause with
    | some c => exact absurd rfl (h (.clause c) (by simp [c.mem_subjects_self])).1
    | none =>
      have harguments := Sizes.parts ih (fun x hx => h x (by simp [hx])) (place + 1)
      rw [← Argument.latexPiecesAll_eq, ← Argument.sizedPlacesAll_eq, ← Argument.tokensAll_eq]
        at harguments
      have hcommand := (Sizes.plain place [ident]).append harguments
      rw [List.filterMap_cons_none rfl, List.filterMap_cons_none rfl]
      simpa [Node.tokens, Command.tokens, Node.latexPieces, Command.latexPieces, Node.sizedPlaces,
        Command.sizedPlaces, Token.joinedText] using hcommand
  block b ih h place := ih (fun x hx => h x (List.mem_cons_of_mem _ hx)) place
  children opening children closing ih h place := by
    rw [Block.subjects_mk] at h ⊢
    obtain ⟨⟨-, hsized⟩, hmore⟩ := List.forall_mem_cons.mp h
    have hchildren := Sizes.parts ih hmore (place + 1)
    rw [← Node.latexPiecesAll_eq, ← Node.sizedPlacesAll_eq, ← Node.tokensAll_eq] at hchildren
    cases hgrowing : Subject.growing? (.block ⟨opening, children, closing⟩) with
    | none =>
      have hplain : Block.isSized ⟨opening, children, closing⟩ = false := by
        rw [hsized, ← Subject.growing?, hgrowing, Option.isSome_none]
      rw [List.filterMap_cons_none hgrowing, Block.join_latexPieces_of_not_sized hplain,
        Block.sizedPlaces, ← Subject.growing?, hgrowing]
      exact hchildren.bare
    | some brackets =>
      have hgrows : Block.isSized ⟨opening, children, closing⟩ = true := by
        rw [hsized, ← Subject.growing?, hgrowing, Option.isSome_some]
      obtain ⟨closing, rfl, rfl⟩ := Block.growing?_eq_some hgrowing
      rw [List.filterMap_cons_some hgrowing, Block.join_latexPieces_of_sized hgrows,
        Block.sizedPlaces, ← Subject.growing?, hgrowing]
      exact hchildren.enclose opening closing
  argument b ih h place := ih h place
  script operator operand ih h place := by
    rw [Argument.subjects_script] at h ⊢
    have hoperand := ih (fun x hx => h x (List.mem_cons_of_mem _ hx)) (place + 1)
    have hscript := (Sizes.plain place [operator]).append hoperand
    rw [List.filterMap_cons_none rfl]
    simpa [Argument.tokens, Argument.latexPieces, Argument.sizedPlaces, Token.joinedText]
      using hscript

namespace Document

theorem eq_map_node {doc : Document} (h : doc.WithoutRules) : doc = doc.nodes.map Item.node := by
  rw [WithoutRules, subjects_eq] at h
  induction doc with
  | nil => rfl
  | cons i is ih =>
    obtain ⟨hi, his⟩ := List.forall_mem_append.mp h
    cases i with
    | node n => exact congrArg (Item.node n :: ·) (ih his)
    | definition d => exact absurd rfl (hi (.definition d) (by simp [d.subjects_eq]))

/-- A document without rules is written into a formula token by token as it stands, with a command
for the size before each bracket of the closed round and square blocks and nothing else. The
brackets of the blocks are at pairs of places that are properly nested. -/
theorem inline_eq_sized (definitions : Bool) (ts : List Token)
    (h : (ofTokens definitions ts).WithoutRules) :
    Latex.inline (ofTokens definitions ts).nodes =
        Latex.sized (ofTokens definitions ts).sizedPlaces 0 ts ∧
      (ofTokens definitions ts).sizedPlaces.map (fun p => (ts[p.1]?, ts[p.2]?)) =
        ((ofTokens definitions ts).subjects.filterMap Subject.growing?).map
          (fun b => (some b.1, some b.2)) ∧
      Latex.Nested 0 ts.length (ofTokens definitions ts).sizedPlaces := by
  have hwritten := sizedAsWritten_cases.ofTokens definitions ts
  have htokens := tokens_ofTokens definitions ts h
  generalize ofTokens definitions ts = doc at h hwritten htokens
  obtain ⟨ns, rfl⟩ : ∃ ns : List Node, doc = ns.map Item.node :=
    ⟨_, eq_map_node h⟩
  have hnodes : nodes (ns.map Item.node) = ns := by simp [nodes, List.filterMap_map]
  have hsubjects : subjects (ns.map Item.node) = ns.flatMap Node.subjects := by
    rw [subjects_eq, List.flatMap_map]
    rfl
  have htokensAll : ts = ns.flatMap Node.tokens := by
    rw [← htokens, tokens, List.flatMap_map]
    rfl
  rw [WithoutRules, hsubjects] at h
  rw [hsubjects] at hwritten
  have hsizes := Sizes.parts (fun n _ => sizes_cases.node n) (fun x hx => ⟨h x hx, hwritten x hx⟩) 0
  rw [← htokensAll, ← Node.latexPiecesAll_eq, ← Node.sizedPlacesAll_eq] at hsizes
  rw [sizedPlaces, hnodes, hsubjects, ← Nat.zero_add ts.length]
  exact ⟨hsizes.text, hsizes.brackets, hsizes.nested⟩

/-- A closed block around a closed block, with an unclosed one, a script and a quotation between
them, and a stray bracket and an unclosed block after them. -/
theorem inline_eq_sized_unclosed :
    (ofTokens true (Token.ofSource "(a[\\f^(b)\"]\")\x7d[c")).WithoutRules ∧
      Latex.sized (ofTokens true (Token.ofSource "(a[\\f^(b)\"]\")\x7d[c")).sizedPlaces 0
          (Token.ofSource "(a[\\f^(b)\"]\")\x7d[c") =
        "\\left(a[\\f^\\left(b\\right)\"]\"\\right)\x7d[c" ∧
      Latex.inline (ofTokens true (Token.ofSource "(a[\\f^(b)\"]\")\x7d[c")).nodes =
        Latex.sized (ofTokens true (Token.ofSource "(a[\\f^(b)\"]\")\x7d[c")).sizedPlaces 0
          (Token.ofSource "(a[\\f^(b)\"]\")\x7d[c") := by
  have hrules : (ofTokens true (Token.ofSource "(a[\\f^(b)\"]\")\x7d[c")).WithoutRules := by
    decide +kernel
  exact ⟨hrules, by decide +kernel, (inline_eq_sized true _ hrules).1⟩

end Document

end AcademicMarkup
