import AcademicMarkup.Compilation
import AcademicMarkup.Proofs.BracketMatching
import AcademicMarkup.Proofs.MaximalMunch
import AcademicMarkup.Proofs.NormalForm

/-!
Attribute text on its way to an element. It is cut into tokens, the tokens are read as texts and
quotations, white space is cut at both ends of these, and what is left is joined again. If brackets
and backslashes stand only in quotations that are closed on their line, then nothing else is read in
the text, and what is joined is the text without the white space at its ends.
-/
namespace AcademicMarkup

namespace Attributes

/-- Whether a character is text wherever it stands outside a quotation. -/
def isInert (c : Char) : Bool := !"\\\"“()[]\x7b\x7d".toList.contains c

/-- Whether a character may stand in a quotation that is closed on its line. -/
def isQuotable (c : Char) : Bool := c != '"' && c != '\n' && c != '\r'

/-- A piece of attribute text: inert characters or a quotation. -/
def IsPiece (piece : List Char) : Prop :=
  piece.all isInert ∨ ∃ inside, piece = '"' :: inside ++ ['"'] ∧ inside.all isQuotable

/-- Inert characters up to the first quotation, the quotation, and so on. -/
inductive Spelled : List Char → Prop
  | inert {cs : List Char} : cs.all isInert → Spelled cs
  | quoted {cs inside rest : List Char} : cs.all isInert → inside.all isQuotable → Spelled rest →
      Spelled (cs ++ '"' :: (inside ++ '"' :: rest))

theorem Spelled.append_left {cs rest : List Char} (hcs : cs.all isInert) (h : Spelled rest) :
    Spelled (cs ++ rest) := by
  cases h with
  | inert hrest => exact .inert (by rw [List.all_append, hcs, hrest]; rfl)
  | quoted hbefore hinside hrest =>
    rw [← List.append_assoc]
    exact .quoted (by rw [List.all_append, hcs, hbefore]; rfl) hinside hrest

theorem spelled_flatten {pieces : List (List Char)} (h : ∀ piece ∈ pieces, IsPiece piece) :
    Spelled pieces.flatten := by
  induction pieces with
  | nil => exact .inert rfl
  | cons piece pieces ih =>
    obtain ⟨hpiece, hpieces⟩ := List.forall_mem_cons.mp h
    rw [List.flatten_cons]
    rcases hpiece with hinert | ⟨inside, rfl, hinside⟩
    · exact (ih hpieces).append_left hinert
    · have hempty : ([] : List Char).all isInert := rfl
      simpa using Spelled.quoted hempty hinside (ih hpieces)

end Attributes

open Attributes

/-! The tokens of the text. -/

namespace Token

/-- The tokens have the texts of the lexemes of a text. -/
def Spell (ts : List Token) (cs : List Char) : Prop := ts.map (·.text.toList) = lexemes cs

theorem spell_ofSource (source : String) : Spell (ofSource source) source.toList := by
  have htexts := congrArg (List.map String.toList) (map_text_layOut .origin (lexemes source.toList))
  rw [List.map_map, List.map_map] at htexts
  simpa [Spell, ofSource, Function.comp_def] using htexts

/-- A symbol is a lexeme of its own. -/
theorem lexemes_symbol {c : Char} (h : CharClass.ofChar c = .symbol) (before after : List Char) :
    lexemes (before ++ c :: after) = lexemes before ++ [c] :: lexemes after := by
  have hbefore : ∀ d, joins d c = false := by
    intro d
    rw [joins, h]
    cases CharClass.ofChar d <;> rfl
  have hafter : ∀ d, joins c d = false := by
    intro d
    rw [joins, h]
    rfl
  have hrest : lexemes ([c] ++ after) = lexemes [c] ++ lexemes after :=
    List.splitBy_append (by
      intro d hd e he
      obtain rfl : c = d := by simpa using hd
      exact hafter e)
  have hsplit : lexemes (before ++ c :: after) = lexemes before ++ lexemes (c :: after) :=
    List.splitBy_append (by
      intro d hd e he
      obtain rfl : c = e := by simpa using he
      exact hbefore d)
  rw [hsplit, ← List.singleton_append, hrest]
  rfl

theorem Spell.symbol {c : Char} (hc : CharClass.ofChar c = .symbol) {ts : List Token}
    {before after : List Char} (h : Spell ts (before ++ c :: after)) :
    ∃ us t vs, ts = us ++ t :: vs ∧ Spell us before ∧ t.text = String.ofList [c] ∧
      Spell vs after := by
  rw [Spell, lexemes_symbol hc] at h
  obtain ⟨us, more, rfl, hus, hmore⟩ := List.map_eq_append_iff.mp h
  obtain ⟨t, vs, rfl, ht, hvs⟩ := List.map_eq_cons_iff.mp hmore
  refine ⟨us, t, vs, rfl, hus, ?_, hvs⟩
  rw [← ht, String.ofList_toList]

theorem Spell.subset {ts : List Token} {cs : List Char} (h : Spell ts cs) {t : Token}
    (ht : t ∈ ts) : t.text.toList ⊆ cs := by
  have hmem : t.text.toList ∈ lexemes cs := h ▸ List.mem_map_of_mem ht
  intro c hc
  rw [← flatten_lexemes cs]
  exact List.mem_flatten_of_mem hmem hc

theorem closingQuote?_eq_none {t : Token} (hplain : t.text ≠ "\"") (hcurly : t.text ≠ "“") :
    Grammar.closingQuote? t.text = none := by
  simp [Grammar.closingQuote?, hplain, hcurly]

/-- The token is read as text wherever it stands in a block. -/
structure Inert (t : Token) : Prop where
  quote : Grammar.closingQuote? t.text = none
  identifier : ¬ t.isIdentifier
  opening : ¬ t.isOpening
  closing : ¬ t.isClosing

theorem inert_of_all {t : Token} (h : t.text.toList.all isInert) : t.Inert := by
  have hne : ∀ text : String, text.toList.all isInert = false → t.text ≠ text := by
    rintro text hfalse rfl
    simp [h] at hfalse
  refine ⟨?_, ?_, ?_, ?_⟩
  · exact closingQuote?_eq_none (hne _ (by decide)) (hne _ (by decide))
  · intro hident
    have hmem := List.mem_of_head? (beq_iff_eq.mp hident)
    exact absurd (List.all_eq_true.mp h _ hmem) (by decide)
  · intro hopening
    rcases opening_text hopening with htext | htext | htext
    · exact hne _ (by decide) htext
    · exact hne _ (by decide) htext
    · exact hne _ (by decide) htext
  · intro hclosing
    rcases closing_text hclosing with htext | htext | htext
    · exact hne _ (by decide) htext
    · exact hne _ (by decide) htext
    · exact hne _ (by decide) htext

end Token

/-- Tokens that are read as these texts and closed quotations. -/
inductive Flat : List Node → List Token → Prop
  | nil : Flat [] []
  | text {t : Token} {ns : List Node} {ts : List Token} :
      t.Inert → Flat ns ts → Flat (.text t :: ns) (t :: ts)
  | quotation {opening closing : Token} {content : List Token} {ns : List Node} {ts : List Token} :
      opening.text = "\"" → (∀ t ∈ content, t.text ≠ "\"" ∧ ¬ t.hasNewline) → closing.text = "\"" →
      Flat ns ts → Flat (.quotation ⟨opening, content, some closing⟩ :: ns)
        (opening :: (content ++ closing :: ts))

namespace Flat

theorem texts {ts : List Token} (h : ∀ t ∈ ts, t.Inert) {ns : List Node} {us : List Token}
    (hus : Flat ns us) : Flat (ts.map .text ++ ns) (ts ++ us) := by
  induction ts with
  | nil => exact hus
  | cons t ts ih =>
    obtain ⟨ht, hts⟩ := List.forall_mem_cons.mp h
    exact .text ht (ih hts)

theorem exists_of_spelled {cs : List Char} (hcs : Spelled cs) {ts : List Token}
    (h : Token.Spell ts cs) : ∃ ns, Flat ns ts := by
  have hinert : ∀ {cs : List Char} {ts : List Token}, cs.all isInert → Token.Spell ts cs →
      ∀ t ∈ ts, t.Inert := by
    intro cs ts hall hspell t ht
    refine Token.inert_of_all (List.all_eq_true.mpr fun c hc => ?_)
    exact List.all_eq_true.mp hall c (hspell.subset ht hc)
  induction hcs generalizing ts with
  | inert hall =>
    have htexts := texts (hinert hall h) .nil
    rw [List.append_nil, List.append_nil] at htexts
    exact ⟨_, htexts⟩
  | quoted hall hinside _ ih =>
    -- Both quotes are tokens of their own, so the tokens divide where the text does.
    obtain ⟨us, opening, more, rfl, hus, hopening, hmore⟩ := h.symbol (by decide +kernel)
    obtain ⟨content, closing, vs, rfl, hcontent, hclosing, hvs⟩ := hmore.symbol (by decide +kernel)
    obtain ⟨ns, hns⟩ := ih hvs
    refine ⟨_, texts (hinert hall hus) (.quotation hopening ?_ hclosing hns)⟩
    intro t ht
    have hquotable : ∀ c ∈ t.text.toList, isQuotable c :=
      fun c hc => List.all_eq_true.mp hinside c (hcontent.subset ht hc)
    refine ⟨?_, ?_⟩
    · intro htext
      exact absurd (hquotable '"' (by simp [htext])) (by decide)
    · intro hnewline
      obtain ⟨c, hc, hbreak⟩ := List.any_eq_true.mp hnewline
      have hc := hquotable c hc
      simp [isQuotable] at hc hbreak
      simp [hc] at hbreak

/-! Reading them in a block. -/

open Grammar Production

theorem quoted_closed {content : List Token}
    (hcontent : ∀ t ∈ content, t.text ≠ "\"" ∧ ¬ t.hasNewline) {closing : Token}
    (hclosing : closing.text = "\"") (rest : List Token) :
    quoted "\"" (content ++ closing :: rest) = some ((content, some closing), rest) := by
  induction content with
  | nil => simp [quoted, hclosing]
  | cons t content ih =>
    obtain ⟨⟨htext, hnewline⟩, hmore⟩ := List.forall_mem_cons.mp hcontent
    rw [List.cons_append, quoted, if_neg (by simpa using htext), if_neg hnewline, ih hmore]
    rfl

theorem innerNode_quotation (inner : Reader Node) {opening closing : Token} {content : List Token}
    (hopening : opening.text = "\"")
    (hcontent : ∀ t ∈ content, t.text ≠ "\"" ∧ ¬ t.hasNewline) (hclosing : closing.text = "\"")
    (rest : List Token) :
    innerNode inner (opening :: (content ++ closing :: rest)) =
      some (.quotation ⟨opening, content, some closing⟩, rest) := by
  have hquotation : Grammar.quotation (opening :: (content ++ closing :: rest)) =
      some (⟨opening, content, some closing⟩, rest) := by
    simp [Grammar.quotation, closingQuote?, hopening, quoted_closed hcontent hclosing]
  simp [innerNode, construct, Production.orElse, Production.map, hquotation]

theorem innerNode_inert (inner : Reader Node) {t : Token} (h : t.Inert) (rest : List Token) :
    innerNode inner (t :: rest) = some (.text t, rest) := by
  obtain ⟨hquote, hidentifier, hopening, hclosing⟩ := h
  simp [innerNode, construct, Production.orElse, Production.map, Grammar.quotation, hquote, command,
    hidentifier, block, hopening, token, hclosing]

theorem innerNode_closing (inner : Reader Node) {t : Token} (h : t.isClosing) (rest : List Token) :
    innerNode inner (t :: rest) = none := by
  have hopening := Token.not_isOpening_of_isClosing h
  have hidentifier : ¬ t.isIdentifier :=
    fun hident => (Token.notBracket_of_isIdentifier hident).2 h
  have hquote : closingQuote? t.text = none := by
    rcases Token.closing_text h with htext | htext | htext <;> simp [closingQuote?, htext]
  simp [innerNode, construct, Production.orElse, Production.map, Grammar.quotation, hquote, command,
    hidentifier, block, hopening, token, h]

theorem many_nodeWithin {ns : List Node} {ts : List Token} (h : Flat ns ts) (levels : Nat)
    {closing : Token} (hclosing : closing.isClosing) (rest : List Token) :
    (nodeWithin (levels + 1)).many (ts ++ closing :: rest) = (ns, closing :: rest) := by
  -- A closing bracket ends the reading, whatever it closes, and the nodes before it hold none.
  induction h with
  | nil => exact Reader.many_of_eq_none (innerNode_closing _ hclosing rest)
  | @text t ns ts ht _ ih =>
    have hfirst : (nodeWithin (levels + 1)).production (t :: (ts ++ closing :: rest)) =
        some (.text t, ts ++ closing :: rest) := innerNode_inert _ ht _
    rw [List.cons_append, Reader.many_of_eq_some hfirst, ih]
  | @quotation opening close content ns ts hopening hcontent hclose _ ih =>
    have hfirst : (nodeWithin (levels + 1)).production
          (opening :: (content ++ close :: (ts ++ closing :: rest))) =
        some (.quotation ⟨opening, content, some close⟩, ts ++ closing :: rest) :=
      innerNode_quotation _ hopening hcontent hclose _
    rw [List.cons_append, List.append_assoc, List.cons_append, Reader.many_of_eq_some hfirst, ih]

end Flat

/-! Cutting white space before or after joining. -/

/-- What is joined for an element is cut as a whole or not at its ends. -/
def CutAs {β : Type} (cut : Bool) (test : β → Bool) (ys : List β) : Prop :=
  if cut then ∀ y ∈ ys, test y else (∃ y ∈ ys.head?, ¬ test y) ∧ ∃ y ∈ ys.getLast?, ¬ test y

section Cut

variable {α β : Type} {cut : α → Bool} {test : β → Bool} {f : α → List β} {xs : List α}

theorem CutAs.reverse {cut : Bool} {ys : List β} (h : CutAs cut test ys) :
    CutAs cut test ys.reverse := by
  cases cut with
  | true =>
    intro y hy
    exact h y (List.mem_reverse.mp hy)
  | false =>
    obtain ⟨hhead, hlast⟩ : (∃ y ∈ ys.head?, ¬ test y) ∧ ∃ y ∈ ys.getLast?, ¬ test y := h
    rw [← List.getLast?_reverse] at hhead
    rw [← List.head?_reverse] at hlast
    exact ⟨hlast, hhead⟩

theorem flatMap_dropWhile (h : ∀ x ∈ xs, CutAs (cut x) test (f x)) :
    (xs.dropWhile cut).flatMap f = (xs.flatMap f).dropWhile test := by
  induction xs with
  | nil => rfl
  | cons x xs ih =>
    obtain ⟨hx, hxs⟩ := List.forall_mem_cons.mp h
    unfold CutAs at hx
    by_cases hcut : cut x
    · rw [if_pos hcut] at hx
      rw [List.dropWhile_cons_of_pos hcut, List.flatMap_cons, List.dropWhile_append_of_pos hx,
        ih hxs]
    · rw [if_neg hcut] at hx
      obtain ⟨⟨y, hy, hstays⟩, -⟩ := hx
      obtain ⟨ys, hys⟩ := List.head?_eq_some_iff.mp hy
      rw [List.dropWhile_cons_of_neg hcut, List.flatMap_cons, hys, List.cons_append,
        List.dropWhile_cons_of_neg hstays]

theorem flatMap_trimBy_eq (h : ∀ x ∈ xs, CutAs (cut x) test (f x)) :
    (trimBy cut xs).flatMap f = trimBy test (xs.flatMap f) := by
  have hfront := flatMap_dropWhile h
  have hback : ∀ x ∈ (xs.dropWhile cut).reverse, CutAs (cut x) test ((List.reverse ∘ f) x) := by
    intro x hx
    have hmem := (List.dropWhile_sublist cut).subset (List.mem_reverse.mp hx)
    exact (h x hmem).reverse
  rw [trimBy, trimBy, ← hfront, List.flatMap_reverse, flatMap_dropWhile hback,
    List.reverse_flatMap]

end Cut

/-- A lexeme is white space or has none in it. -/
theorem Token.Lexeme.blank_or_not {cs : List Char} (h : Lexeme cs) :
    (∀ c ∈ cs, Text.isBlank c) ∨ ∀ c ∈ cs, ¬ Text.isBlank c := by
  have hclass : ∀ {k : CharClass} {c : Char}, CharClass.ofChar c = k → k ≠ .blank →
      ¬ Text.isBlank c := by
    intro k c hc hk hblank
    exact hk (hc.symm.trans (isBlank_iff.mp hblank))
  cases h with
  | word _ hcs => exact Or.inr fun c hc => hclass (isWordChar_iff.mp (hcs c hc)) (by decide)
  | blank _ hcs => exact Or.inl hcs
  | relational _ hcs =>
    exact Or.inr fun c hc => hclass (isRelational_iff.mp (hcs c hc)) (by decide)
  | symbol _ _ hblank _ => exact Or.inr (by simpa using hblank)
  | escaped hcs =>
    refine Or.inr (List.forall_mem_cons.mpr ⟨by decide, fun c hc => ?_⟩)
    exact hclass (isWordChar_iff.mp (hcs c hc)) (by decide)

theorem Token.Spell.cutAs {ts : List Token} {cs : List Char} (h : Spell ts cs) {t : Token}
    (ht : t ∈ ts) : CutAs t.isBlank Text.isBlank t.text.toList := by
  have hmem : t.text.toList ∈ lexemes cs := h ▸ List.mem_map_of_mem ht
  have hlexeme := (cut_iff.mpr rfl).lexeme _ hmem
  obtain ⟨c, rest, htext⟩ := List.exists_cons_of_ne_nil hlexeme.isChain.1
  rw [CutAs]
  by_cases hblank : t.isBlank
  · rw [if_pos hblank]
    exact List.all_eq_true.mp hblank
  · rw [if_neg hblank]
    rcases hlexeme.blank_or_not with hall | hnone
    · exact absurd (List.all_eq_true.mpr hall) hblank
    · have hlast := List.getLast?_eq_some_getLast hlexeme.isChain.1
      exact ⟨⟨c, by rw [htext]; rfl, hnone c (by simp [htext])⟩, _, hlast,
        hnone _ (List.getLast_mem _)⟩

/-! The text of the nodes. -/

/-- The characters that a node adds to attribute text. -/
def Node.attributeChars : Node → List Char
  | .text t => t.text.toList
  | .quotation q => q.text.toList
  | .misplaced _ => []
  | .command _ => []
  | .block _ => []
  | .definition _ => []

theorem Argument.bracketText?_block {b : Block} (h : b.isKind .bracket) :
    (Argument.block b).bracketText? =
      some (String.ofList (b.children.flatMap Node.attributeChars)) := by
  have hblock : (Argument.block b).blockOf? .bracket = some b := by
    simp [Argument.blockOf?, Argument.block?, h]
  rw [Argument.bracketText?, hblock, Option.map_some, Option.some.injEq, ← String.toList_inj,
    String.toList_join, flatMap_filterMap, String.toList_ofList]
  refine List.flatMap_congr fun n _ => ?_
  cases n with
  | text t => simp [Node.attributeChars]
  | quotation q => simp [Node.attributeChars]
  | misplaced t => rfl
  | command c => rfl
  | block b => rfl
  | definition d => rfl

theorem Token.toList_joinedText (ts : List Token) :
    (Token.joinedText ts).toList = ts.flatMap (·.text.toList) := by
  rw [Token.joinedText, String.toList_join, List.flatMap_map]

namespace Flat

variable {ns : List Node} {ts : List Token}

theorem flatMap_attributeChars (h : Flat ns ts) :
    ns.flatMap Node.attributeChars = ts.flatMap (·.text.toList) := by
  induction h with
  | nil => rfl
  | text _ _ ih => rw [List.flatMap_cons, List.flatMap_cons, ih, Node.attributeChars]
  | quotation _ _ _ _ ih =>
    rw [List.flatMap_cons, ih, Node.attributeChars, Quotation.text, Token.toList_joinedText]
    simp [Quotation.tokens]

theorem cutAs (h : Flat ns ts) (hts : ∀ t ∈ ts, CutAs t.isBlank Text.isBlank t.text.toList) :
    ∀ n ∈ ns, CutAs n.isBlank Text.isBlank n.attributeChars := by
  induction h with
  | nil => simp
  | text _ _ ih =>
    obtain ⟨ht, hrest⟩ := List.forall_mem_cons.mp hts
    exact List.forall_mem_cons.mpr ⟨ht, ih hrest⟩
  | @quotation opening closing content _ _ hopening _ hclosing _ ih =>
    refine List.forall_mem_cons.mpr ⟨?_, ih fun t ht => hts t (by simp [ht])⟩
    have hchars : (Node.quotation ⟨opening, content, some closing⟩).attributeChars =
        '"' :: (content.flatMap (·.text.toList) ++ ['"']) := by
      rw [Node.attributeChars, Quotation.text, Token.toList_joinedText]
      simp [Quotation.tokens, hopening, hclosing]
    have hquote : ¬ Text.isBlank '"' := by decide
    rw [hchars]
    refine ⟨⟨'"', rfl, hquote⟩, '"', ?_, hquote⟩
    rw [← List.cons_append, List.getLast?_concat]
    rfl

/-- Texts and closed quotations are their own normal form and have no defects. -/
theorem normal (h : Flat ns ts) : ∀ n ∈ ns, n.normal? = some n ∧ n.defects = [] := by
  induction h with
  | nil => simp
  | text _ _ ih => exact List.forall_mem_cons.mpr ⟨⟨rfl, rfl⟩, ih⟩
  | quotation _ _ _ _ ih => exact List.forall_mem_cons.mpr ⟨⟨rfl, rfl⟩, ih⟩

end Flat

/-! A command with attribute text and a body. -/

theorem Block.isKind_closed {opening closing : Token} {kind : Enclosure}
    (hopening : opening.opens? = some kind) (hclosing : closing.closes? = some kind)
    (children : List Node) : Block.isKind ⟨opening, children, some closing⟩ kind := by
  have hpairs : opening.pairsWith closing := Token.pairsWith_iff.mpr ⟨kind, hopening, hclosing⟩
  simp [Block.isKind, Block.kind?, hpairs, hopening]

namespace Grammar

open Production

theorem argument_flat {ns : List Node} {ts : List Token} (h : Flat ns ts) (levels : Nat)
    {opening closing : Token} {kind : Enclosure} (hopening : opening.opens? = some kind)
    (hclosing : closing.closes? = some kind) (rest : List Token) :
    argument (nodeWithin (levels + 1)) (opening :: (ts ++ closing :: rest)) =
      some (.block ⟨opening, ns, some closing⟩, rest) := by
  have hpairs : opening.pairsWith closing := Token.pairsWith_iff.mpr ⟨kind, hopening, hclosing⟩
  have hisOpening : opening.isOpening := by rw [Token.isOpening, hopening]; rfl
  have hoperator : ¬ opening.isScriptOperator :=
    fun hoperator => (Token.notBracket_of_isScriptOperator hoperator).1 hisOpening
  have hmany := h.many_nodeWithin levels (Token.isClosing_of_pairsWith hpairs) rest
  simp [argument, Production.orElse, Production.map, script, hoperator, block, hisOpening, hmany,
    hpairs]

/-- The arguments of a command that is followed by nothing. -/
theorem many_arguments {attributes body : List Node} {ts us : List Token} (hts : Flat attributes ts)
    (hus : Flat body us) (levels : Nat) {opening closing bodyOpening bodyClosing : Token}
    (hopening : opening.opens? = some .bracket) (hclosing : closing.closes? = some .bracket)
    (hbodyOpening : bodyOpening.opens? = some .brace)
    (hbodyClosing : bodyClosing.closes? = some .brace) :
    (argumentReader (nodeWithin (levels + 1))).many
        (opening :: (ts ++ closing :: bodyOpening :: (us ++ [bodyClosing]))) =
      ([.block ⟨opening, attributes, some closing⟩, .block ⟨bodyOpening, body, some bodyClosing⟩],
        []) := by
  have hattributes : (argumentReader (nodeWithin (levels + 1))).production _ = _ :=
    argument_flat hts levels hopening hclosing (bodyOpening :: (us ++ [bodyClosing]))
  have hbody : (argumentReader (nodeWithin (levels + 1))).production _ = _ :=
    argument_flat hus levels hbodyOpening hbodyClosing []
  have hend : (argumentReader (nodeWithin (levels + 1))).production [] = none := rfl
  rw [Reader.many_of_eq_some hattributes, Reader.many_of_eq_some hbody,
    Reader.many_of_eq_none hend]

end Grammar

/-- The command has attribute text that these nodes make up, and then this body. -/
def Command.Attributed (c : Command) (attributes body : List Node) : Prop :=
  ∃ bracket brace : Block, c.arguments = [.block bracket, .block brace] ∧
    bracket.isKind .bracket ∧ bracket.children = attributes ∧
    brace.isKind .brace ∧ brace.children = body

/-- A command name that is not a keyword, with attribute text and a body after it. -/
theorem Grammar.item_attributed {attributes body : List Node} {ts us : List Token}
    (hts : Flat attributes ts) (hus : Flat body us) (levels : Nat)
    {ident opening closing bodyOpening bodyClosing : Token} (hident : ident.isIdentifier)
    (hname : ident.text ≠ Token.definitionKeyword) (hopening : opening.opens? = some .bracket)
    (hclosing : closing.closes? = some .bracket) (hbodyOpening : bodyOpening.opens? = some .brace)
    (hbodyClosing : bodyClosing.closes? = some .brace) :
    ∃ c : Command, c.ident = ident ∧ c.Attributed attributes body ∧
      item true (nodeWithin (levels + 1))
          (ident :: opening :: (ts ++ closing :: bodyOpening :: (us ++ [bodyClosing]))) =
        some (.node (.command c), []) := by
  have hquote : closingQuote? ident.text = none := by
    have hne : ∀ text : String, text.toList.head? ≠ some '\\' → ident.text ≠ text := by
      rintro text hhead rfl
      exact hhead (beq_iff_eq.mp hident)
    exact Token.closingQuote?_eq_none (hne _ (by decide)) (hne _ (by decide))
  have harguments := many_arguments hts hus levels hopening hclosing hbodyOpening hbodyClosing
  refine ⟨⟨ident, _, none⟩, rfl, ⟨_, _, rfl, Block.isKind_closed hopening hclosing attributes, rfl,
    Block.isKind_closed hbodyOpening hbodyClosing body, rfl⟩, ?_⟩
  have hcommand : command (nodeWithin (levels + 1))
      (ident :: opening :: (ts ++ closing :: bodyOpening :: (us ++ [bodyClosing]))) =
        some (⟨ident, [.block ⟨opening, attributes, some closing⟩,
          .block ⟨bodyOpening, body, some bodyClosing⟩], none⟩, []) := by
    simp [command, hident, hname, harguments, clause]
  simp [item, outerNode, construct, Production.orElse, Production.map, quotation, hquote, hcommand,
    definition, hname]

theorem Block.exists_closing {b : Block} {kind : Enclosure} (h : b.isKind kind) :
    ∃ closing, b = ⟨b.opening, b.children, some closing⟩ := by
  obtain ⟨opening, children, closing⟩ := b
  cases closing with
  | none => simp [Block.isKind, Block.kind?] at h
  | some closing => exact ⟨closing, rfl⟩

theorem Block.exists_normal? {b : Block} {kind : Enclosure} (h : b.isKind kind) :
    ∃ b', b.normal? = some b' ∧ b'.isKind kind ∧
      b'.children = (Node.trim b.children).filterMap Node.normal? := by
  obtain ⟨closing, hb⟩ := Block.exists_closing h
  have hnormal := Block.normal?_closed b.opening b.children closing
  rw [← hb] at hnormal
  exact ⟨_, hnormal, by rwa [Block.isKind, Block.kind?_normal? hnormal], rfl⟩

theorem Block.defects_of_isKind {b : Block} {kind : Enclosure} (h : b.isKind kind) :
    b.defects = b.children.flatMap Node.defects := by
  obtain ⟨closing, hb⟩ := Block.exists_closing h
  rw [hb, Block.defects, Node.defectsAll_eq]

namespace Command.Attributed

variable {c : Command} {attributes body : List Node}

theorem normal (h : c.Attributed attributes body)
    (hattributes : ∀ n ∈ attributes, n.normal? = some n) (hbody : ∀ n ∈ body, n.normal? = some n) :
    c.normal.Attributed (Node.trim attributes) (Node.trim body) := by
  have hself : ∀ {ns : List Node}, (∀ n ∈ ns, n.normal? = some n) →
      (Node.trim ns).filterMap Node.normal? = Node.trim ns := by
    intro ns hns
    rw [List.filterMap_congr fun n hn => hns n (Node.mem_of_mem_trim hn), List.filterMap_some]
  obtain ⟨ident, arguments, clause⟩ := c
  obtain ⟨bracket, brace, rfl, hbracket, rfl, hbrace, rfl⟩ := h
  obtain ⟨bracket', hbracket', hkind, hchildren⟩ := Block.exists_normal? hbracket
  obtain ⟨brace', hbrace', hkind', hchildren'⟩ := Block.exists_normal? hbrace
  refine ⟨bracket', brace', ?_, hkind, ?_, hkind', ?_⟩
  · simp [Command.normal, Argument.normals_eq, Argument.normal?, hbracket', hbrace']
  · rw [hchildren, hself hattributes]
  · rw [hchildren', hself hbody]

theorem defects (h : c.Attributed attributes body) (hattributes : ∀ n ∈ attributes, n.defects = [])
    (hbody : ∀ n ∈ body, n.defects = []) : c.defects = [] := by
  obtain ⟨ident, arguments, clause⟩ := c
  obtain ⟨bracket, brace, rfl, hbracket, rfl, hbrace, rfl⟩ := h
  have hfirst : bracket.defects = [] := by
    rw [Block.defects_of_isKind hbracket, List.flatMap_eq_nil_iff]
    exact hattributes
  have hlast : brace.defects = [] := by
    rw [Block.defects_of_isKind hbrace, List.flatMap_eq_nil_iff]
    exact hbody
  simp [Command.defects, Argument.defectsAll, Argument.defects, hfirst, hlast]

/-- An element of the page language has the attributes that are read from its attribute text. -/
theorem denote (h : c.Attributed attributes body) {tag : String}
    (hfind : Vocabulary.find? c.name = some ⟨.container, tag⟩) (table : Definitions)
    (invoke : Invocation) (scope : Scope) :
    c.denote table invoke scope =
      (Node.denoteAll table invoke (scope.push c.name) body).wrap
        (.element tag
          (Attributes.parse (String.ofList (attributes.flatMap Node.attributeChars)))) := by
  obtain ⟨ident, arguments, clause⟩ := c
  obtain ⟨bracket, brace, rfl, hbracket, rfl, hbrace, rfl⟩ := h
  have htext := Argument.bracketText?_block hbracket
  have hbody : (Argument.block brace).blockOf? .brace = some brace := by
    simp [Argument.blockOf?, Argument.block?, hbrace]
  have hgiven : Builtin.arguments? ⟨.container, tag⟩ [.block bracket, .block brace] =
      some ⟨some (String.ofList (bracket.children.flatMap Node.attributeChars)), some brace⟩ := by
    simp [Builtin.arguments?, SortedArguments.ofList?, htext, hbody, Role.shape,
      ArgumentShape.accepts]
  have hlisted : Vocabulary.find? ident.text = some ⟨.container, tag⟩ := hfind
  rw [Command.denote, hlisted]
  simp only [hgiven]
  cases brace
  rfl

end Command.Attributed

namespace Token

theorem Spell.eq_nil {ts : List Token} (h : Spell ts []) : ts = [] := by
  simpa [Spell, lexemes] using h

theorem Spell.exists_single {ts : List Token} {cs : List Char} (hcs : lexemes cs = [cs])
    (h : Spell ts cs) : ∃ t, ts = [t] ∧ t.text = String.ofList cs := by
  rw [Spell, hcs] at h
  obtain ⟨t, rest, rfl, ht, hrest⟩ := List.map_eq_cons_iff.mp h
  obtain rfl := List.map_eq_nil_iff.mp hrest
  exact ⟨t, rfl, by rw [← ht, String.ofList_toList]⟩

end Token

/-- A link with attribute text is read as one command that has the nodes of the text. -/
theorem Document.ofSource_link {text : List Char} (h : Spelled text) {source : String}
    (hsource : source.toList = ['\\', 'a'] ++ '[' :: (text ++ ']' :: '\x7b' :: ['x', '\x7d'])) :
    ∃ (c : Command) (attributes : List Node) (ts : List Token) (x : Token),
      Document.ofSource source = [.node (.command c)] ∧ c.name = "\\a" ∧
      c.Attributed attributes [.text x] ∧ x.text = "x" ∧ Flat attributes ts ∧
      Token.Spell ts text := by
  have hspell := Token.spell_ofSource source
  rw [hsource] at hspell
  obtain ⟨names, opening, _, htokens, hnames, hopening, hspell⟩ := hspell.symbol (by decide +kernel)
  obtain ⟨ts, closing, _, rfl, hts, hclosing, hspell⟩ := hspell.symbol (by decide +kernel)
  rw [← List.nil_append ('\x7b' :: _)] at hspell
  obtain ⟨us, bodyOpening, _, rfl, hus, hbodyOpening, hspell⟩ := hspell.symbol (by decide +kernel)
  rw [← List.singleton_append] at hspell
  obtain ⟨xs, bodyClosing, vs, rfl, hxs, hbodyClosing, hvs⟩ := hspell.symbol (by decide +kernel)
  obtain ⟨ident, rfl, hident⟩ := hnames.exists_single (by decide +kernel)
  obtain ⟨x, rfl, hx⟩ := hxs.exists_single (by decide +kernel)
  obtain rfl := hus.eq_nil
  obtain rfl := hvs.eq_nil
  obtain ⟨attributes, hattributes⟩ := Flat.exists_of_spelled h hts
  have hbody : Flat [.text x] [x] := .text (Token.inert_of_all (by rw [hx]; decide)) .nil
  have hisIdentifier : ident.isIdentifier := by rw [Token.isIdentifier, hident]; decide
  have hname : ident.text ≠ Token.definitionKeyword := by rw [hident]; decide
  have hopens : opening.opens? = some .bracket := by rw [Token.opens?, hopening]; decide
  have hcloses : closing.closes? = some .bracket := by rw [Token.closes?, hclosing]; decide
  have hbodyOpens : bodyOpening.opens? = some .brace := by
    rw [Token.opens?, hbodyOpening]; decide
  have hbodyCloses : bodyClosing.closes? = some .brace := by
    rw [Token.closes?, hbodyClosing]; decide
  obtain ⟨c, hc, hattributed, hread⟩ := Grammar.item_attributed hattributes hbody
    (Grammar.maxNesting - 2) hisIdentifier hname hopens hcloses hbodyOpens hbodyCloses
  refine ⟨c, attributes, ts, x, ?_, by rw [Command.name, hc, hident], hattributed, hx, hattributes,
    hts⟩
  have hfirst : (Grammar.itemReader true).production (Token.ofSource source) =
      some (.node (.command c), []) := by
    rw [htokens]
    exact hread
  have hend : (Grammar.itemReader true).production [] = none := rfl
  rw [Document.ofSource, Document.ofTokens, Reader.many_of_eq_some hfirst,
    Reader.many_of_eq_none hend]

theorem Command.name_normal (c : Command) : c.normal.name = c.name := by
  cases c
  rfl

/-- A document of one command stays one in normal form, and has the defects of the command. -/
theorem Document.normalForm_command (c : Command) :
    Document.nodes (Document.normalForm [.node (.command c)]).document = [.command c.normal] ∧
      (Document.normalForm [.node (.command c)]).defects = c.defects := by
  refine ⟨?_, ?_⟩
  · rw [Document.nodes_normalForm]
    rfl
  · simp [Document.normalForm, Item.defects, Node.defects]

/-- What is left of the nodes of a text without the blank ones at both ends is the text without the
white space at both ends. -/
theorem Flat.flatMap_trim {ns : List Node} {ts : List Token} {text : List Char} (h : Flat ns ts)
    (hts : Token.Spell ts text) :
    (Node.trim ns).flatMap Node.attributeChars = trimBy Text.isBlank text := by
  have hcut := h.cutAs fun t ht => hts.cutAs ht
  have htext : ts.flatMap (·.text.toList) = text := by
    rw [List.flatMap_def, hts, Token.flatten_lexemes]
  rw [Node.trim, flatMap_trimBy_eq hcut, h.flatMap_attributeChars, htext]

namespace Compilation

/-- Attribute text of inert characters and of quotations that are closed on their line reaches the
element as it is, but for the white space at its ends, and nothing is reported. -/
theorem attribute_text_kept (options : Options) (pieces : List (List Char))
    (h : ∀ piece ∈ pieces, IsPiece piece) :
    let source := "\\a[" ++ String.ofList pieces.flatten ++ "]\x7bx\x7d"
    let normal := (Document.ofSource source).normalForm
    (ofSource options source).diagnostics = [] ∧
      (normal.document.denote normal.definitions).content =
        [.element "a" (Attributes.parse (String.ofList (trimBy Text.isBlank pieces.flatten)))
          [.text "x"]] := by
  intro source normal
  have hsource : source.toList =
      ['\\', 'a'] ++ '[' :: (pieces.flatten ++ ']' :: '\x7b' :: ['x', '\x7d']) := by
    simp [source]
  obtain ⟨c, attributes, ts, x, hdocument, hname, hattributed, hx, hflat, hts⟩ :=
    Document.ofSource_link (spelled_flatten h) hsource
  have hnormal := hattributed.normal (fun n hn => (hflat.normal n hn).1) (by simp [Node.normal?])
  have hdefects := hattributed.defects (fun n hn => (hflat.normal n hn).2) (by simp [Node.defects])
  have hbody : Node.trim [.text x] = [.text x] := by
    have hblank : ¬ x.isBlank := by rw [Token.isBlank, hx]; decide
    simp [Node.trim, trimBy, Node.isBlank, Node.token?, hblank]
  have hfind : Vocabulary.find? c.normal.name = some ⟨.container, "a"⟩ := by
    rw [Command.name_normal, hname]
    decide
  obtain ⟨hnodes, hsound⟩ := Document.normalForm_command c
  rw [← hdocument] at hnodes hsound
  have hdenote : normal.document.denote normal.definitions =
      .single (.element "a" (Attributes.parse (String.ofList (trimBy Text.isBlank pieces.flatten)))
        [.text "x"]) := by
    rw [Document.denote, Document.denoteWith, hnodes, Node.denoteAll, Node.denote,
      hnormal.denote hfind, hflat.flatMap_trim hts, hbody, ← hx]
    rfl
  refine ⟨?_, by rw [hdenote]; rfl⟩
  change normal.defects.map Diagnostic.structural ++
    (normal.document.denote normal.definitions).diagnostics = []
  rw [hsound, hdefects, hdenote]
  rfl

/-- A quotation with a bracket and a backslash, and a script operator after it. -/
theorem attribute_text_kept_link :
    let pieces := [[' ', 'h', 'r', 'e', 'f', '='], ['"', ']', '\\', 'b', '"'], [' ', '^', ' ']]
    let source := "\\a[" ++ String.ofList pieces.flatten ++ "]\x7bx\x7d"
    let normal := (Document.ofSource source).normalForm
    (∀ piece ∈ pieces, IsPiece piece) ∧ (ofSource .default source).diagnostics = [] ∧
      (normal.document.denote normal.definitions).content =
        [.element "a" ⟨[⟨"href", some "]\\b"⟩, ⟨"^", none⟩]⟩ [.text "x"]] := by
  intro pieces source normal
  have hpieces : ∀ piece ∈ pieces, IsPiece piece := by
    simp only [pieces, List.forall_mem_cons]
    exact ⟨Or.inl (by decide), Or.inr ⟨[']', '\\', 'b'], rfl, by decide⟩, Or.inl (by decide),
      List.forall_mem_nil _⟩
  obtain ⟨hdiagnostics, hcontent⟩ := attribute_text_kept .default pieces hpieces
  have hparse : Attributes.parse (String.ofList (trimBy Text.isBlank pieces.flatten)) =
      ⟨[⟨"href", some "]\\b"⟩, ⟨"^", none⟩]⟩ := by
    decide +kernel
  rw [hparse] at hcontent
  exact ⟨hpieces, hdiagnostics, hcontent⟩

end Compilation

end AcademicMarkup
