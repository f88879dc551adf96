import AcademicMarkup.Proofs.BracketMatching
import AcademicMarkup.Proofs.TakenTokens

/-!
How far reading looks ahead. Without quotes and clauses a construct is decided by the tokens up to
its end and the one after it. So what is read from some tokens is also read if more follow, provided
that something is left or that what follows begins with white space, which no construct goes on
with. Only an unterminated block takes all that follows. A definition that is given back is read
again as the blocks it was to consist of, so it fails again if these have their close.
-/
namespace AcademicMarkup

open Production Grammar

/-- Tokens among which is no opening quote and no keyword of a clause. The last does not raise or
lower what follows it. -/
structure Tame (ts : List Token) : Prop where
  quote : ∀ t ∈ ts, closingQuote? t.text = none
  keyword : ∀ t ∈ ts, t.text ≠ Token.clauseKeyword
  operator : ∀ t ∈ ts.getLast?, ¬ t.isScriptOperator

theorem Tame.suffix {ts rest : List Token} (h : Tame ts) (hrest : rest <:+ ts) : Tame rest where
  quote t ht := h.quote t (hrest.subset ht)
  keyword t ht := h.keyword t (hrest.subset ht)
  operator t ht := by
    obtain ⟨before, rfl⟩ := hrest
    refine h.operator t ?_
    cases rest with
    | nil => simp at ht
    | cons u rest => simpa [List.getLast?_append] using ht

theorem Tame.quotation_eq_none {ts : List Token} (h : Tame ts) : quotation ts = none := by
  cases ts with
  | nil => rfl
  | cons t ts => simp [quotation, h.quote t List.mem_cons_self]

/-- If there is a token, the first begins with white space. -/
def BlankAhead (ts : List Token) : Prop := ∀ t ∈ ts.head?, t.text.toList.head?.any Text.isBlank

theorem Token.text_ne_of_blank {t : Token} (ht : t.text.toList.head?.any Text.isBlank)
    {text : String} (htext : text.toList.head?.any Text.isBlank = false) : t.text ≠ text := by
  rintro rfl
  simp [ht] at htext

theorem Token.notBegins_of_blank {t : Token} (ht : t.text.toList.head?.any Text.isBlank) :
    ¬ t.isOpening ∧ ¬ t.isScriptOperator ∧ t.text ≠ Token.clauseKeyword := by
  refine ⟨?_, ?_, text_ne_of_blank ht (by decide +kernel)⟩
  · intro hopening
    rcases Token.opening_text hopening with htext | htext | htext <;>
      exact text_ne_of_blank ht (by decide +kernel) htext
  · intro hoperator
    simp only [Token.isScriptOperator, Bool.or_eq_true, beq_iff_eq] at hoperator
    rcases hoperator with htext | htext <;> exact text_ne_of_blank ht (by decide +kernel) htext

/-! Reading with more tokens at the end. -/

/-- What the production reads does not change if the tokens go on. If it takes all tokens, then only
for what is whole. -/
structure Extends {α : Type} (p : Production α) (whole : α → Prop) (more : List Token) : Prop where
  matched : ∀ {ts a rest}, Tame ts → p ts = some (a, rest) → (rest = [] → whole a) →
    p (ts ++ more) = some (a, rest ++ more)
  failed : ∀ {ts}, Tame ts → ts ≠ [] → p ts = none → p (ts ++ more) = none

namespace Extends

variable {α β : Type} {p q : Production α} {whole : α → Prop} {more : List Token}

theorem map {whole' : β → Prop} (h : Extends p whole more) (f : α → β)
    (hwhole : ∀ a, whole' (f a) → whole a) : Extends (p.map f) whole' more where
  matched := by
    intro ts b rest hts hb hend
    obtain ⟨a, ha, rfl⟩ := map_eq_some hb
    rw [Production.map, h.matched hts ha fun hrest => hwhole a (hend hrest)]
    rfl
  failed := by
    intro ts hts hne hnone
    rw [Production.map, h.failed hts hne (map_eq_none hnone)]
    rfl

theorem orElse (hp : Extends p whole more) (hq : Extends q whole more) (hconsuming : q.Consuming) :
    Extends (p.orElse q) whole more where
  matched := by
    intro ts a rest hts ha hend
    rcases orElse_eq_some ha with hmatch | ⟨hnone, hmatch⟩
    · rw [Production.orElse, hp.matched hts hmatch hend]
      rfl
    · have hne : ts ≠ [] := by
        rintro rfl
        exact absurd (hconsuming hmatch) (Nat.not_lt_zero _)
      rw [Production.orElse, hp.failed hts hne hnone]
      exact hq.matched hts hmatch hend
  failed := by
    intro ts hts hne hnone
    obtain ⟨hpnone, hqnone⟩ := orElse_eq_none hnone
    rw [Production.orElse, hp.failed hts hne hpnone]
    exact hq.failed hts hne hqnone

theorem token (test : Token → Bool) (whole : Token → Prop) (more : List Token) :
    Extends (token test) whole more where
  matched := by
    intro ts t rest _ ht _
    obtain ⟨rfl, htest⟩ := token_eq_some ht
    simp [Production.token, htest]
  failed := by
    intro ts _ hne hnone
    cases ts with
    | nil => exact absurd rfl hne
    | cons t ts => simpa [Production.token] using hnone

theorem quotation (whole : Quotation → Prop) (more : List Token) :
    Extends quotation whole more where
  matched := by
    intro ts q rest hts hq _
    simp [hts.quotation_eq_none] at hq
  failed := by
    intro ts hts hne _
    cases ts with
    | nil => exact absurd rfl hne
    | cons t ts => simp [Grammar.quotation, hts.quote t List.mem_cons_self]

/-- A repetition goes on as before. If it has taken all tokens, it must stop at what follows. -/
theorem many {hp : p.Consuming} (h : Extends p whole more)
    (hsuffix : p.Ensures fun _ ts rest => rest <:+ ts) {ts : List Token} (hts : Tame ts)
    (hend : (Production.many p hp ts).2 = [] →
      (∀ a ∈ (Production.many p hp ts).1, whole a) ∧ p more = none) :
    Production.many p hp (ts ++ more) =
      ((Production.many p hp ts).1, (Production.many p hp ts).2 ++ more) := by
  fun_induction Production.many p hp ts with
  | case1 ts hnone =>
    by_cases hne : ts = []
    · subst hne
      exact many_of_eq_none hp (hend rfl).2
    · exact many_of_eq_none hp (h.failed hts hne hnone)
  | case2 ts a rest hmatch _ as last heq ih =>
    rw [heq] at ih
    have hwhole : rest = [] → whole a := by
      rintro rfl
      have hle := length_many_le p hp []
      rw [heq] at hle
      exact (hend (List.length_eq_zero_iff.mp (Nat.le_zero.mp hle))).1 a List.mem_cons_self
    have htail := ih (hts.suffix (hsuffix hmatch)) fun hlast =>
      ⟨fun b hb => (hend hlast).1 b (List.mem_cons_of_mem a hb), (hend hlast).2⟩
    rw [many_of_eq_some hp (h.matched hts hmatch hwhole), htail]

theorem readerMany {r : Reader α} (h : Extends r.production whole more)
    (hsuffix : r.production.Ensures fun _ ts rest => rest <:+ ts) {ts : List Token} (hts : Tame ts)
    (hend : (r.many ts).2 = [] → (∀ a ∈ (r.many ts).1, whole a) ∧ r.production more = none) :
    r.many (ts ++ more) = ((r.many ts).1, (r.many ts).2 ++ more) :=
  h.many hsuffix hts hend

end Extends

theorem many_suffix {α : Type} {p : Production α} (hp : p.Consuming)
    (hsuffix : p.Ensures fun _ ts rest => rest <:+ ts) (ts : List Token) :
    (Production.many p hp ts).2 <:+ ts := by
  fun_induction Production.many p hp ts with
  | case1 ts hnone => exact List.suffix_refl ts
  | case2 ts a rest hmatch _ as last heq ih =>
    rw [heq] at ih
    exact ih.trans (hsuffix hmatch)

section Layer

variable {inner : Reader Node} {more : List Token}

theorem clause_eq_none {ts : List Token} (hts : ∀ t ∈ ts.head?, t.text ≠ Token.clauseKeyword) :
    clause inner ts = none := by
  cases ts with
  | nil => rfl
  | cons t ts => simp [clause, hts t rfl]

/-- What is known of the reader inside a construct. -/
structure ReadsAhead (inner : Reader Node) (more : List Token) : Prop where
  blank : BlankAhead more
  takes : inner.production.Ensures (Takes Node.firstToken Node.lastToken)
  stops : inner.production.StopsAtClosing
  nodes : Extends inner.production (fun n => Terminated n.subjects) more

/-- A definition consists of its keyword and of a header and a body that are enclosed. -/
theorem definition_eq_some_iff {keyword : Token} {ts rest : List Token} {d : Definition} :
    definition inner (keyword :: ts) = some (d, rest) ↔
      keyword.text = Token.definitionKeyword ∧ ∃ x y mid,
        enclosed inner .bracket ts = some (x, mid) ∧ enclosed inner .brace mid = some (y, rest) ∧
        ∃ defined, x.2.1 = [.command defined] ∧
          d = ⟨keyword, x.1, defined.ident, x.2.2, y.1,
            (rules (Node.nonBlank y.2.1)).filterMap definitionRule?, y.2.2⟩ := by
  constructor
  · intro hd
    simp only [definition] at hd
    split at hd
    · rename_i hkeyword
      simp only [Option.bind_eq_bind, Option.bind_eq_some_iff] at hd
      obtain ⟨⟨x, mid⟩, hheader, hd⟩ := hd
      split at hd
      · rename_i defined hdefined
        simp only [Option.bind_eq_some_iff] at hd
        obtain ⟨⟨y, last⟩, hbody, heq⟩ := hd
        obtain ⟨rfl, rfl⟩ := by simpa using heq
        exact ⟨by simpa using hkeyword, x, y, mid, hheader, hbody, defined, hdefined, rfl⟩
      · simp at hd
    · simp at hd
  · rintro ⟨hkeyword, x, y, mid, hheader, hbody, defined, hdefined, rfl⟩
    simp [definition, hkeyword, hheader, hdefined, hbody]

variable (h : ReadsAhead inner more)

include h

theorem extends_block : Extends (block inner) (fun b => b.isTerminated) more where
  matched := by
    intro ts b rest hts hb hend
    cases ts with
    | nil => simp [block] at hb
    | cons opening ts =>
      have hmany := h.nodes.readerMany (fun _ _ _ hn => (h.takes hn).suffix)
        (hts.suffix (List.suffix_cons opening ts))
      rw [block] at hb
      rw [List.cons_append, block]
      split at hb
      · rename_i hopening
        rw [if_pos hopening]
        cases hlast : inner.many ts with
        | mk children last =>
          rw [hlast] at hb hmany
          cases last with
          | nil =>
            obtain ⟨rfl, rfl⟩ := by simpa using hb
            exact absurd (hend rfl) (by simp [Block.isTerminated])
          | cons closing after =>
            rw [hmany (by simp)]
            simp only [List.cons_append] at hb ⊢
            split at hb
            · rename_i hpairs
              obtain ⟨rfl, rfl⟩ := by simpa using hb
              rw [if_pos hpairs]
            · rename_i hpairs
              obtain ⟨rfl, rfl⟩ := by simpa using hb
              rw [if_neg hpairs]
              rfl
      · simp at hb
  failed := by
    intro ts hts hne hnone
    cases ts with
    | nil => exact absurd rfl hne
    | cons opening ts =>
      have hopening := isOpening_of_block_eq_none hnone
      rw [List.cons_append, block, if_neg hopening]

theorem extends_script : Extends (script inner) (fun a => Terminated a.subjects) more where
  matched := by
    intro ts a rest hts ha hend
    cases ts with
    | nil => simp [script] at ha
    | cons operator ts =>
      simp only [script, List.cons_append] at ha ⊢
      split at ha
      · rename_i hoperator
        obtain ⟨⟨operand, rest'⟩, hoperand, heq⟩ := Option.map_eq_some_iff.mp ha
        obtain ⟨rfl, rfl⟩ := Prod.mk.inj heq
        have hwhole : rest' = [] → Terminated operand.subjects := fun hrest =>
          (hend hrest).of_subset (List.subset_cons_self _ _)
        rw [if_pos hoperator,
          h.nodes.matched (hts.suffix (List.suffix_cons operator ts)) hoperand hwhole]
        rfl
      · simp at ha
  failed := by
    intro ts hts hne hnone
    cases ts with
    | nil => exact absurd rfl hne
    | cons operator ts =>
      simp only [script, List.cons_append] at hnone ⊢
      split at hnone
      · rename_i hoperator
        -- an operator at the very end could take its operand from what follows
        have hts' : ts ≠ [] := by
          rintro rfl
          exact hts.operator operator (by simp) hoperator
        rw [if_pos hoperator, h.nodes.failed (hts.suffix (List.suffix_cons operator ts)) hts'
          (Option.map_eq_none_iff.mp hnone)]
        rfl
      · rename_i hoperator
        rw [if_neg hoperator]

theorem extends_argument : Extends (argument inner) (fun a => Terminated a.subjects) more := by
  refine (extends_script h).orElse ((extends_block h).map Argument.block fun b hb => ?_)
    ((consuming_block inner).map _)
  exact hb.block b.mem_subjects_self

theorem suffix_argument : (argument inner).Ensures fun _ ts rest => rest <:+ ts :=
  fun _ _ _ ha => (takes_argument (argument_ensures h.takes h.stops ha)).suffix

theorem argument_of_blank : argument inner more = none := by
  cases hmore : more with
  | nil => rfl
  | cons t ts =>
    obtain ⟨hopening, hoperator, -⟩ := Token.notBegins_of_blank (h.blank t (by simp [hmore]))
    simp [argument, Production.orElse, Production.map, script, block, hopening, hoperator]

theorem extends_command : Extends (command inner) (fun c => Terminated c.subjects) more where
  matched := by
    intro ts c rest hts hc hend
    cases ts with
    | nil => simp [command] at hc
    | cons ident ts =>
      have hts' := hts.suffix (List.suffix_cons ident ts)
      have hextends : Extends (argumentReader inner).production
          (fun a => Terminated a.subjects) more := extends_argument h
      have hmany := hextends.readerMany (suffix_argument h) hts'
      have hrest : ((argumentReader inner).many ts).2 <:+ ts := many_suffix _ (suffix_argument h) ts
      rw [command] at hc
      rw [List.cons_append, command]
      split at hc
      · rename_i hident
        rw [if_pos hident]
        cases hread : (argumentReader inner).many ts with
        | mk arguments last =>
          rw [hread] at hc hmany hrest
          have hlast := hts'.suffix hrest
          simp only [clause_eq_none fun t ht => hlast.keyword t (List.mem_of_mem_head? ht)] at hc
          obtain ⟨rfl, rfl⟩ := by simpa using hc
          have hnone : clause inner (last ++ more) = none := by
            refine clause_eq_none fun t ht => ?_
            cases last with
            | nil => exact (Token.notBegins_of_blank (h.blank t ht)).2.2
            | cons u us =>
              obtain rfl : u = t := by simpa using ht
              exact hlast.keyword u List.mem_cons_self
          have harguments : last = [] → ∀ a ∈ arguments, Terminated a.subjects := by
            intro hnil a ha
            refine (hend hnil).of_subset fun x hx => ?_
            rw [Command.subjects_mk]
            refine List.mem_cons_of_mem _ (List.mem_append_left _ ?_)
            exact List.mem_flatMap.mpr ⟨a, ha, hx⟩
          rw [hmany fun hnil => ⟨harguments hnil, argument_of_blank h⟩]
          simp only [hnone]
      · simp at hc
  failed := by
    intro ts hts hne hnone
    cases ts with
    | nil => exact absurd rfl hne
    | cons ident ts =>
      have hident : ¬ (ident.isIdentifier && ident.text != Token.definitionKeyword) := by
        intro hident
        rw [command, if_pos hident] at hnone
        split at hnone
        split at hnone <;> simp at hnone
      rw [List.cons_append, command, if_neg hident]

theorem extends_construct : Extends (construct inner) (fun n => Terminated n.subjects) more := by
  refine ((Extends.quotation (fun _ => True) more).map Node.quotation fun _ _ => trivial).orElse
    (((extends_command h).map Node.command fun c hc => ?_).orElse
      ((extends_block h).map Node.block fun b hb => ?_) ((consuming_block inner).map _))
    (((consuming_command inner).map _).orElse ((consuming_block inner).map _))
  · exact hc.of_subset (List.subset_cons_self _ _)
  · exact hb.block (List.mem_cons_of_mem _ b.mem_subjects_self)

theorem extends_innerNode : Extends (innerNode inner) (fun n => Terminated n.subjects) more :=
  (extends_construct h).orElse
    ((Extends.token _ (fun _ => True) more).map Node.text fun _ _ => trivial)
    ((consuming_token _).map _)

theorem extends_outerNode : Extends (outerNode inner) (fun n => Terminated n.subjects) more :=
  (extends_construct h).orElse
    ((Extends.token _ (fun _ => True) more).map _ fun _ _ => trivial)
    ((consuming_token _).map _)

/-! Definitions. What a definition would consist of is read as blocks if it is none. -/

/-- What is enclosed is a block. -/
theorem enclosed_eq_some_iff {kind : Enclosure} {ts rest : List Token} {opening closing : Token}
    {children : List Node} :
    enclosed inner kind ts = some ((opening, children, closing), rest) ↔
      opening.opens? = some kind ∧
        block inner ts = some (⟨opening, children, some closing⟩, rest) := by
  constructor
  · intro henclosed
    cases ts with
    | nil => simp [enclosed] at henclosed
    | cons first ts =>
      simp only [enclosed] at henclosed
      split at henclosed
      · rename_i hkind
        split at henclosed
        · rename_i hblock
          obtain ⟨⟨rfl, rfl, rfl⟩, rfl⟩ := by simpa using henclosed
          refine ⟨?_, hblock⟩
          obtain ⟨_, heq, -⟩ := takes_block (block_ensures h.takes h.stops hblock)
          obtain ⟨rfl, -⟩ := List.cons.inj heq
          simp only [Bool.and_eq_true, beq_iff_eq] at hkind
          exact hkind.1
        · simp at henclosed
      · simp at henclosed
  · rintro ⟨hkind, hblock⟩
    cases block_ensures h.takes h.stops hblock with
    | @closed _ _ _ ts _ _ hpairs hchain =>
      -- the closing bracket is among the tokens, so the search for one succeeds
      obtain ⟨taken, rfl, -⟩ := Takes.chain hchain
      obtain ⟨kind', hopens, hcloses⟩ := Token.pairsWith_iff.mp hpairs
      obtain rfl : kind = kind' := by simpa [hkind] using hopens
      have hany : (taken ++ closing :: rest).any (·.closes? == some kind) :=
        List.any_eq_true.mpr ⟨closing, by simp, by simp [hcloses]⟩
      simp only [enclosed, hkind, hany, hblock]
      simp

theorem enclosed_matched {kind : Enclosure} {ts rest : List Token} (hts : Tame ts)
    {x : Token × List Node × Token} (hx : enclosed inner kind ts = some (x, rest)) :
    enclosed inner kind (ts ++ more) = some (x, rest ++ more) := by
  obtain ⟨opening, children, closing⟩ := x
  obtain ⟨hkind, hblock⟩ := (enclosed_eq_some_iff h).mp hx
  exact (enclosed_eq_some_iff h).mpr
    ⟨hkind, (extends_block h).matched hts hblock fun _ => rfl⟩

theorem enclosed_failed {kind : Enclosure} {ts : List Token} (hts : Tame ts)
    (hterminated : ∀ b, block inner ts = some (b, []) → b.isTerminated)
    (hnone : enclosed inner kind ts = none) : enclosed inner kind (ts ++ more) = none := by
  rw [Option.eq_none_iff_forall_ne_some]
  rintro ⟨⟨opening, children, closing⟩, rest⟩ hsome
  obtain ⟨hkind, hblock⟩ := (enclosed_eq_some_iff h).mp hsome
  by_cases hne : ts = []
  · subst hne
    obtain ⟨_, heq, -⟩ := takes_block (block_ensures h.takes h.stops hblock)
    have hopening : opening.isOpening := by simp [Token.isOpening, hkind]
    exact (Token.notBegins_of_blank (h.blank opening (by simp [show more = _ from heq]))).1 hopening
  · cases hread : block inner ts with
    | none => simp [(extends_block h).failed hts hne hread] at hblock
    | some x =>
      obtain ⟨b, last⟩ := x
      have hsame := (extends_block h).matched hts hread (by
        rintro rfl
        exact hterminated b hread)
      obtain ⟨rfl, -⟩ := by simpa [hblock] using hsame
      simp [(enclosed_eq_some_iff h).mpr ⟨hkind, hread⟩] at hnone

theorem enclosed_suffix {kind : Enclosure} {ts rest : List Token} {x : Token × List Node × Token}
    (hx : enclosed inner kind ts = some (x, rest)) : rest <:+ ts := by
  obtain ⟨opening, children, closing⟩ := x
  have hblock := ((enclosed_eq_some_iff h).mp hx).2
  exact (takes_block (block_ensures h.takes h.stops hblock)).suffix

theorem definition_matched {ts rest : List Token} {d : Definition} (hts : Tame ts)
    (hd : definition inner ts = some (d, rest)) :
    definition inner (ts ++ more) = some (d, rest ++ more) := by
  cases ts with
  | nil => simp [definition] at hd
  | cons keyword ts =>
    obtain ⟨hkeyword, x, y, mid, hheader, hbody, hd⟩ := definition_eq_some_iff.mp hd
    have hts' := hts.suffix (List.suffix_cons keyword ts)
    have hmid := hts'.suffix (enclosed_suffix h hheader)
    exact definition_eq_some_iff.mpr
      ⟨hkeyword, x, y, _, enclosed_matched h hts' hheader, enclosed_matched h hmid hbody, hd⟩

theorem definition_failed {keyword : Token} {ts : List Token} (hts : Tame ts)
    (hheader : ∀ b, block inner ts = some (b, []) → b.isTerminated)
    (hbody : ∀ b mid b', block inner ts = some (b, mid) → block inner mid = some (b', []) →
      b'.isTerminated)
    (hnone : definition inner (keyword :: ts) = none) :
    definition inner (keyword :: ts ++ more) = none := by
  rw [Option.eq_none_iff_forall_ne_some]
  rintro ⟨d, rest⟩ hsome
  obtain ⟨hkeyword, x, y, mid, hheader', hbody', hd⟩ := definition_eq_some_iff.mp hsome
  cases hread : enclosed inner .bracket ts with
  | none => simp [enclosed_failed h hts hheader hread] at hheader'
  | some z =>
    obtain ⟨⟨opening, children, closing⟩, last⟩ := z
    have hblock := ((enclosed_eq_some_iff h).mp hread).2
    have hlast := hts.suffix (enclosed_suffix h hread)
    have hsame := hheader'.symm.trans (enclosed_matched h hts hread)
    obtain ⟨rfl, rfl⟩ := Prod.mk.inj (Option.some.inj hsame)
    cases hread' : enclosed inner .brace last with
    | none => simp [enclosed_failed h hlast (hbody _ last · hblock) hread'] at hbody'
    | some w =>
      obtain ⟨w, last'⟩ := w
      have hsame' := hbody'.symm.trans (enclosed_matched h hlast hread')
      obtain ⟨rfl, rfl⟩ := Prod.mk.inj (Option.some.inj hsame')
      simp [definition_eq_some_iff.mpr ⟨hkeyword, _, _, _, hread, hread', hd⟩] at hnone

end Layer

theorem extends_leafNode (more : List Token) :
    Extends leafNode (fun n => Terminated n.subjects) more :=
  ((Extends.quotation (fun _ => True) more).map Node.quotation fun _ _ => trivial).orElse
    ((Extends.token _ (fun _ => True) more).map _ fun _ _ => trivial) ((consuming_token _).map _)

theorem nodeWithin_readsAhead {more : List Token} (hblank : BlankAhead more) (levels : Nat) :
    ReadsAhead (nodeWithin levels) more := by
  induction levels with
  | zero => exact ⟨hblank, nodeWithin_takes 0, nodeWithin_stops 0, extends_leafNode more⟩
  | succ levels ih =>
    exact ⟨hblank, nodeWithin_takes _, nodeWithin_stops _, extends_innerNode ih⟩

/-! The items of a document with more tokens at the end. -/

section Items

variable {inner : Reader Node} {more : List Token}

/-- A block between items is an item. -/
theorem item_block (definitions : Bool) {ts rest : List Token} {b : Block}
    (hb : block inner ts = some (b, rest)) :
    item definitions inner ts = some (.node (.block b), rest) := by
  cases ts with
  | nil => simp [block] at hb
  | cons opening ts =>
    have hopening : opening.isOpening := by
      by_contra hopening
      simp [block, hopening] at hb
    have hquote : closingQuote? opening.text = none := by
      rcases Token.opening_text hopening with htext | htext | htext <;> rw [htext] <;> rfl
    have hkeyword : opening.text ≠ Token.definitionKeyword := by
      rcases Token.opening_text hopening with htext | htext | htext <;> rw [htext] <;> decide
    have hident : ¬ opening.isIdentifier := fun h => (Token.notBracket_of_isIdentifier h).1 hopening
    have houter : outerNode inner (opening :: ts) = some (.block b, rest) := by
      simp [outerNode, construct, Production.orElse, Production.map, quotation, hquote, command,
        hident, hb]
    have hdefinition : definition inner (opening :: ts) = none := by
      simp [definition, hkeyword]
    unfold item
    split
    · simp [Production.orElse, Production.map, hdefinition, houter]
    · simp [Production.map, houter]

/-- The keyword of a definition begins no node, so it is text by itself. -/
theorem outerNode_keyword {keyword : Token} (h : keyword.text = Token.definitionKeyword)
    (ts : List Token) : outerNode inner (keyword :: ts) = some (.text keyword, ts) := by
  have hquotation : quotation (keyword :: ts) = none := by
    have hquote : closingQuote? keyword.text = none := by
      rw [h]
      decide
    simp [quotation, hquote]
  have hident : keyword.isIdentifier := by
    rw [Token.isIdentifier, h]
    decide
  obtain ⟨hopening, hclosing⟩ := Token.notBracket_of_isIdentifier hident
  simp [outerNode, construct, Production.orElse, Production.map, hquotation, command, h, block,
    hopening, Production.token, hclosing]

/-- The blocks that are read next, of which a definition would consist, have their close. -/
structure ClosesNext (inner : Reader Node) (ts : List Token) : Prop where
  header : ∀ b, block inner ts = some (b, []) → b.isTerminated
  body : ∀ b mid b', block inner ts = some (b, mid) → block inner mid = some (b', []) →
    b'.isTerminated

theorem item_matched (h : ReadsAhead inner more) {definitions : Bool} {ts rest : List Token}
    {i : Item} (hts : Tame ts) (hi : item definitions inner ts = some (i, rest))
    (hwhole : Terminated i.subjects) (hnext : ClosesNext inner rest) :
    item definitions inner (ts ++ more) = some (i, rest ++ more) := by
  have hnode : ∀ {i : Item} {rest : List Token},
      (outerNode inner).map .node ts = some (i, rest) → Terminated i.subjects →
        (outerNode inner).map .node (ts ++ more) = some (i, rest ++ more) := by
    intro i rest hi hwhole
    have hextends : Extends ((outerNode inner).map Item.node)
        (fun i => Terminated i.subjects) more := (extends_outerNode h).map Item.node fun _ hn => hn
    exact hextends.matched hts hi fun _ => hwhole
  unfold item at hi ⊢
  split
  · rename_i hallowed
    rw [if_pos hallowed] at hi
    rcases orElse_eq_some hi with hmatch | ⟨hnone, hmatch⟩
    · obtain ⟨d, hd, rfl⟩ := map_eq_some hmatch
      rw [Production.orElse, Production.map, definition_matched h hts hd]
      rfl
    · -- a definition that was attempted fails again
      have hfails : definition inner (ts ++ more) = none := by
        cases ts with
        | nil =>
          obtain ⟨n, hn, -⟩ := map_eq_some hmatch
          exact absurd (consuming_outerNode inner hn) (Nat.not_lt_zero _)
        | cons keyword ts =>
          by_cases hkeyword : keyword.text = Token.definitionKeyword
          · obtain ⟨n, hn, -⟩ := map_eq_some hmatch
            rw [outerNode_keyword hkeyword] at hn
            obtain ⟨-, rfl⟩ := by simpa using hn
            exact definition_failed h (hts.suffix (List.suffix_cons keyword ts)) hnext.header
              hnext.body (map_eq_none hnone)
          · simp [definition, hkeyword]
      rw [Production.orElse, Production.map, hfails]
      exact hnode hmatch hwhole
  · rename_i hallowed
    rw [if_neg hallowed] at hi
    exact hnode hi hwhole

end Items

/-- The blocks that are items of what is read next are whole if all that is read is. -/
theorem closesNext_of_terminated (definitions : Bool) {ts : List Token}
    (h : ∀ i ∈ ((itemReader definitions).many ts).1, Terminated i.subjects) :
    ClosesNext (nodeWithin (maxNesting - 1)) ts := by
  have hblock : ∀ {ts rest : List Token} {b : Block},
      block (nodeWithin (maxNesting - 1)) ts = some (b, rest) →
      ((itemReader definitions).many ts).1 =
        .node (.block b) :: ((itemReader definitions).many rest).1 := by
    intro ts rest b hb
    exact congrArg Prod.fst
      (many_of_eq_some (itemReader definitions).consuming (item_block definitions hb))
  have hterminated : ∀ {b : Block}, Terminated (Item.node (.block b)).subjects → b.isTerminated :=
    fun hb => hb.block (List.mem_cons_of_mem _ (Block.mem_subjects_self _))
  constructor
  · intro b hb
    refine hterminated (h _ ?_)
    rw [hblock hb]
    exact List.mem_cons_self
  · intro b mid b' hb hb'
    refine hterminated (h _ ?_)
    rw [hblock hb, hblock hb']
    exact List.mem_cons_of_mem _ List.mem_cons_self

theorem Document.ofTokens_append {definitions : Bool} {ts more : List Token} (hts : Tame ts)
    (hmore : BlankAhead more) (hwhole : Terminated (ofTokens definitions ts).subjects) :
    ofTokens definitions (ts ++ more) = ofTokens definitions ts ++ ofTokens definitions more := by
  have hitems : ∀ i ∈ ofTokens definitions ts, Terminated i.subjects := by
    intro i hi
    rw [Document.subjects_eq] at hwhole
    exact hwhole.of_subset fun x hx => List.mem_flatMap.mpr ⟨i, hi, hx⟩
  clear hwhole
  have hread := nodeWithin_readsAhead hmore (maxNesting - 1)
  have hsuffix : (itemReader definitions).production.Ensures fun _ ts rest => rest <:+ ts :=
    fun _ _ _ hi => (takes_item (itemReader_ensures definitions hread.takes hi)).suffix
  simp only [ofTokens, Reader.many] at hitems ⊢
  fun_induction Production.many (itemReader definitions).production
    (itemReader definitions).consuming ts with
  | case1 ts hnone =>
    obtain rfl := itemReader_stops hnone
    rfl
  | case2 ts i rest hmatch _ is last heq ih =>
    rw [heq] at ih
    obtain ⟨hi, his⟩ := List.forall_mem_cons.mp hitems
    have hnext : ClosesNext (nodeWithin (maxNesting - 1)) rest := by
      refine closesNext_of_terminated definitions ?_
      rw [Reader.many, heq]
      exact his
    have hmatch' := item_matched hread hts hmatch hi hnext
    rw [many_of_eq_some (itemReader definitions).consuming hmatch',
      ih (hts.suffix (hsuffix hmatch)) his, List.cons_append]

end AcademicMarkup
