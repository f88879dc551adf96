import AcademicMarkup.Proofs.ReadPlaces

/-!
Where quotations end. Behind an opening quote the tokens are taken up to the first that closes the
quotation or breaks the line, whatever brackets stand between. So an opening quote that is text has
no such token behind it, to the very end of the tokens and out of every block around it.
-/
namespace AcademicMarkup

open Production Grammar

/-- The token neither closes the quotation nor breaks the line. -/
def Token.StaysQuoted (quote : String) (t : Token) : Prop := t.text ≠ quote ∧ ¬ t.hasNewline

/-- What stands between quotes, up to the first closing quote or, if the line breaks before it,
through the first token that breaks the line. -/
inductive Token.QuotedTo (quote : String) : List Token → Option Token → Prop
  | closed {content : List Token} {closing : Token} :
      (∀ t ∈ content, t.StaysQuoted quote) → closing.text = quote →
      QuotedTo quote content (some closing)
  | broken {before : List Token} {last : Token} :
      (∀ t ∈ before, t.StaysQuoted quote) → last.text ≠ quote → last.hasNewline →
      QuotedTo quote (before ++ [last]) none

/-- The quotation ends where the first token behind its opening quote ends it. -/
def Quotation.StopsFirst (q : Quotation) : Prop :=
  ∃ quote, closingQuote? q.opening.text = some quote ∧ Token.QuotedTo quote q.content q.closing

namespace Grammar

/-- Nothing is read between quotes exactly if no token ends the quotation. -/
theorem quoted_eq_none_iff (quote : String) (ts : List Token) :
    quoted quote ts = none ↔ ∀ t ∈ ts, t.StaysQuoted quote := by
  induction ts with
  | nil => simp [quoted]
  | cons t ts ih =>
    rw [quoted, List.forall_mem_cons, ← ih]
    by_cases hclosing : t.text = quote
    · simp [hclosing, Token.StaysQuoted]
    · by_cases hnewline : t.hasNewline
      · simp [hclosing, hnewline, Token.StaysQuoted]
      · simp [hclosing, hnewline, Token.StaysQuoted]

/-- What is read between quotes goes up to the first token that ends the quotation. -/
theorem quoted_stops {quote : String} {ts rest content : List Token} {close : Option Token}
    (h : quoted quote ts = some ((content, close), rest)) :
    Token.QuotedTo quote content close := by
  induction ts generalizing content close with
  | nil => simp [quoted] at h
  | cons t ts ih =>
    rw [quoted] at h
    by_cases hclosing : t.text = quote
    · obtain ⟨⟨rfl, rfl⟩, -⟩ := by simpa [hclosing] using h
      exact .closed (by simp) hclosing
    · by_cases hnewline : t.hasNewline
      · obtain ⟨⟨rfl, rfl⟩, -⟩ := by simpa [hclosing, hnewline] using h
        exact @Token.QuotedTo.broken quote [] t (by simp) hclosing hnewline
      · have hstays : t.StaysQuoted quote := ⟨hclosing, hnewline⟩
        simp only [beq_iff_eq, hclosing, hnewline, if_false] at h
        obtain ⟨⟨⟨content', close'⟩, rest'⟩, hquoted, heq⟩ := Option.map_eq_some_iff.mp h
        obtain ⟨⟨rfl, rfl⟩, rfl⟩ := by simpa using heq
        cases ih hquoted with
        | closed hall hc => exact .closed (List.forall_mem_cons.mpr ⟨hstays, hall⟩) hc
        | @broken before last hall hlast hbreak =>
          have hall := List.forall_mem_cons.mpr ⟨hstays, hall⟩
          exact @Token.QuotedTo.broken quote (t :: before) last hall hlast hbreak

theorem quotation_stopsFirst {ts rest : List Token} {q : Quotation}
    (h : quotation ts = some (q, rest)) : q.StopsFirst := by
  cases ts with
  | nil => simp [quotation] at h
  | cons opening ts =>
    simp only [quotation, Option.bind_eq_bind, Option.bind_eq_some_iff] at h
    obtain ⟨quote, hquote, ⟨⟨content, close⟩, rest'⟩, hquoted, heq⟩ := h
    obtain ⟨rfl, rfl⟩ := by simpa using heq
    exact ⟨quote, hquote, quoted_stops hquoted⟩

/-- An opening quote that begins no quotation has no token behind it that would end one. -/
theorem forall_staysQuoted {t : Token} {rest : List Token} (h : quotation (t :: rest) = none)
    {quote : String} (hquote : closingQuote? t.text = some quote) :
    ∀ u ∈ rest, u.StaysQuoted quote := by
  simp only [quotation, hquote, Option.bind_eq_bind, Option.bind_some] at h
  refine (quoted_eq_none_iff quote rest).mp ?_
  cases hquoted : quoted quote rest with
  | none => rfl
  | some x => simp [hquoted] at h

end Grammar

/-! The value of a quotation. -/

theorem Token.hasNewline_join? {ts : List Token} {v : Token} (h : Token.join? ts = some v) :
    v.hasNewline ↔ ∃ t ∈ ts, t.hasNewline := by
  cases ts with
  | nil => simp [Token.join?] at h
  | cons t ts =>
    obtain rfl := Option.some.inj h
    simp [Token.hasNewline, Token.joinedText, String.toList_join]

namespace Quotation

variable {q : Quotation}

theorem value?_eq_none_iff : q.value? = none ↔ q.content = [] := by
  rw [value?]
  cases q.content with
  | nil => exact ⟨fun _ => rfl, fun _ => rfl⟩
  | cons t ts => simp [Token.join?]

/-- The value breaks the line exactly if the closing quote is missing. -/
theorem StopsFirst.hasNewline_value? (h : q.StopsFirst) {v : Token} (hv : q.value? = some v) :
    v.hasNewline ↔ q.closing = none := by
  obtain ⟨opening, content, closing⟩ := q
  rw [Token.hasNewline_join? hv]
  obtain ⟨quote, -, hquoted⟩ := h
  cases hquoted with
  | closed hall _ =>
    refine ⟨?_, by simp⟩
    rintro ⟨t, ht, hnewline⟩
    exact absurd hnewline (hall t ht).2
  | @broken before last _ _ hbreak => exact ⟨fun _ => rfl, fun _ => ⟨last, by simp, hbreak⟩⟩

/-- Without a value the two quotes stand side by side. -/
theorem StopsFirst.tokens_of_value?_eq_none (h : q.StopsFirst) (hv : q.value? = none) :
    ∃ c, q.closing = some c ∧ q.tokens = [q.opening, c] := by
  have hcontent := value?_eq_none_iff.mp hv
  obtain ⟨opening, content, closing⟩ := q
  obtain ⟨quote, -, hquoted⟩ := h
  cases hquoted with
  | @closed _ c _ _ => exact ⟨c, rfl, by simp [tokens, show content = [] from hcontent]⟩
  | broken _ _ _ => simp at hcontent

end Quotation

def Subject.quotation? : Subject → Option Quotation
  | .quotation q => some q
  | _ => none

def Subject.text? : Subject → Option Token
  | .text t => some t
  | _ => none

/-- The quotations of a document, at any depth. -/
def Document.quotations (doc : Document) : List Quotation :=
  doc.subjects.filterMap Subject.quotation?

/-- The tokens of a document that are text, at any depth. -/
def Document.texts (doc : Document) : List Token := doc.subjects.filterMap Subject.text?

theorem Document.subject_of_mem_quotations {doc : Document} {q : Quotation}
    (h : q ∈ doc.quotations) : .quotation q ∈ doc.subjects := by
  obtain ⟨x, hx, hq⟩ := List.mem_filterMap.mp h
  cases x <;> simp_all [Subject.quotation?]

theorem Document.subject_of_mem_texts {doc : Document} {t : Token} (h : t ∈ doc.texts) :
    .text t ∈ doc.subjects := by
  obtain ⟨x, hx, ht⟩ := List.mem_filterMap.mp h
  cases x <;> simp_all [Subject.text?]

/-- What is to be shown of quotations and of opening quotes that are text. -/
def Subject.QuotesEnd (ts : List Token) : Subject → Prop
  | .quotation q => q.tokens <:+: Token.numbered ts ∧ q.StopsFirst
  | .text t => ∀ quote ∈ closingQuote? t.text, ∀ u ∈ ts.drop t.span.stop, u.StaysQuoted quote
  | _ => True

theorem quotesEnd_cases (ts : List Token) :
    PlaceCases (Takes Node.firstToken Node.lastToken) (Token.numbered ts)
      (Subject.QuotesEnd ts) where
  node _ := trivial
  text htext hbegins _ := by
    intro quote hquote u hu
    rw [Token.drop_stop_numbered htext] at hu
    obtain ⟨u', hu', rfl⟩ := List.mem_map.mp hu
    have hstays := forall_staysQuoted hbegins.quotation hquote u' hu'
    have hkeeps := Token.keepsTexts_restored ts
    rw [Token.StaysQuoted, hkeeps, hkeeps.hasNewline]
    exact hstays
  quotation hts hq := by
    refine ⟨?_, quotation_stopsFirst hq⟩
    rw [quotation_eq hq] at hts
    exact (List.prefix_append _ _).isInfix.trans hts.isInfix
  misplaced _ _ := trivial
  block _ _ := trivial
  command _ _ := trivial
  script _ _ _ := trivial
  clause _ _ := trivial
  definition _ _ := trivial

namespace Document

/-- Every quotation of a document consists of adjacent tokens, up to the first that closes it or
breaks the line. Its value breaks the line exactly if the closing quote is missing, and it has no
value only if the quotes are adjacent. An opening quote is text only if no later token, however the
document is nested, closes the quotation or breaks the line. -/
theorem quotations_stop_first (definitions : Bool) (ts : List Token) :
    (located definitions ts).map (Item.mapTokens (Token.restored ts)) = ofTokens definitions ts ∧
    (∀ q ∈ (located definitions ts).quotations,
      q.tokens <:+: Token.numbered ts ∧ q.StopsFirst ∧
      (∀ v ∈ q.value?, v.hasNewline ↔ q.closing = none) ∧
      (q.value? = none → ∃ c, q.closing = some c ∧ [q.opening, c] <:+: Token.numbered ts)) ∧
    ∀ t ∈ (located definitions ts).texts, ∀ quote ∈ closingQuote? t.text,
      ∀ u ∈ ts.drop t.span.stop, u.text ≠ quote ∧ ¬ u.hasNewline := by
  have hall := (quotesEnd_cases ts).ofTokens readAs_takes definitions
  refine ⟨map_restored_located definitions ts, ?_, fun t ht => hall _ (subject_of_mem_texts ht)⟩
  intro q hq
  obtain ⟨hadjacent, hstops⟩ := hall _ (subject_of_mem_quotations hq)
  refine ⟨hadjacent, hstops, fun v hv => hstops.hasNewline_value? hv, fun hv => ?_⟩
  obtain ⟨c, hc, htokens⟩ := hstops.tokens_of_value?_eq_none hv
  exact ⟨c, hc, htokens ▸ hadjacent⟩

/-- In `("]"“{""` a quotation swallows a bracket, and an opening quote is text although quotes of
the other kind follow it. -/
theorem quotations_stop_first_swallowed :
    (∃ q ∈ (located true (Token.ofSource "(\"]\"“\x7b\"\"")).quotations,
      q.text = "\"]\"" ∧ q.StopsFirst) ∧
    (∃ q ∈ (located true (Token.ofSource "(\"]\"“\x7b\"\"")).quotations,
      q.value? = none ∧ ∃ c, q.closing = some c ∧
        [q.opening, c] <:+: Token.numbered (Token.ofSource "(\"]\"“\x7b\"\"")) ∧
    ∃ t ∈ (located true (Token.ofSource "(\"]\"“\x7b\"\"")).texts,
      closingQuote? t.text = some "”" ∧
        ∀ u ∈ (Token.ofSource "(\"]\"“\x7b\"\"").drop t.span.stop,
          u.text ≠ "”" ∧ ¬ u.hasNewline := by
  obtain ⟨-, hquotations, htexts⟩ :=
    quotations_stop_first true (Token.ofSource "(\"]\"“\x7b\"\"")
  have hswallows : ∃ q ∈ (located true (Token.ofSource "(\"]\"“\x7b\"\"")).quotations,
      q.text = "\"]\"" := by decide +kernel
  have hempty : ∃ q ∈ (located true (Token.ofSource "(\"]\"“\x7b\"\"")).quotations,
      q.value? = none := by decide +kernel
  have htext : ∃ t ∈ (located true (Token.ofSource "(\"]\"“\x7b\"\"")).texts,
      closingQuote? t.text = some "”" := by decide +kernel
  obtain ⟨q, hq, hqtext⟩ := hswallows
  obtain ⟨e, he, hvalue⟩ := hempty
  obtain ⟨t, ht, hquote⟩ := htext
  exact ⟨⟨q, hq, hqtext, (hquotations q hq).2.1⟩,
    ⟨e, he, hvalue, (hquotations e he).2.2.2 hvalue⟩, ⟨t, ht, hquote, htexts t ht _ hquote⟩⟩

end Document

end AcademicMarkup
