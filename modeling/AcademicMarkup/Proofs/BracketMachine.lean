import AcademicMarkup.Token

/-!
Brackets matched in one pass over the tokens with a stack. An opening bracket is pushed. A closing
bracket pops the brackets that it does not close, which stay unclosed, until it meets one that it
closes; where the stack holds none, the closing bracket is stray. The machine reports nothing but
pairs exactly on the balanced words over the three kinds of brackets.
-/
namespace AcademicMarkup

namespace Token

theorem closing_text {t : Token} (h : t.isClosing) :
    t.text = "\x7d" ∨ t.text = ")" ∨ t.text = "]" := by
  simp only [isClosing, closes?, Enclosure.ofClosing?, List.find?_isSome, List.mem_cons,
    List.not_mem_nil, or_false, Enclosure.closing, beq_iff_eq] at h
  obtain ⟨kind, rfl | rfl | rfl, heq⟩ := h
  · exact Or.inl heq.symm
  · exact Or.inr (Or.inl heq.symm)
  · exact Or.inr (Or.inr heq.symm)

theorem opening_text {t : Token} (h : t.isOpening) :
    t.text = "\x7b" ∨ t.text = "(" ∨ t.text = "[" := by
  simp only [isOpening, opens?, Enclosure.ofOpening?, List.find?_isSome, List.mem_cons,
    List.not_mem_nil, or_false, Enclosure.opening, beq_iff_eq] at h
  obtain ⟨kind, rfl | rfl | rfl, heq⟩ := h
  · exact Or.inl heq.symm
  · exact Or.inr (Or.inl heq.symm)
  · exact Or.inr (Or.inr heq.symm)

/-- No text both opens and closes. -/
theorem not_isOpening_of_isClosing {t : Token} (h : t.isClosing) : ¬ t.isOpening := by
  rcases closing_text h with htext | htext | htext <;>
    simp only [isOpening, opens?, htext] <;> decide

theorem pairsWith_iff {opener closer : Token} :
    opener.pairsWith closer ↔
      ∃ kind, opener.opens? = some kind ∧ closer.closes? = some kind := by
  simp only [pairsWith, isOpening, Bool.and_eq_true, beq_iff_eq, Option.isSome_iff_exists]
  constructor
  · rintro ⟨⟨kind, hkind⟩, heq⟩
    exact ⟨kind, hkind, heq ▸ hkind⟩
  · rintro ⟨kind, hopens, hcloses⟩
    exact ⟨⟨kind, hopens⟩, hopens.trans hcloses.symm⟩

theorem isClosing_of_pairsWith {opener closer : Token} (h : opener.pairsWith closer) :
    closer.isClosing := by
  obtain ⟨kind, -, hcloses⟩ := pairsWith_iff.mp h
  simp [isClosing, hcloses]

end Token

inductive BracketEvent where
  | paired (opening closing : Token)
  | unclosed (opening : Token)
  | stray (closing : Token)
deriving DecidableEq, Repr

namespace BracketEvent

def isPaired : BracketEvent → Bool
  | paired _ _ => true
  | unclosed _ => false
  | stray _ => false

end BracketEvent

/-- The brackets that are open, innermost first, and what became of the others. -/
structure BracketMachine where
  stack : List Token
  events : List BracketEvent
deriving DecidableEq, Repr

namespace BracketMachine

/-- Pops the brackets that the closing one does not close, and the one that it closes. -/
def close (closing : Token) : List Token → BracketMachine
  | [] => ⟨[], [.stray closing]⟩
  | opening :: stack =>
    if opening.pairsWith closing then ⟨stack, [.paired opening closing]⟩
    else
      let below := close closing stack
      ⟨below.stack, .unclosed opening :: below.events⟩

def step (m : BracketMachine) (t : Token) : BracketMachine :=
  if t.isOpening then ⟨t :: m.stack, m.events⟩
  else if t.isClosing then
    let popped := close t m.stack
    ⟨popped.stack, m.events ++ popped.events⟩
  else m

/-- All events, when no token follows: what is still open stays unclosed. -/
def report (m : BracketMachine) : List BracketEvent := m.events ++ m.stack.map .unclosed

/-- The report on tokens that are read with some brackets open. -/
def reportFrom (stack ts : List Token) : List BracketEvent :=
  (ts.foldl step ⟨stack, []⟩).report

theorem report_foldl (m : BracketMachine) (ts : List Token) :
    (ts.foldl step m).report = m.events ++ reportFrom m.stack ts := by
  -- the events before a run only stand in front of those of the run
  have hfoldl : ∀ (ts : List Token) (stack : List Token) (events : List BracketEvent),
      ts.foldl step ⟨stack, events⟩ =
        ⟨(ts.foldl step ⟨stack, []⟩).stack, events ++ (ts.foldl step ⟨stack, []⟩).events⟩ := by
    intro ts
    induction ts with
    | nil => simp
    | cons t ts ih =>
      intro stack events
      simp only [List.foldl_cons, step]
      split
      · exact ih (t :: stack) events
      · split
        · rw [ih _ (events ++ _), ih _ ([] ++ _)]
          simp
        · exact ih stack events
  rw [reportFrom, hfoldl ts m.stack m.events]
  simp [report]

theorem reportFrom_nil (stack : List Token) : reportFrom stack [] = stack.map .unclosed := rfl

theorem reportFrom_opening {t : Token} (h : t.isOpening) (stack ts : List Token) :
    reportFrom stack (t :: ts) = reportFrom (t :: stack) ts := by
  simp [reportFrom, step, h]

theorem reportFrom_closing {t : Token} (hopening : ¬ t.isOpening) (h : t.isClosing)
    (stack ts : List Token) :
    reportFrom stack (t :: ts) = (close t stack).events ++ reportFrom (close t stack).stack ts := by
  have hstep : step ⟨stack, []⟩ t = close t stack := by simp [step, hopening, h]
  rw [reportFrom, List.foldl_cons, hstep, report_foldl]

theorem reportFrom_other {t : Token} (hopening : ¬ t.isOpening) (hclosing : ¬ t.isClosing)
    (stack ts : List Token) : reportFrom stack (t :: ts) = reportFrom stack ts := by
  simp [reportFrom, step, hopening, hclosing]

/-- A bracket is closed by the next token that closes its kind. -/
theorem reportFrom_paired {opening closing : Token} (h : opening.pairsWith closing)
    (stack ts : List Token) :
    reportFrom (opening :: stack) (closing :: ts) =
      .paired opening closing :: reportFrom stack ts := by
  have hclosing := Token.isClosing_of_pairsWith h
  rw [reportFrom_closing (Token.not_isOpening_of_isClosing hclosing) hclosing]
  simp [close, h]

/-- A bracket stays unclosed where the tokens end or another bracket is closed. -/
theorem reportFrom_unclosed {opening : Token} {ts : List Token}
    (h : ∀ t ∈ ts.head?, t.isClosing ∧ ¬ opening.pairsWith t) (stack : List Token) :
    reportFrom (opening :: stack) ts = .unclosed opening :: reportFrom stack ts := by
  cases ts with
  | nil => rfl
  | cons t ts =>
    obtain ⟨hclosing, hpairs⟩ := h t rfl
    have hopening := Token.not_isOpening_of_isClosing hclosing
    rw [reportFrom_closing hopening hclosing, reportFrom_closing hopening hclosing]
    simp [close, hpairs]

theorem reportFrom_stray {t : Token} (h : t.isClosing) (ts : List Token) :
    reportFrom [] (t :: ts) = .stray t :: reportFrom [] ts := by
  rw [reportFrom_closing (Token.not_isOpening_of_isClosing h) h]
  rfl

end BracketMachine

/-! Balanced words. -/

inductive Bracket where
  | opening (kind : Enclosure)
  | closing (kind : Enclosure)
deriving DecidableEq, Repr

def Token.bracket? (t : Token) : Option Bracket :=
  match t.opens? with
  | some kind => some (.opening kind)
  | none => t.closes?.map .closing

/-- The brackets among tokens. -/
def Token.brackets (ts : List Token) : List Bracket := ts.filterMap bracket?

/-- Words in which every bracket has its partner and pairs do not cross. -/
inductive Balanced : List Bracket → Prop
  | nil : Balanced []
  | pair (kind : Enclosure) {inside after : List Bracket} :
      Balanced inside → Balanced after →
      Balanced (.opening kind :: inside ++ .closing kind :: after)

namespace BracketMachine

/-- Words that close the brackets of a stack, with balanced words in between. -/
def Completes : List Token → List Bracket → Prop
  | [], w => Balanced w
  | opening :: stack, w => ∃ kind inside after, opening.opens? = some kind ∧ Balanced inside ∧
      Completes stack after ∧ w = inside ++ .closing kind :: after

theorem Completes.opening {t : Token} {kind : Enclosure} (hkind : t.opens? = some kind)
    {stack : List Token} {w : List Bracket} (h : Completes (t :: stack) w) :
    Completes stack (.opening kind :: w) := by
  obtain ⟨kind', inside, after, hkind', hinside, hafter, rfl⟩ := h
  obtain rfl : kind = kind' := by simpa [hkind] using hkind'
  cases stack with
  | nil => exact Balanced.pair kind hinside hafter
  | cons opening stack =>
    obtain ⟨outer, inside', after', houter, hinside', hafter', rfl⟩ := hafter
    refine ⟨outer, .opening kind :: inside ++ .closing kind :: inside', after', houter,
      Balanced.pair kind hinside hinside', hafter', ?_⟩
    simp

/-- Where the machine reports only pairs, the word closes what was open. -/
theorem completes_of_paired {stack ts : List Token}
    (h : ∀ e ∈ reportFrom stack ts, e.isPaired) : Completes stack (Token.brackets ts) := by
  induction ts generalizing stack with
  | nil =>
    cases stack with
    | nil => exact Balanced.nil
    | cons opening stack => simp [reportFrom_nil, BracketEvent.isPaired] at h
  | cons t ts ih =>
    by_cases hopening : t.isOpening
    · rw [reportFrom_opening hopening] at h
      obtain ⟨kind, hkind⟩ := Option.isSome_iff_exists.mp hopening
      have hword : Token.brackets (t :: ts) = .opening kind :: Token.brackets ts := by
        simp [Token.brackets, Token.bracket?, hkind]
      rw [hword]
      exact (ih h).opening hkind
    · have hopens : t.opens? = none := by simpa [Token.isOpening] using hopening
      by_cases hclosing : t.isClosing
      · cases stack with
        | nil => simp [reportFrom_stray hclosing, BracketEvent.isPaired] at h
        | cons opening stack =>
          by_cases hpairs : opening.pairsWith t
          · rw [reportFrom_paired hpairs] at h
            obtain ⟨kind, hkind, hcloses⟩ := Token.pairsWith_iff.mp hpairs
            refine ⟨kind, [], Token.brackets ts, hkind, Balanced.nil, ih ?_, ?_⟩
            · exact fun e he => h e (List.mem_cons_of_mem _ he)
            · simp [Token.brackets, Token.bracket?, hopens, hcloses]
          · have hhead : ∀ u ∈ (t :: ts).head?, u.isClosing ∧ ¬ opening.pairsWith u := by
              intro u hu
              obtain rfl : t = u := by simpa using hu
              exact ⟨hclosing, hpairs⟩
            simp [reportFrom_unclosed hhead, BracketEvent.isPaired] at h
      · rw [reportFrom_other hopening hclosing] at h
        have hcloses : t.closes? = none := by simpa [Token.isClosing] using hclosing
        have hword : Token.brackets (t :: ts) = Token.brackets ts := by
          simp [Token.brackets, Token.bracket?, hopens, hcloses]
        rw [hword]
        exact ih h

theorem opens?_of_bracket? {t : Token} {kind : Enclosure} (h : t.bracket? = some (.opening kind)) :
    t.opens? = some kind := by
  unfold Token.bracket? at h
  split at h
  · simp_all
  · simp at h

theorem closes?_of_bracket? {t : Token} {kind : Enclosure} (h : t.bracket? = some (.closing kind)) :
    t.closes? = some kind := by
  unfold Token.bracket? at h
  split at h
  · simp at h
  · simpa using h

theorem reportFrom_skip {us : List Token} (h : ∀ t ∈ us, t.bracket? = none)
    (stack vs : List Token) : reportFrom stack (us ++ vs) = reportFrom stack vs := by
  induction us with
  | nil => rfl
  | cons t us ih =>
    have hnone := h t List.mem_cons_self
    unfold Token.bracket? at hnone
    split at hnone
    · simp at hnone
    · rename_i hopens
      have hcloses : t.closes? = none := by simpa using hnone
      rw [List.cons_append, reportFrom_other (by simp [Token.isOpening, hopens])
        (by simp [Token.isClosing, hcloses])]
      exact ih fun u hu => h u (List.mem_cons_of_mem _ hu)

/-- The machine comes out of a balanced word as it went in and reports only pairs. -/
theorem reportFrom_balanced {w : List Bracket} (hw : Balanced w) :
    ∀ {us : List Token}, Token.brackets us = w → ∀ stack vs : List Token,
      ∃ es : List BracketEvent, (∀ e ∈ es, e.isPaired) ∧
        reportFrom stack (us ++ vs) = es ++ reportFrom stack vs := by
  induction hw with
  | nil =>
    intro us hus stack vs
    refine ⟨[], by simp, reportFrom_skip ?_ stack vs⟩
    simpa [Token.brackets] using hus
  | pair kind _ _ ihInside ihAfter =>
    intro us hus stack vs
    obtain ⟨us₁, us₂, rfl, h₁, h₂⟩ := List.filterMap_eq_append_iff.mp hus
    obtain ⟨skip₁, opening, inside, rfl, hskip₁, hopening, hinside⟩ :=
      List.filterMap_eq_cons_iff.mp h₁
    obtain ⟨skip₂, closing, after, rfl, hskip₂, hclosing, hafter⟩ :=
      List.filterMap_eq_cons_iff.mp h₂
    have hopens := opens?_of_bracket? hopening
    have hpairs : opening.pairsWith closing :=
      Token.pairsWith_iff.mpr ⟨kind, hopens, closes?_of_bracket? hclosing⟩
    have hisOpening : opening.isOpening := by simp [Token.isOpening, hopens]
    obtain ⟨es, hes, heq⟩ := ihInside hinside (opening :: stack)
      (skip₂ ++ closing :: (after ++ vs))
    obtain ⟨es', hes', heq'⟩ := ihAfter hafter stack vs
    refine ⟨es ++ .paired opening closing :: es', ?_, ?_⟩
    · intro e he
      rcases List.mem_append.mp he with he | he
      · exact hes e he
      · rcases List.mem_cons.mp he with rfl | he
        · rfl
        · exact hes' e he
    · calc reportFrom stack (skip₁ ++ opening :: inside ++ (skip₂ ++ closing :: after) ++ vs)
          = reportFrom stack
              (skip₁ ++ opening :: (inside ++ (skip₂ ++ closing :: (after ++ vs)))) := by simp
        _ = reportFrom (opening :: stack) (inside ++ (skip₂ ++ closing :: (after ++ vs))) := by
            rw [reportFrom_skip hskip₁, reportFrom_opening hisOpening]
        _ = es ++ .paired opening closing :: reportFrom stack (after ++ vs) := by
            rw [heq, reportFrom_skip hskip₂, reportFrom_paired hpairs]
        _ = es ++ .paired opening closing :: es' ++ reportFrom stack vs := by
            rw [heq']
            simp

/-- The machine reports only pairs exactly on the balanced words. -/
theorem paired_iff_balanced (ts : List Token) :
    (∀ e ∈ reportFrom [] ts, e.isPaired) ↔ Balanced (Token.brackets ts) := by
  constructor
  · exact fun h => completes_of_paired h
  · intro h
    obtain ⟨es, hes, heq⟩ := reportFrom_balanced h rfl [] []
    rw [List.append_nil, reportFrom_nil, List.map_nil, List.append_nil] at heq
    rwa [heq]

end BracketMachine

end AcademicMarkup
