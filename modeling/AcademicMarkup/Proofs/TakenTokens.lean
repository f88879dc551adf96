import AcademicMarkup.Proofs.Tiling

/-!
The tokens that a construct takes. They stand before the rest without a gap, and the construct
begins with the first of them and ends with the last, so that its span can be read off the tokens it
takes.
-/
namespace AcademicMarkup

open Production Grammar

def Argument.firstToken : Argument → Token
  | .block b => b.opening
  | .script operator _ => operator

def Item.firstToken : Item → Token
  | .node n => n.firstToken
  | .definition d => d.keyword

def Item.lastToken : Item → Token
  | .node n => n.lastToken
  | .definition d => d.bodyClosing

/-- What is read begins with the first token that it takes and ends with the last. -/
def Takes {α : Type} (first last : α → Token) (a : α) (ts rest : List Token) : Prop :=
  ∃ more, ts = first a :: (more ++ rest) ∧ more.getLastD (first a) = last a

theorem getLastD_append {α : Type} (xs ys : List α) (d : α) :
    (xs ++ ys).getLastD d = ys.getLastD (xs.getLastD d) := by
  induction xs generalizing d with
  | nil => rfl
  | cons x xs ih => rw [List.cons_append, List.getLastD_cons, List.getLastD_cons, ih]

theorem Takes.chain {α : Type} {first last : α → Token} {as : List α} {ts rest : List Token}
    (h : Chain (Takes first last) as ts rest) :
    ∃ taken, ts = taken ++ rest ∧ ∀ d, taken.getLastD d = (as.getLast?.map last).getD d := by
  induction h with
  | nil ts => exact ⟨[], rfl, fun d => rfl⟩
  | @cons a as ts mid rest hfirst _ ih =>
    obtain ⟨more, rfl, hlast⟩ := hfirst
    obtain ⟨taken, rfl, htaken⟩ := ih
    refine ⟨first a :: (more ++ taken), by simp, fun d => ?_⟩
    rw [List.getLastD_cons, getLastD_append, hlast, htaken, List.getLast?_cons]
    cases as.getLast? <;> rfl

theorem Takes.suffix {α : Type} {first last : α → Token} {a : α} {ts rest : List Token}
    (h : Takes first last a ts rest) : rest <:+ ts := by
  obtain ⟨more, rfl, -⟩ := h
  exact ⟨first a :: more, rfl⟩

/-- The rest begins right after the last token. -/
theorem Takes.last_suffix {α : Type} {first last : α → Token} {a : α} {ts rest : List Token}
    (h : Takes first last a ts rest) : last a :: rest <:+ ts := by
  obtain ⟨more, rfl, hlast⟩ := h
  rw [← hlast]
  rcases List.eq_nil_or_concat more with rfl | ⟨init, t, rfl⟩
  · exact List.suffix_refl _
  · refine ⟨first a :: init, ?_⟩
    rw [List.concat_eq_append, getLastD_append]
    simp

section Layer

variable {ts rest : List Token}

theorem takes_quotation_tokens (q : Quotation) (rest : List Token) :
    Takes Node.firstToken Node.lastToken (.quotation q) (q.tokens ++ rest) rest := by
  refine ⟨q.content ++ q.closing.toList, by simp [Quotation.tokens, Node.firstToken], ?_⟩
  rw [getLastD_append]
  simp only [Node.lastToken, Quotation.lastToken]
  cases q.closing <;> rfl

theorem takes_quotation {q : Quotation} (hq : quotation ts = some (q, rest)) :
    Takes Node.firstToken Node.lastToken (.quotation q) ts rest := by
  rw [quotation_eq hq]
  exact takes_quotation_tokens q rest

theorem takes_block {b : Block}
    (hb : BlockRead (Takes Node.firstToken Node.lastToken) b ts rest) :
    Takes Block.opening Block.lastToken b ts rest := by
  cases hb with
  | @closed opening closing children ts rest _ _ hchain =>
    obtain ⟨taken, rfl, -⟩ := Takes.chain hchain
    refine ⟨taken ++ [closing], by simp, ?_⟩
    rw [getLastD_append]
    rfl
  | @unclosed opening children ts rest _ hchain _ =>
    obtain ⟨taken, rfl, hlast⟩ := Takes.chain hchain
    exact ⟨taken, rfl, by rw [hlast, Block.lastToken, Node.lastTokenOr_eq]⟩

theorem takes_argument {a : Argument}
    (ha : ArgumentRead (Takes Node.firstToken Node.lastToken) a ts rest) :
    Takes Argument.firstToken Argument.lastToken a ts rest := by
  cases ha with
  | block hb => exact takes_block hb
  | @script operator operand ts rest _ hoperand =>
    obtain ⟨more, rfl, hlast⟩ := hoperand
    exact ⟨operand.firstToken :: more, rfl, by rw [List.getLastD_cons, hlast]; rfl⟩

theorem takes_clause {c : Clause}
    (hc : ClauseRead (Takes Node.firstToken Node.lastToken) c ts rest) :
    Takes Clause.keyword Clause.closing c ts rest := by
  cases hc with
  | @intro keyword opening closing children ts rest _ _ hb =>
    obtain ⟨more, rfl, hlast⟩ := takes_block hb
    exact ⟨opening :: more, rfl, by rw [List.getLastD_cons, hlast]; rfl⟩

theorem takes_command {c : Command}
    (hc : CommandRead (Takes Node.firstToken Node.lastToken) c ts rest) :
    Takes Command.ident Command.lastToken c ts rest := by
  cases hc with
  | @plain ident arguments ts rest _ _ hchain =>
    obtain ⟨taken, rfl, hlast⟩ := Takes.chain (hchain.mono fun ha => takes_argument ha)
    exact ⟨taken, rfl, by rw [hlast, Command.lastToken, Argument.lastTokenOr_eq]⟩
  | @withClause ident arguments clause ts mid rest _ _ hchain hclause =>
    obtain ⟨taken, rfl, -⟩ := Takes.chain (hchain.mono fun ha => takes_argument ha)
    obtain ⟨more, rfl, hlast⟩ := takes_clause hclause
    refine ⟨taken ++ clause.keyword :: more, by simp, ?_⟩
    rw [getLastD_append, List.getLastD_cons, hlast]
    rfl

theorem takes_construct {n : Node}
    (hn : ConstructRead (Takes Node.firstToken Node.lastToken) n ts rest) :
    Takes Node.firstToken Node.lastToken n ts rest := by
  cases hn with
  | quotation hq => exact takes_quotation hq
  | command hc => exact takes_command hc
  | block hb => exact takes_block hb

theorem takes_text {t : Token} :
    Takes Node.firstToken Node.lastToken (.text t) (t :: rest) rest :=
  ⟨[], rfl, rfl⟩

theorem takes_misplaced {t : Token} :
    Takes Node.firstToken Node.lastToken (.misplaced t) (t :: rest) rest :=
  ⟨[], rfl, rfl⟩

theorem takes_definition {d : Definition}
    (hd : DefinitionRead (Takes Node.firstToken Node.lastToken) d ts rest) :
    Takes Definition.keyword Definition.bodyClosing d ts rest := by
  cases hd with
  | @intro keyword headerOpening headerClosing bodyOpening bodyClosing defined body ts mid rest
      _ _ hheader _ hbody =>
    obtain ⟨header, rfl, -⟩ := takes_block hheader
    obtain ⟨more, rfl, hlast⟩ := takes_block hbody
    refine ⟨headerOpening :: (header ++ bodyOpening :: more), by simp, ?_⟩
    rw [List.getLastD_cons, getLastD_append, List.getLastD_cons, hlast]
    rfl

theorem takes_item {definitions : Bool} {i : Item}
    (hi : ItemRead definitions (Takes Node.firstToken Node.lastToken) i ts rest) :
    Takes Item.firstToken Item.lastToken i ts rest := by
  cases hi with
  | definition _ hd => exact takes_definition hd
  | node hn =>
    cases hn with
    | construct hn => exact takes_construct hn
    | text _ _ => exact takes_text
    | misplaced _ _ => exact takes_misplaced

end Layer

theorem nodeWithin_takes (levels : Nat) :
    (nodeWithin levels).production.Ensures (Takes Node.firstToken Node.lastToken) := by
  refine nodeWithin_ensures (R := fun _ => Takes Node.firstToken Node.lastToken) ?_ ?_ levels
  · intro n ts rest h
    cases h with
    | quotation hq => exact takes_quotation hq
    | text _ _ _ _ => exact takes_text
    | misplaced _ _ _ => exact takes_misplaced
  · intro levels n ts rest h
    cases h with
    | construct hn => exact takes_construct hn
    | text _ _ => exact takes_text

end AcademicMarkup
