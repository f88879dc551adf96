import AcademicMarkup.Proofs.Reading

/-!
Reading with a cursor. The productions of the grammar pass on the tokens that are left, so one that
does not match has nothing to undo. Here they move a cursor over tokens that stay where they are, go
down and up in depth around a node, and put the cursor back themselves where they give up, possibly
after much has been read. They call each other without regard to what is left, so each call is given
a limit on the calls inside it, and one that reaches the limit has no result.
-/
namespace AcademicMarkup

/-- Where a reader stands: the number of tokens before it, and of nodes around it. -/
structure Cursor where
  position : Nat
  depth : Nat
deriving DecidableEq, Repr

namespace Cursor

/-- What a reader does with its cursor. None is the result of what has not ended within the limit on
calls inside each other. -/
abbrev Action (α : Type) := StateT Cursor Option α

/-- What the first gives, or else what the second gives. -/
def either {α β : Type} (x : Action (Option α)) (f : α → β) (y : Action (Option β)) :
    Action (Option β) := do
  match ← x with
  | some a => return some (f a)
  | none => y

/-- One level further down, and up again. -/
def deeper {α : Type} (x : Action α) : Action α := do
  modify fun s => { s with depth := s.depth + 1 }
  let result ← x
  modify fun s => { s with depth := s.depth - 1 }
  return result

section Actions

variable (tokens : List Token)

/-- The token at the cursor. -/
def peek : Action (Option Token) := do
  return tokens[(← get).position]?

/-- Takes the token at the cursor. -/
def bump : Action (Option Token) := do
  let s ← get
  match tokens[s.position]? with
  | none => return none
  | some t =>
    set { s with position := s.position + 1 }
    return some t

def save : Action Nat := do
  return (← get).position

def restore (mark : Nat) : Action Unit := modify fun s => { s with position := mark }

/-- Takes tokens up to the closing quote or through a line break, after those taken before. -/
def quoted (closing : String) : Nat → List Token → Action (Option (List Token × Option Token))
  | 0, _ => failure
  | limit + 1, content => do
    match ← bump tokens with
    | none => return none
    | some t =>
      if t.text == closing then return some (content, some t)
      else if t.hasNewline then return some (content ++ [t], none)
      else quoted closing limit (content ++ [t])

def quotation (limit : Nat) : Action (Option Quotation) := do
  match (← peek tokens).bind fun t => Grammar.closingQuote? t.text with
  | none => return none
  | some closing =>
    let mark ← save
    match ← bump tokens with
    | none => return none
    | some opening =>
      match ← quoted tokens closing limit [] with
      | some (content, close) => return some ⟨opening, content, close⟩
      | none =>
        restore mark
        return none

/-- Takes the token at the cursor as a node if it passes a test. -/
def tokenNode (test : Token → Bool) (f : Token → Node) : Action (Option Node) := do
  match ← peek tokens with
  | none => return none
  | some t => if test t then return (← bump tokens).map f else return none

/-- A node at the nesting limit. -/
def flatNode (limit : Nat) : Action (Option Node) :=
  either (quotation tokens limit) .quotation <| tokenNode tokens (!·.isClosing) fun t =>
    if t.isOpening || t.isIdentifier then .misplaced t else .text t

/-- Takes the token at the cursor if it closes what was opened. -/
def closingOf (opening : Token) : Action (Option Token) := do
  match ← peek tokens with
  | none => return none
  | some t => if opening.pairsWith t then bump tokens else return none

mutual

/-- A node, one level further down. -/
def node : Nat → Bool → Action (Option Node)
  | 0, _ => failure
  | limit + 1, nested => do
    if Grammar.maxNesting ≤ (← get).depth then flatNode tokens limit
    else deeper (nodeBelow limit nested)

/-- Inside another node a closing bracket is left where it is. -/
def nodeBelow : Nat → Bool → Action (Option Node)
  | 0, _ => failure
  | limit + 1, nested =>
    either (quotation tokens limit) .quotation <|
      either (command limit) .command <|
        either (block limit none false) .block <|
          if nested then tokenNode tokens (!·.isClosing) .text
          else tokenNode tokens (fun _ => true) fun t =>
            if t.isClosing then .misplaced t else .text t

/-- A block, of one kind if one is expected. Where its close is asked for and is not there, all
that was read is given back. -/
def block : Nat → Option Enclosure → Bool → Action (Option Block)
  | 0, _, _ => failure
  | limit + 1, expected, ensureClose => do
    let mark ← save
    match (← peek tokens).bind Token.opens? with
    | none => return none
    | some kind =>
      if expected.any (· != kind) then return none
      else
        match ← bump tokens with
        | none => return none
        | some opening =>
          let children ← children limit []
          let closing ← closingOf tokens opening
          if ensureClose && closing.isNone then
            restore mark
            return none
          else return some ⟨opening, children, closing⟩

def children : Nat → List Node → Action (List Node)
  | 0, _ => failure
  | limit + 1, read => do
    match ← node limit true with
    | some n => children limit (read ++ [n])
    | none => return read

def command : Nat → Action (Option Command)
  | 0 => failure
  | limit + 1 => do
    match ← peek tokens with
    | none => return none
    | some t =>
      if !t.isIdentifier || t.text == Token.definitionKeyword then return none
      else
        match ← bump tokens with
        | none => return none
        | some ident =>
          let arguments ← arguments limit []
          let clause ← clause limit
          return some ⟨ident, arguments, clause⟩

def arguments : Nat → List Argument → Action (List Argument)
  | 0, _ => failure
  | limit + 1, read => do
    match ← argument limit with
    | some a => arguments limit (read ++ [a])
    | none => return read

def argument : Nat → Action (Option Argument)
  | 0 => failure
  | limit + 1 =>
    either (script limit) id <| return (← block limit none false).map .block

/-- A script operator, which is given back if no operand follows. -/
def script : Nat → Action (Option Argument)
  | 0 => failure
  | limit + 1 => do
    match ← peek tokens with
    | none => return none
    | some t =>
      if !t.isScriptOperator then return none
      else
        let mark ← save
        match ← bump tokens with
        | none => return none
        | some operator =>
          match ← node limit true with
          | some operand => return some (.script operator operand)
          | none =>
            restore mark
            return none

def clause : Nat → Action (Option Clause)
  | 0 => failure
  | limit + 1 => do
    match ← peek tokens with
    | none => return none
    | some t =>
      if t.text != Token.clauseKeyword then return none
      else
        let mark ← save
        match ← bump tokens with
        | none => return none
        | some keyword =>
          match ← block limit (some .brace) true with
          | some ⟨opening, children, some closing⟩ =>
            return some ⟨keyword, opening, Grammar.rules (Node.nonBlank children), closing⟩
          | _ =>
            restore mark
            return none

end

/-- A definition, all of which is given back where a part of it is not there. -/
def definition (limit : Nat) : Action (Option Definition) := do
  match ← peek tokens with
  | none => return none
  | some t =>
    if t.text != Token.definitionKeyword then return none
    else
      let mark ← save
      match ← bump tokens with
      | none => return none
      | some keyword =>
        match ← block tokens limit (some .bracket) true with
        | none =>
          restore mark
          return none
        | some header =>
          match header.onlyChild?.bind Node.command? with
          | none =>
            restore mark
            return none
          | some defined =>
            match ← block tokens limit (some .brace) true with
            | none =>
              restore mark
              return none
            | some body =>
              match header.closing, body.closing with
              | some headerClosing, some bodyClosing =>
                return some ⟨keyword, header.opening, defined.ident, headerClosing, body.opening,
                  (Grammar.rules (Node.nonBlank body.children)).filterMap Grammar.definitionRule?,
                  bodyClosing⟩
              | _, _ =>
                restore mark
                return none

def itemBelow (limit : Nat) (definitions nested : Bool) : Action (Option Item) :=
  either (if definitions then definition tokens limit else return none) .definition <|
    return (← nodeBelow tokens limit nested).map .node

/-- A node, or a definition where they are allowed. -/
def item (limit : Nat) (definitions nested : Bool) : Action (Option Item) := do
  if Grammar.maxNesting ≤ (← get).depth then return (← flatNode tokens limit).map .node
  else deeper (itemBelow tokens limit definitions nested)

def items (definitions : Bool) : Nat → List Item → Action (List Item)
  | 0, _ => failure
  | limit + 1, read => do
    match ← item tokens limit definitions false with
    | some i => items definitions limit (read ++ [i])
    | none => return read

end Actions

/-- At this depth the action does what the production does with the tokens from the cursor on. It
ends within four calls inside each other for every token that is left, and a margin. Where nothing
is read the cursor is where it was, and otherwise further on. -/
def Performs {α : Type} (tokens : List Token) (depth margin : Nat) (x : Nat → Action (Option α))
    (p : Production α) : Prop :=
  ∀ position limit, 4 * (tokens.length - position) + margin ≤ limit →
    (p (tokens.drop position) = none ∧
      (x limit).run ⟨position, depth⟩ = some (none, ⟨position, depth⟩)) ∨
    ∃ a next, p (tokens.drop position) = some (a, tokens.drop next) ∧
      (x limit).run ⟨position, depth⟩ = some (some a, ⟨next, depth⟩) ∧
      position < next ∧ next ≤ tokens.length

namespace Performs

variable {α β : Type} {tokens : List Token} {depth margin : Nat} {x : Nat → Action (Option α)}
  {p : Production α}

theorem mono {larger : Nat} (h : Performs tokens depth margin x p) (hle : margin ≤ larger) :
    Performs tokens depth larger x p :=
  fun position limit hlimit => h position limit (by omega)

theorem map (h : Performs tokens depth margin x p) (f : α → β) :
    Performs tokens depth margin (fun limit => do return (← x limit).map f) (p.map f) := by
  intro position limit hlimit
  rcases h position limit hlimit with ⟨hnone, hrun⟩ | ⟨a, next, hread, hrun, hlt, hle⟩
  · exact Or.inl ⟨by simp [Production.map, hnone], by simp [hrun]⟩
  · exact Or.inr ⟨f a, next, by simp [Production.map, hread], by simp [hrun], hlt, hle⟩

theorem either {y : Nat → Action (Option β)} {q : Production β}
    (h : Performs tokens depth margin x p) (f : α → β) (h' : Performs tokens depth margin y q) :
    Performs tokens depth margin (fun limit => either (x limit) f (y limit))
      ((p.map f).orElse q) := by
  intro position limit hlimit
  simp only [Production.orElse, Production.map]
  rcases h position limit hlimit with ⟨hnone, hrun⟩ | ⟨a, next, hread, hrun, hlt, hle⟩
  · simpa [Cursor.either, hnone, hrun] using h' position limit hlimit
  · exact Or.inr ⟨f a, next, by simp [hread], by simp [Cursor.either, hrun], hlt, hle⟩

theorem deeper (h : Performs tokens (depth + 1) margin x p) :
    Performs tokens depth margin (fun limit => deeper (x limit)) p := by
  intro position limit hlimit
  rcases h position limit hlimit with ⟨hnone, hrun⟩ | ⟨a, next, hread, hrun, hlt, hle⟩
  · exact Or.inl ⟨hnone, by simp [Cursor.deeper, hrun]⟩
  · exact Or.inr ⟨a, next, hread, by simp [Cursor.deeper, hrun], hlt, hle⟩

theorem gives_none_iff (h : Performs tokens depth margin x p) {position limit : Nat}
    (hlimit : 4 * (tokens.length - position) + margin ≤ limit) :
    (∃ s, (x limit).run ⟨position, depth⟩ = some (none, s)) ↔ p (tokens.drop position) = none := by
  rcases h position limit hlimit with ⟨hnone, hrun⟩ | ⟨a, next, hread, hrun, -⟩
  · simp [hnone, hrun]
  · simp [hread, hrun]

end Performs

section Moves

variable {tokens : List Token} {position : Nat}

theorem getElem?_of_drop_eq_nil (h : tokens.drop position = []) : tokens[position]? = none := by
  simpa using h

theorem getElem?_of_drop_eq_cons {t : Token} {ts : List Token}
    (h : tokens.drop position = t :: ts) :
    tokens[position]? = some t ∧ ts = tokens.drop (position + 1) ∧
      position + 1 ≤ tokens.length := by
  have hlt : position < tokens.length := by
    refine Nat.lt_of_not_le fun hge => ?_
    simp [List.drop_eq_nil_of_le hge] at h
  rw [List.drop_eq_getElem_cons hlt] at h
  obtain ⟨rfl, rfl⟩ := List.cons.inj h
  exact ⟨List.getElem?_eq_getElem hlt, rfl, hlt⟩

theorem run_peek (s : Cursor) : (peek tokens).run s = some (tokens[s.position]?, s) := rfl

theorem run_save (s : Cursor) : save.run s = some (s.position, s) := rfl

theorem run_restore (mark : Nat) (s : Cursor) :
    (restore mark).run s = some ((), { s with position := mark }) := rfl

theorem run_bump {t : Token} (h : tokens[position]? = some t) (depth : Nat) :
    (bump tokens).run ⟨position, depth⟩ = some (some t, ⟨position + 1, depth⟩) := by
  simp [bump, h]

theorem run_quoted (closing : String) (position depth : Nat) {limit : Nat} (content : List Token)
    (hlimit : tokens.length - position < limit) :
    (Grammar.quoted closing (tokens.drop position) = none ∧
      ∃ s, (quoted tokens closing limit content).run ⟨position, depth⟩ = some (none, s) ∧
        s.depth = depth) ∨
    ∃ more close next,
      Grammar.quoted closing (tokens.drop position) = some ((more, close), tokens.drop next) ∧
      (quoted tokens closing limit content).run ⟨position, depth⟩ =
        some (some (content ++ more, close), ⟨next, depth⟩) ∧
      position < next ∧ next ≤ tokens.length := by
  induction limit generalizing position content with
  | zero => omega
  | succ limit ih =>
    rw [quoted]
    cases hts : tokens.drop position with
    | nil =>
      have htoken := getElem?_of_drop_eq_nil hts
      exact Or.inl ⟨rfl, ⟨position, depth⟩, by simp [bump, htoken], rfl⟩
    | cons t ts =>
      obtain ⟨htoken, rfl, hend⟩ := getElem?_of_drop_eq_cons hts
      rw [StateT.run_bind, run_bump htoken]
      simp only [Option.bind_eq_bind, Option.bind_some, Grammar.quoted]
      split
      · exact Or.inr ⟨[], some t, position + 1, by simpa using hend⟩
      · split
        · exact Or.inr ⟨[t], none, position + 1, by simpa using hend⟩
        · rcases ih (position + 1) (content ++ [t]) (by omega) with
            ⟨hnone, hrun⟩ | ⟨more, close, next, hread, hrun, hlt, hle⟩
          · exact Or.inl ⟨by rw [hnone]; rfl, hrun⟩
          · refine Or.inr ⟨t :: more, close, next, by rw [hread]; rfl, ?_, by omega, hle⟩
            rw [hrun, List.append_assoc]
            rfl

end Moves

theorem performs_quotation (tokens : List Token) (depth : Nat) :
    Performs tokens depth 0 (quotation tokens) Grammar.quotation := by
  intro position limit hlimit
  cases hts : tokens.drop position with
  | nil =>
    have htoken := getElem?_of_drop_eq_nil hts
    exact Or.inl ⟨rfl, by simp [quotation, run_peek, htoken]⟩
  | cons t ts =>
    obtain ⟨htoken, rfl, hend⟩ := getElem?_of_drop_eq_cons hts
    simp only [quotation, StateT.run_bind, run_peek, htoken, Option.bind_eq_bind, Option.bind_some,
      Grammar.quotation]
    cases Grammar.closingQuote? t.text with
    | none => exact Or.inl ⟨rfl, rfl⟩
    | some closing =>
      simp only [StateT.run_bind, run_save, run_bump htoken, Option.bind_eq_bind, Option.bind_some]
      have hleft : tokens.length - (position + 1) < limit := by omega
      rcases run_quoted closing (position + 1) depth [] hleft with
        ⟨hnone, s, hrun, rfl⟩ | ⟨content, close, next, hread, hrun, hlt, hle⟩
      · refine Or.inl ⟨by simp [hnone], ?_⟩
        simp [hrun, run_restore]
      · refine Or.inr ⟨⟨t, content, close⟩, next, by simp [hread], ?_, by omega, hle⟩
        simp [hrun]

theorem performs_tokenNode (tokens : List Token) (depth : Nat) (test : Token → Bool)
    (f : Token → Node) :
    Performs tokens depth 0 (fun _ => tokenNode tokens test f) ((Production.token test).map f) := by
  intro position limit _
  cases hts : tokens.drop position with
  | nil =>
    have htoken := getElem?_of_drop_eq_nil hts
    exact Or.inl ⟨rfl, by simp [tokenNode, run_peek, htoken]⟩
  | cons t ts =>
    obtain ⟨htoken, rfl, hend⟩ := getElem?_of_drop_eq_cons hts
    cases htest : test t with
    | false =>
      exact Or.inl ⟨by simp [Production.map, Production.token, htest],
        by simp [tokenNode, run_peek, htoken, htest]⟩
    | true =>
      exact Or.inr ⟨f t, position + 1, by simp [Production.map, Production.token, htest],
        by simp [tokenNode, run_peek, htoken, htest, run_bump htoken], by omega, hend⟩

theorem performs_flatNode (tokens : List Token) (depth : Nat) :
    Performs tokens depth 0 (flatNode tokens) Grammar.leafNode := by
  unfold flatNode Grammar.leafNode
  exact (performs_quotation tokens depth).either .quotation (performs_tokenNode tokens depth _ _)

/-- What is repeated until it does not match reads what the production reads as often as it
matches. -/
theorem run_loop {α : Type} {tokens : List Token} {depth margin : Nat}
    {x : Nat → Action (Option α)} {reader : Reader α} {loop : Nat → List α → Action (List α)}
    (hx : Performs tokens depth margin x reader.production)
    (hloop : ∀ limit read, loop (limit + 1) read =
      x limit >>= fun found => found.elim (pure read) fun a => loop limit (read ++ [a]))
    (read : List α) (position : Nat) {limit : Nat}
    (hlimit : 4 * (tokens.length - position) + (margin + 1) ≤ limit) :
    ∃ next, (loop limit read).run ⟨position, depth⟩ =
        some (read ++ (reader.many (tokens.drop position)).1, ⟨next, depth⟩) ∧
      (reader.many (tokens.drop position)).2 = tokens.drop next ∧ position ≤ next ∧
      (position ≤ tokens.length → next ≤ tokens.length) := by
  induction limit generalizing read position with
  | zero => omega
  | succ limit ih =>
    rw [hloop]
    rcases hx position limit (by omega) with ⟨hnone, hrun⟩ | ⟨a, next, hread, hrun, hlt, hle⟩
    · refine ⟨position, ?_, ?_, Nat.le_refl _, id⟩ <;>
        simp [hrun, Reader.many_of_eq_none hnone]
    · -- A token has been taken, which makes room for this call and the next.
      obtain ⟨last, hlast, hrest, hge, hend⟩ := ih (read ++ [a]) next (by omega)
      refine ⟨last, ?_, ?_, by omega, fun _ => hend hle⟩
      · simp [hrun, hlast, Reader.many_of_eq_some hread]
      · rw [Reader.many_of_eq_some hread]
        exact hrest

end Cursor

end AcademicMarkup
