import AcademicMarkup.Proofs.AttributeText
import AcademicMarkup.Proofs.CursorActions
import AcademicMarkup.Proofs.Lookahead

/-!
What is read with a cursor. Each action does what its production does: within a limit that is linear
in the tokens left it ends, at the depth it began at, with the cursor where it was if nothing is
read and further on if something is. This is shown for one level of the grammar at a time, and then
by induction on the levels that are left.
-/
namespace AcademicMarkup

namespace Cursor

section Productions

variable {inner : Reader Node}

/-- A block, of one kind if one is expected, and with its close if that is asked for. -/
def blockOf (inner : Reader Node) (expected : Option Enclosure) (ensureClose : Bool) :
    Production Block := fun ts =>
  (Grammar.block inner ts).filter fun r =>
    expected.all (fun kind => r.1.opening.opens? == some kind) &&
      (!ensureClose || r.1.closing.isSome)

theorem blockOf_any (inner : Reader Node) : blockOf inner none false = Grammar.block inner := by
  funext ts
  simp only [blockOf]
  cases Grammar.block inner ts <;> rfl

/-- The close of a block is the token after its children, if that pairs with its opening. -/
def closes (opening : Token) : List Token → Option Token × List Token
  | [] => (none, [])
  | t :: ts => if opening.pairsWith t then (some t, ts) else (none, t :: ts)

theorem block_cons {t : Token} (h : t.isOpening) (ts : List Token) :
    Grammar.block inner (t :: ts) =
      some (⟨t, (inner.many ts).1, (closes t (inner.many ts).2).1⟩,
        (closes t (inner.many ts).2).2) := by
  simp only [Grammar.block, h, if_true]
  split
  · rename_i children closing rest heq
    simp only [heq, closes]
    split <;> rfl
  · rename_i children heq
    simp only [heq, closes]

theorem run_closingOf (tokens : List Token) (opening : Token) (position depth : Nat) :
    ∃ next, (closingOf tokens opening).run ⟨position, depth⟩ =
        some ((closes opening (tokens.drop position)).1, ⟨next, depth⟩) ∧
      (closes opening (tokens.drop position)).2 = tokens.drop next ∧ position ≤ next ∧
      (position ≤ tokens.length → next ≤ tokens.length) := by
  cases hts : tokens.drop position with
  | nil =>
    have htoken := getElem?_of_drop_eq_nil hts
    exact ⟨position, by simp [closingOf, run_peek, htoken, closes], by simp [closes, hts],
      Nat.le_refl _, id⟩
  | cons t ts =>
    obtain ⟨htoken, rfl, hend⟩ := getElem?_of_drop_eq_cons hts
    by_cases hpairs : opening.pairsWith t
    · exact ⟨position + 1, by simp [closingOf, run_peek, htoken, closes, hpairs, run_bump htoken],
        by simp [closes, hpairs], by omega, fun _ => hend⟩
    · exact ⟨position, by simp [closingOf, run_peek, htoken, closes, hpairs],
        by simp [closes, hpairs, hts], Nat.le_refl _, id⟩

/-- The node over those inside it. It stands in another itself, or between no brackets. -/
def nodeOver (nested : Bool) (inner : Reader Node) : Production Node :=
  if nested then Grammar.innerNode inner else Grammar.outerNode inner

theorem nodeOver_eq (nested : Bool) : nodeOver nested inner =
    (Grammar.quotation.map .quotation).orElse
      (((Grammar.command inner).map .command).orElse
        (((Grammar.block inner).map .block).orElse
          (if nested then (Production.token (!·.isClosing)).map .text
          else (Production.token fun _ => true).map fun t =>
            if t.isClosing then .misplaced t else .text t))) := by
  funext ts
  cases nested <;>
    simp [nodeOver, Grammar.innerNode, Grammar.outerNode, Grammar.construct, Production.orElse,
      Option.or_assoc]

/-- A node, or a definition where they are allowed, over the nodes inside it. -/
def itemOver (definitions nested : Bool) (inner : Reader Node) : Production Item :=
  let node := (nodeOver nested inner).map .node
  if definitions then ((Grammar.definition inner).map .definition).orElse node else node

theorem onlyCommand_eq_some_iff {b : Block} {c : Command} :
    b.onlyChild?.bind Node.command? = some c ↔ b.children = [.command c] := by
  obtain ⟨opening, children, closing⟩ := b
  rcases children with _ | ⟨n, _ | ⟨m, ns⟩⟩
  · simp [Block.onlyChild?]
  · cases n <;> simp [Block.onlyChild?, Node.command?]
  · simp [Block.onlyChild?]

end Productions

/-! One level of the grammar, if the nodes inside it are read as they should be. The margin of a
production is the number of calls inside each other before the first token is taken. -/

section Layer

variable {tokens : List Token} {depth : Nat} {inner : Reader Node}
  (hnode : Performs tokens depth 3 (node tokens · true) inner.production)

include hnode

theorem run_children (position : Nat) {limit : Nat}
    (hlimit : 4 * (tokens.length - position) + 4 ≤ limit) :
    ∃ next, (children tokens limit []).run ⟨position, depth⟩ =
        some ((inner.many (tokens.drop position)).1, ⟨next, depth⟩) ∧
      (inner.many (tokens.drop position)).2 = tokens.drop next ∧ position ≤ next ∧
      (position ≤ tokens.length → next ≤ tokens.length) := by
  refine run_loop hnode (fun limit read => ?_) [] position hlimit
  rw [children]
  congr 1
  funext found
  cases found <;> rfl

theorem performs_block (expected : Option Enclosure) (ensureClose : Bool) :
    Performs tokens depth 1 (block tokens · expected ensureClose)
      (blockOf inner expected ensureClose) := by
  intro position limit hlimit
  obtain ⟨limit, rfl⟩ := Nat.exists_eq_add_of_le' (show 1 ≤ limit by omega)
  simp only [block]
  cases hts : tokens.drop position with
  | nil =>
    have htoken := getElem?_of_drop_eq_nil hts
    exact Or.inl ⟨rfl, by simp [run_save, run_peek, htoken]⟩
  | cons t ts =>
    obtain ⟨htoken, rfl, hend⟩ := getElem?_of_drop_eq_cons hts
    simp only [StateT.run_bind, run_save, run_peek, htoken, Option.bind_eq_bind, Option.bind_some]
    cases hopens : t.opens? with
    | none => exact Or.inl ⟨by simp [blockOf, Grammar.block, Token.isOpening, hopens], rfl⟩
    | some kind =>
      have hopening : t.isOpening := by simp [Token.isOpening, hopens]
      simp only [blockOf, block_cons hopening]
      have hkind : expected.all (fun other => t.opens? == some other) =
          !expected.any (· != kind) := by
        cases expected <;> simp [hopens, bne, Bool.beq_comm]
      cases hexpected : expected.any (· != kind) with
      | true => exact Or.inl ⟨by simp [hkind, hexpected], by simp⟩
      | false =>
        obtain ⟨mid, hchildren, hmid, hge, hle⟩ :=
          run_children hnode (position + 1) (show _ ≤ limit by omega)
        obtain ⟨next, hclosing, hnext, hge', hle'⟩ := run_closingOf tokens t mid depth
        rw [hmid, hnext]
        by_cases hmissing : ensureClose ∧ (closes t (tokens.drop mid)).1 = none
        · refine Or.inl ⟨by simp [hmissing], ?_⟩
          simp [run_bump htoken, hchildren, hclosing, hmissing, run_restore]
        · have hgiven : (!ensureClose || (closes t (tokens.drop mid)).1.isSome) = true := by
            cases ensureClose <;> simp_all [Option.isSome_iff_ne_none]
          refine Or.inr ⟨⟨t, (inner.many (tokens.drop (position + 1))).1,
            (closes t (tokens.drop mid)).1⟩, next, ?_, ?_, by omega, by omega⟩
          · simp [hkind, hexpected, hgiven]
          · simp [run_bump htoken, hchildren, hclosing, hmissing]

theorem performs_anyBlock :
    Performs tokens depth 1 (block tokens · none false) (Grammar.block inner) := by
  rw [← blockOf_any]
  exact performs_block hnode none false

/-- A block of one kind with its close is what the grammar calls enclosed. -/
theorem run_enclosed (h : ReadsAhead inner []) (kind : Enclosure) (position : Nat) {limit : Nat}
    (hlimit : 4 * (tokens.length - position) + 1 ≤ limit) :
    (Grammar.enclosed inner kind (tokens.drop position) = none ∧
      (block tokens limit (some kind) true).run ⟨position, depth⟩ =
        some (none, ⟨position, depth⟩)) ∨
    ∃ opening children closing next,
      Grammar.enclosed inner kind (tokens.drop position) =
        some ((opening, children, closing), tokens.drop next) ∧
      (block tokens limit (some kind) true).run ⟨position, depth⟩ =
        some (some ⟨opening, children, some closing⟩, ⟨next, depth⟩) ∧
      position < next ∧ next ≤ tokens.length := by
  rcases performs_block hnode (some kind) true position limit hlimit with
    ⟨hnone, hrun⟩ | ⟨b, next, hread, hrun, hlt, hle⟩
  · refine Or.inl ⟨?_, hrun⟩
    rw [Option.eq_none_iff_forall_ne_some]
    rintro ⟨⟨opening, children, closing⟩, rest⟩ henclosed
    obtain ⟨hkind, hblock⟩ := (enclosed_eq_some_iff h).mp henclosed
    simp [blockOf, hblock, hkind] at hnone
  · obtain ⟨hblock, htest⟩ := Option.filter_eq_some_iff.mp hread
    obtain ⟨opening, children, _ | closing⟩ := b
    · simp at htest
    · have hkind : opening.opens? = some kind := by simpa using htest
      exact Or.inr ⟨opening, children, closing, next, (enclosed_eq_some_iff h).mpr ⟨hkind, hblock⟩,
        hrun, hlt, hle⟩

theorem performs_script : Performs tokens depth 1 (script tokens) (Grammar.script inner) := by
  intro position limit hlimit
  obtain ⟨limit, rfl⟩ := Nat.exists_eq_add_of_le' (show 1 ≤ limit by omega)
  simp only [script]
  cases hts : tokens.drop position with
  | nil =>
    have htoken := getElem?_of_drop_eq_nil hts
    exact Or.inl ⟨rfl, by simp [run_peek, htoken]⟩
  | cons t ts =>
    obtain ⟨htoken, rfl, hend⟩ := getElem?_of_drop_eq_cons hts
    cases hoperator : t.isScriptOperator with
    | false =>
      exact Or.inl ⟨by simp [Grammar.script, hoperator], by simp [run_peek, htoken, hoperator]⟩
    | true =>
      rcases hnode (position + 1) limit (by omega) with
        ⟨hnone, hrun⟩ | ⟨operand, next, hread, hrun, hlt, hle⟩
      · refine Or.inl ⟨by simp [Grammar.script, hnone], ?_⟩
        simp [run_peek, htoken, hoperator, run_save, run_bump htoken, hrun, run_restore]
      · refine Or.inr ⟨.script t operand, next, by simp [Grammar.script, hoperator, hread], ?_,
          by omega, hle⟩
        simp [run_peek, htoken, hoperator, run_save, run_bump htoken, hrun]

theorem performs_argument : Performs tokens depth 2 (argument tokens) (Grammar.argument inner) := by
  intro position limit hlimit
  obtain ⟨limit, rfl⟩ := Nat.exists_eq_add_of_le' (show 1 ≤ limit by omega)
  simp only [argument]
  have heither := (performs_script hnode).either id ((performs_anyBlock hnode).map Argument.block)
  simpa [Production.map, Grammar.argument, Production.orElse] using
    heither position limit (by omega)

theorem run_arguments (position : Nat) {limit : Nat}
    (hlimit : 4 * (tokens.length - position) + 3 ≤ limit) :
    ∃ next, (arguments tokens limit []).run ⟨position, depth⟩ =
        some (((Grammar.argumentReader inner).many (tokens.drop position)).1, ⟨next, depth⟩) ∧
      ((Grammar.argumentReader inner).many (tokens.drop position)).2 = tokens.drop next ∧
      position ≤ next ∧ (position ≤ tokens.length → next ≤ tokens.length) := by
  refine run_loop (performs_argument hnode) (fun limit read => ?_) [] position hlimit
  rw [arguments]
  congr 1
  funext found
  cases found <;> rfl

theorem performs_clause (h : ReadsAhead inner []) :
    Performs tokens depth 1 (clause tokens) (Grammar.clause inner) := by
  intro position limit hlimit
  obtain ⟨limit, rfl⟩ := Nat.exists_eq_add_of_le' (show 1 ≤ limit by omega)
  simp only [clause]
  cases hts : tokens.drop position with
  | nil =>
    have htoken := getElem?_of_drop_eq_nil hts
    exact Or.inl ⟨rfl, by simp [run_peek, htoken]⟩
  | cons t ts =>
    obtain ⟨htoken, rfl, hend⟩ := getElem?_of_drop_eq_cons hts
    by_cases hkeyword : t.text = Token.clauseKeyword
    · rcases run_enclosed hnode h .brace (position + 1) (show _ ≤ limit by omega) with
        ⟨hnone, hrun⟩ | ⟨opening, children, closing, next, hread, hrun, hlt, hle⟩
      · refine Or.inl ⟨by simp [Grammar.clause, hnone], ?_⟩
        simp [run_peek, htoken, hkeyword, run_save, run_bump htoken, hrun, run_restore]
      · refine Or.inr ⟨⟨t, opening, Grammar.rules (Node.nonBlank children), closing⟩, next,
          by simp [Grammar.clause, hkeyword, hread], ?_, by omega, hle⟩
        simp [run_peek, htoken, hkeyword, run_save, run_bump htoken, hrun]
    · exact Or.inl ⟨by simp [Grammar.clause, hkeyword], by simp [run_peek, htoken, hkeyword]⟩

theorem performs_command (h : ReadsAhead inner []) :
    Performs tokens depth 1 (command tokens) (Grammar.command inner) := by
  intro position limit hlimit
  obtain ⟨limit, rfl⟩ := Nat.exists_eq_add_of_le' (show 1 ≤ limit by omega)
  simp only [command]
  cases hts : tokens.drop position with
  | nil =>
    have htoken := getElem?_of_drop_eq_nil hts
    exact Or.inl ⟨rfl, by simp [run_peek, htoken]⟩
  | cons t ts =>
    obtain ⟨htoken, rfl, hend⟩ := getElem?_of_drop_eq_cons hts
    by_cases hident : t.isIdentifier ∧ t.text ≠ Token.definitionKeyword
    · obtain ⟨mid, harguments, hmid, hge, hle⟩ :=
        run_arguments hnode (position + 1) (show _ ≤ limit by omega)
      rcases performs_clause hnode h mid limit (by omega) with
        ⟨hnone, hrun⟩ | ⟨c, next, hread, hrun, hlt, hle'⟩
      · refine Or.inr ⟨⟨t, ((Grammar.argumentReader inner).many (tokens.drop (position + 1))).1,
          none⟩, mid, by simp [Grammar.command, hident, hmid, hnone], ?_, by omega, hle hend⟩
        simp [run_peek, htoken, hident, run_bump htoken, harguments, hrun]
      · refine Or.inr ⟨⟨t, ((Grammar.argumentReader inner).many (tokens.drop (position + 1))).1,
          some c⟩, next, by simp [Grammar.command, hident, hmid, hread], ?_, by omega, hle'⟩
        simp [run_peek, htoken, hident, run_bump htoken, harguments, hrun]
    · have hother : t.isIdentifier = false ∨ t.text = Token.definitionKeyword := by
        grind
      exact Or.inl ⟨by simp [Grammar.command, hident], by simp [run_peek, htoken, hother]⟩

theorem performs_nodeBelow (h : ReadsAhead inner []) (nested : Bool) :
    Performs tokens depth 2 (nodeBelow tokens · nested) (nodeOver nested inner) := by
  intro position limit hlimit
  obtain ⟨limit, rfl⟩ := Nat.exists_eq_add_of_le' (show 1 ≤ limit by omega)
  have htoken : Performs tokens depth 1 (fun _ =>
      if nested then tokenNode tokens (!·.isClosing) .text
      else tokenNode tokens (fun _ => true) fun t => if t.isClosing then .misplaced t else .text t)
      (if nested then (Production.token (!·.isClosing)).map .text
      else (Production.token fun _ => true).map fun t =>
        if t.isClosing then .misplaced t else .text t) := by
    cases nested <;> exact (performs_tokenNode tokens depth _ _).mono (Nat.zero_le 1)
  have heither := ((performs_quotation tokens depth).mono (Nat.zero_le 1)).either .quotation
    ((performs_command hnode h).either .command ((performs_anyBlock hnode).either .block htoken))
  simp only [nodeBelow, nodeOver_eq]
  exact heither position limit (by omega)

theorem performs_definition (h : ReadsAhead inner []) :
    Performs tokens depth 0 (definition tokens) (Grammar.definition inner) := by
  intro position limit hlimit
  cases hts : tokens.drop position with
  | nil =>
    have htoken := getElem?_of_drop_eq_nil hts
    exact Or.inl ⟨rfl, by simp [definition, run_peek, htoken]⟩
  | cons t ts =>
    obtain ⟨htoken, rfl, hend⟩ := getElem?_of_drop_eq_cons hts
    by_cases hkeyword : t.text = Token.definitionKeyword
    · simp only [definition, StateT.run_bind, run_peek, htoken, Option.bind_eq_bind,
        Option.bind_some, bne_iff_ne, ne_eq, hkeyword, not_true, if_false, run_save,
        run_bump htoken]
      rcases run_enclosed hnode h .bracket (position + 1) (show _ ≤ limit by omega) with
        ⟨hnone, hrun⟩ | ⟨opening, children, closing, mid, hread, hrun, hlt, hle⟩
      · refine Or.inl ⟨by simp [Grammar.definition, hnone], ?_⟩
        simp [hrun, run_restore]
      · cases hdefined :
          (Block.onlyChild? ⟨opening, children, some closing⟩).bind Node.command? with
        | none =>
          refine Or.inl ⟨?_, ?_⟩
          · rw [Option.eq_none_iff_forall_ne_some]
            rintro ⟨d, rest⟩ hd
            obtain ⟨-, x, _, _, hheader, -, defined, hx, -⟩ := definition_eq_some_iff.mp hd
            obtain ⟨rfl, -⟩ := by simpa [hread] using hheader
            obtain rfl : children = [.command defined] := hx
            simp [Block.onlyChild?, Node.command?] at hdefined
          · simp [hrun, hdefined, run_restore]
        | some defined =>
          obtain rfl : children = [.command defined] := onlyCommand_eq_some_iff.mp hdefined
          rcases run_enclosed hnode h .brace mid (show _ ≤ limit by omega) with
            ⟨hnone, hrun'⟩ | ⟨opening', children', closing', next, hread', hrun', hlt', hle'⟩
          · refine Or.inl ⟨by simp [Grammar.definition, hread, hnone], ?_⟩
            simp [hrun, hdefined, hrun', run_restore]
          · refine Or.inr ⟨_, next, definition_eq_some_iff.mpr
              ⟨hkeyword, _, _, _, hread, hread', defined, rfl, rfl⟩, ?_, by omega, hle'⟩
            simp [hrun, hdefined, hrun']
    · exact Or.inl ⟨by simp [Grammar.definition, hkeyword],
        by simp [definition, run_peek, htoken, hkeyword]⟩

theorem performs_itemBelow (h : ReadsAhead inner []) (definitions nested : Bool) :
    Performs tokens depth 2 (itemBelow tokens · definitions nested)
      (itemOver definitions nested inner) := by
  have hnodes := (performs_nodeBelow hnode h nested).map Item.node
  cases definitions with
  | false => simpa [itemBelow, itemOver, either] using hnodes
  | true =>
    exact ((performs_definition hnode h).mono (Nat.zero_le 2)).either Item.definition hnodes

end Layer

/-- The nodes inside a construct at some depth. -/
def inside (depth : Nat) : Reader Node := Grammar.nodeWithin (Grammar.maxNesting - depth)

theorem readsAhead_inside (depth : Nat) : ReadsAhead (inside depth) [] :=
  nodeWithin_readsAhead (fun _ ht => by simp at ht) _

/-- A node at some depth, inside another or between no brackets. -/
def nodeAt (depth : Nat) (nested : Bool) : Production Node :=
  if Grammar.maxNesting ≤ depth then Grammar.leafNode else nodeOver nested (inside (depth + 1))

theorem nodeAt_nested (depth : Nat) : nodeAt depth true = (inside depth).production := by
  unfold nodeAt inside
  split
  · rw [Nat.sub_eq_zero_of_le (by assumption)]
    rfl
  · rw [show Grammar.maxNesting - depth = Grammar.maxNesting - (depth + 1) + 1 by omega]
    rfl

theorem performs_node_of_below {tokens : List Token} {depth : Nat}
    (h : depth < Grammar.maxNesting →
      Performs tokens (depth + 1) 3 (node tokens · true) (inside (depth + 1)).production)
    (nested : Bool) : Performs tokens depth 3 (node tokens · nested) (nodeAt depth nested) := by
  intro position limit hlimit
  obtain ⟨limit, rfl⟩ := Nat.exists_eq_add_of_le' (show 1 ≤ limit by omega)
  simp only [node, nodeAt]
  by_cases hdepth : Grammar.maxNesting ≤ depth
  · simpa [hdepth] using performs_flatNode tokens depth position limit (by omega)
  · have hbelow := performs_nodeBelow (h (by omega)) (readsAhead_inside (depth + 1)) nested
    simpa [hdepth] using hbelow.deeper position limit (by omega)

/-- The recursion: at the nesting limit nothing is read inside a node, and above it the nodes inside
stand one level nearer to the limit. -/
theorem performs_node (tokens : List Token) (depth : Nat) (nested : Bool) :
    Performs tokens depth 3 (node tokens · nested) (nodeAt depth nested) := by
  induction hlevels : Grammar.maxNesting - depth generalizing depth nested with
  | zero => exact performs_node_of_below (fun hlt => by omega) nested
  | succ levels ih =>
    refine performs_node_of_below (fun hlt => ?_) nested
    rw [← nodeAt_nested]
    exact ih (depth + 1) true (by omega)

theorem performs_nested (tokens : List Token) (depth : Nat) :
    Performs tokens depth 3 (node tokens · true) (inside depth).production := by
  rw [← nodeAt_nested]
  exact performs_node tokens depth true

/-- A node at some depth, or a definition where they are allowed. -/
def itemAt (depth : Nat) (definitions nested : Bool) : Production Item :=
  if Grammar.maxNesting ≤ depth then Grammar.leafNode.map .node
  else itemOver definitions nested (inside (depth + 1))

theorem performs_item (tokens : List Token) (depth : Nat) (definitions nested : Bool) :
    Performs tokens depth 2 (item tokens · definitions nested)
      (itemAt depth definitions nested) := by
  intro position limit hlimit
  simp only [item, itemAt]
  by_cases hdepth : Grammar.maxNesting ≤ depth
  · simpa [hdepth] using (performs_flatNode tokens depth).map Item.node position limit (by omega)
  · have hbelow := performs_itemBelow (performs_nested tokens (depth + 1))
      (readsAhead_inside (depth + 1)) definitions nested
    simpa [hdepth] using hbelow.deeper position limit hlimit

/-- The items that a cursor reads from the first token on are the document of the tokens, and it
comes to the end of them. -/
theorem run_items (tokens : List Token) (definitions : Bool) {limit : Nat}
    (hlimit : 4 * tokens.length + 3 ≤ limit) :
    (items tokens definitions limit []).run ⟨0, 0⟩ =
      some (Document.ofTokens definitions tokens, ⟨tokens.length, 0⟩) := by
  have hitem : Performs tokens 0 2 (item tokens · definitions false)
      (Grammar.itemReader definitions).production := by
    have hitem := performs_item tokens 0 definitions false
    cases definitions <;> exact hitem
  have hloop : ∀ limit read, items tokens definitions (limit + 1) read =
      item tokens limit definitions false >>= fun found =>
        found.elim (pure read) fun i => items tokens definitions limit (read ++ [i]) := by
    intro limit read
    rw [items]
    congr 1
    funext found
    cases found <;> rfl
  obtain ⟨next, hrun, hrest, -, hle⟩ := run_loop hitem hloop [] 0 hlimit
  simp only [List.drop_zero, Document.leftover_eq_nil] at hrun hrest
  have hend : tokens.length ≤ next := List.drop_eq_nil_iff.mp hrest.symm
  obtain rfl : next = tokens.length := Nat.le_antisymm (hle (Nat.zero_le _)) hend
  exact hrun

/-! Where a node inside another is not read. -/

theorem leafNode_closing {t : Token} (h : t.isClosing) (ts : List Token) :
    Grammar.leafNode (t :: ts) = none := by
  have hquotation : Grammar.quotation (t :: ts) = none := by
    rcases Token.closing_text h with htext | htext | htext <;>
      simp [Grammar.quotation, Grammar.closingQuote?, htext]
  simp [Grammar.leafNode, Production.orElse, Production.map, hquotation, Production.token, h]

theorem nodeWithin_eq_none_iff (levels : Nat) (ts : List Token) :
    (Grammar.nodeWithin levels).production ts = none ↔ ∀ t ∈ ts.head?, t.isClosing := by
  refine ⟨fun h => Grammar.nodeWithin_stops levels h, fun h => ?_⟩
  cases ts with
  | nil => cases levels <;> rfl
  | cons t ts =>
    have hclosing : t.isClosing := h t rfl
    cases levels with
    | zero => exact leafNode_closing hclosing ts
    | succ levels => exact Flat.innerNode_closing _ hclosing ts

theorem definition_eq_none {inner : Reader Node} {ts : List Token}
    (h : ∀ t ∈ ts.head?, t.isClosing) : Grammar.definition inner ts = none := by
  cases ts with
  | nil => rfl
  | cons t ts =>
    have hkeyword : t.text ≠ Token.definitionKeyword := by
      rcases Token.closing_text (h t rfl) with htext | htext | htext <;> simp [htext] <;> decide
    simp [Grammar.definition, hkeyword]

theorem nodeAt_nested_eq_none_iff (depth : Nat) (ts : List Token) :
    nodeAt depth true ts = none ↔ ∀ t ∈ ts.head?, t.isClosing := by
  rw [nodeAt_nested]
  exact nodeWithin_eq_none_iff _ ts

theorem itemAt_nested_eq_none_iff (depth : Nat) (definitions : Bool) (ts : List Token) :
    itemAt depth definitions true ts = none ↔ ∀ t ∈ ts.head?, t.isClosing := by
  have hnode := nodeAt_nested_eq_none_iff depth ts
  rw [← hnode]
  unfold itemAt
  unfold nodeAt at hnode ⊢
  split
  · simp [Production.map]
  · rename_i hdepth
    rw [if_neg hdepth] at hnode
    cases definitions with
    | false => simp [itemOver, Production.map]
    | true =>
      constructor
      · intro h
        exact Production.map_eq_none (Production.orElse_eq_none h).2
      · intro h
        simp [itemOver, Production.orElse, Production.map, h, definition_eq_none (hnode.mp h)]

theorem head?_drop_isClosing_iff (tokens : List Token) (position : Nat) :
    (∀ t ∈ (tokens.drop position).head?, t.isClosing) ↔
      tokens.length ≤ position ∨ ∃ t, tokens[position]? = some t ∧ t.isClosing := by
  rw [List.head?_drop]
  cases htoken : tokens[position]? with
  | none => simp [List.getElem?_eq_none_iff.mp htoken]
  | some t =>
    have hlt := (List.getElem?_eq_some_iff.mp htoken).1
    simp [Nat.not_le.mpr hlt]

/-- Whatever the tokens, the place of the cursor and its depth, every production comes to an end at
the depth it began at, within four calls inside each other for every token that is left and four
more. Either it gives nothing and the cursor is where it was, or it gives what the grammar reads
there and the cursor is further on, at most at the end of the tokens. Repeated from the first token
on they read the document. Inside another node nothing is given exactly at the end of the tokens and
at a closing bracket. -/
theorem reads_or_stays (tokens : List Token) (depth : Nat) :
    (∀ definitions nested, Performs tokens depth 4 (item tokens · definitions nested)
      (itemAt depth definitions nested)) ∧
    (∀ nested, Performs tokens depth 4 (node tokens · nested) (nodeAt depth nested)) ∧
    Performs tokens depth 4 (flatNode tokens) Grammar.leafNode ∧
    Performs tokens depth 4 (quotation tokens) Grammar.quotation ∧
    (∀ expected ensureClose, Performs tokens depth 4 (block tokens · expected ensureClose)
      (blockOf (inside depth) expected ensureClose)) ∧
    Performs tokens depth 4 (command tokens) (Grammar.command (inside depth)) ∧
    Performs tokens depth 4 (argument tokens) (Grammar.argument (inside depth)) ∧
    Performs tokens depth 4 (script tokens) (Grammar.script (inside depth)) ∧
    Performs tokens depth 4 (clause tokens) (Grammar.clause (inside depth)) ∧
    Performs tokens depth 4 (definition tokens) (Grammar.definition (inside depth)) ∧
    (∀ definitions limit, 4 * tokens.length + 4 ≤ limit →
      (items tokens definitions limit []).run ⟨0, 0⟩ =
        some (Document.ofTokens definitions tokens, ⟨tokens.length, 0⟩)) ∧
    ∀ position limit, 4 * (tokens.length - position) + 4 ≤ limit →
      (∀ definitions,
        (∃ s, (item tokens limit definitions true).run ⟨position, depth⟩ = some (none, s)) ↔
          tokens.length ≤ position ∨ ∃ t, tokens[position]? = some t ∧ t.isClosing) ∧
      ((∃ s, (node tokens limit true).run ⟨position, depth⟩ = some (none, s)) ↔
        tokens.length ≤ position ∨ ∃ t, tokens[position]? = some t ∧ t.isClosing) := by
  have hnode := performs_nested tokens depth
  have hahead := readsAhead_inside depth
  refine ⟨fun definitions nested =>
      (performs_item tokens depth definitions nested).mono (by decide),
    fun nested => (performs_node tokens depth nested).mono (by decide),
    (performs_flatNode tokens depth).mono (by decide),
    (performs_quotation tokens depth).mono (by decide),
    fun expected ensureClose => (performs_block hnode expected ensureClose).mono (by decide),
    (performs_command hnode hahead).mono (by decide), (performs_argument hnode).mono (by decide),
    (performs_script hnode).mono (by decide), (performs_clause hnode hahead).mono (by decide),
    (performs_definition hnode hahead).mono (by decide),
    fun definitions limit hlimit => run_items tokens definitions (by omega),
    fun position limit hlimit => ⟨fun definitions => ?_, ?_⟩⟩
  · rw [(performs_item tokens depth definitions true).gives_none_iff (by omega),
      itemAt_nested_eq_none_iff, head?_drop_isClosing_iff]
  · rw [(performs_node tokens depth true).gives_none_iff (by omega), nodeAt_nested_eq_none_iff,
      head?_drop_isClosing_iff]

/-- A clause that is read to the end of the tokens and has no close is given back. -/
theorem reads_or_stays_unclosed :
    let tokens := Token.ofSource "\\where!\x7ba => b"
    4 * (tokens.length - 0) + 4 ≤ 40 ∧
      (clause tokens 40).run ⟨0, 0⟩ = some (none, ⟨0, 0⟩) := by
  intro tokens
  have hlimit : 4 * (tokens.length - 0) + 4 ≤ 40 := by decide +kernel
  have hnone : (Grammar.clause (inside 0) (tokens.drop 0)).isNone := by decide +kernel
  obtain ⟨-, -, -, -, -, -, -, -, hclause, -⟩ := reads_or_stays tokens 0
  rcases hclause 0 40 hlimit with ⟨-, hrun⟩ | ⟨c, next, hread, -⟩
  · exact ⟨hlimit, hrun⟩
  · rw [hread] at hnone
    cases hnone

end Cursor

end AcademicMarkup
