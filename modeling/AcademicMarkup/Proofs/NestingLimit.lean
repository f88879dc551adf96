import AcademicMarkup.Proofs.Denoting
import AcademicMarkup.Proofs.ReadPlaces

/-!
The nesting limit and what it bounds. The nodes of a document stand at level one, and each node
inside a block or a command one level below it. Reading gives no command and no block below the
limit and nothing at all below the leaves after it; there, and only there, brackets that open and
command names are misplaced. The height of the tree is what later passes recurse on, so it bounds
the scopes of every walk and the height of the content.
-/
namespace AcademicMarkup

open Production Grammar

mutual

/-- The number of commands and blocks within one another, counted along the deepest path. The
targets of a definition are blocks. -/
def Node.height : Node → Nat
  | .text _ => 0
  | .quotation _ => 0
  | .misplaced _ => 0
  | .command c => c.innerHeight + 1
  | .block b => b.innerHeight + 1
  | .definition d => d.innerHeight + 1

def Node.heightAll : List Node → Nat
  | [] => 0
  | n :: ns => max n.height (Node.heightAll ns)

def Block.innerHeight : Block → Nat
  | ⟨_, children, _⟩ => Node.heightAll children

/-- The block of an argument is not a level of its own. -/
def Command.innerHeight : Command → Nat
  | ⟨_, arguments, clause⟩ =>
    max (Argument.innerHeightAll arguments) (Clause.innerHeightOption clause)

def Argument.innerHeight : Argument → Nat
  | .block b => b.innerHeight
  | .script _ operand => operand.height

def Argument.innerHeightAll : List Argument → Nat
  | [] => 0
  | a :: as => max a.innerHeight (Argument.innerHeightAll as)

def Clause.innerHeightOption : Option Clause → Nat
  | none => 0
  | some ⟨_, _, rules, _⟩ => RewriteRule.heightAll rules

def RewriteRule.heightAll : List RewriteRule → Nat
  | [] => 0
  | ⟨pattern, _, target⟩ :: rules =>
    max (max pattern.height target.height) (RewriteRule.heightAll rules)

def Definition.innerHeight : Definition → Nat
  | ⟨_, _, _, _, _, rules, _⟩ => DefinitionRule.innerHeightAll rules

def DefinitionRule.innerHeightAll : List DefinitionRule → Nat
  | [] => 0
  | ⟨_, _, _, _, target⟩ :: rules => max target.innerHeight (DefinitionRule.innerHeightAll rules)

end

/-- A node and the level it stands at. -/
structure Leveled where
  level : Nat
  node : Node

mutual

/-- A node at some level and all nodes inside it. -/
def Node.leveled (level : Nat) : Node → List Leveled
  | .text t => [⟨level, .text t⟩]
  | .quotation q => [⟨level, .quotation q⟩]
  | .misplaced t => [⟨level, .misplaced t⟩]
  | .command c => ⟨level, .command c⟩ :: c.leveled (level + 1)
  | .block b => ⟨level, .block b⟩ :: b.leveled (level + 1)
  | .definition d => ⟨level, .definition d⟩ :: d.leveled (level + 2)

def Node.leveledAll (level : Nat) : List Node → List Leveled
  | [] => []
  | n :: ns => n.leveled level ++ Node.leveledAll level ns

/-- The nodes inside a block, the children being at some level. -/
def Block.leveled (level : Nat) : Block → List Leveled
  | ⟨_, children, _⟩ => Node.leveledAll level children

/-- The nodes inside a command. The children of its blocks, its operands and both sides of its rules
are at one level. -/
def Command.leveled (level : Nat) : Command → List Leveled
  | ⟨_, arguments, clause⟩ =>
    Argument.leveledAll level arguments ++ Clause.leveledOption level clause

def Argument.leveled (level : Nat) : Argument → List Leveled
  | .block b => b.leveled level
  | .script _ operand => operand.leveled level

def Argument.leveledAll (level : Nat) : List Argument → List Leveled
  | [] => []
  | a :: as => a.leveled level ++ Argument.leveledAll level as

def Clause.leveledOption (level : Nat) : Option Clause → List Leveled
  | none => []
  | some ⟨_, _, rules, _⟩ => RewriteRule.leveledAll level rules

def RewriteRule.leveledAll (level : Nat) : List RewriteRule → List Leveled
  | [] => []
  | ⟨pattern, _, target⟩ :: rules =>
    pattern.leveled level ++ target.leveled level ++ RewriteRule.leveledAll level rules

/-- The nodes inside the targets of a definition. A target is below the definition, and its children
are below the target. -/
def Definition.leveled (level : Nat) : Definition → List Leveled
  | ⟨_, _, _, _, _, rules, _⟩ => DefinitionRule.leveledAll level rules

def DefinitionRule.leveledAll (level : Nat) : List DefinitionRule → List Leveled
  | [] => []
  | ⟨_, _, _, _, target⟩ :: rules => target.leveled level ++ DefinitionRule.leveledAll level rules

end

/-- The target of a definition's rule is at the second level, below the definition itself. -/
def Item.leveled : Item → List Leveled
  | .node n => n.leveled 1
  | .definition d => d.rules.flatMap fun r => r.target.leveled 3

def Document.leveled (doc : Document) : List Leveled := doc.flatMap Item.leveled

/-- What may stand at which level of a document. -/
structure Leveled.Fits (doc : Document) (x : Leveled) : Prop where
  leaf : x.level ≤ maxNesting + 1
  command : ∀ c, x.node = .command c → x.level ≤ maxNesting
  block : ∀ b, x.node = .block b → x.level ≤ maxNesting
  text : ∀ t, x.node = .text t → ¬ t.isOpening ∧ ¬ t.isClosing ∧
    (t.isIdentifier → t.text = Token.definitionKeyword ∧ x.level ≤ maxNesting)
  misplaced : ∀ t, x.node = .misplaced t →
    (.node (.misplaced t) ∈ doc ∧ x.level = 1 ∧ t.isClosing) ∨
      (x.level = maxNesting + 1 ∧ (t.isOpening ∨ t.isIdentifier))
  not_definition : ∀ d, x.node ≠ .definition d

/-! The companions for lists. -/

theorem Node.heightAll_le {ns : List Node} {k : Nat} :
    Node.heightAll ns ≤ k ↔ ∀ n ∈ ns, n.height ≤ k := by
  induction ns with
  | nil => simp [Node.heightAll]
  | cons n ns ih => rw [Node.heightAll, Nat.max_le, ih, List.forall_mem_cons]

theorem Argument.innerHeightAll_le {as : List Argument} {k : Nat} :
    Argument.innerHeightAll as ≤ k ↔ ∀ a ∈ as, a.innerHeight ≤ k := by
  induction as with
  | nil => simp [Argument.innerHeightAll]
  | cons a as ih => rw [Argument.innerHeightAll, Nat.max_le, ih, List.forall_mem_cons]

theorem RewriteRule.heightAll_le {rules : List RewriteRule} {k : Nat} :
    RewriteRule.heightAll rules ≤ k ↔
      ∀ r ∈ rules, r.pattern.height ≤ k ∧ r.target.height ≤ k := by
  induction rules with
  | nil => simp [RewriteRule.heightAll]
  | cons r rules ih =>
    obtain ⟨pattern, arrow, target⟩ := r
    rw [RewriteRule.heightAll, Nat.max_le, Nat.max_le, ih, List.forall_mem_cons]

theorem DefinitionRule.innerHeightAll_le {rules : List DefinitionRule} {k : Nat} :
    DefinitionRule.innerHeightAll rules ≤ k ↔ ∀ r ∈ rules, r.target.innerHeight ≤ k := by
  induction rules with
  | nil => simp [DefinitionRule.innerHeightAll]
  | cons r rules ih =>
    obtain ⟨patternOpening, binders, patternClosing, arrow, target⟩ := r
    rw [DefinitionRule.innerHeightAll, Nat.max_le, ih, List.forall_mem_cons]

theorem Definition.innerHeight_le {d : Definition} {k : Nat} :
    d.innerHeight ≤ k ↔ ∀ r ∈ d.rules, r.target.innerHeight ≤ k := by
  obtain ⟨keyword, headerOpening, ident, headerClosing, bodyOpening, rules, bodyClosing⟩ := d
  exact DefinitionRule.innerHeightAll_le

theorem Node.leveledAll_eq (level : Nat) (ns : List Node) :
    Node.leveledAll level ns = ns.flatMap (Node.leveled level) := by
  induction ns with
  | nil => rfl
  | cons n ns ih => rw [Node.leveledAll, ih, List.flatMap_cons]

theorem Argument.leveledAll_eq (level : Nat) (as : List Argument) :
    Argument.leveledAll level as = as.flatMap (Argument.leveled level) := by
  induction as with
  | nil => rfl
  | cons a as ih => rw [Argument.leveledAll, ih, List.flatMap_cons]

theorem RewriteRule.leveledAll_eq (level : Nat) (rules : List RewriteRule) :
    RewriteRule.leveledAll level rules =
      rules.flatMap fun r => r.pattern.leveled level ++ r.target.leveled level := by
  induction rules with
  | nil => rfl
  | cons r rules ih =>
    obtain ⟨pattern, arrow, target⟩ := r
    rw [RewriteRule.leveledAll, ih, List.flatMap_cons]

/-! What is read keeps to the levels that are left. -/

/-- Something of this height whose nodes are these, read with as many levels left as given. -/
structure Within (doc : Document) (levels height : Nat) (nodes : Nat → List Leveled) : Prop where
  height_le : height ≤ levels
  fits : ∀ level, level + levels = maxNesting + 1 → ∀ x ∈ nodes level, x.Fits doc

section Layer

variable {doc : Document} {levels : Nat} {ts rest : List Token}

variable (doc levels) in
/-- A node that is read with some levels left, whatever it is read from. -/
abbrev NodeWithin (n : Node) (_ _ : List Token) : Prop :=
  Within doc levels n.height fun level => n.leveled level

theorem block_within {b : Block} (hb : BlockRead (NodeWithin doc levels) b ts rest) :
    (∀ n ∈ b.children, NodeWithin doc levels n ts rest) ∧
      Within doc levels b.innerHeight fun level => b.leveled level := by
  have hchildren : ∀ n ∈ b.children, NodeWithin doc levels n ts rest := by
    cases hb with
    | closed _ _ hchain => exact hchain.forall_mem
    | unclosed _ hchain _ => exact hchain.forall_mem
  obtain ⟨opening, children, closing⟩ := b
  refine ⟨hchildren, ?_, ?_⟩
  · exact Node.heightAll_le.mpr fun n hn => (hchildren n hn).height_le
  · intro level hlevel x hx
    rw [Block.leveled, Node.leveledAll_eq] at hx
    obtain ⟨n, hn, hx⟩ := List.mem_flatMap.mp hx
    exact (hchildren n hn).fits level hlevel x hx

theorem argument_within {a : Argument} (ha : ArgumentRead (NodeWithin doc levels) a ts rest) :
    Within doc levels a.innerHeight fun level => a.leveled level := by
  cases ha with
  | block hb => exact (block_within hb).2
  | script _ hoperand => exact hoperand

/-- The rules of a clause are among the nodes between its braces. -/
theorem clause_within {c : Clause} (hc : ClauseRead (NodeWithin doc levels) c ts rest) :
    Within doc levels (Clause.innerHeightOption (some c))
      fun level => Clause.leveledOption level (some c) := by
  cases hc with
  | intro _ _ hb =>
    obtain ⟨hchildren, -⟩ := block_within hb
    constructor
    · refine RewriteRule.heightAll_le.mpr fun r hr => ?_
      obtain ⟨hpattern, htarget⟩ := mem_of_mem_rules hr
      exact ⟨(hchildren _ hpattern).height_le, (hchildren _ htarget).height_le⟩
    · intro level hlevel x hx
      rw [Clause.leveledOption, RewriteRule.leveledAll_eq] at hx
      obtain ⟨r, hr, hx⟩ := List.mem_flatMap.mp hx
      obtain ⟨hpattern, htarget⟩ := mem_of_mem_rules hr
      rcases List.mem_append.mp hx with hx | hx
      · exact (hchildren _ hpattern).fits level hlevel x hx
      · exact (hchildren _ htarget).fits level hlevel x hx

theorem command_within {c : Command} (hc : CommandRead (NodeWithin doc levels) c ts rest) :
    Within doc levels c.innerHeight fun level => c.leveled level := by
  have hparts : ∀ {ident : Token} {arguments : List Argument} {clause : Option Clause}
      {ts rest : List Token}, Chain (ArgumentRead (NodeWithin doc levels)) arguments ts rest →
      Within doc levels (Clause.innerHeightOption clause)
        (fun level => Clause.leveledOption level clause) →
      Within doc levels (Command.innerHeight ⟨ident, arguments, clause⟩)
        fun level => Command.leveled level ⟨ident, arguments, clause⟩ := by
    intro ident arguments clause ts rest hchain hclause
    have harguments := (hchain.mono fun ha => argument_within ha).forall_mem
    constructor
    · refine Nat.max_le.mpr ⟨?_, hclause.height_le⟩
      exact Argument.innerHeightAll_le.mpr fun a ha => (harguments a ha).height_le
    · intro level hlevel x hx
      rw [Command.leveled, Argument.leveledAll_eq] at hx
      rcases List.mem_append.mp hx with hx | hx
      · obtain ⟨a, ha, hx⟩ := List.mem_flatMap.mp hx
        exact (harguments a ha).fits level hlevel x hx
      · exact hclause.fits level hlevel x hx
  cases hc with
  | plain _ _ hchain =>
    refine hparts hchain ⟨Nat.zero_le _, ?_⟩
    intro level _ x hx
    exact absurd hx List.not_mem_nil
  | withClause _ _ hchain hclause => exact hparts hchain (clause_within hclause)

theorem quotation_fits {q : Quotation} {level : Nat} (h : level ≤ maxNesting + 1) :
    Leveled.Fits doc ⟨level, .quotation q⟩ := by
  constructor <;> simp [h]

theorem text_fits {t : Token} {level : Nat} (h : level ≤ maxNesting) (hbegins : BeginsNothing t ts)
    (hclosing : ¬ t.isClosing) : Leveled.Fits doc ⟨level, .text t⟩ := by
  constructor
  case text =>
    rintro _ ⟨⟩
    exact ⟨hbegins.opening, hclosing, fun hident => ⟨hbegins.identifier hident, h⟩⟩
  all_goals simp
  omega

theorem construct_within {n : Node} (hn : ConstructRead (NodeWithin doc levels) n ts rest) :
    NodeWithin doc (levels + 1) n ts rest := by
  -- a level is left for what is inside, so the construct itself is not below the limit
  cases hn with
  | quotation hq =>
    refine ⟨Nat.zero_le _, fun level hlevel x hx => ?_⟩
    obtain rfl := List.mem_singleton.mp hx
    exact quotation_fits (by omega)
  | command hc =>
    have hparts := command_within hc
    refine ⟨Nat.succ_le_succ hparts.height_le, fun level hlevel x hx => ?_⟩
    rcases List.mem_cons.mp hx with rfl | hx
    · constructor <;> simp <;> omega
    · exact hparts.fits (level + 1) (by omega) x hx
  | block hb =>
    obtain ⟨-, hparts⟩ := block_within hb
    refine ⟨Nat.succ_le_succ hparts.height_le, fun level hlevel x hx => ?_⟩
    rcases List.mem_cons.mp hx with rfl | hx
    · constructor <;> simp <;> omega
    · exact hparts.fits (level + 1) (by omega) x hx

theorem text_within (levels : Nat) {t : Token} (hbegins : BeginsNothing t rest)
    (hclosing : ¬ t.isClosing) : NodeWithin doc (levels + 1) (.text t) ts rest := by
  refine ⟨Nat.zero_le _, fun level hlevel x hx => ?_⟩
  obtain rfl := List.mem_singleton.mp hx
  exact text_fits (by omega) hbegins hclosing

/-- A leaf after the limit. -/
theorem leaf_within {n : Node} (hn : LeafRead n ts rest) : NodeWithin doc 0 n ts rest := by
  refine ⟨?_, fun level hlevel x hx => ?_⟩
  · cases hn <;> exact Nat.le_refl _
  cases hn with
  | quotation hq =>
    obtain rfl := List.mem_singleton.mp hx
    exact quotation_fits (by omega)
  | text _ hopening hident hclosing =>
    obtain rfl := List.mem_singleton.mp hx
    constructor <;> simp_all
  | misplaced _ hbegins hclosing =>
    obtain rfl := List.mem_singleton.mp hx
    constructor <;> simp_all

end Layer

theorem nodeWithin_within (doc : Document) (levels : Nat) :
    (nodeWithin levels).production.Ensures (NodeWithin doc levels) := by
  refine nodeWithin_ensures (R := NodeWithin doc) ?_ ?_ levels
  · exact fun h => leaf_within h
  · intro levels n ts rest h
    cases h with
    | construct hn => exact construct_within hn
    | text hbegins hclosing => exact text_within _ hbegins hclosing

/-! Items of a document. -/

/-- The height of an item is at most this. -/
def Item.HeightLe (k : Nat) : Item → Prop
  | .node n => n.height ≤ k
  | .definition d => ∀ r ∈ d.rules, r.target.innerHeight ≤ k

theorem outer_within {doc : Document} {n : Node} {ts rest : List Token} (hmem : .node n ∈ doc)
    (hn : OuterRead (NodeWithin doc (maxNesting - 1)) n ts rest) :
    NodeWithin doc maxNesting n ts rest := by
  cases hn with
  | construct hn => exact construct_within hn
  | text hbegins hclosing => exact text_within (maxNesting - 1) hbegins hclosing
  | misplaced _ hclosing =>
    refine ⟨Nat.zero_le _, fun level hlevel x hx => ?_⟩
    obtain rfl := List.mem_singleton.mp hx
    have hlevel : level = 1 := by omega
    constructor
    case misplaced =>
      rintro _ ⟨⟩
      exact Or.inl ⟨hmem, hlevel, hclosing⟩
    all_goals simp
    omega

/-- The target of a rule is one of the nodes in the body of the definition. -/
theorem definition_within {doc : Document} {d : Definition} {levels : Nat} {ts rest : List Token}
    (hd : DefinitionRead (NodeWithin doc levels) d ts rest) :
    ∀ r ∈ d.rules, NodeWithin doc levels (.block r.target) ts rest := by
  cases hd with
  | intro _ _ _ _ hbody =>
    intro r hr
    obtain ⟨rule, hrule, hr⟩ := List.mem_filterMap.mp hr
    obtain ⟨_, -, -, htarget⟩ := blocks_of_definitionRule? hr
    rw [← htarget]
    exact (block_within hbody).1 _ (mem_of_mem_rules hrule).2

theorem item_within {doc : Document} {definitions : Bool} {i : Item} {ts rest : List Token}
    (hmem : i ∈ doc) (hi : ItemRead definitions (NodeWithin doc (maxNesting - 1)) i ts rest) :
    i.HeightLe maxNesting ∧ ∀ x ∈ i.leveled, x.Fits doc := by
  cases hi with
  | node hn =>
    have hwithin := outer_within hmem hn
    exact ⟨hwithin.height_le, hwithin.fits 1 (by omega)⟩
  | definition _ hd =>
    have hrules := definition_within hd
    constructor
    · intro r hr
      have hle : r.target.innerHeight + 1 ≤ maxNesting - 1 := (hrules r hr).height_le
      omega
    · intro x hx
      obtain ⟨r, hr, hx⟩ := List.mem_flatMap.mp hx
      exact (hrules r hr).fits 2 (by decide) x (List.mem_cons_of_mem _ hx)

namespace Document

theorem within_ofTokens (definitions : Bool) (ts : List Token) :
    ∀ i ∈ ofTokens definitions ts, i.HeightLe maxNesting ∧
      ∀ x ∈ i.leveled, x.Fits (ofTokens definitions ts) := by
  intro i hi
  have hchain := ofTokens_chain definitions
    (nodeWithin_within (ofTokens definitions ts) (maxNesting - 1)) ts
  have hread : ∀ i ∈ ofTokens definitions ts, ∃ ts' rest, ItemRead definitions
      (NodeWithin (ofTokens definitions ts) (maxNesting - 1)) i ts' rest :=
    (hchain.mono fun {_ ts' rest} h => ⟨ts', rest, h⟩).forall_mem
  obtain ⟨ts', rest, h⟩ := hread i hi
  exact item_within hi h

end Document

/-! Walks: the scope grows only at a command. -/

/-- What a walk meets is one of these parts, and no more commands are around it than this. -/
structure Visit.Inner (depth : Nat) (parts : List Subject) (v : Visit) : Prop where
  depth_le : v.scope.depth ≤ depth
  mem : v.subject ∈ parts

theorem Visit.Inner.mono {depth depth' : Nat} {parts parts' : List Subject} {v : Visit}
    (h : v.Inner depth parts) (hle : depth ≤ depth') (hsub : parts ⊆ parts') :
    v.Inner depth' parts' :=
  ⟨Nat.le_trans h.depth_le hle, hsub h.mem⟩

theorem Scope.depth_push (s : Scope) (name : String) : (s.push name).depth = s.depth + 1 := rfl

/-- A construct is met in the scope that the walk is in. -/
theorem Visit.inner_self {x : Subject} {parts : List Subject} {s : Scope} (hx : x ∈ parts)
    (k : Nat) : Visit.Inner (s.depth + k) parts ⟨x, s⟩ :=
  ⟨Nat.le_add_right _ _, hx⟩

mutual

theorem Node.inner_of_mem_walk (stop : Construct → Bool) (s : Scope) (n : Node) :
    ∀ v ∈ n.walk stop s, v.Inner (s.depth + n.height) n.subjects := by
  cases n with
  | text t => simp [Node.walk, Visit.inner_self]
  | quotation q => simp [Node.walk, Visit.inner_self]
  | misplaced t => simp [Node.walk, Visit.inner_self]
  | command c =>
    refine List.forall_mem_cons.mpr ⟨Visit.inner_self (by simp) _, fun v hv => ?_⟩
    exact (Command.inner_of_mem_walk stop s c v hv).mono (Nat.le_refl _)
      (List.subset_cons_self _ _)
  | block b =>
    refine List.forall_mem_cons.mpr ⟨Visit.inner_self (by simp) _, fun v hv => ?_⟩
    exact (Block.inner_of_mem_walk stop s b v hv).mono (by rw [Node.height]; omega)
      (List.subset_cons_self _ _)
  | definition d =>
    intro v hv
    exact (Definition.inner_of_mem_walk stop s d v hv).mono (by rw [Node.height]; omega)
      (List.Subset.refl _)

theorem Node.inner_of_mem_walkAll (stop : Construct → Bool) (s : Scope) (ns : List Node) :
    ∀ v ∈ Node.walkAll stop s ns,
      v.Inner (s.depth + Node.heightAll ns) (ns.flatMap Node.subjects) := by
  cases ns with
  | nil => simp [Node.walkAll]
  | cons n ns =>
    refine List.forall_mem_append.mpr ⟨fun v hv => ?_, fun v hv => ?_⟩
    · exact (Node.inner_of_mem_walk stop s n v hv).mono (by rw [Node.heightAll]; omega)
        (List.subset_append_left _ _)
    · exact (Node.inner_of_mem_walkAll stop s ns v hv).mono (by rw [Node.heightAll]; omega)
        (List.subset_append_right _ _)

theorem Block.inner_of_mem_walk (stop : Construct → Bool) (s : Scope) (b : Block) :
    ∀ v ∈ b.walk stop s, v.Inner (s.depth + b.innerHeight) b.subjects := by
  cases b with
  | mk opening children closing =>
    rw [Block.subjects_mk]
    refine List.forall_mem_cons.mpr ⟨Visit.inner_self List.mem_cons_self _, ?_⟩
    split
    · simp
    · intro v hv
      exact (Node.inner_of_mem_walkAll stop s children v hv).mono (Nat.le_refl _)
        (List.subset_cons_self _ _)

/-- The one place where the scope grows. -/
theorem Command.inner_of_mem_walk (stop : Construct → Bool) (s : Scope) (c : Command) :
    ∀ v ∈ c.walk stop s, v.Inner (s.depth + (c.innerHeight + 1)) c.subjects := by
  cases c with
  | mk ident arguments clause =>
    rw [Command.subjects_mk]
    refine List.forall_mem_cons.mpr ⟨Visit.inner_self List.mem_cons_self _, ?_⟩
    split
    · simp
    · have hdepth := s.depth_push ident.text
      refine List.forall_mem_append.mpr ⟨fun v hv => ?_, fun v hv => ?_⟩
      · have h := Argument.inner_of_mem_walkAll stop (s.push ident.text) arguments v hv
        exact h.mono (by rw [Command.innerHeight]; omega)
          (List.subset_cons_of_subset _ (List.subset_append_left _ _))
      · have h := Clause.inner_of_mem_walkOption stop (s.push ident.text) clause v hv
        exact h.mono (by rw [Command.innerHeight]; omega)
          (List.subset_cons_of_subset _ (List.subset_append_right _ _))

theorem Argument.inner_of_mem_walk (stop : Construct → Bool) (s : Scope) (a : Argument) :
    ∀ v ∈ a.walk stop s, v.Inner (s.depth + a.innerHeight) a.subjects := by
  cases a with
  | block b => exact Block.inner_of_mem_walk stop s b
  | script operator operand =>
    refine List.forall_mem_cons.mpr ⟨Visit.inner_self (by simp) _, ?_⟩
    split
    · simp
    · intro v hv
      exact (Node.inner_of_mem_walk stop s operand v hv).mono (Nat.le_refl _)
        (List.subset_cons_self _ _)

theorem Argument.inner_of_mem_walkAll (stop : Construct → Bool) (s : Scope) (as : List Argument) :
    ∀ v ∈ Argument.walkAll stop s as,
      v.Inner (s.depth + Argument.innerHeightAll as) (as.flatMap Argument.subjects) := by
  cases as with
  | nil => simp [Argument.walkAll]
  | cons a as =>
    refine List.forall_mem_append.mpr ⟨fun v hv => ?_, fun v hv => ?_⟩
    · have h := Argument.inner_of_mem_walk stop s a v hv
      exact h.mono (by rw [Argument.innerHeightAll]; omega) (List.subset_append_left _ _)
    · have h := Argument.inner_of_mem_walkAll stop s as v hv
      exact h.mono (by rw [Argument.innerHeightAll]; omega) (List.subset_append_right _ _)

theorem Clause.inner_of_mem_walkOption (stop : Construct → Bool) (s : Scope)
    (clause : Option Clause) :
    ∀ v ∈ Clause.walkOption stop s clause, v.Inner (s.depth + Clause.innerHeightOption clause)
      (clause.toList.flatMap Clause.subjects) := by
  cases clause with
  | none => simp [Clause.walkOption]
  | some c =>
    cases c with
    | mk keyword opening rules closing =>
      rw [Option.toList_some, List.flatMap_singleton, Clause.subjects_mk]
      refine List.forall_mem_cons.mpr ⟨Visit.inner_self List.mem_cons_self _, ?_⟩
      split
      · simp
      · intro v hv
        exact (RewriteRule.inner_of_mem_walkAll stop s rules v hv).mono (Nat.le_refl _)
          (List.subset_cons_self _ _)

theorem RewriteRule.inner_of_mem_walkAll (stop : Construct → Bool) (s : Scope)
    (rules : List RewriteRule) :
    ∀ v ∈ RewriteRule.walkAll stop s rules,
      v.Inner (s.depth + RewriteRule.heightAll rules) (rules.flatMap RewriteRule.subjects) := by
  cases rules with
  | nil => simp [RewriteRule.walkAll]
  | cons r rules =>
    cases r with
    | mk pattern arrow target =>
      refine List.forall_mem_append.mpr ⟨List.forall_mem_append.mpr ⟨?_, ?_⟩, ?_⟩ <;> intro v hv
      · have h := Node.inner_of_mem_walk stop s pattern v hv
        exact h.mono (by rw [RewriteRule.heightAll]; omega)
          fun x hx => List.mem_append_left _ (List.mem_append_left _ hx)
      · have h := Node.inner_of_mem_walk stop s target v hv
        exact h.mono (by rw [RewriteRule.heightAll]; omega)
          fun x hx => List.mem_append_left _ (List.mem_append_right _ hx)
      · have h := RewriteRule.inner_of_mem_walkAll stop s rules v hv
        exact h.mono (by rw [RewriteRule.heightAll]; omega) (List.subset_append_right _ _)

theorem Definition.inner_of_mem_walk (stop : Construct → Bool) (s : Scope) (d : Definition) :
    ∀ v ∈ d.walk stop s, v.Inner (s.depth + d.innerHeight) d.subjects := by
  cases d with
  | mk keyword headerOpening ident headerClosing bodyOpening rules bodyClosing =>
    rw [Definition.subjects_eq]
    refine List.forall_mem_cons.mpr ⟨Visit.inner_self List.mem_cons_self _, ?_⟩
    split
    · simp
    · intro v hv
      exact (DefinitionRule.inner_of_mem_walkAll stop s rules v hv).mono (Nat.le_refl _)
        (List.subset_cons_self _ _)

theorem DefinitionRule.inner_of_mem_walkAll (stop : Construct → Bool) (s : Scope)
    (rules : List DefinitionRule) :
    ∀ v ∈ DefinitionRule.walkAll stop s rules,
      v.Inner (s.depth + DefinitionRule.innerHeightAll rules)
        (rules.flatMap fun r => r.target.subjects) := by
  cases rules with
  | nil => simp [DefinitionRule.walkAll]
  | cons r rules =>
    cases r with
    | mk patternOpening binders patternClosing arrow target =>
      refine List.forall_mem_append.mpr ⟨fun v hv => ?_, fun v hv => ?_⟩
      · have h := Block.inner_of_mem_walk stop s target v hv
        exact h.mono (by rw [DefinitionRule.innerHeightAll]; omega)
          (List.subset_append_left _ _)
      · have h := DefinitionRule.inner_of_mem_walkAll stop s rules v hv
        exact h.mono (by rw [DefinitionRule.innerHeightAll]; omega)
          (List.subset_append_right _ _)

end

/-- A walk through an item meets only what the item consists of, no deeper than it is high. -/
theorem Item.inner_of_mem_walk {stop : Construct → Bool} {i : Item} {k : Nat} (hi : i.HeightLe k)
    {v : Visit} (hv : v ∈ i.walk stop) : v.Inner k i.subjects := by
  have hroot : Scope.root.depth = 0 := rfl
  cases i with
  | node n =>
    refine (Node.inner_of_mem_walk stop .root n v hv).mono ?_ (List.Subset.refl _)
    rwa [hroot, Nat.zero_add]
  | definition d =>
    refine (Definition.inner_of_mem_walk stop .root d v hv).mono ?_ (List.Subset.refl _)
    rw [hroot, Nat.zero_add]
    exact Definition.innerHeight_le.mpr hi

/-! The normal form is no higher than what it comes from. -/

theorem height_normal :
    TreeCases (fun n => ∀ m, n.normal? = some m → m.height ≤ n.height)
      (fun b => ∀ b', b.normal? = some b' → b'.innerHeight ≤ b.innerHeight)
      (fun a => ∀ a', a.normal? = some a' → a'.innerHeight ≤ a.innerHeight) where
  text t := by simp [Node.normal?]
  quotation q := by simp [Node.normal?]
  misplaced t := by simp [Node.normal?]
  definition d := by simp [Node.normal?]
  command ident arguments clause ih := by
    rintro _ ⟨⟩
    have harguments : Argument.innerHeightAll (Argument.normals arguments) ≤
        Argument.innerHeightAll arguments := by
      rw [Argument.normals_eq, Argument.innerHeightAll_le]
      intro a' ha'
      obtain ⟨a, ha, hnormal⟩ := List.mem_filterMap.mp ha'
      exact Nat.le_trans (ih a ha a' hnormal) (Argument.innerHeightAll_le.mp (Nat.le_refl _) a ha)
    simp only [Command.normal, Node.height, Command.innerHeight, Clause.innerHeightOption]
    omega
  block b ih := by
    intro m hm
    obtain ⟨b', hb', rfl⟩ := Option.map_eq_some_iff.mp hm
    exact Nat.succ_le_succ (ih b' hb')
  children opening children closing ih := by
    intro b' hb'
    cases closing with
    | none => cases hb'
    | some closing =>
      rw [Block.normal?_closed, Option.some.injEq] at hb'
      subst hb'
      refine Node.heightAll_le.mpr fun m hm => ?_
      obtain ⟨n, hn, hnormal⟩ := List.mem_filterMap.mp hm
      have hmem := Node.mem_of_mem_trim hn
      exact Nat.le_trans (ih n hmem m hnormal) (Node.heightAll_le.mp (Nat.le_refl _) n hmem)
  argument b ih := by
    intro a' ha'
    obtain ⟨b', hb', rfl⟩ := Option.map_eq_some_iff.mp ha'
    exact ih b' hb'
  script operator operand ih := by
    intro a' ha'
    obtain ⟨operand', hoperand', rfl⟩ := Option.map_eq_some_iff.mp ha'
    exact ih operand' hoperand'

theorem Item.heightLe_normal {i i' : Item} {k : Nat} (h : i.HeightLe k) (hi : i.normal? = some i') :
    i'.HeightLe k := by
  cases i with
  | node n =>
    obtain ⟨m, hm, rfl⟩ := Option.map_eq_some_iff.mp hi
    exact Nat.le_trans (height_normal.node n m hm) h
  | definition d =>
    cases hi
    exact h

/-! Content is one higher than what it stands for. -/

mutual

/-- The number of texts, elements and sequences within one another, along the deepest path. -/
def Content.height : Content → Nat
  | .text _ => 1
  | .element _ _ children => Content.heightAll children + 1
  | .fragment children => Content.heightAll children + 1

def Content.heightAll : List Content → Nat
  | [] => 0
  | c :: cs => max c.height (Content.heightAll cs)

end

theorem Content.heightAll_append (cs ds : List Content) :
    Content.heightAll (cs ++ ds) = max (Content.heightAll cs) (Content.heightAll ds) := by
  induction cs with
  | nil => simp [Content.heightAll]
  | cons c cs ih => simp [Content.heightAll, ih, Nat.max_assoc]

/-- An element holds a formula or what it is given. -/
theorem Builtin.height_element (b : Builtin) (given : SortedArguments) (scope : Scope)
    (children : List Content) :
    (b.element given scope children).height ≤ max 1 (Content.heightAll children) + 1 := by
  unfold Builtin.element
  cases b.role <;> simp only [Content.height, Content.heightAll] <;> omega

theorem height_denote (table : Definitions) (invoke : Invocation) :
    DenotationCases table invoke (fun n d => Content.heightAll d.content ≤ n.height + 1)
      (fun ns d => Content.heightAll d.content ≤ Node.heightAll ns + 1) where
  text t := by simp [Meaning.single, Content.heightAll, Content.height, Node.height]
  quotation q := by simp [Meaning.single, Content.heightAll, Content.height, Node.height]
  misplaced t := by simp [Meaning.single, Content.heightAll, Content.height, Node.height]
  definition d := Nat.zero_le _
  nil := Nat.zero_le _
  cons := by
    intro n ns d e hd he
    simp only [Meaning.append, Content.heightAll_append, Node.heightAll]
    omega
  block := by
    intro b d hd
    obtain ⟨opening, children, closing⟩ := b
    simp only [Meaning.wrap, Content.heightAll, Content.height, Node.height,
      Block.innerHeight] at hd ⊢
    omega
  problem := by
    intro c d scope _ _ _
    exact Nat.zero_le _
  bare := by
    intro c builtin given scope _ _ _ _
    have hle := builtin.height_element given scope []
    simp only [Meaning.wrap, Meaning.empty, Content.heightAll, Node.height] at hle ⊢
    omega
  body := by
    intro c builtin given b d scope _ _ _ _ _ hmem hd
    have hle := builtin.height_element given scope d.content
    have hblock : b.innerHeight ≤ c.innerHeight := by
      obtain ⟨ident, arguments, clause⟩ := c
      have hargument := Argument.innerHeightAll_le.mp (Nat.le_refl _) _ hmem
      exact Nat.le_trans hargument (Nat.le_max_left _ _)
    obtain ⟨opening, children, closing⟩ := b
    simp only [Meaning.wrap, Content.heightAll, Node.height, Block.innerHeight]
      at hblock hle hd ⊢
    omega

namespace Document

/-- The walks through a document of limited height. -/
theorem depth_le_of_mem_walk {doc : Document} {k : Nat} (h : ∀ i ∈ doc, i.HeightLe k)
    (stop : Construct → Bool) : ∀ v ∈ doc.walk stop, v.scope.depth ≤ k := by
  intro v hv
  obtain ⟨i, hi, hv⟩ := List.mem_flatMap.mp hv
  exact (Item.inner_of_mem_walk (h i hi) hv).depth_le

/-- The limit classifies the leaves of every document and bounds the passes that follow: the scopes
of the walks through a document and its normal form, and the height of the content. -/
theorem nesting_limited :
    (∀ (definitions : Bool) (ts : List Token),
      (∀ x ∈ (ofTokens definitions ts).leveled, x.Fits (ofTokens definitions ts)) ∧
      ∀ stop, ∀ v ∈ (ofTokens definitions ts).walk stop, ∀ d, v.subject = .definition d →
        .definition d ∈ ofTokens definitions ts) ∧
    ∀ source : String,
      (∀ stop, ∀ v ∈ (ofSource source).walk stop, v.scope.depth ≤ maxNesting) ∧
      (∀ stop, ∀ v ∈ (ofSource source).normalForm.document.walk stop,
        v.scope.depth ≤ maxNesting) ∧
      Content.heightAll (Document.denote (ofSource source).normalForm.definitions
        (ofSource source).normalForm.document).content ≤ maxNesting + 1 := by
  constructor
  · intro definitions ts
    have hwithin := within_ofTokens definitions ts
    constructor
    · intro x hx
      obtain ⟨i, hi, hx⟩ := List.mem_flatMap.mp hx
      exact (hwithin i hi).2 x hx
    · intro stop v hv d hd
      obtain ⟨i, hi, hv⟩ := List.mem_flatMap.mp hv
      have hmem := (Item.inner_of_mem_walk (hwithin i hi).1 hv).mem
      rw [hd] at hmem
      exact mem_of_definition_mem_subjects hi hmem
  · intro source
    have hheight : ∀ i ∈ ofSource source, i.HeightLe maxNesting :=
      fun i hi => (within_ofTokens true _ i hi).1
    have hnormal : ∀ i ∈ (ofSource source).normalForm.document, i.HeightLe maxNesting := by
      intro i' hi'
      obtain ⟨i, hi, hnormal⟩ := List.mem_filterMap.mp hi'
      exact Item.heightLe_normal (hheight i hi) hnormal
    refine ⟨depth_le_of_mem_walk hheight, depth_le_of_mem_walk hnormal, ?_⟩
    have hnodes : Node.heightAll (Document.nodes (ofSource source).normalForm.document) ≤
        maxNesting :=
      Node.heightAll_le.mpr fun n hn => hnormal (.node n) (mem_nodes.mp hn)
    have hdenote := (height_denote (ofSource source).normalForm.definitions _).document
      (ofSource source).normalForm.document
    omega

theorem nesting_limited_brackets :
    ∃ x ∈ (ofSource (String.ofList (List.replicate 65 '('))).leveled,
      x.node = .misplaced ⟨"(", ⟨64, 65, 1, 65⟩⟩ ∧ x.level = 65 ∧
        x.Fits (ofSource (String.ofList (List.replicate 65 '('))) := by
  have hany : (ofSource (String.ofList (List.replicate 65 '('))).leveled.any (fun x =>
      match x.node with
      | .misplaced t => x.level == 65 && t == ⟨"(", ⟨64, 65, 1, 65⟩⟩
      | _ => false) := by decide +kernel
  obtain ⟨x, hx, hnode⟩ := List.any_eq_true.mp hany
  split at hnode
  · rename_i t ht
    simp only [Bool.and_eq_true, beq_iff_eq] at hnode
    obtain ⟨hlevel, rfl⟩ := hnode
    exact ⟨x, hx, ht, hlevel, (nesting_limited.1 true _).1 x hx⟩
  · simp at hnode

end Document

end AcademicMarkup
