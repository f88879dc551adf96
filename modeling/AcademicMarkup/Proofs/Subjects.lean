import AcademicMarkup.Tree.Walk

/-!
All that a document consists of: the subjects of the walk that enters every construct. The scope
in which a walk starts shows only in the scopes it reports, so the subjects of a construct do not
depend on where it stands, and each construct gives its own subject and then those of its parts.
-/
namespace AcademicMarkup

/-- Enters every construct. -/
def Construct.stopNowhere : Construct → Bool := fun _ => false

mutual

theorem Node.map_subject_walk (stop : Construct → Bool) (s s' : Scope) (n : Node) :
    (n.walk stop s).map (·.subject) = (n.walk stop s').map (·.subject) := by
  cases n with
  | text t => rfl
  | quotation q => rfl
  | misplaced t => rfl
  | command c => simpa [Node.walk] using Command.map_subject_walk stop s s' c
  | block b => simpa [Node.walk] using Block.map_subject_walk stop s s' b
  | definition d => simpa [Node.walk] using Definition.map_subject_walk stop s s' d

theorem Node.map_subject_walkAll (stop : Construct → Bool) (s s' : Scope) (ns : List Node) :
    (Node.walkAll stop s ns).map (·.subject) = (Node.walkAll stop s' ns).map (·.subject) := by
  cases ns with
  | nil => rfl
  | cons n ns =>
    simp only [Node.walkAll, List.map_append]
    rw [Node.map_subject_walk stop s s' n, Node.map_subject_walkAll stop s s' ns]

theorem Block.map_subject_walk (stop : Construct → Bool) (s s' : Scope) (b : Block) :
    (b.walk stop s).map (·.subject) = (b.walk stop s').map (·.subject) := by
  cases b with
  | mk opening children closing =>
    simp only [Block.walk, List.map_cons]
    split
    · rfl
    · rw [Node.map_subject_walkAll stop s s' children]

theorem Command.map_subject_walk (stop : Construct → Bool) (s s' : Scope) (c : Command) :
    (c.walk stop s).map (·.subject) = (c.walk stop s').map (·.subject) := by
  cases c with
  | mk ident arguments clause =>
    simp only [Command.walk, List.map_cons]
    split
    · rfl
    · simp only [List.map_append]
      rw [Argument.map_subject_walkAll stop _ (s'.push ident.text) arguments,
        Clause.map_subject_walkOption stop _ (s'.push ident.text) clause]

theorem Argument.map_subject_walk (stop : Construct → Bool) (s s' : Scope) (a : Argument) :
    (a.walk stop s).map (·.subject) = (a.walk stop s').map (·.subject) := by
  cases a with
  | block b => simpa [Argument.walk] using Block.map_subject_walk stop s s' b
  | script operator operand =>
    simp only [Argument.walk, List.map_cons]
    split
    · rfl
    · rw [Node.map_subject_walk stop s s' operand]

theorem Argument.map_subject_walkAll (stop : Construct → Bool) (s s' : Scope)
    (as : List Argument) :
    (Argument.walkAll stop s as).map (·.subject) =
      (Argument.walkAll stop s' as).map (·.subject) := by
  cases as with
  | nil => rfl
  | cons a as =>
    simp only [Argument.walkAll, List.map_append]
    rw [Argument.map_subject_walk stop s s' a, Argument.map_subject_walkAll stop s s' as]

theorem Clause.map_subject_walkOption (stop : Construct → Bool) (s s' : Scope)
    (clause : Option Clause) :
    (Clause.walkOption stop s clause).map (·.subject) =
      (Clause.walkOption stop s' clause).map (·.subject) := by
  cases clause with
  | none => rfl
  | some c =>
    cases c with
    | mk keyword opening rules closing =>
      simp only [Clause.walkOption, List.map_cons]
      split
      · rfl
      · rw [RewriteRule.map_subject_walkAll stop s s' rules]

theorem RewriteRule.map_subject_walkAll (stop : Construct → Bool) (s s' : Scope)
    (rules : List RewriteRule) :
    (RewriteRule.walkAll stop s rules).map (·.subject) =
      (RewriteRule.walkAll stop s' rules).map (·.subject) := by
  cases rules with
  | nil => rfl
  | cons r rules =>
    cases r with
    | mk pattern arrow target =>
      simp only [RewriteRule.walkAll, List.map_append]
      rw [Node.map_subject_walk stop s s' pattern, Node.map_subject_walk stop s s' target,
        RewriteRule.map_subject_walkAll stop s s' rules]

theorem Definition.map_subject_walk (stop : Construct → Bool) (s s' : Scope) (d : Definition) :
    (d.walk stop s).map (·.subject) = (d.walk stop s').map (·.subject) := by
  cases d with
  | mk keyword headerOpening ident headerClosing bodyOpening rules bodyClosing =>
    simp only [Definition.walk, List.map_cons]
    split
    · rfl
    · rw [DefinitionRule.map_subject_walkAll stop s s' rules]

theorem DefinitionRule.map_subject_walkAll (stop : Construct → Bool) (s s' : Scope)
    (rules : List DefinitionRule) :
    (DefinitionRule.walkAll stop s rules).map (·.subject) =
      (DefinitionRule.walkAll stop s' rules).map (·.subject) := by
  cases rules with
  | nil => rfl
  | cons r rules =>
    cases r with
    | mk patternOpening binders patternClosing arrow target =>
      simp only [DefinitionRule.walkAll, List.map_append]
      rw [Block.map_subject_walk stop s s' target,
        DefinitionRule.map_subject_walkAll stop s s' rules]

end

def Node.subjects (n : Node) : List Subject :=
  (n.walk Construct.stopNowhere .root).map (·.subject)

def Block.subjects (b : Block) : List Subject :=
  (b.walk Construct.stopNowhere .root).map (·.subject)

def Argument.subjects (a : Argument) : List Subject :=
  (a.walk Construct.stopNowhere .root).map (·.subject)

def Clause.subjects (c : Clause) : List Subject :=
  (Clause.walkOption Construct.stopNowhere .root (some c)).map (·.subject)

def Command.subjects (c : Command) : List Subject :=
  (c.walk Construct.stopNowhere .root).map (·.subject)

def RewriteRule.subjects (r : RewriteRule) : List Subject :=
  r.pattern.subjects ++ r.target.subjects

def Definition.subjects (d : Definition) : List Subject :=
  (d.walk Construct.stopNowhere .root).map (·.subject)

def Item.subjects (i : Item) : List Subject :=
  (i.walk Construct.stopNowhere).map (·.subject)

def Document.subjects (doc : Document) : List Subject :=
  (doc.walk Construct.stopNowhere).map (·.subject)

@[simp] theorem Node.subjects_text (t : Token) :
    (Node.text t).subjects = [.node (.text t), .text t] := rfl

@[simp] theorem Node.subjects_quotation (q : Quotation) :
    (Node.quotation q).subjects = [.node (.quotation q), .quotation q] := rfl

@[simp] theorem Node.subjects_misplaced (t : Token) :
    (Node.misplaced t).subjects = [.node (.misplaced t), .misplaced t] := rfl

@[simp] theorem Node.subjects_command (c : Command) :
    (Node.command c).subjects = .node (.command c) :: c.subjects := rfl

@[simp] theorem Node.subjects_block (b : Block) :
    (Node.block b).subjects = .node (.block b) :: b.subjects := rfl

@[simp] theorem Node.subjects_definition (d : Definition) :
    (Node.definition d).subjects = d.subjects := rfl

theorem Node.map_subject_walkAll_eq (s : Scope) (ns : List Node) :
    (Node.walkAll Construct.stopNowhere s ns).map (·.subject) = ns.flatMap Node.subjects := by
  induction ns with
  | nil => rfl
  | cons n ns ih =>
    simp only [Node.walkAll, List.map_append, ih, List.flatMap_cons, Node.subjects]
    rw [Node.map_subject_walk _ s .root n]

@[simp] theorem Block.subjects_mk (opening : Token) (children : List Node)
    (closing : Option Token) :
    (Block.mk opening children closing).subjects =
      .block ⟨opening, children, closing⟩ :: children.flatMap Node.subjects := by
  rw [← Node.map_subject_walkAll_eq .root children]
  rfl

@[simp] theorem Argument.subjects_block (b : Block) :
    (Argument.block b).subjects = b.subjects := rfl

@[simp] theorem Argument.subjects_script (operator : Token) (operand : Node) :
    (Argument.script operator operand).subjects = .script operator operand :: operand.subjects :=
  rfl

theorem Argument.map_subject_walkAll_eq (s : Scope) (as : List Argument) :
    (Argument.walkAll Construct.stopNowhere s as).map (·.subject) =
      as.flatMap Argument.subjects := by
  induction as with
  | nil => rfl
  | cons a as ih =>
    simp only [Argument.walkAll, List.map_append, ih, List.flatMap_cons, Argument.subjects]
    rw [Argument.map_subject_walk _ s .root a]

@[simp] theorem Command.subjects_mk (ident : Token) (arguments : List Argument)
    (clause : Option Clause) :
    (Command.mk ident arguments clause).subjects =
      .command ⟨ident, arguments, clause⟩ ::
        (arguments.flatMap Argument.subjects ++ clause.toList.flatMap Clause.subjects) := by
  have hclause : (Clause.walkOption Construct.stopNowhere (.push .root ident.text) clause).map
      (·.subject) = clause.toList.flatMap Clause.subjects := by
    rw [Clause.map_subject_walkOption _ _ .root clause]
    cases clause with
    | none => rfl
    | some c => simp [Clause.subjects]
  rw [← hclause, ← Argument.map_subject_walkAll_eq (.push .root ident.text) arguments,
    ← List.map_append]
  rfl

theorem Block.mem_subjects_self (b : Block) : .block b ∈ b.subjects := by
  cases b
  simp

theorem Command.mem_subjects_self (c : Command) : .command c ∈ c.subjects := by
  cases c
  simp

theorem Block.subset_subjects (b : Block) : b.children.flatMap Node.subjects ⊆ b.subjects := by
  obtain ⟨opening, children, closing⟩ := b
  rw [Block.subjects_mk]
  exact List.subset_cons_self _ _

/-- What stands in a block of a command is part of the command. -/
theorem Command.subset_subjects_of_block {c : Command} {b : Block} (hb : .block b ∈ c.arguments) :
    b.children.flatMap Node.subjects ⊆ c.subjects := by
  obtain ⟨ident, arguments, clause⟩ := c
  intro x hx
  rw [Command.subjects_mk]
  refine List.mem_cons_of_mem _ (List.mem_append_left _ ?_)
  exact List.mem_flatMap.mpr ⟨_, hb, b.subset_subjects hx⟩

theorem RewriteRule.map_subject_walkAll_eq (s : Scope) (rules : List RewriteRule) :
    (RewriteRule.walkAll Construct.stopNowhere s rules).map (·.subject) =
      rules.flatMap RewriteRule.subjects := by
  induction rules with
  | nil => rfl
  | cons r rules ih =>
    obtain ⟨pattern, arrow, target⟩ := r
    simp only [RewriteRule.walkAll, List.map_append, ih, List.flatMap_cons, RewriteRule.subjects,
      Node.subjects]
    rw [Node.map_subject_walk _ s .root pattern, Node.map_subject_walk _ s .root target]

@[simp] theorem Clause.subjects_mk (keyword opening closing : Token) (rules : List RewriteRule) :
    (Clause.mk keyword opening rules closing).subjects =
      .clause ⟨keyword, opening, rules, closing⟩ :: rules.flatMap RewriteRule.subjects := by
  rw [← RewriteRule.map_subject_walkAll_eq .root rules]
  rfl

theorem Clause.mem_subjects_self (c : Clause) : .clause c ∈ c.subjects := by
  cases c
  simp

theorem DefinitionRule.walkAll_eq (stop : Construct → Bool) (s : Scope)
    (rules : List DefinitionRule) :
    DefinitionRule.walkAll stop s rules = rules.flatMap fun r => r.target.walk stop s := by
  induction rules with
  | nil => rfl
  | cons r rules ih =>
    obtain ⟨patternOpening, binders, patternClosing, arrow, target⟩ := r
    rw [DefinitionRule.walkAll, ih, List.flatMap_cons]

theorem Definition.walk_eq (stop : Construct → Bool) (s : Scope) (d : Definition) :
    d.walk stop s = ⟨.definition d, s⟩ ::
      if stop .definition then [] else d.rules.flatMap fun r => r.target.walk stop s := by
  obtain ⟨keyword, headerOpening, ident, headerClosing, bodyOpening, rules, bodyClosing⟩ := d
  rw [← DefinitionRule.walkAll_eq]
  rfl

theorem Definition.subjects_eq (d : Definition) :
    d.subjects = .definition d :: d.rules.flatMap fun r => r.target.subjects := by
  rw [Definition.subjects, Definition.walk_eq, List.map_cons,
    if_neg (by simp [Construct.stopNowhere]), List.map_flatMap]
  rfl

@[simp] theorem Item.subjects_node (n : Node) : (Item.node n).subjects = n.subjects := rfl

@[simp] theorem Item.subjects_definition (d : Definition) :
    (Item.definition d).subjects = d.subjects := rfl

theorem Document.subjects_eq (doc : Document) : doc.subjects = doc.flatMap Item.subjects := by
  simp only [Document.subjects, Document.walk, List.map_flatMap]
  rfl

/-! What is met outside rules. -/

/-- Enters every construct but the rules of clauses and definitions. -/
def Construct.stopAtRules : Construct → Bool
  | .clause => true
  | .definition => true
  | _ => false

def Node.outsideRules (n : Node) : List Subject :=
  (n.walk Construct.stopAtRules .root).map (·.subject)

def Block.outsideRules (b : Block) : List Subject :=
  (b.walk Construct.stopAtRules .root).map (·.subject)

def Argument.outsideRules (a : Argument) : List Subject :=
  (a.walk Construct.stopAtRules .root).map (·.subject)

def Item.outsideRules (i : Item) : List Subject :=
  (i.walk Construct.stopAtRules).map (·.subject)

def Document.outsideRules (doc : Document) : List Subject :=
  (doc.walk Construct.stopAtRules).map (·.subject)

theorem Block.outsideRules_mk (opening : Token) (children : List Node) (closing : Option Token) :
    (Block.mk opening children closing).outsideRules =
      .block ⟨opening, children, closing⟩ :: children.flatMap Node.outsideRules := by
  have hchildren : (Node.walkAll Construct.stopAtRules .root children).map (·.subject) =
      children.flatMap Node.outsideRules := by
    induction children with
    | nil => rfl
    | cons n ns ih =>
      rw [Node.walkAll, List.map_append, ih]
      rfl
  rw [← hchildren]
  rfl

theorem Node.outsideRules_command (ident : Token) (arguments : List Argument)
    (clause : Option Clause) :
    (Node.command ⟨ident, arguments, clause⟩).outsideRules =
      .node (.command ⟨ident, arguments, clause⟩) :: .command ⟨ident, arguments, clause⟩ ::
        (arguments.flatMap Argument.outsideRules ++ clause.toList.map Subject.clause) := by
  have harguments : ∀ scope : Scope,
      (Argument.walkAll Construct.stopAtRules scope arguments).map (·.subject) =
        arguments.flatMap Argument.outsideRules := by
    intro scope
    induction arguments with
    | nil => rfl
    | cons a as ih =>
      rw [Argument.walkAll, List.map_append, ih, Argument.map_subject_walk _ scope .root]
      rfl
  have hclause : (Clause.walkOption Construct.stopAtRules (.push .root ident.text) clause).map
      (·.subject) = clause.toList.map Subject.clause := by
    cases clause with
    | none => rfl
    | some c =>
      obtain ⟨keyword, opening, rules, closing⟩ := c
      rfl
  rw [← harguments (.push .root ident.text), ← hclause, ← List.map_append]
  rfl

theorem Definition.walk_stopAtRules (scope : Scope) (d : Definition) :
    (d.walk Construct.stopAtRules scope).map (·.subject) = [.definition d] := by
  rw [Definition.walk_eq]
  rfl

theorem Document.outsideRules_eq (doc : Document) :
    doc.outsideRules = doc.flatMap Item.outsideRules := by
  rw [Document.outsideRules, Document.walk, List.map_flatMap]
  rfl

/-! Blocks without their close. -/

def Subject.isUnterminated : Subject → Bool
  | .block b => !b.isTerminated
  | _ => false

/-- Every block in what is met has its close. -/
def Terminated (xs : List Subject) : Prop := ∀ x ∈ xs, ¬ x.isUnterminated

instance decidableTerminated (xs : List Subject) : Decidable (Terminated xs) :=
  inferInstanceAs (Decidable (∀ x ∈ xs, _))

theorem Terminated.of_subset {xs ys : List Subject} (h : Terminated ys) (hsub : xs ⊆ ys) :
    Terminated xs :=
  fun x hx => h x (hsub hx)

theorem Terminated.block {xs : List Subject} (h : Terminated xs) {b : Block} (hb : .block b ∈ xs) :
    b.isTerminated := by
  simpa [Subject.isUnterminated] using h _ hb

/-! What is met where no definition is. -/

def Subject.definition? : Subject → Option Definition
  | .definition d => some d
  | _ => none

/-- No definition is among what is met. -/
def DefinesNothing (xs : List Subject) : Prop := ∀ x ∈ xs, x.definition? = none

theorem DefinesNothing.of_subset {xs ys : List Subject} (h : DefinesNothing ys) (hsub : xs ⊆ ys) :
    DefinesNothing xs :=
  fun x hx => h x (hsub hx)

theorem Definition.not_definesNothing (d : Definition) : ¬ DefinesNothing d.subjects := by
  intro h
  have hself := h (.definition d) (by simp [d.subjects_eq])
  cases hself

/-! Induction over a tree that does not look into clauses and definitions. -/

/-- What is to be shown of each construct but definitions, given that it holds of its parts. -/
structure PlainCases (N : Node → Prop) (B : Block → Prop) (A : Argument → Prop) : Prop where
  text : ∀ t, N (.text t)
  quotation : ∀ q, N (.quotation q)
  misplaced : ∀ t, N (.misplaced t)
  command : ∀ ident arguments clause, (∀ a ∈ arguments, A a) →
    N (.command ⟨ident, arguments, clause⟩)
  block : ∀ b, B b → N (.block b)
  children : ∀ opening children closing, (∀ n ∈ children, N n) → B ⟨opening, children, closing⟩
  argument : ∀ b, B b → A (.block b)
  script : ∀ operator operand, N operand → A (.script operator operand)

structure TreeCases (N : Node → Prop) (B : Block → Prop) (A : Argument → Prop) : Prop
    extends PlainCases N B A where
  definition : ∀ d, N (.definition d)

variable {N : Node → Prop} {B : Block → Prop} {A : Argument → Prop}

namespace TreeCases

mutual

theorem node (h : TreeCases N B A) (n : Node) : N n := by
  cases n with
  | text t => exact h.text t
  | quotation q => exact h.quotation q
  | misplaced t => exact h.misplaced t
  | command c =>
    obtain ⟨ident, arguments, clause⟩ := c
    exact h.command ident arguments clause (arguments_mem h arguments)
  | block b => exact h.block b (ofBlock h b)
  | definition d => exact h.definition d

theorem nodes_mem (h : TreeCases N B A) (ns : List Node) : ∀ n ∈ ns, N n := by
  cases ns with
  | nil => exact fun _ hn => absurd hn List.not_mem_nil
  | cons n ns => exact List.forall_mem_cons.mpr ⟨node h n, nodes_mem h ns⟩

theorem ofBlock (h : TreeCases N B A) (b : Block) : B b := by
  obtain ⟨opening, children, closing⟩ := b
  exact h.children opening children closing (nodes_mem h children)

theorem ofArgument (h : TreeCases N B A) (a : Argument) : A a := by
  cases a with
  | block b => exact h.argument b (ofBlock h b)
  | script operator operand => exact h.script operator operand (node h operand)

theorem arguments_mem (h : TreeCases N B A) (as : List Argument) : ∀ a ∈ as, A a := by
  cases as with
  | nil => exact fun _ ha => absurd ha List.not_mem_nil
  | cons a as => exact List.forall_mem_cons.mpr ⟨ofArgument h a, arguments_mem h as⟩

end

end TreeCases

namespace PlainCases

theorem treeCases (h : PlainCases N B A) :
    TreeCases (fun n => DefinesNothing n.subjects → N n)
      (fun b => DefinesNothing b.subjects → B b) (fun a => DefinesNothing a.subjects → A a) where
  text t _ := h.text t
  quotation q _ := h.quotation q
  misplaced t _ := h.misplaced t
  command ident arguments clause ih hparts := by
    refine h.command ident arguments clause fun a ha => ih a ha (hparts.of_subset ?_)
    intro x hx
    rw [Node.subjects_command, Command.subjects_mk]
    refine List.mem_cons_of_mem _ (List.mem_cons_of_mem _ (List.mem_append_left _ ?_))
    exact List.mem_flatMap.mpr ⟨a, ha, hx⟩
  block b ih hparts := h.block b (ih (hparts.of_subset (List.subset_cons_self _ _)))
  definition d hparts := absurd hparts d.not_definesNothing
  children opening children closing ih hparts := by
    refine h.children opening children closing fun n hn => ih n hn (hparts.of_subset ?_)
    intro x hx
    exact Block.subset_subjects _ (List.mem_flatMap.mpr ⟨n, hn, hx⟩)
  argument b ih hparts := h.argument b (ih hparts)
  script operator operand ih hparts :=
    h.script operator operand (ih (hparts.of_subset (List.subset_cons_self _ _)))

/-- The induction over a tree without definitions. -/
theorem node (h : PlainCases N B A) {n : Node} (hn : DefinesNothing n.subjects) : N n :=
  h.treeCases.node n hn

end PlainCases

end AcademicMarkup
