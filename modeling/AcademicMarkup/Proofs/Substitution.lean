import AcademicMarkup.Proofs.VisibleText
import Mathlib.Logic.Relation

/-!
A defined command is expanded where it is met, in the middle of denoting a document. The same
content and the same problems come out if its replacement is put into the document first, between
braces: one command after the other, until none is left that the expander replaces. A denotation
that ends within some limit is the same with a larger one, and a replacement needs one expansion
less than its command.
-/
namespace AcademicMarkup

open Relation (ReflTransGen)

/-- The second denotation is the first, if that one carried out every expansion. -/
def Meaning.Approximates (a b : Meaning) : Prop := a.settled → b = a

namespace Meaning.Approximates

theorem refl (a : Meaning) : Approximates a a := fun _ => rfl

theorem append {a b c d : Meaning} (hab : Approximates a b) (hcd : Approximates c d) :
    Approximates (a.append c) (b.append d) := by
  intro hsettled
  obtain ⟨ha, hc⟩ : a.settled ∧ c.settled := by
    simpa [Meaning.append] using hsettled
  rw [hab ha, hcd hc]

theorem wrap {a b : Meaning} (hab : Approximates a b) (f : List Content → Content) :
    Approximates (a.wrap f) (b.wrap f) := by
  intro hsettled
  have ha : a.settled := hsettled
  rw [hab ha]

theorem of_not_settled {a b : Meaning} (h : ¬ a.settled) : Approximates a b :=
  fun hsettled => absurd hsettled h

end Meaning.Approximates

/-- Both expand the same commands, and what the first one settles the second one gives too. -/
def Invocation.Approximates (f g : Invocation) : Prop :=
  ∀ c scope, Option.Rel Meaning.Approximates (f c scope) (g c scope)

section Limit

variable {table : Definitions} {f g : Invocation}

theorem Node.approximates_denoteAll {scope : Scope} {ns : List Node}
    (h : ∀ n ∈ ns, (n.denote table f scope).Approximates (n.denote table g scope)) :
    (Node.denoteAll table f scope ns).Approximates (Node.denoteAll table g scope ns) := by
  induction ns with
  | nil => exact .refl _
  | cons n ns ih =>
    obtain ⟨hn, hns⟩ := List.forall_mem_cons.mp h
    exact hn.append (ih hns)

theorem Argument.approximates_denoteLast {scope : Scope} {as : List Argument}
    (h : ∀ b, .block b ∈ as →
      (b.denoteChildren table f scope).Approximates (b.denoteChildren table g scope)) :
    (Argument.denoteLast table f scope as).Approximates (Argument.denoteLast table g scope as) := by
  induction as with
  | nil => exact .refl _
  | cons a as ih =>
    cases as with
    | cons a' as =>
      rw [Argument.denoteLast, Argument.denoteLast]
      exact ih fun b hb => h b (List.mem_cons_of_mem _ hb)
    | nil =>
      cases a with
      | block b => exact h b (List.mem_singleton.mpr rfl)
      | script operator operand => exact .refl _

theorem Command.approximates_denoteUnlisted (h : f.Approximates g) (scope : Scope) (c : Command) :
    (c.denoteUnlisted table f scope).Approximates (c.denoteUnlisted table g scope) := by
  unfold Command.denoteUnlisted
  split
  · have hrel := h c scope
    generalize f c scope = before, g c scope = after at hrel
    cases hrel with
    | some happroximates => exact happroximates.wrap .fragment
    | none => exact .refl _
  · exact .refl _

theorem treeCases_approximates (h : f.Approximates g) :
    TreeCases
      (fun n => ∀ scope, (n.denote table f scope).Approximates (n.denote table g scope))
      (fun b => ∀ scope,
        (b.denoteChildren table f scope).Approximates (b.denoteChildren table g scope))
      (fun a => ∀ b, a = .block b → ∀ scope,
        (b.denoteChildren table f scope).Approximates (b.denoteChildren table g scope)) where
  text _ _ := .refl _
  quotation _ _ := .refl _
  misplaced _ _ := .refl _
  definition _ _ := .refl _
  command ident arguments clause ih scope := by
    simp only [Node.denote, Command.denote]
    split
    · exact Command.approximates_denoteUnlisted h scope _
    · split
      · exact .refl _
      · refine Meaning.Approximates.wrap ?_ _
        split
        · exact Argument.approximates_denoteLast fun b hb => ih _ hb b rfl _
        · exact .refl _
  block _ ih scope := (ih scope).wrap .fragment
  children _ _ _ ih scope := Node.approximates_denoteAll fun n hn => ih n hn scope
  argument b ih := by
    rintro _ ⟨⟩
    exact ih
  script _ _ _ := by rintro _ ⟨⟩

/-- A larger limit changes nothing that is settled within a smaller one. -/
theorem Expander.invocation_approximates_succ (expander : Expander) (table : Definitions)
    (limit : Nat) :
    (expander.invocation table limit).Approximates (expander.invocation table (limit + 1)) := by
  induction limit with
  | zero =>
    intro c scope
    simp only [Expander.invocation]
    cases expander c (table.get c.name) scope with
    | none => exact .none
    | some replacement => exact .some (Meaning.Approximates.of_not_settled Bool.false_ne_true)
  | succ limit ih =>
    intro c scope
    simp only [Expander.invocation]
    cases expander c (table.get c.name) scope with
    | none => exact .none
    | some replacement =>
      refine .some (Node.approximates_denoteAll fun n _ => ?_)
      exact (treeCases_approximates ih).node n scope

end Limit

/-- The command is an invocation that the expander replaces by these nodes. -/
structure Command.ExpandsTo (expander : Expander) (table : Definitions) (scope : Scope)
    (c : Command) (replacement : List Node) : Prop where
  unlisted : Vocabulary.find? c.name = none
  defined : table.contains c.name
  expansion : expander c (table.get c.name) scope = some replacement

/-- The second node is the first with the replacement of one invocation, between braces, in its
place. The invocation is one that is met when the first node is denoted: it stands in blocks and in
the bodies of built-in commands that hold content. -/
inductive Node.Substitutes (expander : Expander) (table : Definitions) :
    Scope → Node → Node → Prop
  | invocation {scope : Scope} {c : Command} {b : Block} :
      c.ExpandsTo expander table scope b.children → b.isKind .brace →
      Node.Substitutes expander table scope (.command c) (.block b)
  | child {scope : Scope} {opening : Token} {before after : List Node} {n m : Node}
      {closing : Option Token} :
      Node.Substitutes expander table scope n m →
      Node.Substitutes expander table scope (.block ⟨opening, before ++ n :: after, closing⟩)
        (.block ⟨opening, before ++ m :: after, closing⟩)
  | body {scope : Scope} {ident opening : Token} {leading : List Argument}
      {before after : List Node} {n m : Node} {closing : Option Token} {clause : Option Clause}
      {builtin : Builtin} {given : SortedArguments} :
      Vocabulary.find? ident.text = some builtin → builtin.role.holdsContent →
      builtin.arguments? (leading ++ [.block ⟨opening, before ++ n :: after, closing⟩]) =
        some given →
      Node.Substitutes expander table (scope.push ident.text) n m →
      Node.Substitutes expander table scope
        (.command ⟨ident, leading ++ [.block ⟨opening, before ++ n :: after, closing⟩], clause⟩)
        (.command ⟨ident, leading ++ [.block ⟨opening, before ++ m :: after, closing⟩], clause⟩)

/-- The replacement of one invocation is put in its place. Definitions stay. -/
inductive Item.Substitutes (expander : Expander) (table : Definitions) : Item → Item → Prop
  | node {n m : Node} : Node.Substitutes expander table .root n m →
      Item.Substitutes expander table (.node n) (.node m)

inductive Document.Substitutes (expander : Expander) (table : Definitions) :
    Document → Document → Prop
  | item {before after : List Item} {i j : Item} : Item.Substitutes expander table i j →
      Document.Substitutes expander table (before ++ i :: after) (before ++ j :: after)

/-! The body of a built-in command. -/

/-- Which arguments a block in braces ends does not depend on what it holds. -/
theorem SortedArguments.ofList?_concat_block {leading : List Argument} {b : Block}
    {given : SortedArguments} (h : SortedArguments.ofList? (leading ++ [.block b]) = some given)
    (hkind : b.isKind .brace) (children : List Node) :
    SortedArguments.ofList? (leading ++ [.block ⟨b.opening, children, b.closing⟩]) =
      some ⟨given.attributes, some ⟨b.opening, children, b.closing⟩⟩ := by
  have hbrace : ∀ b' : Block, b'.isKind .brace → (Argument.block b').blockOf? .brace = some b' :=
    fun b' hb' => Option.filter_eq_some_iff.mpr ⟨rfl, hb'⟩
  have hchildren : Block.isKind ⟨b.opening, children, b.closing⟩ .brace := hkind
  rcases leading with _ | ⟨first, _ | ⟨second, leading⟩⟩
  · simp only [List.nil_append, ofList?, hbrace b hkind, Option.some.injEq] at h
    simp only [List.nil_append, ofList?, hbrace _ hchildren, ← h]
  · simp only [List.cons_append, List.nil_append, ofList?, hbrace b hkind, Option.bind_eq_bind,
      Option.bind_some, Option.pure_def, Option.bind_eq_some_iff] at h
    obtain ⟨text, htext, hgiven⟩ := h
    simp [ofList?, hbrace _ hchildren, htext, ← Option.some.inj hgiven]
  · cases leading <;> simp [ofList?] at h

/-- A command that holds content ends with its body, whose children are nothing to the other
arguments. -/
theorem Builtin.body_of_arguments? {builtin : Builtin} {as : List Argument}
    {given : SortedArguments} (h : builtin.arguments? as = some given)
    (hholds : builtin.role.holdsContent) :
    ∃ leading b, as = leading ++ [.block b] ∧ given.body = some b ∧ ∀ children,
      builtin.arguments? (leading ++ [.block ⟨b.opening, children, b.closing⟩]) =
        some ⟨given.attributes, some ⟨b.opening, children, b.closing⟩⟩ := by
  obtain ⟨hsorted, haccepts⟩ := Option.filter_eq_some_iff.mp h
  obtain ⟨b, hb⟩ := builtin.role.body_of_holdsContent hholds haccepts
  have hends : ∃ leading, as = leading ++ [.block b] ∧ b.isKind .brace := by
    rcases SortedArguments.ofList?_cases hsorted with ⟨rfl, rfl⟩ | ⟨b', rfl, hkind, rfl⟩ |
      ⟨a, text, rfl, -, rfl⟩ | ⟨a, text, b', rfl, -, hkind, rfl⟩
    · cases hb
    · cases hb
      exact ⟨[], rfl, hkind⟩
    · cases hb
    · cases hb
      exact ⟨[a], rfl, hkind⟩
  obtain ⟨leading, rfl, hkind⟩ := hends
  refine ⟨leading, b, rfl, hb, ?_⟩
  intro children
  refine Option.filter_eq_some_iff.mpr
    ⟨SortedArguments.ofList?_concat_block hsorted hkind children, ?_⟩
  cases hshape : builtin.role.shape <;> simp_all [ArgumentShape.accepts]

/-- Only mathematics looks at its body itself. -/
theorem Builtin.element_eq_of_holdsContent {builtin : Builtin} (hholds : builtin.role.holdsContent)
    (given : SortedArguments) (body : Option Block) :
    builtin.element ⟨given.attributes, body⟩ = builtin.element given := by
  funext scope children
  unfold Builtin.element
  cases hrole : builtin.role <;> simp_all [Role.holdsContent]

section Step

variable {table : Definitions} {invoke : Invocation} {expander : Expander} {scope : Scope}

/-- Whatever the body of a command that holds content is made to hold is its content. -/
theorem Command.denote_body {ident opening : Token} {leading : List Argument}
    {children : List Node} {closing : Option Token} {builtin : Builtin} {given : SortedArguments}
    (hfind : Vocabulary.find? ident.text = some builtin) (hholds : builtin.role.holdsContent)
    (hgiven : builtin.arguments? (leading ++ [.block ⟨opening, children, closing⟩]) = some given)
    (clause : Option Clause) (children' : List Node) :
    Command.denote table invoke scope
        ⟨ident, leading ++ [.block ⟨opening, children', closing⟩], clause⟩ =
      (Node.denoteAll table invoke (scope.push ident.text) children').wrap
        (builtin.element given scope) := by
  obtain ⟨leading', b, heq, -, hreplace⟩ := Builtin.body_of_arguments? hgiven hholds
  obtain ⟨rfl, hlast⟩ := List.append_inj' heq rfl
  obtain rfl : ⟨opening, children, closing⟩ = b := by simpa using hlast
  have hsorted := (Option.filter_eq_some_iff.mp (hreplace children')).1
  simp only [Command.denote, hfind, hreplace children', if_pos hholds]
  rw [Argument.denoteLast_eq hsorted rfl, Block.denoteChildren,
    Builtin.element_eq_of_holdsContent hholds]

/-- A command that is not built in and is defined denotes what its expansion does. -/
theorem Command.denote_of_expandsTo {c : Command} {replacement : List Node}
    (h : c.ExpandsTo expander table scope replacement) (limit : Nat) :
    c.denote table (expander.invocation table (limit + 1)) scope =
      (Node.denoteAll table (expander.invocation table limit) scope replacement).wrap
        .fragment := by
  obtain ⟨ident, arguments, clause⟩ := c
  have hfind : Vocabulary.find? ident.text = none := h.unlisted
  simp only [Command.denote, hfind, Command.denoteUnlisted, h.defined, if_true,
    Expander.invocation, h.expansion, Option.map_some]

theorem Command.not_settled_of_expandsTo {c : Command} {replacement : List Node}
    (h : c.ExpandsTo expander table scope replacement) :
    ¬ (c.denote table (expander.invocation table 0) scope).settled := by
  obtain ⟨ident, arguments, clause⟩ := c
  have hfind : Vocabulary.find? ident.text = none := h.unlisted
  simp [Command.denote, hfind, Command.denoteUnlisted, h.defined, Expander.invocation, h.expansion,
    Meaning.wrap, Meaning.unsettled]

theorem Node.approximates_denoteAll_replaced {n m : Node}
    (h : (n.denote table invoke scope).Approximates (m.denote table invoke scope))
    (before after : List Node) :
    (Node.denoteAll table invoke scope (before ++ n :: after)).Approximates
      (Node.denoteAll table invoke scope (before ++ m :: after)) := by
  induction before with
  | nil => exact h.append (.refl _)
  | cons k before ih => exact (Meaning.Approximates.refl _).append ih

/-- One substitution changes nothing that is settled. The replacement is denoted with one expansion
more than it has in place of its command, and that makes no difference. -/
theorem Node.Substitutes.approximates {n m : Node}
    (h : Node.Substitutes expander table scope n m) (limit : Nat) :
    (n.denote table (expander.invocation table limit) scope).Approximates
      (m.denote table (expander.invocation table limit) scope) := by
  induction h with
  | @invocation scope c b hexpands hkind =>
    cases limit with
    | zero => exact .of_not_settled (Command.not_settled_of_expandsTo hexpands)
    | succ limit =>
      have hlimit := expander.invocation_approximates_succ table limit
      obtain ⟨opening, children, closing⟩ := b
      simp only [Node.denote, Block.denoteChildren]
      rw [Command.denote_of_expandsTo hexpands]
      refine Meaning.Approximates.wrap (Node.approximates_denoteAll fun n _ => ?_) _
      exact (treeCases_approximates hlimit).node n scope
  | child _ ih => exact (Node.approximates_denoteAll_replaced ih _ _).wrap .fragment
  | body hfind hholds hgiven _ ih =>
    rw [Node.denote, Node.denote, Command.denote_body hfind hholds hgiven,
      Command.denote_body hfind hholds hgiven]
    exact (Node.approximates_denoteAll_replaced ih _ _).wrap _

theorem Document.Substitutes.approximates {doc doc' : Document}
    (h : doc.Substitutes expander table doc') (limit : Nat) :
    (doc.denoteWith expander limit table).Approximates
      (doc'.denoteWith expander limit table) := by
  obtain ⟨hitem⟩ := h
  obtain ⟨hnode⟩ := hitem
  simp only [Document.denoteWith, Document.nodes, List.filterMap_append, List.filterMap_cons]
  exact Node.approximates_denoteAll_replaced (hnode.approximates limit) _ _

end Step

section Run

variable {table : Definitions} {expander : Expander}

/-- Elements of a list are changed one after the other, each as often as it takes. -/
theorem reflTransGen_of_forall₂ {α β : Type} {r : α → α → Prop} {s : β → β → Prop}
    {as bs : List α} (f : List α → β)
    (hf : ∀ before after a b, r a b → s (f (before ++ a :: after)) (f (before ++ b :: after)))
    (h : List.Forall₂ (ReflTransGen r) as bs) : ReflTransGen s (f as) (f bs) := by
  suffices hbefore : ∀ before, ReflTransGen s (f (before ++ as)) (f (before ++ bs)) from hbefore []
  induction h with
  | nil => exact fun _ => .refl
  | @cons a b as bs hab _ ih =>
    intro before
    have hfirst : ReflTransGen s (f (before ++ a :: as)) (f (before ++ b :: as)) :=
      hab.lift (fun x => f (before ++ x :: as)) fun a b => hf before as a b
    have hothers := ih (before ++ [b])
    rw [List.append_assoc, List.append_assoc] at hothers
    exact hfirst.trans hothers

/-- What is settled within a limit is denoted without an expander after some substitutions. -/
def Node.Resolves (expander : Expander) (table : Definitions) (limit : Nat) (n : Node) : Prop :=
  ∀ scope, (n.denote table (expander.invocation table limit) scope).settled →
    ∃ m, ReflTransGen (Node.Substitutes expander table scope) n m ∧
      m.denote table (Expander.never.invocation table 0) scope =
        n.denote table (expander.invocation table limit) scope

theorem Node.Resolves.denoteAll {limit : Nat} {ns : List Node}
    (h : ∀ n ∈ ns, n.Resolves expander table limit) {scope : Scope}
    (hsettled : (Node.denoteAll table (expander.invocation table limit) scope ns).settled) :
    ∃ ms, List.Forall₂ (ReflTransGen (Node.Substitutes expander table scope)) ns ms ∧
      Node.denoteAll table (Expander.never.invocation table 0) scope ms =
        Node.denoteAll table (expander.invocation table limit) scope ns := by
  induction ns with
  | nil => exact ⟨[], .nil, rfl⟩
  | cons n ns ih =>
    obtain ⟨hn, hns⟩ := List.forall_mem_cons.mp h
    obtain ⟨hfirst, hothers⟩ :
        (n.denote table (expander.invocation table limit) scope).settled ∧
        (Node.denoteAll table (expander.invocation table limit) scope ns).settled := by
      simpa [Node.denoteAll, Meaning.append] using hsettled
    obtain ⟨m, hm, hmeq⟩ := hn scope hfirst
    obtain ⟨ms, hms, hmseq⟩ := ih hns hothers
    exact ⟨m :: ms, .cons hm hms, by rw [Node.denoteAll, Node.denoteAll, hmeq, hmseq]⟩

/-- The replacement of an invocation is resolved once it stands in its place. -/
theorem Command.resolves_of_expandsTo {limit : Nat}
    (hlimit : ∀ n : Node, n.Resolves expander table limit) {scope : Scope} {c : Command}
    {replacement : List Node} (h : c.ExpandsTo expander table scope replacement)
    (hsettled : (c.denote table (expander.invocation table (limit + 1)) scope).settled) :
    ∃ m, ReflTransGen (Node.Substitutes expander table scope) (.command c) m ∧
      m.denote table (Expander.never.invocation table 0) scope =
        c.denote table (expander.invocation table (limit + 1)) scope := by
  rw [Command.denote_of_expandsTo h] at hsettled ⊢
  obtain ⟨ms, hms, hmseq⟩ := Node.Resolves.denoteAll (fun n _ => hlimit n) hsettled
  let opening : Token := ⟨"\x7b", c.ident.span⟩
  let closing : Token := ⟨"\x7d", c.ident.span⟩
  have hstep : Node.Substitutes expander table scope (.command c)
      (.block ⟨opening, replacement, some closing⟩) := .invocation h rfl
  have hchildren : ReflTransGen (Node.Substitutes expander table scope)
      (.block ⟨opening, replacement, some closing⟩) (.block ⟨opening, ms, some closing⟩) :=
    reflTransGen_of_forall₂ (fun ns => Node.block ⟨opening, ns, some closing⟩)
      (fun _ _ _ _ => .child) hms
  refine ⟨_, .head hstep hchildren, ?_⟩
  rw [Node.denote, Block.denoteChildren, hmseq]

/-- The content of a command is resolved inside its body. -/
theorem Command.resolves_of_holdsContent {limit : Nat} {ident : Token} {arguments : List Argument}
    {builtin : Builtin} {given : SortedArguments}
    (hfind : Vocabulary.find? ident.text = some builtin) (hholds : builtin.role.holdsContent)
    (hgiven : builtin.arguments? arguments = some given)
    (hblocks : ∀ b, .block b ∈ arguments → ∀ n ∈ b.children, n.Resolves expander table limit)
    (clause : Option Clause) : Node.Resolves expander table limit
      (.command ⟨ident, arguments, clause⟩) := by
  intro scope hsettled
  obtain ⟨leading, ⟨opening, children, closing⟩, rfl, -, hreplace⟩ :=
    Builtin.body_of_arguments? hgiven hholds
  rw [Node.denote, Command.denote_body hfind hholds hgiven] at hsettled ⊢
  have hbody := hblocks ⟨opening, children, closing⟩ (by simp)
  obtain ⟨ms, hms, hmseq⟩ := Node.Resolves.denoteAll hbody hsettled
  refine ⟨.command ⟨ident, leading ++ [.block ⟨opening, ms, closing⟩], clause⟩, ?_, ?_⟩
  · exact reflTransGen_of_forall₂
      (fun ns => Node.command ⟨ident, leading ++ [.block ⟨opening, ns, closing⟩], clause⟩)
      (fun _ _ _ _ => Node.Substitutes.body hfind hholds (hreplace _)) hms
  · rw [Node.denote, Command.denote_body hfind hholds hgiven, hmseq]

theorem Expander.invocation_eq_none {c : Command} {scope : Scope}
    (h : expander c (table.get c.name) scope = none) (limit : Nat) :
    expander.invocation table limit c scope = none := by
  cases limit <;> simp [Expander.invocation, h]

/-- A command that is not built in is replaced, or it is reported with every expander. -/
theorem Command.resolves_of_unlisted {limit : Nat}
    (hsmaller : ∀ smaller, limit = smaller + 1 → ∀ n : Node, n.Resolves expander table smaller)
    {c : Command} (hfind : Vocabulary.find? c.name = none) :
    Node.Resolves expander table limit (.command c) := by
  intro scope hsettled
  rw [Node.denote] at hsettled ⊢
  have hdenote : ∀ invoke, c.denote table invoke scope = c.denoteUnlisted table invoke scope := by
    intro invoke
    obtain ⟨ident, arguments, clause⟩ := c
    have hfind : Vocabulary.find? ident.text = none := hfind
    rw [Command.denote, hfind]
  by_cases hdefined : table.contains c.name
  · cases hexpansion : expander c (table.get c.name) scope with
    | none =>
      have hnever : Expander.never.invocation table 0 c scope = none := rfl
      refine ⟨.command c, .refl, ?_⟩
      simp only [Node.denote, hdenote, Command.denoteUnlisted,
        Expander.invocation_eq_none hexpansion, hnever]
    | some replacement =>
      have hexpands : c.ExpandsTo expander table scope replacement :=
        ⟨hfind, hdefined, hexpansion⟩
      cases limit with
      | zero => exact absurd hsettled (Command.not_settled_of_expandsTo hexpands)
      | succ limit => exact Command.resolves_of_expandsTo (hsmaller limit rfl) hexpands hsettled
  · refine ⟨.command c, .refl, ?_⟩
    simp only [Node.denote, hdenote, Command.denoteUnlisted, if_neg hdefined]

theorem treeCases_resolves {limit : Nat}
    (hsmaller : ∀ smaller, limit = smaller + 1 → ∀ n : Node, n.Resolves expander table smaller) :
    TreeCases (Node.Resolves expander table limit)
      (fun b => ∀ n ∈ b.children, n.Resolves expander table limit)
      (fun a => ∀ b, a = .block b → ∀ n ∈ b.children, n.Resolves expander table limit) where
  text _ _ _ := ⟨_, .refl, rfl⟩
  quotation _ _ _ := ⟨_, .refl, rfl⟩
  misplaced _ _ _ := ⟨_, .refl, rfl⟩
  definition _ _ _ := ⟨_, .refl, rfl⟩
  command ident arguments clause ih := by
    cases hfind : Vocabulary.find? ident.text with
    | none => exact Command.resolves_of_unlisted hsmaller hfind
    | some builtin =>
      -- Without content there is nothing to expand, so the command stays as it is.
      by_cases hcontent : builtin.role.holdsContent ∧ (builtin.arguments? arguments).isSome
      · obtain ⟨hholds, hgiven⟩ := hcontent
        obtain ⟨given, hgiven⟩ := Option.isSome_iff_exists.mp hgiven
        exact Command.resolves_of_holdsContent hfind hholds hgiven (fun b hb => ih _ hb b rfl)
          clause
      · refine fun scope _ => ⟨_, .refl, ?_⟩
        simp only [Node.denote, Command.denote, hfind]
        cases hgiven : builtin.arguments? arguments with
        | none => rfl
        | some given =>
          have hholds : ¬ builtin.role.holdsContent := by simpa [hgiven] using hcontent
          simp only [if_neg hholds]
  block b ih scope hsettled := by
    obtain ⟨opening, children, closing⟩ := b
    rw [Node.denote, Block.denoteChildren] at hsettled ⊢
    obtain ⟨ms, hms, hmseq⟩ := Node.Resolves.denoteAll ih hsettled
    refine ⟨.block ⟨opening, ms, closing⟩, ?_, ?_⟩
    · exact reflTransGen_of_forall₂ (fun ns => Node.block ⟨opening, ns, closing⟩)
        (fun _ _ _ _ => .child) hms
    · rw [Node.denote, Block.denoteChildren, hmseq]
  children _ _ _ ih := ih
  argument b ih := by
    rintro _ ⟨⟩
    exact ih
  script _ _ _ := by rintro _ ⟨⟩

theorem Node.resolves (limit : Nat) : ∀ n : Node, n.Resolves expander table limit := by
  induction limit with
  | zero => exact (treeCases_resolves fun _ h => by cases h).node
  | succ limit ih =>
    refine (treeCases_resolves fun smaller h => ?_).node
    obtain rfl : limit = smaller := Nat.succ.inj h
    exact ih

theorem Document.denoteWith_node_cons (limit : Nat) (n : Node) (doc : Document) :
    Document.denoteWith expander limit table (.node n :: doc) =
      (n.denote table (expander.invocation table limit) .root).append
        (doc.denoteWith expander limit table) := rfl

/-- The items of a document are resolved one by one. -/
theorem Document.exists_substituted {limit : Nat} {doc : Document}
    (hsettled : (doc.denoteWith expander limit table).settled) :
    ∃ doc' : Document, ReflTransGen (Document.Substitutes expander table) doc doc' ∧
      doc'.denote table = doc.denoteWith expander limit table := by
  suffices hitems : ∃ doc' : Document,
      List.Forall₂ (ReflTransGen (Item.Substitutes expander table)) doc doc' ∧
        doc'.denote table = doc.denoteWith expander limit table by
    obtain ⟨doc', hdoc', heq⟩ := hitems
    exact ⟨doc', reflTransGen_of_forall₂ id (fun _ _ _ _ => .item) hdoc', heq⟩
  induction doc with
  | nil => exact ⟨[], .nil, rfl⟩
  | cons i doc ih =>
    cases i with
    | definition d =>
      obtain ⟨doc', hdoc', heq⟩ := ih hsettled
      exact ⟨.definition d :: doc', .cons .refl hdoc', heq⟩
    | node n =>
      rw [Document.denoteWith_node_cons] at hsettled ⊢
      obtain ⟨hnode, hothers⟩ := Bool.and_eq_true_iff.mp hsettled
      obtain ⟨m, hm, hmeq⟩ := Node.resolves limit n .root hnode
      obtain ⟨doc', hdoc', heq⟩ := ih hothers
      refine ⟨.node m :: doc', .cons (hm.lift _ fun _ _ => .node) hdoc', ?_⟩
      rw [Document.denote, Document.denoteWith_node_cons, hmeq]
      exact congrArg _ heq

end Run

/-- A document that is settled within a limit is the same with every larger one. -/
theorem Document.denoteWith_of_le {expander : Expander} {table : Definitions} {doc : Document}
    {limit larger : Nat} (hle : limit ≤ larger)
    (hsettled : (doc.denoteWith expander limit table).settled) :
    doc.denoteWith expander larger table = doc.denoteWith expander limit table := by
  induction larger, hle using Nat.le_induction with
  | base => rfl
  | succ larger _ ih =>
    have hlimit := expander.invocation_approximates_succ table larger
    have hsucc : (doc.denoteWith expander larger table).Approximates
        (doc.denoteWith expander (larger + 1) table) :=
      Node.approximates_denoteAll fun n _ => (treeCases_approximates hlimit).node n .root
    rw [hsucc (by rw [ih]; exact hsettled), ih]

/-- Expanding while denoting is substituting before. Wherever an invocation is met that the expander
replaces, its replacement can be put between braces in its place, with any limit that the document
needs and any larger one; and when this is done often enough, no expander is needed at all. -/
theorem Document.denoteWith_substituted (expander : Expander) (table : Definitions) (doc : Document)
    (limit : Nat) (hsettled : (doc.denoteWith expander limit table).settled) :
    (∀ (doc' : Document) (larger : Nat), doc.Substitutes expander table doc' → limit ≤ larger →
      doc'.denoteWith expander larger table = doc.denoteWith expander limit table) ∧
    ∃ doc' : Document, ReflTransGen (Document.Substitutes expander table) doc doc' ∧
      doc'.denote table = doc.denoteWith expander limit table := by
  refine ⟨?_, Document.exists_substituted hsettled⟩
  intro doc' larger hsubstitutes hle
  have hlarger := Document.denoteWith_of_le hle hsettled
  rw [hsubstitutes.approximates larger (by rw [hlarger]; exact hsettled), hlarger]

/-- A command in a grid, defined by a command whose own replacement is a grid, a command that is not
known and a block without end. -/
theorem Document.denoteWith_substituted_grid :
    let normal := (Document.ofSource
      ("\\macroRules![\\inner]\x7b[] => \x7b\\grid\x7bx\x7d\\nope (\x7d\x7d" ++
        "\\macroRules![\\outer]\x7b[] => \x7b\\inner y\x7d\x7d" ++
        "\\grid\x7b\x7b\\outer\x7d\x7d")).normalForm
    let expander : Expander := fun _ definitions _ =>
      (definitions.head?.bind (·.rules.head?)).map (·.target.children)
    let denotation := normal.document.denoteWith expander 2 normal.definitions
    denotation.settled ∧ denotation.diagnostics.map Diagnostic.code = ["unsupported-command"] ∧
      (normal.document.denote normal.definitions).diagnostics.map Diagnostic.code =
        ["unexpanded-macro"] ∧
      (∀ (doc' : Document) (larger : Nat),
        normal.document.Substitutes expander normal.definitions doc' → 2 ≤ larger →
        doc'.denoteWith expander larger normal.definitions = denotation) ∧
      ∃ doc' : Document,
        ReflTransGen (Document.Substitutes expander normal.definitions) normal.document doc' ∧
          doc'.denote normal.definitions = denotation := by
  intro normal expander denotation
  have hrun : denotation.settled ∧
      denotation.diagnostics.map Diagnostic.code = ["unsupported-command"] ∧
      (normal.document.denote normal.definitions).diagnostics.map Diagnostic.code =
        ["unexpanded-macro"] := by decide +kernel
  exact ⟨hrun.1, hrun.2.1, hrun.2.2,
    Document.denoteWith_substituted expander normal.definitions normal.document 2 hrun.1⟩

end AcademicMarkup
