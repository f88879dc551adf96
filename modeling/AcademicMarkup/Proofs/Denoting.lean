import AcademicMarkup.Proofs.VisibleText

/-!
What denotations are made of, said once for everything that is proved about them. Where nothing is
expanded the denotation of a node follows its tree: a command is reported and no more is looked at,
or it becomes an element, and then the last of its blocks may be what the element holds. A relation
between nodes and denotations that is kept by each of these steps holds of every node.
-/
namespace AcademicMarkup

/-- A command is reported with its own span. -/
theorem Command.span_of_denote_eq_problem {table : Definitions} {invoke : Invocation}
    (hinvoke : ∀ c scope, invoke c scope = none) {scope : Scope} {c : Command} {d : Diagnostic}
    (h : c.denote table invoke scope = .problem d) : d.span = c.span := by
  obtain ⟨ident, arguments, clause⟩ := c
  have hproblem : ∀ {e : Diagnostic}, Meaning.problem e = .problem d → e = d := by
    intro e heq
    simpa [Meaning.problem] using heq
  rw [Command.denote] at h
  split at h
  · simp only [Command.denoteUnlisted, hinvoke] at h
    split at h <;> rw [← hproblem h] <;> rfl
  · split at h
    · rw [← hproblem h]
      rfl
    · simp [Meaning.wrap, Meaning.problem] at h

/-- What is to be shown of the denotation of each construct in its scope, given that it holds of its
parts. The body of an element is read in the scope of its command. -/
structure ScopedCases (table : Definitions) (invoke : Invocation)
    (N : Scope → Node → Meaning → Prop) (L : Scope → List Node → Meaning → Prop) : Prop where
  text : ∀ scope t, N scope (.text t) (.single (.text t.text))
  quotation : ∀ scope q, N scope (.quotation q) (.single (.text q.text))
  misplaced : ∀ scope t, N scope (.misplaced t) (.single (.text t.text))
  definition : ∀ scope d, N scope (.definition d) .empty
  nil : ∀ scope, L scope [] .empty
  cons : ∀ {scope n ns d e}, N scope n d → L scope ns e → L scope (n :: ns) (d.append e)
  block : ∀ {scope b d}, L scope b.children d → N scope (.block b) (d.wrap .fragment)
  problem : ∀ {c d} scope, c.denote table invoke scope = .problem d → d.isError →
    d.span = c.span → N scope (.command c) (.problem d)
  /-- An element that holds no content of the document. -/
  bare : ∀ {c builtin given} scope, Vocabulary.find? c.name = some builtin →
    SortedArguments.ofList? c.arguments = some given → builtin.role.shape.accepts given →
    ¬ builtin.role.holdsContent →
    N scope (.command c) (Meaning.empty.wrap (builtin.element given scope))
  /-- An element around its body. -/
  body : ∀ {c builtin given b d} scope, Vocabulary.find? c.name = some builtin →
    SortedArguments.ofList? c.arguments = some given → builtin.role.shape.accepts given →
    builtin.role.holdsContent → given.body = some b → .block b ∈ c.arguments →
    L (scope.push c.name) b.children d →
    N scope (.command c) (d.wrap (builtin.element given scope))

namespace ScopedCases

variable {table : Definitions} {invoke : Invocation} {N : Scope → Node → Meaning → Prop}
  {L : Scope → List Node → Meaning → Prop}

theorem denoteAll (h : ScopedCases table invoke N L) {ns : List Node} {scope : Scope}
    (hns : ∀ n ∈ ns, N scope n (n.denote table invoke scope)) :
    L scope ns (Node.denoteAll table invoke scope ns) := by
  induction ns with
  | nil => exact h.nil scope
  | cons n ns ih =>
    obtain ⟨hn, hns⟩ := List.forall_mem_cons.mp hns
    exact h.cons hn (ih hns)

/-- A command, given what its blocks denote. -/
theorem denote_command (h : ScopedCases table invoke N L)
    (hinvoke : ∀ c scope, invoke c scope = none) {c : Command}
    (hblocks : ∀ b, .block b ∈ c.arguments →
      ∀ scope, L scope b.children (b.denoteChildren table invoke scope)) (scope : Scope) :
    N scope (.command c) (c.denote table invoke scope) := by
  obtain ⟨ident, arguments, clause⟩ := c
  rcases @Command.denote_cases table invoke hinvoke scope ident arguments clause with
    ⟨d, herror, hdenote⟩ | ⟨builtin, given, hfind, hgiven, haccepts, hdenote⟩
  · have hspan := Command.span_of_denote_eq_problem hinvoke hdenote
    rw [hdenote]
    exact h.problem scope hdenote herror hspan
  rw [hdenote]
  by_cases hholds : builtin.role.holdsContent
  · obtain ⟨b, hb⟩ := builtin.role.body_of_holdsContent hholds haccepts
    have hmem : .block b ∈ arguments := by
      rw [SortedArguments.body_eq hgiven] at hb
      exact (Argument.mem_of_body? hb).1
    rw [if_pos hholds, Argument.denoteLast_eq hgiven hb]
    exact h.body scope hfind hgiven haccepts hholds hb hmem (hblocks b hmem _)
  · rw [if_neg hholds]
    exact h.bare scope hfind hgiven haccepts hholds

theorem treeCases (h : ScopedCases table invoke N L)
    (hinvoke : ∀ c scope, invoke c scope = none) :
    TreeCases (fun n => ∀ scope, N scope n (n.denote table invoke scope))
      (fun b => ∀ scope, L scope b.children (b.denoteChildren table invoke scope))
      (fun a => ∀ b, a = .block b →
        ∀ scope, L scope b.children (b.denoteChildren table invoke scope)) where
  text t scope := h.text scope t
  quotation q scope := h.quotation scope q
  misplaced t scope := h.misplaced scope t
  definition d scope := h.definition scope d
  command ident arguments clause ih scope :=
    h.denote_command hinvoke (fun b hb => ih _ hb b rfl) scope
  block b ih scope := h.block (ih scope)
  children opening children closing ih scope := h.denoteAll fun n hn => ih n hn scope
  argument b ih := by
    rintro _ ⟨⟩
    exact ih
  script operator operand _ := by rintro _ ⟨⟩

/-- The denotation of a document in which nothing is expanded. -/
theorem document (h : ScopedCases table (Expander.never.invocation table 0) N L)
    (doc : Document) : L .root doc.nodes (doc.denote table) :=
  h.denoteAll fun n _ => (h.treeCases fun _ _ => rfl).node n .root

end ScopedCases

/-- What is to be shown where it does not depend on the scope. -/
structure DenotationCases (table : Definitions) (invoke : Invocation)
    (N : Node → Meaning → Prop) (L : List Node → Meaning → Prop) : Prop where
  text : ∀ t, N (.text t) (.single (.text t.text))
  quotation : ∀ q, N (.quotation q) (.single (.text q.text))
  misplaced : ∀ t, N (.misplaced t) (.single (.text t.text))
  definition : ∀ d, N (.definition d) .empty
  nil : L [] .empty
  cons : ∀ {n ns d e}, N n d → L ns e → L (n :: ns) (d.append e)
  block : ∀ {b d}, L b.children d → N (.block b) (d.wrap .fragment)
  problem : ∀ {c d scope}, c.denote table invoke scope = .problem d → d.isError →
    d.span = c.span → N (.command c) (.problem d)
  /-- An element that holds no content of the document. -/
  bare : ∀ {c builtin given} scope, Vocabulary.find? c.name = some builtin →
    SortedArguments.ofList? c.arguments = some given → builtin.role.shape.accepts given →
    ¬ builtin.role.holdsContent →
    N (.command c) (Meaning.empty.wrap (builtin.element given scope))
  /-- An element around its body. -/
  body : ∀ {c builtin given b d} scope, Vocabulary.find? c.name = some builtin →
    SortedArguments.ofList? c.arguments = some given → builtin.role.shape.accepts given →
    builtin.role.holdsContent → given.body = some b → .block b ∈ c.arguments → L b.children d →
    N (.command c) (d.wrap (builtin.element given scope))

namespace DenotationCases

variable {table : Definitions} {invoke : Invocation} {N : Node → Meaning → Prop}
  {L : List Node → Meaning → Prop}

theorem inScope (h : DenotationCases table invoke N L) :
    ScopedCases table invoke (fun _ => N) (fun _ => L) where
  text _ := h.text
  quotation _ := h.quotation
  misplaced _ := h.misplaced
  definition _ := h.definition
  nil _ := h.nil
  cons := h.cons
  block := h.block
  problem _ := h.problem
  bare := h.bare
  body := h.body

/-- The denotation of a document in which nothing is expanded. -/
theorem document (h : DenotationCases table (Expander.never.invocation table 0) N L)
    (doc : Document) : L doc.nodes (doc.denote table) :=
  h.inScope.document doc

end DenotationCases

end AcademicMarkup
