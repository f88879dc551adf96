import AcademicMarkup.Proofs.ReadPlaces

/-!
How often a document has to be brought into normal form until it stays as it is. White space is cut
at the ends of a block before the unterminated blocks in it go, so a block may be left with white
space at an end where such a block stood. Nothing else is left to do, and it is done in the second
round: what comes out of that is its own normal form.
-/
namespace AcademicMarkup

/-- Whether a block begins or ends with white space. -/
def Block.hasBlankEdge (b : Block) : Bool :=
  b.children.head?.any Node.isBlank || b.children.getLast?.any Node.isBlank

namespace Subject

/-- Whether a block has its close and a command no clause. -/
def isWhole : Subject → Bool
  | block b => b.isTerminated
  | command c => c.clause.isNone
  | _ => true

def hasBlankEdge : Subject → Bool
  | block b => b.hasBlankEdge
  | _ => false

/-- Whether the normal form has nothing to change here. -/
def isSettled (x : Subject) : Bool := x.isWhole && !x.hasBlankEdge

end Subject

def Node.isUnterminated : Node → Bool
  | .block b => !b.isTerminated
  | _ => false

/-- Whether white space comes to an end of the block when unterminated children go: after the white
space at the ends is cut, there is more of it next to the unterminated blocks at an end. -/
def Block.exposesBlank (b : Block) : Bool :=
  ((Node.trim b.children).dropWhile Node.isUnterminated).head?.any Node.isBlank ||
    ((Node.trim b.children).reverse.dropWhile Node.isUnterminated).head?.any Node.isBlank

theorem Node.normal?_eq_none_iff (n : Node) : n.normal? = none ↔ n.isUnterminated := by
  cases n with
  | text t => simp [Node.normal?, Node.isUnterminated]
  | quotation q => simp [Node.normal?, Node.isUnterminated]
  | misplaced t => simp [Node.normal?, Node.isUnterminated]
  | command c => simp [Node.normal?, Node.isUnterminated]
  | definition d => simp [Node.normal?, Node.isUnterminated]
  | block b =>
    obtain ⟨opening, children, closing⟩ := b
    cases closing with
    | none => simp [Node.normal?, Block.normal?, Node.isUnterminated, Block.isTerminated]
    | some closing =>
      simp [Node.normal?, Block.normal?_closed, Node.isUnterminated, Block.isTerminated]

/-- The first node that stays decides whether a normal form begins with white space. -/
theorem Node.any_head?_filterMap_normal? (ns : List Node) :
    (ns.filterMap Node.normal?).head?.any Node.isBlank =
      (ns.dropWhile Node.isUnterminated).head?.any Node.isBlank := by
  induction ns with
  | nil => rfl
  | cons n ns ih =>
    cases h : n.normal? with
    | none =>
      rw [List.filterMap_cons_none h, List.dropWhile_cons_of_pos (n.normal?_eq_none_iff.mp h), ih]
    | some m =>
      have hstays : ¬ n.isUnterminated := by
        rw [← n.normal?_eq_none_iff, h]
        exact Option.some_ne_none m
      have hblank := n.any_isBlank_normal?
      rw [h] at hblank
      rw [List.filterMap_cons_some h, List.dropWhile_cons_of_neg hstays]
      exact hblank

theorem Block.hasBlankEdge_normal (opening : Token) (children : List Node) (closing : Token) :
    Block.hasBlankEdge ⟨opening, (Node.trim children).filterMap Node.normal?, some closing⟩ =
      Block.exposesBlank ⟨opening, children, some closing⟩ := by
  simp only [Block.hasBlankEdge, Block.exposesBlank, ← List.head?_reverse,
    ← List.filterMap_reverse, Node.any_head?_filterMap_normal?]

/-! What a normal form consists of. -/

theorem normalSubjects_whole :
    PlainCases (fun n => ∀ x ∈ n.normalSubjects, x.isWhole)
      (fun b => ∀ x ∈ b.normalSubjects, x.isWhole)
      (fun a => ∀ x ∈ a.normalSubjects, x.isWhole) :=
  normalSubjects_cases (fun _ => rfl) (fun _ => rfl) (fun _ => rfl) (fun _ => rfl)
    (fun _ _ _ => rfl) (fun _ _ => rfl) (fun _ _ => rfl)

/-- A normal form has white space at the ends of its blocks where a block that was met on the way
exposes it. -/
theorem normalSubjects_blankEdge_iff :
    PlainCases
      (fun n => (∀ x ∈ n.normalSubjects, ¬ x.hasBlankEdge) ↔
        ∀ b ∈ n.reachedBlocks, b.isTerminated → ¬ b.exposesBlank)
      (fun b => (∀ x ∈ b.normalSubjects, ¬ x.hasBlankEdge) ↔
        ∀ b' ∈ b.reachedBlocks, b'.isTerminated → ¬ b'.exposesBlank)
      (fun a => (∀ x ∈ a.normalSubjects, ¬ x.hasBlankEdge) ↔
        ∀ b ∈ a.reachedBlocks, b.isTerminated → ¬ b.exposesBlank) where
  text t := by simp [Node.normalSubjects, Node.normal?, Subject.hasBlankEdge, Node.reachedBlocks]
  quotation q := by
    simp [Node.normalSubjects, Node.normal?, Subject.hasBlankEdge, Node.reachedBlocks]
  misplaced t := by
    simp [Node.normalSubjects, Node.normal?, Subject.hasBlankEdge, Node.reachedBlocks]
  command ident arguments clause ih := by
    rw [Node.normalSubjects_command, Node.reachedBlocks_command, List.forall_mem_cons,
      List.forall_mem_cons, List.forall_mem_flatMap, List.forall_mem_flatMap]
    simp only [Subject.hasBlankEdge, Bool.false_eq_true, not_false_eq_true, true_and]
    exact forall₂_congr ih
  block b ih := by
    rw [Node.normalSubjects_block, List.forall_mem_append, Node.reachedBlocks, ← ih]
    simp [Subject.hasBlankEdge]
  children opening children closing ih := by
    cases closing with
    | none => simp [Block.normalSubjects_unclosed, Block.reachedBlocks, Block.isTerminated]
    | some closing =>
      rw [Block.normalSubjects_closed, Block.reachedBlocks_closed, List.forall_mem_cons,
        List.forall_mem_cons, List.forall_mem_flatMap, List.forall_mem_flatMap,
        Subject.hasBlankEdge, Block.hasBlankEdge_normal]
      have hparts := forall₂_congr fun n hn => ih n (Node.mem_of_mem_trim hn)
      rw [hparts]
      simp [Block.isTerminated]
  argument b ih := by rwa [Argument.normalSubjects_block, Argument.reachedBlocks]
  script operator operand ih := by
    rw [Argument.normalSubjects_script, List.forall_mem_append, Argument.reachedBlocks, ← ih]
    simp [Subject.hasBlankEdge]

theorem Node.not_isUnterminated {n : Node} (h : ∀ x ∈ n.subjects, x.isWhole) :
    ¬ n.isUnterminated := by
  cases n with
  | block b =>
    obtain ⟨opening, children, closing⟩ := b
    have hblock := h (.block ⟨opening, children, closing⟩) (by simp)
    simpa [Node.isUnterminated, Subject.isWhole] using hblock
  | text t => simp [Node.isUnterminated]
  | quotation q => simp [Node.isUnterminated]
  | misplaced t => simp [Node.isUnterminated]
  | command c => simp [Node.isUnterminated]
  | definition d => simp [Node.isUnterminated]

theorem Block.not_exposesBlank {b : Block} (h : ∀ n ∈ b.children, ¬ n.isUnterminated) :
    ¬ b.exposesBlank := by
  have hstays : ∀ ns : List Node, (∀ n ∈ ns, n ∈ Node.trim b.children) →
      ns.dropWhile Node.isUnterminated = ns := by
    intro ns hns
    apply dropWhile_eq_self
    cases ns with
    | nil => rfl
    | cons n ns =>
      have hn := h n (Node.mem_of_mem_trim (hns n List.mem_cons_self))
      simpa using hn
  rw [Block.exposesBlank, hstays _ fun n hn => hn, hstays _ fun n hn => List.mem_reverse.mp hn,
    List.head?_reverse, Node.trim, any_head?_trimBy, any_getLast?_trimBy]
  exact Bool.false_ne_true

/-- Where no block lacks its close, none exposes white space. -/
theorem reachedBlocks_of_whole :
    TreeCases
      (fun n => (∀ x ∈ n.subjects, x.isWhole) → ∀ b ∈ n.reachedBlocks, ¬ b.exposesBlank)
      (fun b => (∀ x ∈ b.subjects, x.isWhole) → ∀ b' ∈ b.reachedBlocks, ¬ b'.exposesBlank)
      (fun a => (∀ x ∈ a.subjects, x.isWhole) → ∀ b ∈ a.reachedBlocks, ¬ b.exposesBlank) where
  text t := by simp [Node.reachedBlocks]
  quotation q := by simp [Node.reachedBlocks]
  misplaced t := by simp [Node.reachedBlocks]
  definition d := by simp [Node.reachedBlocks]
  command ident arguments clause ih := by
    intro h
    rw [Node.subjects_command, Command.subjects_mk] at h
    rw [Node.reachedBlocks_command, List.forall_mem_flatMap]
    intro a ha
    apply ih a ha
    intro x hx
    exact h x (by simp only [List.mem_cons, List.mem_append, List.mem_flatMap]; grind)
  block b ih := by
    intro h
    exact ih fun x hx => h x (List.mem_cons_of_mem _ hx)
  children opening children closing ih := by
    intro h
    rw [Block.subjects_mk, List.forall_mem_cons, List.forall_mem_flatMap] at h
    obtain ⟨hclosing, hparts⟩ := h
    cases closing with
    | none => cases hclosing
    | some closing =>
      rw [Block.reachedBlocks_closed, List.forall_mem_cons, List.forall_mem_flatMap]
      refine ⟨Block.not_exposesBlank ?_, fun n hn => ih n (Node.mem_of_mem_trim hn) ?_⟩
      · exact fun n hn => Node.not_isUnterminated (hparts n hn)
      · exact hparts n (Node.mem_of_mem_trim hn)
  argument b ih := by
    intro h
    exact ih h
  script operator operand ih := by
    intro h
    exact ih fun x hx => h x (List.mem_cons_of_mem _ hx)

/-! Constructs that are their own normal form. -/

theorem filterMap_eq_self_iff {α : Type} {f : α → Option α} {xs : List α} :
    xs.filterMap f = xs ↔ ∀ x ∈ xs, f x = some x := by
  constructor
  · intro h
    induction xs with
    | nil => simp
    | cons x xs ih =>
      cases hx : f x with
      | none =>
        rw [List.filterMap_cons_none hx] at h
        have hlength := List.length_filterMap_le f xs
        rw [h, List.length_cons] at hlength
        omega
      | some y =>
        rw [List.filterMap_cons_some hx, List.cons.injEq] at h
        obtain ⟨rfl, hrest⟩ := h
        exact List.forall_mem_cons.mpr ⟨hx, ih hrest⟩
  · intro h
    rw [List.filterMap_congr h, List.filterMap_some]

/-- Neither cutting nor dropping may take a child away. -/
theorem Block.normal?_eq_self_iff (opening : Token) (children : List Node) (closing : Token) :
    Block.normal? ⟨opening, children, some closing⟩ = some ⟨opening, children, some closing⟩ ↔
      ¬ Block.hasBlankEdge ⟨opening, children, some closing⟩ ∧
        ∀ n ∈ children, n.normal? = some n := by
  rw [Block.normal?_closed, Option.some.injEq, Block.mk.injEq]
  simp only [true_and, and_true, Block.hasBlankEdge, Bool.or_eq_true, not_or, Bool.not_eq_true]
  rw [← filterMap_eq_self_iff]
  constructor
  · intro h
    have htrim : Node.trim children = children := by
      apply (trimBy_sublist Node.isBlank children).eq_of_length
      apply Nat.le_antisymm (trimBy_sublist Node.isBlank children).length_le
      calc children.length = ((Node.trim children).filterMap Node.normal?).length := by rw [h]
        _ ≤ (Node.trim children).length := List.length_filterMap_le _ _
    rw [htrim] at h
    refine ⟨⟨?_, ?_⟩, h⟩
    · rw [← htrim]
      exact any_head?_trimBy _ _
    · rw [← htrim]
      exact any_getLast?_trimBy _ _
  · rintro ⟨⟨hhead, hlast⟩, h⟩
    rwa [Node.trim, trimBy_eq_self hhead hlast]

theorem normal?_eq_self_iff_settled :
    PlainCases (fun n => n.normal? = some n ↔ ∀ x ∈ n.subjects, x.isSettled)
      (fun b => b.normal? = some b ↔ ∀ x ∈ b.subjects, x.isSettled)
      (fun a => a.normal? = some a ↔ ∀ x ∈ a.subjects, x.isSettled) where
  text t := by simp [Node.normal?, Subject.isSettled, Subject.isWhole, Subject.hasBlankEdge]
  quotation q := by simp [Node.normal?, Subject.isSettled, Subject.isWhole, Subject.hasBlankEdge]
  misplaced t := by simp [Node.normal?, Subject.isSettled, Subject.isWhole, Subject.hasBlankEdge]
  command ident arguments clause ih := by
    rw [Node.normal?, Command.normal, Option.some.injEq, Node.command.injEq, Command.mk.injEq,
      Argument.normals_eq, filterMap_eq_self_iff, forall₂_congr ih, Node.subjects_command,
      Command.subjects_mk, List.forall_mem_cons, List.forall_mem_cons, List.forall_mem_append,
      List.forall_mem_flatMap]
    cases clause with
    | none => simp [Subject.isSettled, Subject.isWhole, Subject.hasBlankEdge]
    | some clause => simp [Subject.isSettled, Subject.isWhole, Subject.hasBlankEdge]
  block b ih := by
    rw [Node.normal?, Node.subjects_block, List.forall_mem_cons, ← ih]
    simp [Subject.isSettled, Subject.isWhole, Subject.hasBlankEdge]
  children opening children closing ih := by
    rw [Block.subjects_mk, List.forall_mem_cons, List.forall_mem_flatMap]
    cases closing with
    | none => simp [Block.normal?, Subject.isSettled, Subject.isWhole, Block.isTerminated]
    | some closing =>
      rw [Block.normal?_eq_self_iff, forall₂_congr ih]
      simp [Subject.isSettled, Subject.isWhole, Subject.hasBlankEdge, Block.isTerminated]
  argument b ih := by
    rw [Argument.normal?, Argument.subjects_block, ← ih]
    simp
  script operator operand ih := by
    rw [Argument.normal?, Argument.subjects_script, List.forall_mem_cons, ← ih]
    simp [Subject.isSettled, Subject.isWhole, Subject.hasBlankEdge]

namespace Document

theorem normal_eq_self_iff {doc : Document} (hdoc : NodesDefineNothing doc) :
    normal doc = doc ↔ ∀ x ∈ nodeSubjects doc, x.isSettled := by
  have hitems : normal doc = doc ↔ ∀ n ∈ Document.nodes doc, n.normal? = some n := by
    rw [normal, normalForm, filterMap_eq_self_iff]
    constructor
    · intro h n hn
      simpa [Item.normal?] using h (.node n) (mem_nodes.mp hn)
    · intro h i hi
      cases i with
      | node n => simp [Item.normal?, h n (mem_nodes.mpr hi)]
      | definition d => rfl
  rw [hitems, nodeSubjects, List.forall_mem_flatMap]
  exact forall₂_congr fun n hn => normal?_eq_self_iff_settled.node (hdoc n hn)

theorem nodeSubjects_normal_whole {doc : Document} (hdoc : NodesDefineNothing doc) :
    ∀ x ∈ nodeSubjects (normal doc), x.isWhole := by
  rw [nodeSubjects_normal, List.forall_mem_flatMap]
  exact fun n hn => normalSubjects_whole.node (hdoc n hn)

theorem normal_normal_eq_iff {doc : Document} (hdoc : NodesDefineNothing doc) :
    normal (normal doc) = normal doc ↔
      ∀ x ∈ nodeSubjects (normal doc), ¬ x.hasBlankEdge := by
  rw [normal_eq_self_iff hdoc.normal]
  have hwhole := nodeSubjects_normal_whole hdoc
  refine forall₂_congr fun x hx => ?_
  simp [Subject.isSettled, hwhole x hx]

theorem blankEdge_normal_iff {doc : Document} (hdoc : NodesDefineNothing doc) :
    (∀ x ∈ nodeSubjects (normal doc), ¬ x.hasBlankEdge) ↔
      ∀ b ∈ Document.reachedBlocks doc, b.isTerminated → ¬ b.exposesBlank := by
  rw [nodeSubjects_normal, Document.reachedBlocks, List.forall_mem_flatMap,
    List.forall_mem_flatMap]
  exact forall₂_congr fun n hn => normalSubjects_blankEdge_iff.node (hdoc n hn)

/-- In normal form every block has its close and no command a clause. The normal form stays as it is
exactly where no block of it begins or ends with white space, and that is where no block that was
written exposes white space. In any case the second normal form is the last. -/
theorem normal_settles (source : String) :
    (∀ x ∈ nodeSubjects (normal (ofSource source)), x.isWhole) ∧
    (normal (normal (ofSource source)) = normal (ofSource source) ↔
      ∀ x ∈ nodeSubjects (normal (ofSource source)), ¬ x.hasBlankEdge) ∧
    (normal (normal (ofSource source)) = normal (ofSource source) ↔
      ∀ b ∈ reachedBlocks (ofSource source), b.isTerminated → ¬ b.exposesBlank) ∧
    normal (normal (normal (ofSource source))) = normal (normal (ofSource source)) := by
  have hdoc : NodesDefineNothing (ofSource source) := nodesDefineNothing_ofTokens true _
  refine ⟨nodeSubjects_normal_whole hdoc, normal_normal_eq_iff hdoc, ?_, ?_⟩
  · rw [normal_normal_eq_iff hdoc, blankEdge_normal_iff hdoc]
  · rw [normal_normal_eq_iff hdoc.normal, blankEdge_normal_iff hdoc.normal, reachedBlocks,
      List.forall_mem_flatMap]
    have hwhole := nodeSubjects_normal_whole hdoc
    rw [nodeSubjects, List.forall_mem_flatMap] at hwhole
    exact fun n hn b hb _ => reachedBlocks_of_whole.node n (hwhole n hn) b hb

theorem normal_settles_paragraph :
    (∀ b ∈ reachedBlocks (ofSource "\\p\x7b a [ b](c\x7d\x7b"), b.isTerminated → ¬ b.exposesBlank) ∧
    normal (normal (ofSource "\\p\x7b a [ b](c\x7d\x7b")) =
      normal (ofSource "\\p\x7b a [ b](c\x7d\x7b") := by
  have h : ∀ b ∈ reachedBlocks (ofSource "\\p\x7b a [ b](c\x7d\x7b"),
      b.isTerminated → ¬ b.exposesBlank := by decide +kernel
  exact ⟨h, (normal_settles _).2.2.1.mpr h⟩

/-- An unterminated bracket leaves the white space before it at the end of the block. -/
theorem normal_not_settled :
    (∃ x ∈ nodeSubjects (normal (ofSource "\x7ba (\x7d")), x.hasBlankEdge) ∧
    normal (normal (ofSource "\x7ba (\x7d")) ≠ normal (ofSource "\x7ba (\x7d") := by
  have hedge : ∃ x ∈ nodeSubjects (normal (ofSource "\x7ba (\x7d")), x.hasBlankEdge := by
    decide +kernel
  refine ⟨hedge, ?_⟩
  intro heq
  obtain ⟨x, hx, hblank⟩ := hedge
  exact (normal_normal_eq_iff (nodesDefineNothing_ofTokens true _)).mp heq x hx hblank

end Document

end AcademicMarkup
