import AcademicMarkup.Denotation
import AcademicMarkup.Proofs.Subjects
import Mathlib.Data.List.DropRight

/-!
The normal form of blocks and arguments in terms of what was written. White space may be cut before
or after the children are brought into normal form, and the brackets of a block stay as they are, so
the body of a command is found before or after as well. The parts of a normal form are listed along
the tree that was written, and so are the blocks that are met on the way to it.
-/
namespace AcademicMarkup

/-! Cutting a list at both ends. -/

theorem trimBy_map {α β : Type} (f : α → β) (test : β → Bool) (xs : List α) :
    trimBy test (xs.map f) = (trimBy (test ∘ f) xs).map f := by
  simp only [trimBy, List.dropWhile_map, ← List.map_reverse]

theorem trimBy_sublist {α : Type} (test : α → Bool) (xs : List α) :
    (trimBy test xs).Sublist xs := by
  have hend : (trimBy test xs).Sublist (xs.dropWhile test) := by
    have h := (List.dropWhile_sublist (l := (xs.dropWhile test).reverse) test).reverse
    rwa [List.reverse_reverse] at h
  exact hend.trans (List.dropWhile_sublist test)

section Trim

variable {α : Type} {test : α → Bool} {xs : List α}

/-- What is cut is a run at each end. -/
theorem exists_eq_trimBy (test : α → Bool) (xs : List α) :
    ∃ leading trailing, xs = leading ++ trimBy test xs ++ trailing ∧
      (∀ x ∈ leading, test x) ∧ ∀ x ∈ trailing, test x := by
  have hleading := List.takeWhile_append_dropWhile (p := test) (l := xs)
  have htrailing := List.takeWhile_append_dropWhile (p := test) (l := (xs.dropWhile test).reverse)
  refine ⟨xs.takeWhile test, ((xs.dropWhile test).reverse.takeWhile test).reverse, ?_,
    fun x hx => List.mem_takeWhile_imp hx,
    fun x hx => List.mem_takeWhile_imp (List.mem_reverse.mp hx)⟩
  rw [trimBy, List.append_assoc, ← List.reverse_append, htrailing, List.reverse_reverse, hleading]

theorem flatMap_trimBy {β : Type} {f : α → List β} (h : ∀ x, test x → f x = []) (xs : List α) :
    (trimBy test xs).flatMap f = xs.flatMap f := by
  obtain ⟨leading, trailing, heq, hleading, htrailing⟩ := exists_eq_trimBy test xs
  have hnil : ∀ ys : List α, (∀ y ∈ ys, test y) → ys.flatMap f = [] :=
    fun ys hys => List.flatMap_eq_nil_iff.mpr fun y hy => h y (hys y hy)
  conv_rhs => rw [heq, List.flatMap_append, List.flatMap_append, hnil _ hleading,
    hnil _ htrailing, List.nil_append, List.append_nil]

/-- What is cut stands in the run at one of the ends. -/
theorem mem_trimBy_or (test : α → Bool) {x : α} (h : x ∈ xs) :
    x ∈ trimBy test xs ∨ x ∈ xs.takeWhile test ∨ x ∈ xs.reverse.takeWhile test := by
  obtain ⟨leading, trailing, heq, hleading, htrailing⟩ := exists_eq_trimBy test xs
  have hrun : ∀ run rest : List α, (∀ y ∈ run, test y) → x ∈ run →
      x ∈ (run ++ rest).takeWhile test := by
    intro run rest hall hx
    rw [List.takeWhile_append_of_pos hall]
    exact List.mem_append_left _ hx
  rw [heq, List.mem_append, List.mem_append] at h
  rcases h with (h | h) | h
  · right; left
    rw [heq, List.append_assoc]
    exact hrun _ _ hleading h
  · exact Or.inl h
  · right; right
    rw [heq, List.reverse_append]
    exact hrun _ _ (by simpa using htrailing) (List.mem_reverse.mpr h)

theorem any_head?_dropWhile (test : α → Bool) (xs : List α) :
    (xs.dropWhile test).head?.any test = false := by
  have h := List.head?_dropWhile_not test xs
  cases hhead : (xs.dropWhile test).head? with
  | none => rfl
  | some x =>
    rw [hhead] at h
    exact h

theorem any_getLast?_trimBy (test : α → Bool) (xs : List α) :
    (trimBy test xs).getLast?.any test = false := by
  rw [trimBy, List.getLast?_reverse]
  exact any_head?_dropWhile test _

theorem any_head?_trimBy (test : α → Bool) (xs : List α) :
    (trimBy test xs).head?.any test = false := by
  have hprefix : trimBy test xs <+: xs.dropWhile test := List.rdropWhile_prefix test _
  obtain ⟨trailing, htrailing⟩ := hprefix
  have hhead := any_head?_dropWhile test xs
  rw [← htrailing] at hhead
  cases htrim : trimBy test xs with
  | nil => rfl
  | cons x rest => simpa [htrim] using hhead

theorem dropWhile_eq_self (h : xs.head?.any test = false) : xs.dropWhile test = xs := by
  cases xs with
  | nil => rfl
  | cons x xs => exact List.dropWhile_cons_of_neg (by simpa using h)

theorem trimBy_eq_self (hhead : xs.head?.any test = false)
    (hlast : xs.getLast?.any test = false) : trimBy test xs = xs := by
  rw [trimBy, dropWhile_eq_self hhead, dropWhile_eq_self (by rwa [List.head?_reverse]),
    List.reverse_reverse]

end Trim

theorem flatMap_filterMap {α β γ : Type} (f : α → Option β) (g : β → List γ) (xs : List α) :
    (xs.filterMap f).flatMap g = xs.flatMap fun x => (f x).toList.flatMap g := by
  induction xs with
  | nil => rfl
  | cons x xs ih => cases h : f x <;> simp [h, ih]

namespace Node

theorem defectsAll_eq (ns : List Node) : Node.defectsAll ns = ns.flatMap Node.defects := by
  induction ns with
  | nil => rfl
  | cons n ns ih => rw [Node.defectsAll, ih, List.flatMap_cons]

theorem mem_of_mem_trim {ns : List Node} {n : Node} (h : n ∈ Node.trim ns) : n ∈ ns :=
  (trimBy_sublist _ _).subset h

theorem normals_eq (ns : List Node) : Node.normals ns = ns.map Node.normal? := by
  induction ns with
  | nil => rfl
  | cons n ns ih => rw [Node.normals, ih, List.map_cons]

/-- White space is its own normal form, and nothing else becomes white space. -/
theorem any_isBlank_normal? (n : Node) : n.normal?.any Node.isBlank = n.isBlank := by
  cases n with
  | text t => simp [Node.normal?]
  | quotation q => simp [Node.normal?]
  | misplaced t => simp [Node.normal?]
  | command c => simp [Node.normal?, Node.isBlank, Node.token?]
  | block b =>
    cases h : b.normal? with
    | none => simp [Node.normal?, h, Node.isBlank, Node.token?]
    | some b' => simp [Node.normal?, h, Node.isBlank, Node.token?]
  | definition d => simp [Node.normal?]

end Node

namespace Block

theorem normal?_closed (opening : Token) (children : List Node) (closing : Token) :
    Block.normal? ⟨opening, children, some closing⟩ =
      some ⟨opening, (Node.trim children).filterMap Node.normal?, some closing⟩ := by
  have htest : (Option.any Node.isBlank ∘ Node.normal?) = Node.isBlank :=
    funext Node.any_isBlank_normal?
  rw [Block.normal?, Node.normals_eq, trimBy_map, htest, List.filterMap_map, Function.id_comp,
    Node.trim]

theorem kind?_normal? {b b' : Block} (h : b.normal? = some b') : b'.kind? = b.kind? := by
  obtain ⟨opening, children, closing⟩ := b
  cases closing with
  | none => simp [Block.normal?] at h
  | some closing =>
    rw [normal?_closed, Option.some.injEq] at h
    subst h
    rfl

/-- A block with a kind has both brackets and so a normal form. -/
theorem normal?_isSome_of_isKind {b : Block} {kind : Enclosure} (h : b.isKind kind) :
    b.normal?.isSome := by
  obtain ⟨opening, children, closing⟩ := b
  cases closing with
  | none => simp [Block.isKind, Block.kind?] at h
  | some closing => simp [normal?_closed]

end Block

namespace Argument

theorem defectsAll_eq (as : List Argument) :
    Argument.defectsAll as = as.flatMap Argument.defects := by
  induction as with
  | nil => rfl
  | cons a as ih => rw [Argument.defectsAll, ih, List.flatMap_cons]

theorem normals_eq (as : List Argument) :
    Argument.normals as = as.filterMap Argument.normal? := by
  induction as with
  | nil => rfl
  | cons a as ih => cases h : a.normal? <;> simp [Argument.normals, h, ih]

theorem eq_block_of_blockOf? {a : Argument} {kind : Enclosure} {b : Block}
    (h : a.blockOf? kind = some b) : a = .block b ∧ b.isKind kind := by
  cases a with
  | script operator operand => simp [Argument.blockOf?, Argument.block?] at h
  | block b' =>
    obtain ⟨hblock, hkind⟩ := Option.filter_eq_some_iff.mp h
    cases hblock
    exact ⟨rfl, hkind⟩

/-- The first argument that is a block in braces. -/
def body? (as : List Argument) : Option Block := as.findSome? (·.blockOf? .brace)

theorem body?_cons_of_eq_none {a : Argument} (h : a.blockOf? .brace = none) (as : List Argument) :
    body? (a :: as) = body? as := by
  simp [body?, h]

theorem body?_block_cons (b : Block) (as : List Argument) :
    body? (.block b :: as) = if b.isKind .brace then some b else body? as := by
  by_cases h : b.isKind .brace <;> simp [body?, blockOf?, block?, h]

theorem body?_script_cons (operator : Token) (operand : Node) (as : List Argument) :
    body? (.script operator operand :: as) = body? as :=
  body?_cons_of_eq_none rfl as

theorem body?_normals (as : List Argument) :
    body? (Argument.normals as) = (body? as).bind Block.normal? := by
  induction as with
  | nil => rfl
  | cons a as ih =>
    cases a with
    | script operator operand =>
      rw [Argument.normals, Argument.normal?, body?_script_cons]
      cases operand.normal? with
      | none => exact ih
      | some operand' => exact (body?_script_cons operator operand' _).trans ih
    | block b =>
      rw [Argument.normals, Argument.normal?, body?_block_cons]
      cases h : b.normal? with
      | none =>
        have hkind : ¬ b.isKind .brace := by
          intro hkind
          simpa [h] using Block.normal?_isSome_of_isKind hkind
        simpa [hkind] using ih
      | some b' =>
        have hkind : b'.isKind .brace = b.isKind .brace := by
          simp only [Block.isKind, Block.kind?_normal? h]
        change body? (.block b' :: Argument.normals as) = _
        rw [body?_block_cons, hkind]
        by_cases hbrace : b.isKind .brace
        · simp [hbrace, h]
        · simpa [hbrace] using ih

theorem mem_of_body? {as : List Argument} {b : Block} (h : body? as = some b) :
    .block b ∈ as ∧ b.isKind .brace := by
  obtain ⟨a, ha, hblock⟩ := List.exists_of_findSome?_eq_some h
  obtain ⟨rfl, hkind⟩ := eq_block_of_blockOf? hblock
  exact ⟨ha, hkind⟩

/-- The body of a command does not go in the normal form. -/
theorem body?_eq_none {as : List Argument} (h : (body? as).bind Block.normal? = none) :
    body? as = none := by
  cases hbody : body? as with
  | none => rfl
  | some b =>
    have hsome := Block.normal?_isSome_of_isKind (mem_of_body? hbody).2
    rw [hbody] at h
    simp [show b.normal? = none from h] at hsome

end Argument

namespace Document

theorem mem_nodes {doc : Document} {n : Node} : n ∈ Document.nodes doc ↔ Item.node n ∈ doc := by
  rw [Document.nodes, List.mem_filterMap]
  constructor
  · rintro ⟨i, hi, hn⟩
    cases i with
    | node m =>
      cases hn
      exact hi
    | definition d => cases hn
  · intro h
    exact ⟨.node n, h, rfl⟩

theorem nodes_normalForm (doc : Document) :
    Document.nodes (Document.normalForm doc).document =
      (Document.nodes doc).filterMap Node.normal? := by
  simp only [Document.nodes, Document.normalForm, List.filterMap_filterMap]
  congr 1
  funext i
  cases i with
  | node n => cases h : n.normal? <;> simp [Item.normal?, h]
  | definition d => rfl

end Document

/-! The parts of a normal form. -/

/-- The subjects of the normal form of a node, none if it has no normal form. -/
def Node.normalSubjects (n : Node) : List Subject := n.normal?.toList.flatMap Node.subjects

def Block.normalSubjects (b : Block) : List Subject := b.normal?.toList.flatMap Block.subjects

def Argument.normalSubjects (a : Argument) : List Subject :=
  a.normal?.toList.flatMap Argument.subjects

theorem Node.flatMap_subjects_filterMap (ns : List Node) :
    (ns.filterMap Node.normal?).flatMap Node.subjects = ns.flatMap Node.normalSubjects :=
  flatMap_filterMap _ _ ns

theorem Block.normalSubjects_unclosed (opening : Token) (children : List Node) :
    Block.normalSubjects ⟨opening, children, none⟩ = [] := rfl

theorem Block.normalSubjects_closed (opening : Token) (children : List Node) (closing : Token) :
    Block.normalSubjects ⟨opening, children, some closing⟩ =
      .block ⟨opening, (Node.trim children).filterMap Node.normal?, some closing⟩ ::
        (Node.trim children).flatMap Node.normalSubjects := by
  simp [Block.normalSubjects, Block.normal?_closed, Node.flatMap_subjects_filterMap]

theorem Node.normalSubjects_command (ident : Token) (arguments : List Argument)
    (clause : Option Clause) :
    (Node.command ⟨ident, arguments, clause⟩).normalSubjects =
      .node (.command ⟨ident, Argument.normals arguments, none⟩) ::
        .command ⟨ident, Argument.normals arguments, none⟩ ::
          arguments.flatMap Argument.normalSubjects := by
  have harguments : (Argument.normals arguments).flatMap Argument.subjects =
      arguments.flatMap Argument.normalSubjects := by
    rw [Argument.normals_eq]
    exact flatMap_filterMap _ _ arguments
  simp [Node.normalSubjects, Node.normal?, Command.normal, harguments]

theorem Node.normalSubjects_block (b : Block) :
    (Node.block b).normalSubjects =
      b.normal?.toList.map (Subject.node ∘ Node.block) ++ b.normalSubjects := by
  cases h : b.normal? <;> simp [Node.normalSubjects, Block.normalSubjects, Node.normal?, h]

theorem Argument.normalSubjects_block (b : Block) :
    (Argument.block b).normalSubjects = b.normalSubjects := by
  cases h : b.normal? <;> simp [Argument.normalSubjects, Block.normalSubjects, Argument.normal?, h]

theorem Argument.normalSubjects_script (operator : Token) (operand : Node) :
    (Argument.script operator operand).normalSubjects =
      operand.normal?.toList.map (Subject.script operator) ++ operand.normalSubjects := by
  cases h : operand.normal? <;>
    simp [Argument.normalSubjects, Node.normalSubjects, Argument.normal?, h]

/-- What holds of every leaf, of blocks with their close and of commands without a clause holds of
all that a normal form without definitions consists of. -/
theorem normalSubjects_cases {P : Subject → Prop} (node : ∀ n, P (.node n))
    (text : ∀ t, P (.text t)) (quotation : ∀ q, P (.quotation q))
    (misplaced : ∀ t, P (.misplaced t))
    (block : ∀ opening children closing, P (.block ⟨opening, children, some closing⟩))
    (command : ∀ ident arguments, P (.command ⟨ident, arguments, none⟩))
    (script : ∀ operator operand, P (.script operator operand)) :
    PlainCases (fun n => ∀ x ∈ n.normalSubjects, P x) (fun b => ∀ x ∈ b.normalSubjects, P x)
      (fun a => ∀ x ∈ a.normalSubjects, P x) where
  text t := by simp [Node.normalSubjects, Node.normal?, node, text]
  quotation q := by simp [Node.normalSubjects, Node.normal?, node, quotation]
  misplaced t := by simp [Node.normalSubjects, Node.normal?, node, misplaced]
  command ident arguments clause ih := by
    rw [Node.normalSubjects_command]
    refine List.forall_mem_cons.mpr ⟨node _, List.forall_mem_cons.mpr ⟨command _ _, ?_⟩⟩
    exact List.forall_mem_flatMap.mpr ih
  block b ih := by
    rw [Node.normalSubjects_block]
    refine List.forall_mem_append.mpr ⟨?_, ih⟩
    simp [node]
  children opening children closing ih := by
    cases closing with
    | none => simp [Block.normalSubjects_unclosed]
    | some closing =>
      rw [Block.normalSubjects_closed]
      refine List.forall_mem_cons.mpr ⟨block _ _ _, List.forall_mem_flatMap.mpr ?_⟩
      exact fun n hn => ih n (Node.mem_of_mem_trim hn)
  argument b ih := by rwa [Argument.normalSubjects_block]
  script operator operand ih := by
    rw [Argument.normalSubjects_script]
    refine List.forall_mem_append.mpr ⟨?_, ih⟩
    simp [script]

namespace Document

/-- The document in normal form. -/
def normal (doc : Document) : Document := doc.normalForm.document

/-- What the document consists of outside its definitions. -/
def nodeSubjects (doc : Document) : List Subject := doc.nodes.flatMap Node.subjects

theorem nodeSubjects_normal (doc : Document) :
    nodeSubjects (normal doc) = doc.nodes.flatMap Node.normalSubjects := by
  rw [nodeSubjects, normal, nodes_normalForm, Node.flatMap_subjects_filterMap]

/-- No definition is met inside a node. -/
def NodesDefineNothing (doc : Document) : Prop := ∀ n ∈ doc.nodes, DefinesNothing n.subjects

theorem NodesDefineNothing.normal {doc : Document} (h : NodesDefineNothing doc) :
    NodesDefineNothing (normal doc) := by
  have hcases := normalSubjects_cases (P := fun x => x.definition? = none) (fun _ => rfl)
    (fun _ => rfl) (fun _ => rfl) (fun _ => rfl) (fun _ _ _ => rfl) (fun _ _ => rfl)
    (fun _ _ => rfl)
  have hparts : DefinesNothing (nodeSubjects (Document.normal doc)) := by
    rw [nodeSubjects_normal]
    exact List.forall_mem_flatMap.mpr fun n hn => hcases.node (h n hn)
  exact fun n hn x hx => hparts x (List.mem_flatMap.mpr ⟨n, hn, hx⟩)

end Document

/-! The blocks on the way to a normal form. -/

mutual

/-- The blocks that are met when a node is brought into normal form. An unterminated block is met
but not entered, and clauses and definitions are not looked into. -/
def Node.reachedBlocks : Node → List Block
  | .text _ => []
  | .quotation _ => []
  | .misplaced _ => []
  | .command c => c.reachedBlocks
  | .block b => b.reachedBlocks
  | .definition _ => []

def Node.reachedBlocksAll : List Node → List Block
  | [] => []
  | n :: ns => n.reachedBlocks ++ Node.reachedBlocksAll ns

def Block.reachedBlocks : Block → List Block
  | ⟨opening, children, none⟩ => [⟨opening, children, none⟩]
  | ⟨opening, children, some closing⟩ =>
    ⟨opening, children, some closing⟩ :: Node.reachedBlocksAll children

def Command.reachedBlocks : Command → List Block
  | ⟨_, arguments, _⟩ => Argument.reachedBlocksAll arguments

def Argument.reachedBlocks : Argument → List Block
  | .block b => b.reachedBlocks
  | .script _ operand => operand.reachedBlocks

def Argument.reachedBlocksAll : List Argument → List Block
  | [] => []
  | a :: as => a.reachedBlocks ++ Argument.reachedBlocksAll as

end

def Document.reachedBlocks (doc : Document) : List Block := doc.nodes.flatMap Node.reachedBlocks

theorem Node.reachedBlocksAll_eq (ns : List Node) :
    Node.reachedBlocksAll ns = ns.flatMap Node.reachedBlocks := by
  induction ns with
  | nil => rfl
  | cons n ns ih => rw [Node.reachedBlocksAll, ih, List.flatMap_cons]

theorem Argument.reachedBlocksAll_eq (as : List Argument) :
    Argument.reachedBlocksAll as = as.flatMap Argument.reachedBlocks := by
  induction as with
  | nil => rfl
  | cons a as ih => rw [Argument.reachedBlocksAll, ih, List.flatMap_cons]

/-- White space is text. -/
theorem Node.eq_text_of_isBlank {n : Node} (h : n.isBlank) : ∃ t, n = .text t ∧ t.isBlank := by
  cases n with
  | text t => exact ⟨t, rfl, h⟩
  | quotation q => cases h
  | misplaced t => cases h
  | command c => cases h
  | block b => cases h
  | definition d => cases h

theorem Block.reachedBlocks_closed (opening : Token) (children : List Node) (closing : Token) :
    Block.reachedBlocks ⟨opening, children, some closing⟩ =
      ⟨opening, children, some closing⟩ :: (Node.trim children).flatMap Node.reachedBlocks := by
  have hblank : ∀ n : Node, n.isBlank → n.reachedBlocks = [] := by
    intro n hn
    obtain ⟨t, rfl, -⟩ := Node.eq_text_of_isBlank hn
    rfl
  rw [Block.reachedBlocks, Node.reachedBlocksAll_eq, Node.trim, flatMap_trimBy hblank]

theorem Node.reachedBlocks_command (ident : Token) (arguments : List Argument)
    (clause : Option Clause) :
    (Node.command ⟨ident, arguments, clause⟩).reachedBlocks =
      arguments.flatMap Argument.reachedBlocks := by
  rw [Node.reachedBlocks, Command.reachedBlocks, Argument.reachedBlocksAll_eq]

end AcademicMarkup
