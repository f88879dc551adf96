import AcademicMarkup.Compilation
import AcademicMarkup.Proofs.NormalForm

/-!
A complete compilation loses no content. The visible text of a document is read off the tree as it
was written; the text of its content is read off what the tree denotes. Text gets lost on the way
where a block has no end or a command is left out, and each of these is reported as an error, so
without an error the two are the same.
-/
namespace AcademicMarkup

mutual

/-- The pieces of text that a reader sees of a node, in order. A definition is not seen. -/
def Node.visiblePieces : Node → List String
  | .text t => [t.text]
  | .quotation q => [q.text]
  | .misplaced t => [t.text]
  | .block b => b.visiblePieces
  | .command c => c.visiblePieces
  | .definition _ => []

/-- The visible pieces of nodes, each with its node. -/
def Node.withVisiblePieces : List Node → List (Node × List String)
  | [] => []
  | n :: ns => (n, n.visiblePieces) :: Node.withVisiblePieces ns

/-- White space at both ends of a block is not seen. -/
def Block.visiblePieces : Block → List String
  | ⟨_, children, _⟩ => (trimBy (·.1.isBlank) (Node.withVisiblePieces children)).flatMap (·.2)

/-- Mathematics is seen as a formula, and of any other command the body. -/
def Command.visiblePieces : Command → List String
  | ⟨ident, arguments, _⟩ =>
    let formula := (((Argument.body? arguments).bind Block.normal?).map Block.children).getD []
    if ident.text == "\\" then [Latex.inline formula]
    else if ident.text == "\\math" then [Latex.equation formula]
    else Argument.visibleBody arguments

def Argument.visibleBody : List Argument → List String
  | [] => []
  | .block b :: as => if b.isKind .brace then b.visiblePieces else Argument.visibleBody as
  | .script _ _ :: as => Argument.visibleBody as

end

namespace Document

/-- Definitions are not seen. -/
def visibleText (doc : Document) : String := String.join (doc.nodes.flatMap Node.visiblePieces)

end Document

mutual

/-- The leaves of content that are text, in order. -/
def Content.textLeaves : Content → List String
  | .text s => [s]
  | .element _ _ children => Content.textLeavesAll children
  | .fragment children => Content.textLeavesAll children

def Content.textLeavesAll : List Content → List String
  | [] => []
  | c :: cs => c.textLeaves ++ Content.textLeavesAll cs

end

theorem Content.textLeavesAll_append (cs ds : List Content) :
    Content.textLeavesAll (cs ++ ds) = Content.textLeavesAll cs ++ Content.textLeavesAll ds := by
  induction cs with
  | nil => rfl
  | cons c cs ih => simp only [List.cons_append, Content.textLeavesAll, ih, List.append_assoc]

theorem Node.withVisiblePieces_eq (ns : List Node) :
    Node.withVisiblePieces ns = ns.map fun n => (n, n.visiblePieces) := by
  induction ns with
  | nil => rfl
  | cons n ns ih => rw [Node.withVisiblePieces, ih, List.map_cons]

theorem Block.visiblePieces_eq (b : Block) :
    b.visiblePieces = (Node.trim b.children).flatMap Node.visiblePieces := by
  obtain ⟨opening, children, closing⟩ := b
  rw [Block.visiblePieces, Node.withVisiblePieces_eq, trimBy_map, List.flatMap_map, Node.trim]
  rfl

theorem Argument.visibleBody_eq (as : List Argument) :
    Argument.visibleBody as = ((Argument.body? as).map Block.visiblePieces).getD [] := by
  induction as with
  | nil => rfl
  | cons a as ih =>
    cases a with
    | script operator operand => rw [Argument.visibleBody, ih, Argument.body?_script_cons]
    | block b =>
      rw [Argument.visibleBody, Argument.body?_block_cons]
      by_cases h : b.isKind .brace
      · simp [h]
      · simp [h, ih]

/-- No problem is an error. -/
def Diagnostic.Harmless (ds : List Diagnostic) : Prop := ∀ d ∈ ds, ¬ d.isError

namespace Diagnostic.Harmless

theorem append_iff {ds es : List Diagnostic} : Harmless (ds ++ es) ↔ Harmless ds ∧ Harmless es := by
  simp only [Harmless, List.forall_mem_append]

theorem of_mem_flatMap {α : Type} {f : α → List Defect} {xs : List α} {x : α}
    (h : Harmless ((xs.flatMap f).map .structural)) (hx : x ∈ xs) :
    Harmless ((f x).map .structural) := by
  intro d hd
  apply h d
  rw [List.mem_map] at hd ⊢
  obtain ⟨defect, hdefect, rfl⟩ := hd
  exact ⟨defect, List.mem_flatMap.mpr ⟨x, hx, hdefect⟩, rfl⟩

end Diagnostic.Harmless

theorem Compilation.harmless_of_isComplete {c : Compilation} (h : c.isComplete) :
    Diagnostic.Harmless c.diagnostics := by
  simpa [Compilation.isComplete, Diagnostic.Harmless] using h

/-- Unless a problem is an error, the text of the denotation is this. -/
def Meaning.Shows (d : Meaning) (pieces : List String) : Prop :=
  Diagnostic.Harmless d.diagnostics → Content.textLeavesAll d.content = pieces

namespace Meaning.Shows

theorem empty : Shows .empty [] := fun _ => rfl

theorem single_text (text : String) : Shows (.single (.text text)) [text] := fun _ => rfl

theorem of_problem {d : Diagnostic} (pieces : List String) (h : d.isError) :
    Shows (.problem d) pieces :=
  fun hharmless => absurd h (hharmless d (List.mem_singleton.mpr rfl))

theorem append {a b : Meaning} {xs ys : List String} (ha : Shows a xs) (hb : Shows b ys) :
    Shows (a.append b) (xs ++ ys) := by
  intro h
  obtain ⟨hleft, hright⟩ := Diagnostic.Harmless.append_iff.mp h
  rw [Meaning.append, Content.textLeavesAll_append, ha hleft, hb hright]

theorem wrap {a : Meaning} {f : List Content → Content} {xs : List String} (ha : Shows a xs)
    (hf : (f a.content).textLeaves = Content.textLeavesAll a.content) : Shows (a.wrap f) xs := by
  intro h
  have hxs : Content.textLeavesAll a.content = xs := ha h
  simp only [Meaning.wrap, Content.textLeavesAll, List.append_nil, hf, hxs]

end Meaning.Shows

/-- Brackets of one kind are not of another. -/
theorem Argument.blockOf?_brace_of_bracketText? {a : Argument} {text : String}
    (h : a.bracketText? = some text) : a.blockOf? .brace = none := by
  obtain ⟨b, hb, -⟩ := Option.map_eq_some_iff.mp h
  obtain ⟨rfl, hkind⟩ := Argument.eq_block_of_blockOf? hb
  have hbrace : ¬ b.isKind .brace := by
    intro hbrace
    simp only [Block.isKind, beq_iff_eq] at hkind hbrace
    rw [hkind] at hbrace
    cases hbrace
  simp [Argument.blockOf?, Argument.block?, hbrace]

/-- The lists of arguments that can be sorted, and how they are. -/
theorem SortedArguments.ofList?_cases {as : List Argument} {given : SortedArguments}
    (h : SortedArguments.ofList? as = some given) :
    (as = [] ∧ given = ⟨none, none⟩) ∨
    (∃ b, as = [.block b] ∧ b.isKind .brace ∧ given = ⟨none, some b⟩) ∨
    (∃ a text, as = [a] ∧ a.blockOf? .brace = none ∧ given = ⟨some text, none⟩) ∨
    (∃ a text b, as = [a, .block b] ∧ a.blockOf? .brace = none ∧ b.isKind .brace ∧
      given = ⟨some text, some b⟩) := by
  unfold ofList? at h
  split at h
  · exact Or.inl ⟨rfl, (Option.some.inj h).symm⟩
  · rename_i only
    split at h
    · rename_i body hbody
      obtain ⟨rfl, hkind⟩ := Argument.eq_block_of_blockOf? hbody
      exact Or.inr (Or.inl ⟨body, rfl, hkind, (Option.some.inj h).symm⟩)
    · rename_i hbody
      obtain ⟨text, -, rfl⟩ := Option.map_eq_some_iff.mp h
      exact Or.inr (Or.inr (Or.inl ⟨only, text, rfl, hbody, rfl⟩))
  · rename_i first last
    obtain ⟨text, htext, hlast⟩ := Option.bind_eq_some_iff.mp h
    obtain ⟨body, hbody, hgiven⟩ := Option.bind_eq_some_iff.mp hlast
    obtain ⟨rfl, hkind⟩ := Argument.eq_block_of_blockOf? hbody
    exact Or.inr (Or.inr (Or.inr ⟨first, text, body, rfl,
      Argument.blockOf?_brace_of_bracketText? htext, hkind, (Option.some.inj hgiven).symm⟩))
  · cases h

theorem SortedArguments.body_eq {as : List Argument} {given : SortedArguments}
    (h : SortedArguments.ofList? as = some given) : given.body = Argument.body? as := by
  rcases ofList?_cases h with ⟨rfl, rfl⟩ | ⟨b, rfl, hb, rfl⟩ | ⟨a, text, rfl, ha, rfl⟩ |
    ⟨a, text, b, rfl, ha, hb, rfl⟩
  · rfl
  · simp [Argument.body?_block_cons, hb]
  · rw [Argument.body?_cons_of_eq_none ha]
    rfl
  · simp [Argument.body?_cons_of_eq_none ha, Argument.body?_block_cons, hb]

theorem Argument.denoteLast_eq {table : Definitions} {invoke : Invocation} {scope : Scope}
    {as : List Argument} {given : SortedArguments} {b : Block}
    (h : SortedArguments.ofList? as = some given) (hb : given.body = some b) :
    Argument.denoteLast table invoke scope as = b.denoteChildren table invoke scope := by
  rcases SortedArguments.ofList?_cases h with ⟨rfl, rfl⟩ | ⟨b', rfl, -, rfl⟩ |
    ⟨a, text, rfl, -, rfl⟩ | ⟨a, text, b', rfl, -, -, rfl⟩
  · cases hb
  · cases hb
    rfl
  · cases hb
  · cases hb
    rw [Argument.denoteLast, Argument.denoteLast]

/-- Two names stand for mathematics. -/
theorem Vocabulary.role_of_find? {name : String} {b : Builtin}
    (h : Vocabulary.find? name = some b) :
    (b.role = .inlineMath ↔ name = "\\") ∧ (b.role = .blockMath ↔ name = "\\math") := by
  have hall : ∀ p ∈ Vocabulary.all, (p.2.role = .inlineMath ↔ p.1 = "\\") ∧
      (p.2.role = .blockMath ↔ p.1 = "\\math") := by decide
  obtain ⟨before, after, heq, -⟩ := List.lookup_eq_some_iff.mp h
  exact hall (name, b) (by simp [heq])

theorem Role.body_of_holdsContent (role : Role) {given : SortedArguments} (h : role.holdsContent)
    (haccepts : role.shape.accepts given) : ∃ b, given.body = some b := by
  apply Option.isSome_iff_exists.mp
  cases role <;> simp_all [Role.holdsContent, Role.shape, ArgumentShape.accepts]

theorem Command.visiblePieces_of_find? {ident : Token} {builtin : Builtin}
    (h : Vocabulary.find? ident.text = some builtin) (arguments : List Argument)
    (clause : Option Clause) :
    Command.visiblePieces ⟨ident, arguments, clause⟩ =
      match builtin.role with
      | .inlineMath =>
        [Latex.inline
          ((((Argument.body? arguments).bind Block.normal?).map Block.children).getD [])]
      | .blockMath =>
        [Latex.equation
          ((((Argument.body? arguments).bind Block.normal?).map Block.children).getD [])]
      | _ => Argument.visibleBody arguments := by
  obtain ⟨hinline, hblock⟩ := Vocabulary.role_of_find? h
  rw [Command.visiblePieces]
  by_cases hname : ident.text = "\\"
  · simp [hname, hinline.mpr hname]
  by_cases hname' : ident.text = "\\math"
  · simp [hname', hblock.mpr hname']
  · have hrole := mt hinline.mp hname
    have hrole' := mt hblock.mp hname'
    cases heq : builtin.role <;> simp_all

/-- Without expansions a command is reported as an error, or it is a built-in one with arguments
that it takes. -/
theorem Command.denote_cases {table : Definitions} {invoke : Invocation}
    (hinvoke : ∀ c scope, invoke c scope = none) (scope : Scope) (ident : Token)
    (arguments : List Argument) (clause : Option Clause) :
    (∃ d : Diagnostic, d.isError ∧
      Command.denote table invoke scope ⟨ident, arguments, clause⟩ = .problem d) ∨
    ∃ builtin given, Vocabulary.find? ident.text = some builtin ∧
      SortedArguments.ofList? arguments = some given ∧ builtin.role.shape.accepts given ∧
      Command.denote table invoke scope ⟨ident, arguments, clause⟩ =
        (if builtin.role.holdsContent then
          Argument.denoteLast table invoke (scope.push ident.text) arguments
        else .empty).wrap (builtin.element given scope) := by
  rw [Command.denote]
  cases hfind : Vocabulary.find? ident.text with
  | none =>
    left
    simp only [Command.denoteUnlisted, hinvoke]
    split
    · exact ⟨_, rfl, rfl⟩
    · exact ⟨_, rfl, rfl⟩
  | some builtin =>
    simp only
    cases hgiven : builtin.arguments? arguments with
    | none => exact Or.inl ⟨_, rfl, rfl⟩
    | some given =>
      obtain ⟨hsorted, haccepts⟩ := Option.filter_eq_some_iff.mp hgiven
      exact Or.inr ⟨builtin, given, rfl, hsorted, haccepts, rfl⟩

/-- The text of an element is the text of what it holds, or a formula. -/
theorem Builtin.textLeaves_element (b : Builtin) (given : SortedArguments) (scope : Scope)
    (children : List Content) :
    (b.element given scope children).textLeaves =
      match b.role with
      | .inlineMath => [Latex.inline ((given.body.map Block.children).getD [])]
      | .blockMath => [Latex.equation ((given.body.map Block.children).getD [])]
      | .leaf => []
      | _ => Content.textLeavesAll children := by
  unfold Builtin.element
  cases b.role <;> simp [Content.textLeaves, Content.textLeavesAll]

section Faithful

variable (table : Definitions) (invoke : Invocation)

/-- The node has a normal form that shows what the node does. -/
def Node.Faithful (n : Node) : Prop :=
  ∃ m, n.normal? = some m ∧
    ∀ scope, Meaning.Shows (m.denote table invoke scope) n.visiblePieces

def Block.Faithful (b : Block) : Prop :=
  ∃ b', b.normal? = some b' ∧
    ∀ scope, Meaning.Shows (b'.denoteChildren table invoke scope) b.visiblePieces

variable {table invoke}

theorem Node.Faithful.denoteAll {ns : List Node} (h : ∀ n ∈ ns, n.Faithful table invoke)
    (scope : Scope) :
    Meaning.Shows (Node.denoteAll table invoke scope (ns.filterMap Node.normal?))
      (ns.flatMap Node.visiblePieces) := by
  induction ns with
  | nil => exact Meaning.Shows.empty
  | cons n ns ih =>
    obtain ⟨m, hm, hshows⟩ := h n List.mem_cons_self
    rw [List.filterMap_cons_some hm, List.flatMap_cons, Node.denoteAll]
    apply (hshows scope).append
    exact ih fun n hn => h n (List.mem_cons_of_mem _ hn)

theorem Block.Faithful.of_children {opening closing : Token} {children : List Node}
    (h : ∀ n ∈ children, n.Faithful table invoke) :
    Block.Faithful table invoke ⟨opening, children, some closing⟩ := by
  refine ⟨_, Block.normal?_closed opening children closing, ?_⟩
  intro scope
  rw [Block.denoteChildren, Block.visiblePieces_eq]
  apply Node.Faithful.denoteAll
  intro n hn
  exact h n ((trimBy_sublist _ _).subset hn)

/-- The content of a command with content is that of its body. -/
theorem Block.Faithful.denoteLast {arguments : List Argument} {given : SortedArguments} {b' : Block}
    (hbody : ∀ b, Argument.body? arguments = some b → b.Faithful table invoke)
    (hgiven : SortedArguments.ofList? (Argument.normals arguments) = some given)
    (hb' : given.body = some b') (scope : Scope) :
    Meaning.Shows (Argument.denoteLast table invoke scope (Argument.normals arguments))
      (Argument.visibleBody arguments) := by
  have hwritten : (Argument.body? arguments).bind Block.normal? = some b' := by
    rw [← Argument.body?_normals, ← SortedArguments.body_eq hgiven, hb']
  obtain ⟨b, hb, hnormal⟩ := Option.bind_eq_some_iff.mp hwritten
  obtain ⟨b'', hnormal', hshows⟩ := hbody b hb
  obtain rfl : b'' = b' := by rwa [hnormal, Option.some.injEq, eq_comm] at hnormal'
  rw [Argument.denoteLast_eq hgiven hb', Argument.visibleBody_eq, hb]
  exact hshows scope

/-- A command shows its body or a formula, or else it is reported. -/
theorem Command.shows_normal (hinvoke : ∀ c scope, invoke c scope = none) {ident : Token}
    {arguments : List Argument} {clause : Option Clause}
    (hbody : ∀ b, Argument.body? arguments = some b → b.Faithful table invoke) (scope : Scope) :
    Meaning.Shows ((Command.normal ⟨ident, arguments, clause⟩).denote table invoke scope)
      (Command.visiblePieces ⟨ident, arguments, clause⟩) := by
  rw [Command.normal]
  rcases Command.denote_cases hinvoke scope ident (Argument.normals arguments) none with
    ⟨d, hd, hdenote⟩ | ⟨builtin, given, hfind, hgiven, haccepts, hdenote⟩
  · rw [hdenote]
    exact Meaning.Shows.of_problem _ hd
  have hwritten : given.body = (Argument.body? arguments).bind Block.normal? := by
    rw [SortedArguments.body_eq hgiven, Argument.body?_normals]
  rw [hdenote, Command.visiblePieces_of_find? hfind, ← hwritten]
  have hleaves := builtin.textLeaves_element given scope
  -- mathematics shows a formula and a leaf nothing, the other roles show what the body denotes
  cases hrole : builtin.role with
  | inlineMath =>
    intro _
    simp [Role.holdsContent, Meaning.wrap, Content.textLeavesAll, hleaves, hrole]
  | blockMath =>
    intro _
    simp [Role.holdsContent, Meaning.wrap, Content.textLeavesAll, hleaves, hrole]
  | leaf =>
    intro _
    have hnone : given.body = none := by
      simpa [hrole, Role.shape, ArgumentShape.accepts] using haccepts
    have hvisible : Argument.visibleBody arguments = [] := by
      rw [Argument.visibleBody_eq, Argument.body?_eq_none (hwritten.symm.trans hnone)]
      rfl
    simp [Role.holdsContent, Meaning.wrap, Content.textLeavesAll, hleaves, hrole, hvisible]
  | _ =>
    obtain ⟨b', hb'⟩ := builtin.role.body_of_holdsContent (by rw [hrole]; rfl) haccepts
    apply (Block.Faithful.denoteLast hbody hgiven hb' (scope.push ident.text)).wrap
    simp only [hleaves, hrole]

mutual

theorem Node.faithful (hinvoke : ∀ c scope, invoke c scope = none) (n : Node)
    (h : Diagnostic.Harmless (n.defects.map .structural)) : n.Faithful table invoke := by
  cases n with
  | text t => exact ⟨_, rfl, fun _ => Meaning.Shows.single_text t.text⟩
  | quotation q => exact ⟨_, rfl, fun _ => Meaning.Shows.single_text q.text⟩
  | misplaced t => exact ⟨_, rfl, fun _ => Meaning.Shows.single_text t.text⟩
  | definition d => exact ⟨_, rfl, fun _ => Meaning.Shows.empty⟩
  | block b =>
    obtain ⟨b', hnormal, hshows⟩ := Block.faithful hinvoke b h
    refine ⟨.block b', by simp [Node.normal?, hnormal], fun scope => ?_⟩
    rw [Node.visiblePieces, Node.denote]
    exact (hshows scope).wrap rfl
  | command c =>
    obtain ⟨ident, arguments, clause⟩ := c
    refine ⟨_, rfl, fun scope => ?_⟩
    rw [Node.visiblePieces, Node.denote]
    apply Command.shows_normal hinvoke
    intro b hb
    exact Argument.faithful_of_mem hinvoke arguments h b (Argument.mem_of_body? hb).1

theorem Node.faithful_of_mem (hinvoke : ∀ c scope, invoke c scope = none) (ns : List Node)
    (h : Diagnostic.Harmless ((Node.defectsAll ns).map .structural)) :
    ∀ n ∈ ns, n.Faithful table invoke := by
  cases ns with
  | nil => exact fun _ hn => absurd hn List.not_mem_nil
  | cons n ns =>
    rw [Node.defectsAll, List.map_append, Diagnostic.Harmless.append_iff] at h
    exact List.forall_mem_cons.mpr
      ⟨Node.faithful hinvoke n h.1, Node.faithful_of_mem hinvoke ns h.2⟩

theorem Block.faithful (hinvoke : ∀ c scope, invoke c scope = none) (b : Block)
    (h : Diagnostic.Harmless (b.defects.map .structural)) : b.Faithful table invoke := by
  obtain ⟨opening, children, closing⟩ := b
  cases closing with
  | none => exact absurd rfl (h _ (List.mem_singleton.mpr rfl))
  | some closing => exact Block.Faithful.of_children (Node.faithful_of_mem hinvoke children h)

theorem Argument.faithful_of_mem (hinvoke : ∀ c scope, invoke c scope = none)
    (as : List Argument) (h : Diagnostic.Harmless ((Argument.defectsAll as).map .structural)) :
    ∀ b : Block, .block b ∈ as → b.Faithful table invoke := by
  cases as with
  | nil => exact fun _ hb => absurd hb List.not_mem_nil
  | cons a as =>
    rw [Argument.defectsAll, List.map_append, Diagnostic.Harmless.append_iff] at h
    have hrest := Argument.faithful_of_mem hinvoke as h.2
    cases a with
    | script operator operand =>
      intro b hb
      exact hrest b (by simpa using hb)
    | block first =>
      have hfirst := Block.faithful hinvoke first h.1
      intro b hb
      rcases List.mem_cons.mp hb with heq | hb
      · cases heq
        exact hfirst
      · exact hrest b hb

end

end Faithful

/-- What a complete compilation shows is the visible text of its source. -/
theorem Compilation.shows_visibleText (options : Options) (source : String)
    (h : (Compilation.ofSource options source).isComplete) :
    String.join (Content.textLeavesAll
        (Document.denote (Document.ofSource source).normalForm.definitions
          (Document.ofSource source).normalForm.document).content) =
      (Document.ofSource source).visibleText := by
  have hharmless := Compilation.harmless_of_isComplete h
  obtain ⟨hstructure, hcommands⟩ := Diagnostic.Harmless.append_iff.mp hharmless
  have hnodes : ∀ n ∈ (Document.ofSource source).nodes,
      n.Faithful (Document.ofSource source).normalForm.definitions
        (Expander.never.invocation (Document.ofSource source).normalForm.definitions 0) := by
    intro n hn
    apply Node.faithful fun _ _ => rfl
    exact hstructure.of_mem_flatMap (Document.mem_nodes.mp hn)
  have hshows := Node.Faithful.denoteAll hnodes .root
  rw [← Document.nodes_normalForm] at hshows
  rw [Document.visibleText, ← hshows hcommands]
  rfl

theorem Compilation.shows_visibleText_formula :
    (Compilation.ofSource .default "a \\p\x7b \\\x7bx^2\x7d b \x7d]").isComplete ∧
    String.join (Content.textLeavesAll
        (Document.denote
          (Document.ofSource "a \\p\x7b \\\x7bx^2\x7d b \x7d]").normalForm.definitions
          (Document.ofSource "a \\p\x7b \\\x7bx^2\x7d b \x7d]").normalForm.document).content) =
      (Document.ofSource "a \\p\x7b \\\x7bx^2\x7d b \x7d]").visibleText := by
  have h : (Compilation.ofSource .default "a \\p\x7b \\\x7bx^2\x7d b \x7d]").isComplete := by
    decide +kernel
  exact ⟨h, Compilation.shows_visibleText .default _ h⟩

end AcademicMarkup
