import AcademicMarkup.Proofs.ReadPlaces
import Mathlib.Data.List.Flatten
import Mathlib.Data.List.Perm.Basic

/-!
What becomes of the tokens of a source in the normal form of its document. The tokens that are kept
stay in order, and each of the others is lost for one of four reasons: it stands in an unterminated
block, it raises or lowers one, it is white space at an end of a block, or it belongs to a clause.
Of all these only the unterminated blocks are reported, once for each that stands in no other.
-/
namespace AcademicMarkup

open Production Grammar

/-- The second span lies within the first. -/
def Span.Encloses (s t : Span) : Prop := s.start ≤ t.start ∧ t.stop ≤ s.stop

instance Span.decidableEncloses (s t : Span) : Decidable (s.Encloses t) :=
  inferInstanceAs (Decidable (_ ∧ _))

/-- The children in the runs of white space at the ends of a block. -/
def Block.blankEnds (b : Block) : List Node :=
  b.children.takeWhile Node.isBlank ++ b.children.reverse.takeWhile Node.isBlank

/-- The reasons for which a token is lost in the normal form of constructs with these parts and
defects. -/
inductive Token.Lost (subjects : List Subject) (defects : List Defect) (t : Token) : Prop
  | unterminated {opening : String} {span : Span} :
      .unterminatedBlock opening span ∈ defects → span.Encloses t.span → Lost subjects defects t
  /-- An operator goes with the unterminated block right after it. -/
  | operator {opening : String} {span : Span} :
      t.isScriptOperator → .unterminatedBlock opening span ∈ defects →
      t.span.stop = span.start → Lost subjects defects t
  | blank {b : Block} : .block b ∈ subjects → .text t ∈ b.blankEnds → Lost subjects defects t
  | clause {c : Clause} :
      .clause c ∈ subjects → c.span.Encloses t.span → Lost subjects defects t

theorem Token.Lost.mono {t : Token} {subjects subjects' : List Subject}
    {defects defects' : List Defect} (h : t.Lost subjects defects)
    (hsubjects : subjects ⊆ subjects') (hdefects : defects ⊆ defects') :
    t.Lost subjects' defects' := by
  cases h with
  | unterminated hdefect henclosed => exact .unterminated (hdefects hdefect) henclosed
  | operator hoperator hdefect hstop => exact .operator hoperator (hdefects hdefect) hstop
  | blank hblock hends => exact .blank (hsubjects hblock) hends
  | clause hclause henclosed => exact .clause (hsubjects hclause) henclosed

/-! The tokens of a normal form. -/

/-- The tokens of the normal form of a node, none if it has no normal form. -/
def Node.keptTokens (n : Node) : List Token := n.normal?.toList.flatMap Node.tokens

def Block.keptTokens (b : Block) : List Token := b.normal?.toList.flatMap Block.tokens

def Argument.keptTokens (a : Argument) : List Token := a.normal?.toList.flatMap Argument.tokens

theorem Block.keptTokens_closed (opening : Token) (children : List Node) (closing : Token) :
    Block.keptTokens ⟨opening, children, some closing⟩ =
      opening :: (Node.trim children).flatMap Node.keptTokens ++ [closing] := by
  have hchildren := flatMap_filterMap Node.normal? Node.tokens (Node.trim children)
  simp only [Block.keptTokens, Block.normal?_closed, Option.toList_some, List.flatMap_cons,
    List.flatMap_nil, List.append_nil, Block.tokens, Node.tokensAll_eq, hchildren]
  rfl

theorem Node.keptTokens_command (ident : Token) (arguments : List Argument)
    (clause : Option Clause) :
    (Node.command ⟨ident, arguments, clause⟩).keptTokens =
      ident :: arguments.flatMap Argument.keptTokens := by
  have harguments := flatMap_filterMap Argument.normal? Argument.tokens arguments
  simp only [Node.keptTokens, Node.normal?, Command.normal, Option.toList_some, List.flatMap_cons,
    List.flatMap_nil, List.append_nil, Node.tokens, Command.tokens, Argument.tokensAll_eq,
    Argument.normals_eq, harguments]
  rfl

theorem Node.keptTokens_block (b : Block) : (Node.block b).keptTokens = b.keptTokens := by
  cases h : b.normal? <;> simp [Node.keptTokens, Block.keptTokens, Node.normal?, h, Node.tokens]

theorem Argument.keptTokens_block (b : Block) : (Argument.block b).keptTokens = b.keptTokens := by
  cases h : b.normal? <;>
    simp [Argument.keptTokens, Block.keptTokens, Argument.normal?, h, Argument.tokens]

/-! The accounts of what is read. -/

abbrev Node.Loses (n : Node) (t : Token) : Prop := t.Lost n.subjects n.defects

abbrev Block.Loses (b : Block) (t : Token) : Prop := t.Lost b.subjects b.defects

abbrev Argument.Loses (a : Argument) (t : Token) : Prop := t.Lost a.subjects a.defects

abbrev Command.Loses (c : Command) (t : Token) : Prop := t.Lost c.subjects c.defects

/-- What is read takes the tokens up to the rest. Those that it keeps are among them in order, and
each of the others is lost. -/
def Accounts {α : Type} (kept : α → List Token) (loses : α → Token → Prop) (a : α)
    (ts rest : List Token) : Prop :=
  ∀ ⦃start stop : Nat⦄, Span.Contiguous start (ts.map Token.span) stop →
    ∃ taken, ts = taken ++ rest ∧ (kept a).Sublist taken ∧ ∀ t ∈ taken, t ∈ kept a ∨ loses a t

theorem Accounts.chain {α : Type} {kept : α → List Token} {loses : α → Token → Prop} {as : List α}
    {ts rest : List Token} (h : Chain (Accounts kept loses) as ts rest) {start stop : Nat}
    (hts : Span.Contiguous start (ts.map Token.span) stop) :
    ∃ taken, ts = taken ++ rest ∧ (as.flatMap kept).Sublist taken ∧
      ∀ t ∈ taken, ∃ a ∈ as, t ∈ kept a ∨ loses a t := by
  induction h generalizing start with
  | nil ts => exact ⟨[], rfl, List.Sublist.refl _, by simp⟩
  | @cons a as ts mid rest hfirst _ ih =>
    obtain ⟨taken, rfl, hkept, hall⟩ := hfirst hts
    rw [List.map_append] at hts
    obtain ⟨_, -, hmid⟩ := Span.contiguous_append.mp hts
    obtain ⟨taken', rfl, hkept', hall'⟩ := ih hmid
    refine ⟨taken ++ taken', (List.append_assoc _ _ _).symm, hkept.append hkept', ?_⟩
    intro t ht
    rcases List.mem_append.mp ht with ht | ht
    · exact ⟨a, List.mem_cons_self, hall t ht⟩
    · obtain ⟨b, hb, hcase⟩ := hall' t ht
      exact ⟨b, List.mem_cons_of_mem a hb, hcase⟩

/-- The tokens that something is read from lie within its span. -/
theorem Covers.encloses {α : Type} {span : α → Span} {subjects : α → List Subject} {a : α}
    {taken rest : List Token} (h : Covers span subjects a (taken ++ rest) rest) {start stop : Nat}
    (hts : Span.Contiguous start ((taken ++ rest).map Token.span) stop) :
    ∀ t ∈ taken, (span a).Encloses t.span := by
  obtain ⟨hstart, -, hrest, -⟩ := h hts
  rw [List.map_append] at hts
  obtain ⟨mid, htaken, hmid⟩ := Span.contiguous_append.mp hts
  obtain rfl := hmid.start_unique hrest
  intro t ht
  have hbounds := htaken.ordered.bounds (List.mem_map_of_mem ht)
  exact ⟨hstart ▸ hbounds.1, hbounds.2⟩

section Layer

/-- What is known of a node that was read: where it lies and what becomes of its tokens. -/
abbrev Accounted (n : Node) (ts rest : List Token) : Prop :=
  Covers Node.span Node.subjects n ts rest ∧
    Accounts Node.keptTokens Node.Loses n ts rest

variable {ts rest : List Token}

theorem accounts_of_kept {n : Node} (hkept : n.keptTokens = n.tokens)
    (hts : ts = n.tokens ++ rest) : Accounts Node.keptTokens Node.Loses n ts rest := by
  intro start stop _
  exact ⟨n.tokens, hts, by rw [hkept], fun t ht => Or.inl (by rwa [hkept])⟩

/-- What a child keeps is kept by the block, unless the child is white space at an end. -/
theorem mem_keptTokens_of_child {children : List Node} {n : Node} (hn : n ∈ children) {t : Token}
    (ht : t ∈ n.keptTokens) (opening : Token) (closing : Option Token) :
    t ∈ (Node.trim children).flatMap Node.keptTokens ∨
      .text t ∈ Block.blankEnds ⟨opening, children, closing⟩ := by
  rcases mem_trimBy_or Node.isBlank hn with htrim | hends
  · exact Or.inl (List.mem_flatMap.mpr ⟨n, htrim, ht⟩)
  · right
    have hblank : n.isBlank := by
      rcases hends with hends | hends <;> exact List.mem_takeWhile_imp hends
    obtain ⟨u, rfl, -⟩ := Node.eq_text_of_isBlank hblank
    obtain rfl : t = u := by simpa [Node.keptTokens, Node.normal?, Node.tokens] using ht
    exact List.mem_append.mpr hends

theorem accounts_block {b : Block} (hb : BlockRead Accounted b ts rest) :
    Accounts Block.keptTokens Block.Loses b ts rest := by
  have hcovers := covers_block (hb.mono And.left)
  intro start stop h
  cases hb with
  | @closed opening closing children ts rest _ _ hchain =>
    obtain ⟨taken, rfl, hkept, hall⟩ := Accounts.chain (hchain.mono And.right) h.2.2
    refine ⟨opening :: taken ++ [closing], by simp, ?_, ?_⟩
    · rw [Block.keptTokens_closed]
      have htrim := (trimBy_sublist Node.isBlank children).flatMap Node.keptTokens
      exact ((htrim.trans hkept).cons_cons opening).append_right [closing]
    · intro t ht
      rw [Block.keptTokens_closed]
      simp only [List.cons_append, List.mem_cons, List.mem_append, List.not_mem_nil,
        or_false] at ht ⊢
      rcases ht with rfl | ht | rfl
      · exact Or.inl (Or.inl rfl)
      · obtain ⟨n, hn, hcase⟩ := hall t ht
        rcases hcase with hcase | hcase
        · rcases mem_keptTokens_of_child hn hcase opening (some closing) with hcase | hcase
          · exact Or.inl (Or.inr (Or.inl hcase))
          · exact Or.inr (.blank (by simp) hcase)
        · right
          apply hcase.mono
          · intro x hx
            rw [Block.subjects_mk]
            exact List.mem_cons_of_mem _ (List.mem_flatMap.mpr ⟨n, hn, hx⟩)
          · intro d hd
            rw [Block.defects, Node.defectsAll_eq]
            exact List.mem_flatMap.mpr ⟨n, hn, hd⟩
      · exact Or.inl (Or.inr (Or.inr rfl))
  | @unclosed opening children ts rest _ hchain _ =>
    obtain ⟨taken, rfl, -, -⟩ := Accounts.chain (hchain.mono And.right) h.2.2
    refine ⟨opening :: taken, rfl, List.nil_sublist _, ?_⟩
    intro t ht
    exact Or.inr (.unterminated (List.mem_singleton.mpr rfl) (hcovers.encloses h t ht))

/-- A node without a normal form is an unterminated block and reported as such. -/
theorem Node.unterminatedBlock_mem_defects {n : Node} (h : n.normal? = none) :
    ∃ opening, .unterminatedBlock opening n.span ∈ n.defects := by
  cases n with
  | block b =>
    obtain ⟨opening, children, closing⟩ := b
    cases closing with
    | none => exact ⟨opening.text, List.mem_singleton.mpr rfl⟩
    | some closing => simp [Node.normal?, Block.normal?_closed] at h
  | text t => simp [Node.normal?] at h
  | quotation q => simp [Node.normal?] at h
  | misplaced t => simp [Node.normal?] at h
  | command c => simp [Node.normal?] at h
  | definition d => simp [Node.normal?] at h

theorem accounts_argument {a : Argument} (ha : ArgumentRead Accounted a ts rest) :
    Accounts Argument.keptTokens Argument.Loses a ts rest := by
  cases ha with
  | @block b ts rest hb =>
    intro start stop h
    obtain ⟨taken, hts, hkept, hall⟩ := accounts_block hb h
    rw [Argument.keptTokens_block]
    exact ⟨taken, hts, hkept, hall⟩
  | @script operator operand ts rest hoperator hoperand =>
    obtain ⟨hcovers, haccounts⟩ := hoperand
    intro start stop h
    obtain ⟨-, -, hts⟩ := h
    obtain ⟨hstart, -⟩ := hcovers hts
    obtain ⟨taken, rfl, hkept, hall⟩ := haccounts hts
    have hlost : ∀ t, operand.Loses t → (Argument.script operator operand).Loses t :=
      fun t ht => ht.mono (List.subset_cons_self _ _) (List.Subset.refl _)
    refine ⟨operator :: taken, rfl, ?_⟩
    cases hnormal : operand.normal? with
    | none =>
      -- the operand is an unterminated block, so the operator goes with it
      obtain ⟨opening, hdefect⟩ := Node.unterminatedBlock_mem_defects hnormal
      have hnone : (Argument.script operator operand).keptTokens = [] := by
        simp [Argument.keptTokens, Argument.normal?, hnormal]
      have hnone' : operand.keptTokens = [] := by simp [Node.keptTokens, hnormal]
      rw [hnone]
      refine ⟨List.nil_sublist _, ?_⟩
      intro t ht
      right
      rcases List.mem_cons.mp ht with rfl | ht
      · exact .operator hoperator hdefect hstart.symm
      · rcases hall t ht with hcase | hcase
        · rw [hnone'] at hcase
          exact absurd hcase List.not_mem_nil
        · exact hlost t hcase
    | some m =>
      have hsome : (Argument.script operator operand).keptTokens =
          operator :: operand.keptTokens := by
        simp [Argument.keptTokens, Node.keptTokens, Argument.normal?, hnormal, Argument.tokens]
      rw [hsome]
      refine ⟨hkept.cons_cons operator, ?_⟩
      intro t ht
      rcases List.mem_cons.mp ht with rfl | ht
      · exact Or.inl List.mem_cons_self
      · exact (hall t ht).imp (List.mem_cons_of_mem _) (hlost t)

theorem clause_encloses {c : Clause} (hc : ClauseRead Accounted c ts rest) {start stop : Nat}
    (h : Span.Contiguous start (ts.map Token.span) stop) :
    ∃ taken, ts = taken ++ rest ∧ ∀ t ∈ taken, c.span.Encloses t.span := by
  have hcovers := covers_clause (hc.mono And.left)
  cases hc with
  | @intro keyword opening closing children ts rest _ _ hb =>
    obtain ⟨taken, rfl, -, -⟩ := accounts_block hb h.2.2
    exact ⟨keyword :: taken, rfl, hcovers.encloses h⟩

theorem definition_encloses {d : Definition} (hd : DefinitionRead Accounted d ts rest)
    {start stop : Nat} (h : Span.Contiguous start (ts.map Token.span) stop) :
    ∃ taken, ts = taken ++ rest ∧ ∀ t ∈ taken, d.span.Encloses t.span := by
  have hcovers := covers_definition (hd.mono And.left)
  cases hd with
  | @intro keyword headerOpening headerClosing bodyOpening bodyClosing defined body ts mid rest
      _ _ hheader _ hbody =>
    obtain ⟨header, rfl, -, -⟩ := accounts_block hheader h.2.2
    have hmid := h.2.2
    rw [List.map_append] at hmid
    obtain ⟨_, -, hmid⟩ := Span.contiguous_append.mp hmid
    obtain ⟨taken, rfl, -, -⟩ := accounts_block hbody hmid
    have heq : keyword :: (header ++ (taken ++ rest)) = keyword :: (header ++ taken) ++ rest := by
      simp
    rw [heq] at hcovers h
    exact ⟨keyword :: (header ++ taken), heq, hcovers.encloses h⟩

theorem accounts_command {c : Command} (hc : CommandRead Accounted c ts rest) :
    Accounts (fun c => (Node.command c).keptTokens) Command.Loses c ts rest := by
  -- the arguments account for their tokens, whatever follows them
  have harguments : ∀ {ident : Token} {arguments : List Argument} {clause : Option Clause}
      {ts mid : List Token} {start stop : Nat}, Chain (ArgumentRead Accounted) arguments ts mid →
      Span.Contiguous start (ts.map Token.span) stop →
      ∃ taken, ts = taken ++ mid ∧
        (Node.command ⟨ident, arguments, clause⟩).keptTokens.Sublist (ident :: taken) ∧
        ∀ t ∈ ident :: taken, t ∈ (Node.command ⟨ident, arguments, clause⟩).keptTokens ∨
          Command.Loses ⟨ident, arguments, clause⟩ t := by
    intro ident arguments clause ts mid start stop hchain h
    obtain ⟨taken, hts, hkept, hall⟩ :=
      Accounts.chain (hchain.mono fun ha => accounts_argument ha) h
    rw [Node.keptTokens_command]
    refine ⟨taken, hts, hkept.cons_cons ident, ?_⟩
    intro t ht
    rcases List.mem_cons.mp ht with rfl | ht
    · exact Or.inl List.mem_cons_self
    · obtain ⟨a, ha, hcase⟩ := hall t ht
      rcases hcase with hcase | hcase
      · exact Or.inl (List.mem_cons_of_mem _ (List.mem_flatMap.mpr ⟨a, ha, hcase⟩))
      · right
        apply hcase.mono
        · intro x hx
          rw [Command.subjects_mk]
          exact List.mem_cons_of_mem _
            (List.mem_append_left _ (List.mem_flatMap.mpr ⟨a, ha, hx⟩))
        · intro d hd
          rw [Command.defects, Argument.defectsAll_eq]
          exact List.mem_flatMap.mpr ⟨a, ha, hd⟩
  intro start stop h
  cases hc with
  | @plain ident arguments ts rest _ _ hchain =>
    obtain ⟨taken, rfl, hkept, hall⟩ := harguments hchain h.2.2
    exact ⟨ident :: taken, rfl, hkept, hall⟩
  | @withClause ident arguments clause ts mid rest _ _ hchain hclause =>
    obtain ⟨taken, rfl, hkept, hall⟩ := harguments hchain h.2.2
    have hmid := h.2.2
    rw [List.map_append] at hmid
    obtain ⟨_, -, hmid⟩ := Span.contiguous_append.mp hmid
    obtain ⟨taken', rfl, hclosed⟩ := clause_encloses hclause hmid
    refine ⟨ident :: taken ++ taken', by simp, hkept.trans (List.sublist_append_left _ _), ?_⟩
    intro t ht
    rcases List.mem_append.mp ht with ht | ht
    · exact hall t ht
    · have hmem : .clause clause ∈ Command.subjects ⟨ident, arguments, some clause⟩ := by
        simp [clause.mem_subjects_self]
      exact Or.inr (.clause hmem (hclosed t ht))

theorem accounts_construct {n : Node} (hn : ConstructRead Accounted n ts rest) :
    Accounts Node.keptTokens Node.Loses n ts rest := by
  cases hn with
  | quotation hq =>
    exact accounts_of_kept (by simp [Node.keptTokens, Node.normal?]) (quotation_eq hq)
  | @command c ts rest hc =>
    intro start stop h
    obtain ⟨taken, hts, hkept, hall⟩ := accounts_command hc h
    refine ⟨taken, hts, hkept, fun t ht => (hall t ht).imp_right ?_⟩
    exact fun hlost => hlost.mono (List.subset_cons_self _ _) (List.Subset.refl _)
  | @block b ts rest hb =>
    intro start stop h
    obtain ⟨taken, hts, hkept, hall⟩ := accounts_block hb h
    rw [Node.keptTokens_block]
    refine ⟨taken, hts, hkept, fun t ht => (hall t ht).imp_right ?_⟩
    exact fun hlost => hlost.mono (List.subset_cons_self _ _) (List.Subset.refl _)

theorem accounts_outer {n : Node} (hn : OuterRead Accounted n ts rest) :
    Accounts Node.keptTokens Node.Loses n ts rest := by
  cases hn with
  | construct hn => exact accounts_construct hn
  | text _ _ => exact accounts_of_kept rfl rfl
  | misplaced _ _ => exact accounts_of_kept rfl rfl

end Layer

theorem nodeWithin_accounted (levels : Nat) :
    (nodeWithin levels).production.Ensures Accounted := by
  refine nodeWithin_ensures_and
    (R := fun _ => Accounts Node.keptTokens Node.Loses) nodeWithin_covers ?_ ?_ levels
  · intro n ts rest h
    cases h with
    | quotation hq =>
      exact accounts_of_kept (by simp [Node.keptTokens, Node.normal?]) (quotation_eq hq)
    | text _ _ _ _ => exact accounts_of_kept rfl rfl
    | misplaced _ _ _ => exact accounts_of_kept rfl rfl
  · intro levels n ts rest h
    cases h with
    | construct hn => exact accounts_construct hn
    | text _ _ => exact accounts_of_kept rfl rfl

/-! Whole documents. -/

namespace Item

def keptTokens (i : Item) : List Token := i.normal?.toList.flatMap Item.tokens

/-- The tokens of a definition count as lost in it. -/
def Loses : Item → Token → Prop
  | node n, t => n.Loses t
  | definition d, t => d.span.Encloses t.span

theorem keptTokens_node (n : Node) : (Item.node n).keptTokens = n.keptTokens := by
  cases h : n.normal? <;> simp [Item.keptTokens, Node.keptTokens, Item.normal?, h, Item.tokens]

end Item

theorem accounts_item {definitions : Bool} {i : Item} {ts rest : List Token}
    (hi : ItemRead definitions Accounted i ts rest) :
    Accounts Item.keptTokens Item.Loses i ts rest := by
  intro start stop h
  cases hi with
  | @node n ts rest hn =>
    rw [Item.keptTokens_node]
    exact accounts_outer hn h
  | definition _ hd =>
    obtain ⟨taken, hts, henclosed⟩ := definition_encloses hd h
    exact ⟨taken, hts, List.nil_sublist _, fun t ht => Or.inr (henclosed t ht)⟩

/-! The defects that are reported. -/

/-- The defect that a leaf shows. A misplaced token either closes nothing or is too deep. -/
def Subject.leafDefect? : Subject → Option Defect
  | .quotation q => if q.isTerminated then none else some (.unterminatedQuotation q.span)
  | .misplaced t =>
    if t.isClosing then some (.unmatchedClosing t.text t.span)
    else some (.nestedTooDeeply t.text t.span)
  | _ => none

/-- The defect that a block without its close is. -/
def Block.defect (b : Block) : Defect := .unterminatedBlock b.opening.text b.span

/-- The defects of the leaves that stay. -/
def leafDefects (xs : List Subject) : List Defect := xs.filterMap Subject.leafDefect?

/-- The defects of the blocks that go. -/
def blockDefects (bs : List Block) : List Defect :=
  (bs.filter fun b => !b.isTerminated).map Block.defect

theorem leafDefects_flatMap {α : Type} (f : α → List Subject) (xs : List α) :
    leafDefects (xs.flatMap f) = xs.flatMap fun x => leafDefects (f x) :=
  List.filterMap_flatMap

theorem blockDefects_flatMap {α : Type} (f : α → List Block) (xs : List α) :
    blockDefects (xs.flatMap f) = xs.flatMap fun x => blockDefects (f x) := by
  simp only [blockDefects, List.filter_flatMap, List.map_flatMap]

/-- Two kinds of defects may be collected one after the other. -/
theorem perm_flatMap_append {α β : Type} {f g h : α → List β} {xs : List α}
    (hperm : ∀ x ∈ xs, (f x).Perm (g x ++ h x)) :
    (xs.flatMap f).Perm (xs.flatMap g ++ xs.flatMap h) :=
  (List.Perm.flatMap_left xs hperm).trans (List.flatMap_append_perm xs g h).symm

theorem defects_perm :
    PlainCases
      (fun n => n.defects.Perm (leafDefects n.normalSubjects ++ blockDefects n.reachedBlocks))
      (fun b => b.defects.Perm (leafDefects b.normalSubjects ++ blockDefects b.reachedBlocks))
      (fun a => a.defects.Perm (leafDefects a.normalSubjects ++ blockDefects a.reachedBlocks)) where
  text t := List.Perm.refl _
  quotation q := by
    by_cases h : q.isTerminated <;>
      simp [Node.defects, h, leafDefects, blockDefects, Node.normalSubjects, Node.normal?,
        Node.reachedBlocks, Subject.leafDefect?, List.filterMap_cons]
  misplaced t := by
    by_cases h : t.isClosing <;>
      simp [Node.defects, Defect.ofMisplaced, h, leafDefects, blockDefects, Node.normalSubjects,
        Node.normal?, Node.reachedBlocks, Subject.leafDefect?, List.filterMap_cons]
  command ident arguments clause ih := by
    rw [Node.normalSubjects_command, Node.reachedBlocks_command, Node.defects, Command.defects,
      Argument.defectsAll_eq, blockDefects_flatMap]
    have hleaves : leafDefects (.node (.command ⟨ident, Argument.normals arguments, none⟩) ::
        .command ⟨ident, Argument.normals arguments, none⟩ ::
          arguments.flatMap Argument.normalSubjects) =
        arguments.flatMap fun a => leafDefects a.normalSubjects :=
      leafDefects_flatMap _ _
    rw [hleaves]
    exact perm_flatMap_append ih
  block b ih := by
    rw [Node.normalSubjects_block, Node.defects, Node.reachedBlocks]
    have hleaves : leafDefects (b.normal?.toList.map (Subject.node ∘ Node.block)) = [] := by
      cases b.normal? <;> rfl
    rwa [leafDefects, List.filterMap_append, ← leafDefects, ← leafDefects, hleaves,
      List.nil_append]
  children opening children closing ih := by
    cases closing with
    | none => exact List.Perm.refl _
    | some closing =>
      have hblank : ∀ n : Node, n.isBlank → n.defects = [] := by
        intro n hn
        obtain ⟨t, rfl, -⟩ := Node.eq_text_of_isBlank hn
        rfl
      rw [Block.normalSubjects_closed, Block.reachedBlocks_closed, Block.defects,
        Node.defectsAll_eq, ← flatMap_trimBy hblank]
      have hleaves : leafDefects (.block ⟨opening, (Node.trim children).filterMap Node.normal?,
          some closing⟩ :: (Node.trim children).flatMap Node.normalSubjects) =
          (Node.trim children).flatMap fun n => leafDefects n.normalSubjects :=
        leafDefects_flatMap _ _
      have hblocks : blockDefects (⟨opening, children, some closing⟩ ::
          (Node.trim children).flatMap Node.reachedBlocks) =
          (Node.trim children).flatMap fun n => blockDefects n.reachedBlocks :=
        blockDefects_flatMap _ _
      rw [hleaves, hblocks]
      exact perm_flatMap_append fun n hn => ih n (Node.mem_of_mem_trim hn)
  argument b ih := by rwa [Argument.normalSubjects_block]
  script operator operand ih := by
    rw [Argument.normalSubjects_script, Argument.defects, Argument.reachedBlocks]
    have hleaves : leafDefects (operand.normal?.toList.map (Subject.script operator)) = [] := by
      cases operand.normal? <;> rfl
    rwa [leafDefects, List.filterMap_append, ← leafDefects, ← leafDefects, hleaves,
      List.nil_append]

namespace Document

theorem tokens_normal (doc : Document) :
    Document.tokens (normal doc) = doc.flatMap Item.keptTokens :=
  flatMap_filterMap Item.normal? Item.tokens doc

/-- Every token of a document is kept in its normal form or lost, and those that are kept stay in
order. -/
theorem accounts_ofTokens (definitions : Bool) {ts : List Token} {start stop : Nat}
    (h : Span.Contiguous start (ts.map Token.span) stop) :
    (Document.tokens (normal (ofTokens definitions ts))).Sublist ts ∧
      ∀ t ∈ ts, ∃ i ∈ ofTokens definitions ts, t ∈ i.keptTokens ∨ i.Loses t := by
  have hchain := (ofTokens_chain definitions (nodeWithin_accounted _) ts).mono
    fun hi => accounts_item hi
  obtain ⟨taken, htaken, hkept, hall⟩ := Accounts.chain hchain h
  obtain rfl : ts = taken := by rwa [List.append_nil] at htaken
  rw [tokens_normal]
  exact ⟨hkept, hall⟩

theorem defects_normalForm_perm {doc : Document} (hdoc : NodesDefineNothing doc) :
    doc.normalForm.defects.Perm
      (leafDefects (nodeSubjects (normal doc)) ++ blockDefects (Document.reachedBlocks doc)) := by
  have hdefects : doc.normalForm.defects = (Document.nodes doc).flatMap Node.defects := by
    rw [normalForm, Document.nodes, flatMap_filterMap]
    refine List.flatMap_congr fun i _ => ?_
    cases i with
    | node n => simp [Item.defects]
    | definition d => rfl
  rw [hdefects, nodeSubjects_normal, Document.reachedBlocks, leafDefects_flatMap,
    blockDefects_flatMap]
  exact perm_flatMap_append fun n hn => defects_perm.node (hdoc n hn)

/-- The token stands in a definition of the document. -/
def Defines (doc : Document) (t : Token) : Prop :=
  ∃ d ∈ Document.definitionList doc, d.span.Encloses t.span

instance decidableDefines (doc : Document) (t : Token) : Decidable (Defines doc t) :=
  inferInstanceAs (Decidable (∃ d ∈ Document.definitionList doc, _))

theorem kept_or_lost (doc : Document) {i : Item} (hi : i ∈ doc) {t : Token}
    (h : t ∈ i.keptTokens ∨ i.Loses t) (hdefines : ¬ Defines doc t) :
    t ∈ Document.tokens (normal doc) ∨
      t.Lost (Document.subjects doc) doc.normalForm.defects := by
  rcases h with hkept | hloses
  · left
    rw [tokens_normal]
    exact List.mem_flatMap.mpr ⟨i, hi, hkept⟩
  · right
    cases i with
    | definition d =>
      have hmem : d ∈ Document.definitionList doc := List.mem_filterMap.mpr ⟨_, hi, rfl⟩
      exact absurd ⟨d, hmem, hloses⟩ hdefines
    | node n =>
      have hlost : n.Loses t := hloses
      apply hlost.mono
      · intro x hx
        rw [Document.subjects_eq]
        exact List.mem_flatMap.mpr ⟨_, hi, hx⟩
      · intro d hd
        exact List.mem_flatMap.mpr ⟨_, hi, hd⟩

/-- Nothing is lost silently in the normal form. A token outside definitions stays or is lost for a
reason, the tokens that stay keep their order and stand there once, and the defects are one for each
leaf with a defect that stays and one for each unterminated block that is in no other. -/
theorem accounts_for_tokens (source : String) :
    (∀ t ∈ Token.ofSource source, ¬ Defines (ofSource source) t →
      t ∈ Document.tokens (normal (ofSource source)) ∨
        t.Lost (ofSource source).subjects (ofSource source).normalForm.defects) ∧
    (Document.tokens (normal (ofSource source))).Sublist (Token.ofSource source) ∧
    (Document.tokens (normal (ofSource source))).Nodup ∧
    (ofSource source).normalForm.defects.Perm
      (leafDefects (nodeSubjects (normal (ofSource source))) ++
        blockDefects (ofSource source).reachedBlocks) := by
  obtain ⟨hkept, hall⟩ := accounts_ofTokens true (Token.contiguous_ofSource source)
  refine ⟨?_, hkept, hkept.nodup (Token.nodup_ofSource source),
    defects_normalForm_perm (nodesDefineNothing_ofTokens true _)⟩
  intro t ht hdefines
  obtain ⟨i, hi, hcase⟩ := hall t ht
  exact kept_or_lost _ hi hcase hdefines

theorem accounts_for_tokens_operator :
    ((Token.mk "^" ⟨9, 10, 1, 10⟩ ∈ Token.ofSource "\\a\x7b b (c\x7d^[d" ∧
      ¬ Defines (ofSource "\\a\x7b b (c\x7d^[d") ⟨"^", ⟨9, 10, 1, 10⟩⟩) ∧
      Token.mk "^" ⟨9, 10, 1, 10⟩ ∉ Document.tokens (normal (ofSource "\\a\x7b b (c\x7d^[d"))) ∧
    Token.Lost (ofSource "\\a\x7b b (c\x7d^[d").subjects
      (ofSource "\\a\x7b b (c\x7d^[d").normalForm.defects ⟨"^", ⟨9, 10, 1, 10⟩⟩ := by
  have hmem : Token.mk "^" ⟨9, 10, 1, 10⟩ ∈ Token.ofSource "\\a\x7b b (c\x7d^[d" ∧
      ¬ Defines (ofSource "\\a\x7b b (c\x7d^[d") ⟨"^", ⟨9, 10, 1, 10⟩⟩ := by decide +kernel
  have hgone : Token.mk "^" ⟨9, 10, 1, 10⟩ ∉
      Document.tokens (normal (ofSource "\\a\x7b b (c\x7d^[d")) := by decide +kernel
  exact ⟨⟨hmem, hgone⟩, ((accounts_for_tokens _).1 _ hmem.1 hmem.2).resolve_left hgone⟩

end Document

end AcademicMarkup
