import AcademicMarkup.Proofs.NormalForm
import AcademicMarkup.Proofs.Relocation
import AcademicMarkup.Proofs.TakenTokens

/-!
The parts of a document and the places at which they were read. A part is read from some token on
and leaves the tokens after it, both ends of the list of all tokens. What follows from that for each
kind of construct holds of every part, also in the rules of clauses and definitions. Definitions are
read between the nodes of a document only, so what holds of all other constructs holds of all that
stands in a node or in the target of a rule. If the tokens carry their numbers, the place of a part
can be read off the part itself; nothing that is read depends on the numbers, so the document is
otherwise the same.
-/
namespace AcademicMarkup

open Production Grammar

/-! Induction over the parts with their places. -/

/-- What is to be shown of a part of a node that is read from some place of all the tokens on, given
what is known of the nodes inside it. -/
structure InnerPlaceCases (S : Node → List Token → List Token → Prop) (all : List Token)
    (P : Subject → Prop) : Prop where
  node : ∀ n, P (.node n)
  text : ∀ {t rest}, t :: rest <:+ all → BeginsNothing t rest → ¬ t.isClosing → P (.text t)
  quotation : ∀ {q ts rest}, ts <:+ all → quotation ts = some (q, rest) → P (.quotation q)
  misplaced : ∀ {t rest}, t :: rest <:+ all → t.isClosing ∨ t.isOpening ∨ t.isIdentifier →
    P (.misplaced t)
  block : ∀ {b ts rest}, ts <:+ all → BlockRead S b ts rest → P (.block b)
  command : ∀ {c ts rest}, ts <:+ all → CommandRead S c ts rest → P (.command c)
  script : ∀ {operator operand ts rest}, operator :: ts <:+ all → operator.isScriptOperator →
    S operand ts rest → P (.script operator operand)
  clause : ∀ {c ts rest}, ts <:+ all → ClauseRead S c ts rest → P (.clause c)

/-- What is to be shown of any part of a document. -/
structure PlaceCases (S : Node → List Token → List Token → Prop) (all : List Token)
    (P : Subject → Prop) : Prop extends InnerPlaceCases S all P where
  definition : ∀ {d ts rest}, ts <:+ all → DefinitionRead S d ts rest → P (.definition d)

/-- What is known of every node that is read, among other things which tokens it takes. -/
structure ReadAs (S : Node → List Token → List Token → Prop) : Prop where
  reads : ∀ levels, (nodeWithin levels).production.Ensures S
  takes : ∀ {n ts rest}, S n ts rest → Takes Node.firstToken Node.lastToken n ts rest

/-- The parts of what is read from a place satisfy the property. -/
def PartsFrom {α : Type} (all : List Token) (P : Subject → Prop) (subjects : α → List Subject)
    (a : α) (ts _rest : List Token) : Prop :=
  ts <:+ all → ∀ x ∈ subjects a, P x

/-- What stands in the targets of a definition. -/
def Definition.inside (d : Definition) : List Subject := d.rules.flatMap fun r => r.target.subjects

/-- What stands in an item, a definition itself not included. -/
def Item.inside : Item → List Subject
  | .node n => n.subjects
  | .definition d => d.inside

theorem PartsFrom.chain {α : Type} {all : List Token} {P : Subject → Prop}
    {subjects : α → List Subject} {as : List α} {ts rest : List Token}
    (h : Chain (fun a ts rest => rest <:+ ts ∧ PartsFrom all P subjects a ts rest) as ts rest)
    (hts : ts <:+ all) : ∀ x ∈ as.flatMap subjects, P x := by
  induction h with
  | nil ts => simp
  | cons hfirst _ ih =>
    rw [List.flatMap_cons]
    exact List.forall_mem_append.mpr ⟨hfirst.2 hts, ih (hfirst.1.trans hts)⟩

namespace InnerPlaceCases

section Layer

variable {S : Node → List Token → List Token → Prop} {all : List Token} {P : Subject → Prop}

/-- What is known of a node, and that its parts satisfy the property. -/
abbrev Settled (S : Node → List Token → List Token → Prop) (all : List Token) (P : Subject → Prop)
    (n : Node) (ts rest : List Token) : Prop :=
  S n ts rest ∧ PartsFrom all P Node.subjects n ts rest

variable (h : InnerPlaceCases S all P) {ts rest : List Token}

theorem children (hS : ReadAs S) {b : Block} (hb : BlockRead (Settled S all P) b ts rest)
    (hts : ts <:+ all) : ∀ x ∈ b.children.flatMap Node.subjects, P x := by
  have hsuffix : ∀ {n ts rest}, Settled S all P n ts rest →
      rest <:+ ts ∧ PartsFrom all P Node.subjects n ts rest :=
    fun hn => ⟨(hS.takes hn.1).suffix, hn.2⟩
  cases hb with
  | @closed opening _ _ ts _ _ _ hchain =>
    exact PartsFrom.chain (hchain.mono hsuffix) ((List.suffix_cons opening ts).trans hts)
  | @unclosed opening _ ts _ _ hchain _ =>
    exact PartsFrom.chain (hchain.mono hsuffix) ((List.suffix_cons opening ts).trans hts)

theorem ofTargets (hS : ReadAs S) {d : Definition}
    (hd : DefinitionRead (Settled S all P) d ts rest) :
    PartsFrom all P Definition.inside d ts rest := by
  intro hts
  cases hd with
  | @intro keyword _ _ _ _ _ _ ts mid _ _ _ hheader _ hbody =>
    have hmid : mid <:+ ts := (takes_block (hheader.mono fun hn => hS.takes hn.1)).suffix
    have hchildren := children hS hbody (hmid.trans ((List.suffix_cons keyword ts).trans hts))
    refine List.forall_mem_flatMap.mpr ?_
    intro d hd x hx
    obtain ⟨r, hr, hrule⟩ := List.mem_filterMap.mp hd
    obtain ⟨_, -, -, htarget⟩ := blocks_of_definitionRule? hrule
    refine List.forall_mem_flatMap.mp hchildren r.target (mem_of_mem_rules hr).2 x ?_
    rw [htarget]
    exact List.mem_cons_of_mem _ hx

include h

theorem leaf_text {t : Token} (hbegins : BeginsNothing t rest) (hclosing : ¬ t.isClosing) :
    PartsFrom all P Node.subjects (.text t) (t :: rest) rest := by
  intro hts
  exact List.forall_mem_cons.mpr
    ⟨h.node _, List.forall_mem_singleton.mpr (h.text hts hbegins hclosing)⟩

theorem leaf_misplaced {t : Token} (ht : t.isClosing ∨ t.isOpening ∨ t.isIdentifier) :
    PartsFrom all P Node.subjects (.misplaced t) (t :: rest) rest := by
  intro hts
  exact List.forall_mem_cons.mpr
    ⟨h.node _, List.forall_mem_singleton.mpr (h.misplaced hts ht)⟩

theorem leaf_quotation {q : Quotation} (hq : Grammar.quotation ts = some (q, rest)) :
    PartsFrom all P Node.subjects (.quotation q) ts rest := by
  intro hts
  exact List.forall_mem_cons.mpr
    ⟨h.node _, List.forall_mem_singleton.mpr (h.quotation hts hq)⟩

theorem ofBlock (hS : ReadAs S) {b : Block} (hb : BlockRead (Settled S all P) b ts rest) :
    PartsFrom all P Block.subjects b ts rest := by
  intro hts
  have hself := h.block hts (hb.mono fun hn => hn.1)
  have hchildren := children hS hb hts
  obtain ⟨opening, children, closing⟩ := b
  rw [Block.subjects_mk]
  exact List.forall_mem_cons.mpr ⟨hself, hchildren⟩

theorem ofArgument (hS : ReadAs S) {a : Argument}
    (ha : ArgumentRead (Settled S all P) a ts rest) :
    PartsFrom all P Argument.subjects a ts rest := by
  cases ha with
  | block hb => exact h.ofBlock hS hb
  | @script operator operand ts rest hoperator hoperand =>
    intro hts
    exact List.forall_mem_cons.mpr ⟨h.script hts hoperator hoperand.1,
      hoperand.2 ((List.suffix_cons operator ts).trans hts)⟩

theorem ofArguments (hS : ReadAs S) {as : List Argument}
    (has : Chain (ArgumentRead (Settled S all P)) as ts rest) (hts : ts <:+ all) :
    ∀ x ∈ as.flatMap Argument.subjects, P x :=
  PartsFrom.chain (has.mono fun ha =>
    ⟨(takes_argument (ha.mono fun hn => hS.takes hn.1)).suffix, h.ofArgument hS ha⟩) hts

theorem ofClause (hS : ReadAs S) {c : Clause} (hc : ClauseRead (Settled S all P) c ts rest) :
    PartsFrom all P Clause.subjects c ts rest := by
  intro hts
  have hself := h.clause hts (hc.mono fun hn => hn.1)
  cases hc with
  | @intro keyword _ _ _ ts _ _ _ hb =>
    have hchildren := children hS hb ((List.suffix_cons keyword ts).trans hts)
    rw [Clause.subjects_mk]
    refine List.forall_mem_cons.mpr ⟨hself, List.forall_mem_flatMap.mpr ?_⟩
    intro r hr
    obtain ⟨hpattern, htarget⟩ := mem_of_mem_rules hr
    exact List.forall_mem_append.mpr ⟨List.forall_mem_flatMap.mp hchildren _ hpattern,
      List.forall_mem_flatMap.mp hchildren _ htarget⟩

theorem ofCommand (hS : ReadAs S) {c : Command} (hc : CommandRead (Settled S all P) c ts rest) :
    PartsFrom all P Command.subjects c ts rest := by
  intro hts
  have hself := h.command hts (hc.mono fun hn => hn.1)
  cases hc with
  | @plain ident _ ts _ _ _ hchain =>
    have harguments := h.ofArguments hS hchain ((List.suffix_cons ident ts).trans hts)
    rw [Command.subjects_mk]
    exact List.forall_mem_cons.mpr ⟨hself, List.forall_mem_append.mpr ⟨harguments, by simp⟩⟩
  | @withClause ident arguments clause ts mid _ _ _ hchain hclause =>
    have hafter := (List.suffix_cons ident ts).trans hts
    have hmid : mid <:+ ts := by
      obtain ⟨taken, rfl, -⟩ := Takes.chain
        (hchain.mono fun ha => takes_argument (ha.mono fun hn => hS.takes hn.1))
      exact ⟨taken, rfl⟩
    have hclauseParts := h.ofClause hS hclause (hmid.trans hafter)
    rw [Command.subjects_mk]
    refine List.forall_mem_cons.mpr ⟨hself, List.forall_mem_append.mpr ⟨?_, ?_⟩⟩
    · exact h.ofArguments hS hchain hafter
    · simpa using hclauseParts

theorem ofConstruct (hS : ReadAs S) {n : Node}
    (hn : ConstructRead (Settled S all P) n ts rest) :
    PartsFrom all P Node.subjects n ts rest := by
  cases hn with
  | quotation hq => exact h.leaf_quotation hq
  | command hc => exact fun hts => List.forall_mem_cons.mpr ⟨h.node _, h.ofCommand hS hc hts⟩
  | block hb => exact fun hts => List.forall_mem_cons.mpr ⟨h.node _, h.ofBlock hS hb hts⟩

theorem ofOuter (hS : ReadAs S) {n : Node} (hn : OuterRead (Settled S all P) n ts rest) :
    PartsFrom all P Node.subjects n ts rest := by
  cases hn with
  | construct hn => exact h.ofConstruct hS hn
  | text hbegins hclosing => exact h.leaf_text hbegins hclosing
  | misplaced _ hclosing => exact h.leaf_misplaced (Or.inl hclosing)

theorem ofItem (hS : ReadAs S) {definitions : Bool} {i : Item}
    (hi : ItemRead definitions (Settled S all P) i ts rest) :
    PartsFrom all P Item.inside i ts rest := by
  cases hi with
  | definition _ hd => exact ofTargets hS hd
  | node hn => exact h.ofOuter hS hn

theorem ofNodeWithin (hS : ReadAs S) (levels : Nat) :
    (nodeWithin levels).production.Ensures (Settled S all P) := by
  refine nodeWithin_ensures_and (R := fun _ => PartsFrom all P Node.subjects) hS.reads ?_ ?_ levels
  · intro n ts rest hleaf
    cases hleaf with
    | quotation hq => exact h.leaf_quotation hq
    | text hquotation hopening hident hclosing =>
      exact h.leaf_text ⟨hquotation, hopening, fun hname => absurd hname hident⟩ hclosing
    | misplaced _ hbegins _ => exact h.leaf_misplaced (Or.inr hbegins)
  · intro levels n ts rest hinner
    cases hinner with
    | construct hn => exact h.ofConstruct hS hn
    | text hbegins hclosing => exact h.leaf_text hbegins hclosing

end Layer

end InnerPlaceCases

/-- The items of a document satisfy what is shown for each at the place where it is read. -/
theorem PartsFrom.ofTokens {S : Node → List Token → List Token → Prop} {ts : List Token}
    {P : Subject → Prop} {subjects : Item → List Subject} (hS : ReadAs S)
    (h : InnerPlaceCases S ts P) (definitions : Bool)
    (hitem : ∀ {i : Item} {ts' rest : List Token},
      ItemRead definitions (InnerPlaceCases.Settled S ts P) i ts' rest →
        PartsFrom ts P subjects i ts' rest) :
    ∀ x ∈ (Document.ofTokens definitions ts).flatMap subjects, P x := by
  have hchain := (Document.ofTokens_chain definitions (h.ofNodeWithin hS _) ts).mono fun hi =>
    And.intro (takes_item (hi.mono fun hn => hS.takes hn.1)).suffix (hitem hi)
  exact PartsFrom.chain hchain (List.suffix_refl ts)

/-- What is shown of all constructs but definitions holds of all that stands in the items. -/
theorem InnerPlaceCases.ofTokens {S : Node → List Token → List Token → Prop} {ts : List Token}
    {P : Subject → Prop} (h : InnerPlaceCases S ts P) (hS : ReadAs S) (definitions : Bool) :
    ∀ x ∈ (Document.ofTokens definitions ts).flatMap Item.inside, P x :=
  PartsFrom.ofTokens hS h definitions fun hi => h.ofItem hS hi

theorem PlaceCases.ofTokens {S : Node → List Token → List Token → Prop} {ts : List Token}
    {P : Subject → Prop} (h : PlaceCases S ts P) (hS : ReadAs S) (definitions : Bool) :
    ∀ x ∈ (Document.ofTokens definitions ts).subjects, P x := by
  rw [Document.subjects_eq]
  refine PartsFrom.ofTokens hS h.toInnerPlaceCases definitions fun hi hts => ?_
  have hinside := h.ofItem hS hi hts
  cases hi with
  | node hn => exact hinside
  | @definition d _ _ _ hd =>
    rw [Item.subjects_definition, Definition.subjects_eq]
    exact List.forall_mem_cons.mpr ⟨h.definition hts (hd.mono fun hn => hn.1), hinside⟩

theorem readAs_takes : ReadAs (Takes Node.firstToken Node.lastToken) :=
  ⟨nodeWithin_takes, fun h => h⟩

/-! Definitions stand only between the nodes of a document. -/

theorem undefined_cases (S : Node → List Token → List Token → Prop) (all : List Token) :
    InnerPlaceCases S all fun x => x.definition? = none where
  node _ := rfl
  text _ _ _ := rfl
  quotation _ _ := rfl
  misplaced _ _ := rfl
  block _ _ := rfl
  command _ _ := rfl
  script _ _ _ := rfl
  clause _ _ := rfl

namespace Document

theorem definesNothing_inside (definitions : Bool) (ts : List Token) :
    DefinesNothing ((ofTokens definitions ts).flatMap Item.inside) :=
  (undefined_cases _ ts).ofTokens readAs_takes definitions

theorem nodesDefineNothing_ofTokens (definitions : Bool) (ts : List Token) :
    NodesDefineNothing (ofTokens definitions ts) := by
  intro n hn
  exact List.forall_mem_flatMap.mp (definesNothing_inside definitions ts) _ (mem_nodes.mp hn)

/-- A definition that is met in an item is the item. -/
theorem mem_of_definition_mem_subjects {definitions : Bool} {ts : List Token} {i : Item}
    (hi : i ∈ ofTokens definitions ts) {d : Definition} (hd : .definition d ∈ i.subjects) :
    .definition d ∈ ofTokens definitions ts := by
  have hinside := List.forall_mem_flatMap.mp (definesNothing_inside definitions ts) i hi
  cases i with
  | node n => cases hinside _ hd
  | definition d' =>
    rw [Item.subjects_definition, Definition.subjects_eq] at hd
    rcases List.mem_cons.mp hd with heq | hd
    · cases heq
      exact hi
    · cases hinside _ hd

end Document

/-! Tokens that carry their numbers. -/

namespace Token

/-- The tokens with their numbers as their places, as if each were one character of a line. -/
def numbered (ts : List Token) : List Token :=
  ts.mapIdx fun i t => { t with span := ⟨i, i + 1, 1, i + 1⟩ }

/-- A token that carries its number, with the place that it has in the list. -/
def restored (ts : List Token) (t : Token) : Token :=
  { t with span := (ts[t.span.start]?.map span).getD t.span }

theorem keepsTexts_restored (ts : List Token) : KeepsTexts (restored ts) := fun _ => rfl

theorem map_restored_numbered (ts : List Token) : (numbered ts).map (restored ts) = ts := by
  refine List.ext_getElem? fun i => ?_
  rw [List.getElem?_map, numbered, List.getElem?_mapIdx]
  cases hi : ts[i]? with
  | none => rfl
  | some t => simp [restored, hi]

/-- A token ends at the number of the one after it. -/
theorem drop_stop_numbered {ts : List Token} {t : Token} {rest : List Token}
    (h : t :: rest <:+ numbered ts) : ts.drop t.span.stop = rest.map (restored ts) := by
  obtain ⟨before, hbefore⟩ := h
  have hnumber : (numbered ts)[before.length]? = some t := by
    rw [← hbefore, List.getElem?_append_right (Nat.le_refl _), Nat.sub_self]
    rfl
  have hstop : t.span.stop = before.length + 1 := by
    rw [numbered, List.getElem?_mapIdx] at hnumber
    obtain ⟨u, -, rfl⟩ := Option.map_eq_some_iff.mp hnumber
    rfl
  have hdrop : (numbered ts).drop (before.length + 1) = rest := by
    rw [← hbefore, List.drop_append]
    simp
  rw [hstop, ← hdrop, List.map_drop, map_restored_numbered]

end Token

namespace Document

/-- The document that tokens make up, with the number of each token as its place. -/
def located (definitions : Bool) (ts : List Token) : Document :=
  ofTokens definitions (Token.numbered ts)

/-- Nothing that is read depends on the numbers. -/
theorem map_restored_located (definitions : Bool) (ts : List Token) :
    (located definitions ts).map (Item.mapTokens (Token.restored ts)) =
      ofTokens definitions ts := by
  rw [located, ← ofTokens_map (Token.keepsTexts_restored ts), Token.map_restored_numbered]

end Document

end AcademicMarkup
