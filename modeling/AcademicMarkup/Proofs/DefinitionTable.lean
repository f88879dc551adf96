import AcademicMarkup.Proofs.ReadPlaces
import Mathlib.Data.List.Induction
import Mathlib.Data.List.Nodup

/-!
The definitions of a document by name stand for the list of the definitions. What the table holds
for a name is what the list holds for it, in the same order, and its names are those of the list
without repetition. A definition is recorded where the document is brought into normal form, at any
depth, and what is recorded is what the normal form keeps. In a document that was read the
definitions stand among its items only: none is met inside a node or inside another definition.
-/
namespace AcademicMarkup

/-! Names without repetition. -/

theorem eraseDups_concat (names : List String) (name : String) :
    (names ++ [name]).eraseDups =
      if name ∈ names then names.eraseDups else names.eraseDups ++ [name] := by
  rw [List.eraseDups_append]
  by_cases h : name ∈ names
  · simp [List.removeAll, h]
  · simp [List.removeAll, h, List.eraseDups_cons]

theorem nodup_eraseDups (names : List String) : names.eraseDups.Nodup := by
  induction names using List.reverseRecOn with
  | nil => exact List.nodup_nil
  | append_singleton names name ih =>
    rw [eraseDups_concat]
    split
    · exact ih
    · rename_i hnew
      refine List.nodup_append.mpr ⟨ih, List.nodup_singleton name, ?_⟩
      intro a ha b hb heq
      obtain rfl := List.mem_singleton.mp hb
      exact hnew (List.mem_eraseDups.mp (heq ▸ ha))

namespace Definitions

/-! Each insertion extends the list that the table stands for. -/

/-- The entry of a name that stands for the definitions of a list. -/
def entryOf (ds : List Definition) (name : String) : String × List Definition :=
  (name, ds.filter (·.name == name))

/-- The entries that stand for a list of definitions. -/
def tabulated (ds : List Definition) : List (String × List Definition) :=
  (ds.map Definition.name).eraseDups.map (entryOf ds)

variable {ds : List Definition} {d : Definition}

theorem entryOf_concat_of_ne {name : String} (h : name ≠ d.name) :
    entryOf (ds ++ [d]) name = entryOf ds name := by
  simp [entryOf, h.symm]

theorem filter_name_eq_nil {name : String} (h : name ∉ ds.map Definition.name) :
    ds.filter (·.name == name) = [] := by
  refine List.filter_eq_nil_iff.mpr fun d hd heq => h ?_
  exact List.mem_map.mpr ⟨d, hd, beq_iff_eq.mp heq⟩

/-- The definition joins the entry of its name, or makes one if the name is new. -/
theorem insertInto_map_entryOf {names : List String} (hnodup : names.Nodup)
    (hnew : d.name ∉ names → ds.filter (·.name == d.name) = []) :
    insertInto d (names.map (entryOf ds)) =
      (if d.name ∈ names then names else names ++ [d.name]).map (entryOf (ds ++ [d])) := by
  induction names with
  | nil => simp [insertInto, entryOf, hnew]
  | cons name names ih =>
    obtain ⟨hnotMem, hnames⟩ := List.nodup_cons.mp hnodup
    rw [List.map_cons, entryOf, insertInto]
    by_cases hname : name = d.name
    · subst hname
      -- no later entry has the name, so the others stay as they are
      have hothers : names.map (entryOf (ds ++ [d])) = names.map (entryOf ds) :=
        List.map_congr_left fun other hother =>
          entryOf_concat_of_ne fun heq => hnotMem (heq ▸ hother)
      simp [hothers, entryOf]
    · have hrest := ih hnames fun h => hnew (by simp [h, Ne.symm hname])
      rw [if_neg (by simpa using hname), hrest]
      by_cases h : d.name ∈ names <;> simp [h, Ne.symm hname, entryOf]

theorem insertInto_tabulated : insertInto d (tabulated ds) = tabulated (ds ++ [d]) := by
  have hnew : d.name ∉ (ds.map Definition.name).eraseDups → ds.filter (·.name == d.name) = [] :=
    fun h => filter_name_eq_nil fun hmem => h (List.mem_eraseDups.mpr hmem)
  rw [tabulated, insertInto_map_entryOf (nodup_eraseDups _) hnew, tabulated, List.map_append,
    List.map_singleton, eraseDups_concat]
  simp only [List.mem_eraseDups]

theorem ofList_concat (ds : List Definition) (d : Definition) :
    ofList (ds ++ [d]) = (ofList ds).insert d :=
  List.foldl_concat ..

theorem entries_ofList (ds : List Definition) : (ofList ds).entries = tabulated ds := by
  induction ds using List.reverseRecOn with
  | nil => rfl
  | append_singleton ds d ih => rw [ofList_concat, insert, ih, insertInto_tabulated]

/-! What the readers of a table see. -/

theorem get_ofList (ds : List Definition) (name : String) :
    (ofList ds).get name = ds.filter (·.name == name) := by
  rw [get, entries_ofList, tabulated]
  by_cases h : name ∈ ds.map Definition.name
  · rw [show entryOf ds = fun name => (name, ds.filter (·.name == name)) from rfl,
      List.lookup_graph _ (List.mem_eraseDups.mpr h)]
    rfl
  · have hnone : ((ds.map Definition.name).eraseDups.map (entryOf ds)).lookup name = none := by
      refine List.lookup_eq_none_iff.mpr (List.forall_mem_map.mpr fun other hother => ?_)
      refine bne_iff_ne.mpr fun heq => h ?_
      exact heq ▸ List.mem_eraseDups.mp hother
    rw [hnone, filter_name_eq_nil h]
    rfl

theorem names_ofList (ds : List Definition) :
    (ofList ds).names = (ds.map Definition.name).eraseDups := by
  rw [names, entries_ofList, tabulated, List.map_map]
  exact List.map_id _

theorem length_insertInto (d : Definition) (entries : List (String × List Definition)) :
    ((insertInto d entries).flatMap (·.2)).length = (entries.flatMap (·.2)).length + 1 := by
  fun_induction insertInto d entries with
  | case1 => rfl
  | case2 name ds rest _ =>
    simp only [List.flatMap_cons, List.length_append, List.length_singleton]
    omega
  | case3 name ds rest _ ih =>
    simp only [List.flatMap_cons, List.length_append, ih]
    omega

theorem size_ofList (ds : List Definition) : (ofList ds).size = ds.length := by
  induction ds using List.reverseRecOn with
  | nil => rfl
  | append_singleton ds d ih =>
    rw [ofList_concat, size, insert, length_insertInto, ← size, ih, List.length_append]
    rfl

theorem contains_ofList (ds : List Definition) (name : String) :
    (ofList ds).contains name ↔ ∃ d ∈ ds, d.name = name := by
  rw [contains, get_ofList]
  simp

end Definitions

/-! Every definition that the normal form keeps is recorded, and no other. -/

/-- The definitions that are met in the normal form of a node, outside of rules. -/
def Node.keptDefinitions (n : Node) : List Definition :=
  (n.normal?.toList.flatMap Node.outsideRules).filterMap Subject.definition?

def Block.keptDefinitions (b : Block) : List Definition :=
  (b.normal?.toList.flatMap Block.outsideRules).filterMap Subject.definition?

def Argument.keptDefinitions (a : Argument) : List Definition :=
  (a.normal?.toList.flatMap Argument.outsideRules).filterMap Subject.definition?

theorem filterMap_definition?_flatMap {α : Type} (normal? : α → Option α)
    (outsideRules : α → List Subject) (as : List α) :
    ((as.filterMap normal?).flatMap outsideRules).filterMap Subject.definition? =
      as.flatMap fun a =>
        ((normal? a).toList.flatMap outsideRules).filterMap Subject.definition? := by
  rw [flatMap_filterMap, List.filterMap_flatMap]

theorem Node.keptDefinitions_command (ident : Token) (arguments : List Argument)
    (clause : Option Clause) :
    (Node.command ⟨ident, arguments, clause⟩).keptDefinitions =
      arguments.flatMap Argument.keptDefinitions := by
  calc (Node.command ⟨ident, arguments, clause⟩).keptDefinitions
      = (Node.command ⟨ident, Argument.normals arguments, none⟩).outsideRules.filterMap
          Subject.definition? := by simp [keptDefinitions, Node.normal?, Command.normal]
    _ = ((Argument.normals arguments).flatMap Argument.outsideRules).filterMap
          Subject.definition? := by
        rw [Node.outsideRules_command, Option.toList_none, List.map_nil, List.append_nil]
        rfl
    _ = _ := by
        rw [Argument.normals_eq]
        exact filterMap_definition?_flatMap _ _ arguments

theorem Node.keptDefinitions_block (b : Block) :
    (Node.block b).keptDefinitions = b.keptDefinitions := by
  have hblock : ∀ b : Block, (Node.block b).outsideRules.filterMap Subject.definition? =
      b.outsideRules.filterMap Subject.definition? := fun _ => rfl
  cases h : b.normal? <;>
    simp [keptDefinitions, Block.keptDefinitions, Node.normal?, h, hblock]

theorem Node.keptDefinitions_definition (d : Definition) :
    (Node.definition d).keptDefinitions = [d] := by
  have hself : (Node.definition d).outsideRules = [.definition d] := d.walk_stopAtRules .root
  simp [keptDefinitions, Node.normal?, hself, Subject.definition?]

theorem Node.keptDefinitions_of_isBlank {n : Node} (h : n.isBlank) : n.keptDefinitions = [] := by
  obtain ⟨t, rfl, -⟩ := Node.eq_text_of_isBlank h
  rfl

theorem Block.keptDefinitions_closed (opening : Token) (children : List Node) (closing : Token) :
    (Block.mk opening children (some closing)).keptDefinitions =
      children.flatMap Node.keptDefinitions := by
  -- only blank nodes are cut, and they hold no definition
  have htrim : (Node.trim children).flatMap Node.keptDefinitions =
      children.flatMap Node.keptDefinitions :=
    flatMap_trimBy (fun _ => Node.keptDefinitions_of_isBlank) children
  rw [keptDefinitions, Block.normal?_closed, Option.toList_some, List.flatMap_singleton,
    Block.outsideRules_mk, List.filterMap_cons_none rfl, filterMap_definition?_flatMap, ← htrim]
  rfl

theorem Argument.keptDefinitions_block (b : Block) :
    (Argument.block b).keptDefinitions = b.keptDefinitions := by
  have hblock : ∀ b : Block, (Argument.block b).outsideRules = b.outsideRules := fun _ => rfl
  cases h : b.normal? <;>
    simp [keptDefinitions, Block.keptDefinitions, Argument.normal?, h, hblock]

theorem Argument.keptDefinitions_script (operator : Token) (operand : Node) :
    (Argument.script operator operand).keptDefinitions = operand.keptDefinitions := by
  have hscript : ∀ n : Node,
      (Argument.script operator n).outsideRules.filterMap Subject.definition? =
        n.outsideRules.filterMap Subject.definition? := fun _ => rfl
  cases h : operand.normal? <;>
    simp [keptDefinitions, Node.keptDefinitions, Argument.normal?, h, hscript]

theorem Node.recordAll_eq (table : Definitions) (ns : List Node) :
    Node.recordAll table ns = ns.foldl Node.record table := by
  induction ns generalizing table with
  | nil => rfl
  | cons n ns ih => rw [Node.recordAll, ih, List.foldl_cons]

theorem Argument.recordAll_eq (table : Definitions) (as : List Argument) :
    Argument.recordAll table as = as.foldl Argument.record table := by
  induction as generalizing table with
  | nil => rfl
  | cons a as ih => rw [Argument.recordAll, ih, List.foldl_cons]

/-- Recording one after the other inserts what each inserts, in order. -/
theorem foldl_record_eq {α : Type} {record : Definitions → α → Definitions}
    {kept : α → List Definition} {as : List α}
    (h : ∀ a ∈ as, ∀ table, record table a = (kept a).foldl Definitions.insert table)
    (table : Definitions) :
    as.foldl record table = (as.flatMap kept).foldl Definitions.insert table := by
  rw [List.foldl_flatMap]
  exact List.foldl_ext _ _ _ fun table a ha => h a ha table

theorem record_eq_insert_kept :
    TreeCases (fun n => ∀ table, n.record table = n.keptDefinitions.foldl Definitions.insert table)
      (fun b => ∀ table, b.record table = b.keptDefinitions.foldl Definitions.insert table)
      (fun a => ∀ table, a.record table = a.keptDefinitions.foldl Definitions.insert table) where
  text t table := rfl
  quotation q table := rfl
  misplaced t table := rfl
  command ident arguments clause ih table := by
    rw [Node.record, Command.record, Argument.recordAll_eq, foldl_record_eq ih,
      Node.keptDefinitions_command]
  block b ih table := by rw [Node.record, ih, Node.keptDefinitions_block]
  definition d table := by
    rw [Node.keptDefinitions_definition]
    rfl
  children opening children closing ih table := by
    cases closing with
    | none => rfl
    | some closing =>
      rw [Block.record, Node.recordAll_eq, foldl_record_eq ih, Block.keptDefinitions_closed]
  argument b ih table := by rw [Argument.record, ih, Argument.keptDefinitions_block]
  script operator operand ih table := by
    rw [Argument.record, ih, Argument.keptDefinitions_script]

/-! Where no definition is met there is none to keep. -/

theorem keptDefinitions_eq_nil :
    PlainCases (fun n => n.keptDefinitions = []) (fun b => b.keptDefinitions = [])
      (fun a => a.keptDefinitions = []) where
  text t := rfl
  quotation q := rfl
  misplaced t := rfl
  command ident arguments clause ih := by
    rw [Node.keptDefinitions_command]
    exact List.flatMap_eq_nil_iff.mpr ih
  block b ih := by rwa [Node.keptDefinitions_block]
  children opening children closing ih := by
    cases closing with
    | none => rfl
    | some closing =>
      rw [Block.keptDefinitions_closed]
      exact List.flatMap_eq_nil_iff.mpr ih
  argument b ih := by rwa [Argument.keptDefinitions_block]
  script operator operand ih := by rwa [Argument.keptDefinitions_script]

namespace Document

/-- The table holds what the normal form keeps of definitions, in the order of the document. -/
theorem definitions_normalForm (doc : Document) :
    doc.normalForm.definitions =
      .ofList (doc.normalForm.document.outsideRules.filterMap Subject.definition?) := by
  have hitem : ∀ i ∈ doc, ∀ table, Item.record table i =
      ((i.normal?.toList.flatMap Item.outsideRules).filterMap Subject.definition?).foldl
        Definitions.insert table := by
    intro i _ table
    cases i with
    | node n =>
      have hnode : ∀ n : Node, (Item.node n).outsideRules = n.outsideRules := fun _ => rfl
      rw [Item.record, record_eq_insert_kept.node n table, Node.keptDefinitions, Item.normal?]
      cases n.normal? <;> simp [hnode]
    | definition d =>
      have hself : (Item.definition d).outsideRules = [.definition d] := d.walk_stopAtRules .root
      simp [Item.record, Item.normal?, hself, Subject.definition?]
  rw [normalForm, foldl_record_eq hitem, outsideRules_eq, filterMap_definition?_flatMap]
  rfl

theorem definitionList_eq_flatMap (doc : Document) :
    doc.definitionList = doc.flatMap fun i => definitionList [i] := by
  induction doc with
  | nil => rfl
  | cons i doc ih =>
    rw [List.flatMap_cons, ← ih]
    cases i <;> rfl

/-- If no definition is met inside a node, the definitions among the items are what is recorded. -/
theorem definitions_normalForm_of_nodes {doc : Document} (h : NodesDefineNothing doc) :
    doc.normalForm.definitions = doc.definitionList.foldl Definitions.insert .empty := by
  have hitem : ∀ i ∈ doc, ∀ table, Item.record table i =
      (definitionList [i]).foldl Definitions.insert table := by
    intro i hi table
    cases i with
    | node n =>
      have hnone := keptDefinitions_eq_nil.node (h n (mem_nodes.mpr hi))
      rw [Item.record, record_eq_insert_kept.node n table, hnone]
      rfl
    | definition d => rfl
  rw [normalForm, foldl_record_eq hitem, ← definitionList_eq_flatMap]

/-- If no definition stands in an item, the definitions among the items are all that are met. -/
theorem filterMap_definition?_subjects {doc : Document}
    (h : DefinesNothing (doc.flatMap Item.inside)) :
    doc.subjects.filterMap Subject.definition? = doc.definitionList := by
  rw [subjects_eq]
  induction doc with
  | nil => rfl
  | cons i doc ih =>
    rw [List.flatMap_cons] at h
    obtain ⟨hi, hdoc⟩ := List.forall_mem_append.mp h
    rw [List.flatMap_cons, List.filterMap_append, ih hdoc, definitionList, definitionList]
    have hinside := List.filterMap_eq_nil_iff.mpr hi
    cases i with
    | node n => simpa [Item.inside] using hinside
    | definition d =>
      simpa [Item.inside, Definition.inside, d.subjects_eq, Subject.definition?] using hinside

/-- The normal form keeps the definitions among the items. -/
theorem definitionList_normalForm (doc : Document) :
    doc.normalForm.document.definitionList = doc.definitionList := by
  rw [normalForm, definitionList, List.filterMap_filterMap]
  refine List.filterMap_congr fun i _ => ?_
  cases i with
  | definition d => rfl
  | node n => cases hn : n.normal? <;> simp [Item.normal?, hn]

theorem definesNothing_inside_normal {doc : Document}
    (h : DefinesNothing (doc.flatMap Item.inside)) :
    DefinesNothing ((normal doc).flatMap Item.inside) := by
  have hitems := List.forall_mem_flatMap.mp h
  have hnodes : NodesDefineNothing doc := fun n hn => hitems (.node n) (mem_nodes.mp hn)
  refine List.forall_mem_flatMap.mpr fun i hi => ?_
  cases i with
  | node n => exact hnodes.normal n (mem_nodes.mpr hi)
  | definition d =>
    refine hitems (.definition d) ?_
    obtain ⟨i, hmem, hnormal⟩ := List.mem_filterMap.mp hi
    cases i with
    | node n => simp [Item.normal?] at hnormal
    | definition d' =>
      cases hnormal
      exact hmem

/-- A table of definitions stands for the list of what was inserted. The table of a document,
wherever definitions stand in it, is made from those that its normal form keeps outside of rules. Of
a source these are the definitions among its items, which are all the definitions that are met in
it, before and after it is brought into normal form. -/
theorem definitions_stand_for_list :
    (∀ ds : List Definition,
      (∀ name, (Definitions.ofList ds).get name = ds.filter (·.name == name)) ∧
      (Definitions.ofList ds).names = (ds.map Definition.name).eraseDups ∧
      (Definitions.ofList ds).size = ds.length ∧
      (∀ name, (Definitions.ofList ds).contains name ↔ ∃ d ∈ ds, d.name = name) ∧
      ∀ (α : Type) (name : String) (f : Definition → Option α),
        (Definitions.ofList ds).findSome? name f =
          (ds.filter (·.name == name)).findSome? f) ∧
    (∀ doc : Document,
      doc.normalForm.definitions =
        .ofList (doc.normalForm.document.outsideRules.filterMap Subject.definition?)) ∧
    ∀ source : String,
      (ofSource source).normalForm.definitions =
        (ofSource source).definitionList.foldl Definitions.insert Definitions.empty ∧
      (ofSource source).subjects.filterMap Subject.definition? =
        (ofSource source).definitionList ∧
      (ofSource source).normalForm.document.subjects.filterMap Subject.definition? =
        (ofSource source).definitionList := by
  refine ⟨fun ds => ?_, definitions_normalForm, fun source => ?_⟩
  · refine ⟨Definitions.get_ofList ds, Definitions.names_ofList ds, Definitions.size_ofList ds,
      Definitions.contains_ofList ds, fun α name f => ?_⟩
    rw [Definitions.findSome?, Definitions.get_ofList]
  · have hinside := definesNothing_inside true (Token.ofSource source)
    refine ⟨definitions_normalForm_of_nodes (nodesDefineNothing_ofTokens true _),
      filterMap_definition?_subjects hinside, ?_⟩
    rw [← definitionList_normalForm]
    exact filterMap_definition?_subjects (definesNothing_inside_normal hinside)

-- between brackets the keyword of a definition is text
example : (ofSource ("\\macroRules![\\a]\x7b\x7d" ++ "(\\macroRules![\\b]\x7b\x7d)" ++
    "\\macroRules![\\a]\x7b\x7d")).normalForm.definitions.entries.map
      (fun e => (e.1, e.2.length)) = [("\\a", 2)] := by
  decide +kernel

end Document

end AcademicMarkup
