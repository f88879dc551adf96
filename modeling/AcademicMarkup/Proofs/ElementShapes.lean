import AcademicMarkup.Proofs.AttributeNames

/-!
The shapes of the elements of content. Each element has a tag of the vocabulary and the attributes
and children that go with it, and a grid is marked exactly if it stands in another. Whether it does
is decided by the commands around a command, and these become the elements around its element: a
command that is left out is left out with all it holds.
-/
namespace AcademicMarkup

/-- An element with the tags of the elements around it, innermost first. -/
structure PlacedElement where
  above : List String
  tag : String
  attributes : Attributes
  children : List Content

mutual

/-- The elements of content that stands in elements with these tags. -/
def Content.placed (above : List String) : Content → List PlacedElement
  | .text _ => []
  | .element tag own children =>
    ⟨above, tag, own, children⟩ :: Content.placedAll (tag :: above) children
  | .fragment children => Content.placedAll above children

def Content.placedAll (above : List String) : List Content → List PlacedElement
  | [] => []
  | c :: cs => c.placed above ++ Content.placedAll above cs

end

theorem Content.placedAll_append (above : List String) (cs ds : List Content) :
    Content.placedAll above (cs ++ ds) =
      Content.placedAll above cs ++ Content.placedAll above ds := by
  induction cs with
  | nil => rfl
  | cons c cs ih => rw [List.cons_append, placedAll, placedAll, ih, List.append_assoc]

/-- The tags that elements of content have. -/
def Tag.all : List String :=
  headings ++ [inlineMath, blockMath, note, grid] ++ plain

/-- The attributes that may give the columns of a grid. -/
def Tag.gridColumns : List (List Attribute) :=
  [[], [⟨"col", some "1"⟩], [⟨"col", some "2"⟩]]

/-- The element is one that the emitter knows. -/
structure PlacedElement.WellShaped (e : PlacedElement) : Prop where
  tag_mem : e.tag ∈ Tag.all
  void : Tag.isVoid e.tag → e.children = []
  math : e.tag = Tag.inlineMath ∨ e.tag = Tag.blockMath →
    e.attributes = .empty ∧ ∃ formula, e.children = [.text formula]
  bare : Tag.isHeading e.tag ∨ e.tag = Tag.note → e.attributes = .empty
  grid : e.tag = Tag.grid → ∃ columns ∈ Tag.gridColumns,
    e.attributes = ⟨columns ++ if Tag.grid ∈ e.above then [⟨"sub-grid", none⟩] else []⟩

/-- What the tag of a command says of its role. -/
theorem Vocabulary.role_of_tag {name : String} {b : Builtin} (h : Vocabulary.find? name = some b) :
    b.tag ∈ Tag.all ∧ (Tag.isVoid b.tag → b.role = .leaf) ∧
      (b.tag = Tag.inlineMath ∨ b.tag = Tag.blockMath →
        b.role = .inlineMath ∨ b.role = .blockMath) ∧
      (Tag.isHeading b.tag ∨ b.tag = Tag.note → b.role = .heading ∨ b.role = .note) ∧
      (name = Vocabulary.gridName ↔ b.tag = Tag.grid) := by
  have hall : ∀ p ∈ Vocabulary.all, p.2.tag ∈ Tag.all ∧ (Tag.isVoid p.2.tag → p.2.role = .leaf) ∧
      (p.2.tag = Tag.inlineMath ∨ p.2.tag = Tag.blockMath →
        p.2.role = .inlineMath ∨ p.2.role = .blockMath) ∧
      (Tag.isHeading p.2.tag ∨ p.2.tag = Tag.note → p.2.role = .heading ∨ p.2.role = .note) ∧
      (p.1 = Vocabulary.gridName ↔ p.2.tag = Tag.grid) := by decide +kernel
  obtain ⟨before, after, heq, -⟩ := List.lookup_eq_some_iff.mp h
  exact hall (name, b) (by simp [heq])

theorem gridColumns_mem (text : String) : (gridColumns text).entries ∈ Tag.gridColumns := by
  unfold gridColumns
  split
  · decide
  · decide
  · decide
  · decide
  · decide

/-- The mark of a grid in a grid comes after the columns. -/
theorem set_subGrid {columns : Attributes} (h : columns.entries ∈ Tag.gridColumns) :
    columns.set "sub-grid" none = ⟨columns.entries ++ [⟨"sub-grid", none⟩]⟩ := by
  obtain ⟨entries⟩ := columns
  simp only [Tag.gridColumns, List.mem_cons, List.not_mem_nil, or_false] at h
  rcases h with rfl | rfl | rfl
  · rfl
  · rfl
  · rfl

theorem Scope.isWithin_push (s : Scope) (name other : String) :
    (s.push name).isWithin other ↔ other = name ∨ s.isWithin other := by
  simp [isWithin, push]

/-- The scope tells whether a place is in a grid. -/
def Scope.Tracks (scope : Scope) (above : List String) : Prop :=
  scope.isWithin Vocabulary.gridName ↔ Tag.grid ∈ above

theorem Scope.Tracks.push {scope : Scope} {above : List String} (h : scope.Tracks above)
    {name : String} {b : Builtin} (hfind : Vocabulary.find? name = some b) :
    (scope.push name).Tracks (b.tag :: above) := by
  have hname : Vocabulary.gridName = name ↔ Tag.grid = b.tag := by
    rw [eq_comm, (Vocabulary.role_of_tag hfind).2.2.2.2, eq_comm]
  unfold Tracks at h ⊢
  rw [isWithin_push, List.mem_cons, hname, h]

namespace Builtin

variable {name : String} {b : Builtin} {above : List String}

/-- What each role has to give its element. -/
theorem wellShaped (hfind : Vocabulary.find? name = some b) {own : Attributes}
    {children : List Content} (hvoid : b.role = .leaf → children = [])
    (hmath : b.role = .inlineMath ∨ b.role = .blockMath →
      own = .empty ∧ ∃ formula, children = [.text formula])
    (hbare : b.role = .heading ∨ b.role = .note → own = .empty)
    (hgrid : b.role = .grid → ∃ columns ∈ Tag.gridColumns,
      own = ⟨columns ++ if Tag.grid ∈ above then [⟨"sub-grid", none⟩] else []⟩) :
    PlacedElement.WellShaped ⟨above, b.tag, own, children⟩ := by
  obtain ⟨hmem, hroleVoid, hroleMath, hroleBare, -⟩ := Vocabulary.role_of_tag hfind
  exact ⟨hmem, fun h => hvoid (hroleVoid h), fun h => hmath (hroleMath h),
    fun h => hbare (hroleBare h), fun h => hgrid ((Vocabulary.tag_eq_grid_iff hfind).mp h)⟩

/-- The element of a command is well shaped if the elements that it holds are. -/
theorem wellShaped_element (hfind : Vocabulary.find? name = some b) (given : SortedArguments)
    {scope : Scope} (hscope : scope.Tracks above) {children : List Content}
    (hchildren : ∀ e ∈ Content.placedAll (b.tag :: above) children, e.WellShaped) :
    ∀ e ∈ (b.element given scope children).placed above, e.WellShaped := by
  have hnone : ∀ e ∈ Content.placedAll (b.tag :: above) [], e.WellShaped :=
    fun _ he => absurd he List.not_mem_nil
  unfold Builtin.element
  cases hrole : b.role with
  | heading =>
    refine List.forall_mem_cons.mpr ⟨wellShaped hfind ?_ ?_ ?_ ?_, hchildren⟩ <;> simp [hrole]
  | note =>
    refine List.forall_mem_cons.mpr ⟨wellShaped hfind ?_ ?_ ?_ ?_, hchildren⟩ <;> simp [hrole]
  | inlineMath =>
    refine List.forall_mem_cons.mpr ⟨wellShaped hfind ?_ ?_ ?_ ?_, hnone⟩ <;> simp [hrole]
  | blockMath =>
    refine List.forall_mem_cons.mpr ⟨wellShaped hfind ?_ ?_ ?_ ?_, hnone⟩ <;> simp [hrole]
  | container =>
    refine List.forall_mem_cons.mpr ⟨wellShaped hfind ?_ ?_ ?_ ?_, hchildren⟩ <;> simp [hrole]
  | leaf =>
    refine List.forall_mem_cons.mpr ⟨wellShaped hfind ?_ ?_ ?_ ?_, hnone⟩ <;> simp [hrole]
  | grid =>
    have hcolumns := gridColumns_mem (given.attributes.getD "")
    have hown : (if scope.isWithin Vocabulary.gridName then
          (gridColumns (given.attributes.getD "")).set "sub-grid" none
        else gridColumns (given.attributes.getD "")) =
        ⟨(gridColumns (given.attributes.getD "")).entries ++
          if Tag.grid ∈ above then [⟨"sub-grid", none⟩] else []⟩ := by
      by_cases hwithin : scope.isWithin Vocabulary.gridName
      · rw [if_pos hwithin, if_pos (hscope.mp hwithin), set_subGrid hcolumns]
      · rw [if_neg hwithin, if_neg (mt hscope.mpr hwithin), List.append_nil]
    refine List.forall_mem_cons.mpr
      ⟨wellShaped hfind ?_ ?_ ?_ fun _ => ⟨_, hcolumns, hown⟩, hchildren⟩ <;> simp [hrole]

end Builtin

/-- The elements of the denotation are well shaped in any elements that the scope tracks. -/
def Meaning.WellShaped (scope : Scope) (d : Meaning) : Prop :=
  ∀ above, scope.Tracks above → ∀ e ∈ Content.placedAll above d.content, e.WellShaped

theorem Meaning.wellShaped_of_no_elements {d : Meaning} (scope : Scope)
    (h : ∀ above, Content.placedAll above d.content = []) : d.WellShaped scope := by
  intro above _ e he
  rw [h above] at he
  cases he

theorem wellShaped_denote (table : Definitions) (invoke : Invocation) :
    ScopedCases table invoke (fun scope _ d => d.WellShaped scope)
      (fun scope _ d => d.WellShaped scope) where
  text scope t := Meaning.wellShaped_of_no_elements scope fun _ => rfl
  quotation scope q := Meaning.wellShaped_of_no_elements scope fun _ => rfl
  misplaced scope t := Meaning.wellShaped_of_no_elements scope fun _ => rfl
  definition scope d := Meaning.wellShaped_of_no_elements scope fun _ => rfl
  nil scope := Meaning.wellShaped_of_no_elements scope fun _ => rfl
  cons := by
    intro scope n ns d d' hd hd' above hscope
    rw [Meaning.append, Content.placedAll_append]
    exact List.forall_mem_append.mpr ⟨hd above hscope, hd' above hscope⟩
  block := by
    intro scope b d hd above hscope
    simpa [Meaning.wrap, Content.placedAll, Content.placed] using hd above hscope
  problem scope _ _ _ := Meaning.wellShaped_of_no_elements scope fun _ => rfl
  bare := by
    intro c builtin given scope hfind _ _ _ above hscope
    have hnone : ∀ e ∈ Content.placedAll (builtin.tag :: above) [], e.WellShaped :=
      fun _ he => absurd he List.not_mem_nil
    have helement := builtin.wellShaped_element hfind given hscope hnone
    simpa [Meaning.wrap, Meaning.empty, Content.placedAll] using helement
  body := by
    intro c builtin given b d scope hfind _ _ _ _ _ hd above hscope
    have helement := builtin.wellShaped_element hfind given hscope (hd _ (hscope.push hfind))
    simpa [Meaning.wrap, Content.placedAll] using helement

namespace Compilation

/-- Every element of the content of a source is well shaped: its tag is one of ours or of the page
language, void elements hold nothing, mathematics is bare and holds one text, headings and notes are
bare, and a grid has its columns and then the mark of a grid in a grid, exactly if it is one. -/
theorem elements_wellShaped (source : String) :
    let normal := (Document.ofSource source).normalForm
    ∀ e ∈ Content.placedAll [] (normal.document.denote normal.definitions).content,
      e.WellShaped := by
  intro normal
  refine (wellShaped_denote normal.definitions _).document normal.document [] ?_
  simp [Scope.Tracks, Scope.isWithin, Scope.root]

/-- A grid in a paragraph in a grid. -/
theorem elements_wellShaped_subGrid :
    let normal := (Document.ofSource "\\grid[2col]\x7b\\p\x7b\\grid\x7bx\x7d\x7d\x7d").normalForm
    ∃ e ∈ Content.placedAll [] (normal.document.denote normal.definitions).content,
      (e.above = ["p", "grid"] ∧ e.tag = Tag.grid ∧ e.attributes = ⟨[⟨"sub-grid", none⟩]⟩) ∧
        e.WellShaped := by
  intro normal
  have hmem : ∃ e ∈ Content.placedAll [] (normal.document.denote normal.definitions).content,
      e.above = ["p", "grid"] ∧ e.tag = Tag.grid ∧ e.attributes = ⟨[⟨"sub-grid", none⟩]⟩ := by
    decide +kernel
  obtain ⟨e, he, hplace⟩ := hmem
  exact ⟨e, he, hplace, elements_wellShaped _ e he⟩

end Compilation

end AcademicMarkup
