import AcademicMarkup.Proofs.TypesetIds

/-!
The numbers of mathematics over any use of a register. Content takes the numbers that follow one
another, one for each piece of mathematics in the order of the start tags, whatever its elements and
their attributes are. So no number is given twice in whatever order content is written, tables of
contents and pages are made and numbers are taken for nothing, as long as the counter does not come
to its end. A counter that begins again gives its first name for the second time.
-/
namespace AcademicMarkup

open Html

mutual

/-- The tags of the elements that are written, in the order of their start tags. What a void element
holds is not written. -/
def Content.writtenTags : Content → List String
  | .text _ => []
  | .fragment children => Content.writtenTagsAll children
  | .element tag _ children =>
    tag :: if Tag.isVoid tag then [] else Content.writtenTagsAll children

def Content.writtenTagsAll : List Content → List String
  | [] => []
  | c :: cs => c.writtenTags ++ Content.writtenTagsAll cs

end

namespace Tag

/-- The numbers of one kind of mathematics among these tags. -/
def numbers (kind : String) (next : Nat) (tags : List String) : List Nat :=
  (((tags.filter isNumbered).zipIdx next).filter (·.1 == kind)).map Prod.snd

theorem numbers_append (kind : String) (next : Nat) (tags more : List String) :
    numbers kind next (tags ++ more) =
      numbers kind next tags ++ numbers kind (next + tags.countP isNumbered) more := by
  simp only [numbers, List.filter_append, List.zipIdx_append, List.map_append,
    List.countP_eq_length_filter]

theorem numbers_single {kind : String} (h : isNumbered kind) (next : Nat) (tag : String) :
    numbers kind next [tag] = if tag = kind then [next] else [] := by
  by_cases hnumbered : isNumbered tag
  · by_cases heq : tag = kind
    · simp [numbers, heq, h]
    · simp [numbers, heq, hnumbered]
  · have hne : tag ≠ kind := by
      rintro rfl
      exact hnumbered h
    simp [numbers, hnumbered, hne]

theorem numbers_sublist (kind : String) (next : Nat) (tags : List String) :
    (numbers kind next tags).Sublist (List.range' next (tags.countP isNumbered)) := by
  rw [List.countP_eq_length_filter, ← List.zipIdx_map_snd]
  exact List.filter_sublist.map Prod.snd

theorem pairwise_numbers (kind : String) (next : Nat) (tags : List String) :
    (numbers kind next tags).Pairwise (· < ·) :=
  (List.pairwise_lt_range' 1).sublist (numbers_sublist kind next tags)

theorem bounds_of_mem_numbers {kind : String} {next : Nat} {tags : List String} {k : Nat}
    (h : k ∈ numbers kind next tags) : next ≤ k ∧ k < next + tags.countP isNumbered :=
  List.mem_range'_1.mp ((numbers_sublist kind next tags).subset h)

theorem length_numbers {kind : String} (h : isNumbered kind) (next : Nat) (tags : List String) :
    (numbers kind next tags).length = tags.count kind := by
  have hkind : ∀ ts : List String, (ts.filter isNumbered).count kind = ts.count kind :=
    fun ts => List.count_filter h
  rw [← hkind, numbers, List.length_map, ← List.countP_eq_length_filter, List.count,
    ← List.zipIdx_map_fst next (tags.filter isNumbered), List.countP_map,
    List.zipIdx_map_fst]
  rfl

theorem numbers_replicate {kind : String} (h : isNumbered kind) (next n : Nat) :
    numbers kind next (List.replicate n kind) = List.range' next n := by
  have hsublist := numbers_sublist kind next (List.replicate n kind)
  rw [List.countP_replicate, if_pos h] at hsublist
  refine hsublist.eq_of_length ?_
  rw [length_numbers h, List.count_replicate_self, List.length_range']

/-- A number belongs to one kind of mathematics. -/
theorem disjoint_numbers {kind other : String} (h : kind ≠ other) (next : Nat)
    (tags : List String) : (numbers kind next tags).Disjoint (numbers other next tags) := by
  intro k hk hk'
  simp only [numbers, List.mem_map, List.mem_filter, beq_iff_eq] at hk hk'
  obtain ⟨⟨tag, _⟩, ⟨hmem, rfl⟩, rfl⟩ := hk
  obtain ⟨⟨tag', _⟩, ⟨hmem', rfl⟩, rfl⟩ := hk'
  have hplace := (List.mk_mem_zipIdx_iff_le_and_getElem?_sub.mp hmem).2
  have hplace' := (List.mk_mem_zipIdx_iff_le_and_getElem?_sub.mp hmem').2
  exact h (Option.some.inj (hplace.symm.trans hplace'))

end Tag

namespace Register

variable {size : Nat}

/-- The name with the number that is taken after `k` others from a new counter of this size. -/
def nthName (size k : Nat) : String := mathName (k % size)

theorem successor_mod (size k : Nat) : successor size (k % size) = (k + 1) % size := by
  rcases Nat.eq_zero_or_pos size with rfl | hpos
  · simp
  have hlt := Nat.mod_lt k hpos
  rw [← Nat.mod_add_mod, successor]
  split
  · rename_i hlast
    rw [hlast, Nat.mod_self]
  · have hnext : k % size + 1 < size := by omega
    exact (Nat.mod_eq_of_lt hnext).symm

/-- What writing elements with these tags does to a register from which `k` numbers were taken. -/
structure Takes (k : Nat) (s : Register size) (tags : List String) (s' : Register size) : Prop where
  start : s.nextId = k % size
  nextId : s'.nextId = (k + tags.countP Tag.isNumbered) % size
  inlineIds : s'.inlineIds =
    s.inlineIds ++ (Tag.numbers Tag.inlineMath k tags).map (nthName size)
  blockIds : s'.blockIds = s.blockIds ++ (Tag.numbers Tag.blockMath k tags).map (nthName size)
  headings : ∃ added, s'.headings = s.headings ++ added ∧ added.length = tags.countP Tag.isHeading

namespace Takes

variable {k : Nat} {s s₁ s₂ : Register size} {tags more : List String}

theorem nil (hs : s.nextId = k % size) : Takes k s [] s :=
  ⟨hs, hs, by simp [Tag.numbers], by simp [Tag.numbers], [], by simp⟩

theorem append (h : Takes k s tags s₁) (h' : Takes (k + tags.countP Tag.isNumbered) s₁ more s₂) :
    Takes k s (tags ++ more) s₂ := by
  obtain ⟨added, hadded, hlength⟩ := h.headings
  obtain ⟨added', hadded', hlength'⟩ := h'.headings
  refine ⟨h.start, ?_, ?_, ?_, added ++ added', ?_, ?_⟩
  · rw [h'.nextId, List.countP_append, Nat.add_assoc]
  · rw [h'.inlineIds, h.inlineIds, Tag.numbers_append, List.map_append, List.append_assoc]
  · rw [h'.blockIds, h.blockIds, Tag.numbers_append, List.map_append, List.append_assoc]
  · rw [hadded', hadded, List.append_assoc]
  · rw [List.length_append, hlength, hlength', List.countP_append]

/-- The start tag of an element that is not a heading. -/
theorem opening (hs : s.nextId = k % size) {tag : String} (h : ¬ Tag.isHeading tag) :
    Takes k s [tag] (s.opening tag).state := by
  have hheadings : [tag].countP Tag.isHeading = 0 := List.countP_eq_zero.mpr (by simpa using h)
  have hinlineKind : Tag.isNumbered Tag.inlineMath := rfl
  have hblockKind : Tag.isNumbered Tag.blockMath := rfl
  have hinline := fun next => Tag.numbers_single hinlineKind next tag
  have hblock := fun next => Tag.numbers_single hblockKind next tag
  by_cases hnumbered : Tag.isNumbered tag
  · have hcases : tag = Tag.inlineMath ∨ tag = Tag.blockMath := by
      simpa [Tag.isNumbered] using hnumbered
    have hname : s.freshId = nthName size k := by
      rw [nthName, ← hs]
      rfl
    have hnext : s.advance.nextId = (k + 1) % size := by
      rw [← successor_mod, ← hs]
      rfl
    rcases hcases with rfl | rfl
    · refine ⟨hs, hnext, ?_, ?_, [], (List.append_nil _).symm, hheadings.symm⟩
      · rw [hinline, if_pos rfl, List.map_singleton, ← hname]
        rfl
      · rw [hblock]
        exact (List.append_nil _).symm
    · refine ⟨hs, hnext, ?_, ?_, [], (List.append_nil _).symm, hheadings.symm⟩
      · rw [hinline]
        exact (List.append_nil _).symm
      · rw [hblock, if_pos rfl, List.map_singleton, ← hname]
        rfl
  · simp only [Tag.isNumbered, Bool.or_eq_true, beq_iff_eq, not_or] at hnumbered
    rw [s.state_opening (by simpa [Tag.isNumbered] using hnumbered)]
    refine ⟨hs, ?_, ?_, ?_, [], by simp, hheadings.symm⟩
    · simp [Tag.isNumbered, hnumbered, hs]
    · rw [hinline, if_neg hnumbered.1, List.map_nil, List.append_nil]
    · rw [hblock, if_neg hnumbered.2, List.map_nil, List.append_nil]

/-- A heading is recorded after its children, and takes no number. -/
theorem heading {tag : String} (htag : Tag.isHeading tag) (h : Takes k s tags s₁)
    (recorded : Heading) : Takes k s (tag :: tags) (s₁.addHeading recorded) := by
  have hnumbered := Tag.not_isNumbered_of_isHeading htag
  have hnumbers : ∀ kind, Tag.numbers kind k (tag :: tags) = Tag.numbers kind k tags := by
    intro kind
    rw [Tag.numbers, Tag.numbers, List.filter_cons_of_neg hnumbered]
  obtain ⟨added, hadded, hlength⟩ := h.headings
  refine ⟨h.start, ?_, ?_, ?_, added ++ [recorded], ?_, ?_⟩
  · rw [List.countP_cons_of_neg hnumbered]
    exact h.nextId
  · rw [hnumbers]
    exact h.inlineIds
  · rw [hnumbers]
    exact h.blockIds
  · rw [addHeading, hadded, List.append_assoc]
  · rw [List.countP_cons_of_pos htag, List.length_append, hlength]
    rfl

end Takes

end Register

mutual

theorem Content.takes_render {size k : Nat} (c : Content) {s : Register size}
    (hs : s.nextId = k % size) : s.Takes k c.writtenTags (c.render s).2 := by
  cases c with
  | text t => exact .nil hs
  | fragment children => exact Content.takes_renderAll children hs
  | element tag own children =>
    by_cases hvoid : Tag.isVoid tag
    · have hopening := Register.Takes.opening hs (Tag.not_isHeading_of_isVoid hvoid)
      rw [Content.writtenTags, if_pos hvoid, Content.render]
      simpa [s.opening_of_isVoid hvoid, hvoid] using hopening
    rw [Content.writtenTags, if_neg hvoid, Content.register_element s hvoid]
    by_cases hheading : Tag.isHeading tag
    · rw [if_pos hheading, s.state_opening (Tag.not_isNumbered_of_isHeading hheading)]
      exact (Content.takes_renderAll children hs).heading hheading _
    · rw [if_neg hheading]
      have hopening := Register.Takes.opening hs hheading
      exact hopening.append (Content.takes_renderAll children hopening.nextId)

theorem Content.takes_renderAll {size k : Nat} (cs : List Content) {s : Register size}
    (hs : s.nextId = k % size) :
    s.Takes k (Content.writtenTagsAll cs) (Content.renderAll s cs).2 := by
  cases cs with
  | nil => exact .nil hs
  | cons c cs =>
    have hfirst := Content.takes_render c hs
    exact hfirst.append (Content.takes_renderAll cs hfirst.nextId)

end

namespace Register

variable {size : Nat}

/-- The numbers behind the names in a register: increasing in each list, in one list only, and all
of them taken. -/
structure Numbered (s : Register size) (inline block : List Nat) : Prop where
  inlineIds : s.inlineIds = inline.map mathName
  blockIds : s.blockIds = block.map mathName
  inlineIncreasing : inline.Pairwise (· < ·)
  blockIncreasing : block.Pairwise (· < ·)
  disjoint : inline.Disjoint block
  taken : ∀ k ∈ inline ++ block, k < s.nextId

theorem Numbered.nodup_ids {s : Register size} {inline block : List Nat}
    (h : s.Numbered inline block) : (s.inlineIds ++ s.blockIds).Nodup := by
  have hnumbers : (inline ++ block).Nodup := List.nodup_append'.mpr
    ⟨h.inlineIncreasing.imp Nat.ne_of_lt, h.blockIncreasing.imp Nat.ne_of_lt, h.disjoint⟩
  rw [h.inlineIds, h.blockIds, ← List.map_append]
  exact hnumbers.map mathName_injective

/-- What is in a register after `taken` numbers were taken from a new one, each name by the number
of those taken before it. -/
structure Counted (s : Register size) (taken : Nat) (inline block : List Nat) : Prop where
  nextId : s.nextId = taken % size
  inlineIds : s.inlineIds = inline.map (nthName size)
  blockIds : s.blockIds = block.map (nthName size)
  inlineIncreasing : inline.Pairwise (· < ·)
  blockIncreasing : block.Pairwise (· < ·)
  disjoint : inline.Disjoint block
  below : ∀ k ∈ inline ++ block, k < taken

namespace Counted

variable {s s' : Register size} {taken : Nat} {inline block : List Nat}

theorem initial : Counted (.initial : Register size) 0 [] [] :=
  ⟨(Nat.zero_mod size).symm, rfl, rfl, .nil, .nil, List.disjoint_nil_left _, by simp⟩

/-- New numbers come after all that were taken before. -/
theorem takes (h : s.Counted taken inline block) {tags : List String}
    (htakes : s.Takes taken tags s') :
    s'.Counted (taken + tags.countP Tag.isNumbered)
      (inline ++ Tag.numbers Tag.inlineMath taken tags)
      (block ++ Tag.numbers Tag.blockMath taken tags) := by
  have hold : ∀ k ∈ inline ++ block, ∀ kind, ∀ m ∈ Tag.numbers kind taken tags, k < m := by
    intro k hk kind m hm
    exact Nat.lt_of_lt_of_le (h.below k hk) (Tag.bounds_of_mem_numbers hm).1
  have hinline : ∀ k ∈ inline, ∀ kind, ∀ m ∈ Tag.numbers kind taken tags, k < m :=
    fun k hk => hold k (List.mem_append_left _ hk)
  have hblock : ∀ k ∈ block, ∀ kind, ∀ m ∈ Tag.numbers kind taken tags, k < m :=
    fun k hk => hold k (List.mem_append_right _ hk)
  refine ⟨htakes.nextId, ?_, ?_, ?_, ?_, ?_, ?_⟩
  · rw [htakes.inlineIds, h.inlineIds, List.map_append]
  · rw [htakes.blockIds, h.blockIds, List.map_append]
  · exact List.pairwise_append.mpr ⟨h.inlineIncreasing, Tag.pairwise_numbers _ _ _,
      fun k hk m hm => hinline k hk _ m hm⟩
  · exact List.pairwise_append.mpr ⟨h.blockIncreasing, Tag.pairwise_numbers _ _ _,
      fun k hk m hm => hblock k hk _ m hm⟩
  · intro k hk hk'
    rcases List.mem_append.mp hk with hk | hk
    · rcases List.mem_append.mp hk' with hk' | hk'
      · exact h.disjoint hk hk'
      · exact Nat.lt_irrefl k (hinline k hk _ k hk')
    · rcases List.mem_append.mp hk' with hk' | hk'
      · exact Nat.lt_irrefl k (hblock k hk' _ k hk)
      · exact Tag.disjoint_numbers (by decide) taken tags hk hk'
  · intro k hk
    have hnew : ∀ kind, k ∈ Tag.numbers kind taken tags →
        k < taken + tags.countP Tag.isNumbered :=
      fun kind hmem => (Tag.bounds_of_mem_numbers hmem).2
    have hearlier : k ∈ inline ++ block → k < taken + tags.countP Tag.isNumbered :=
      fun hmem => Nat.lt_add_right _ (h.below k hmem)
    simp only [List.mem_append] at hk hearlier
    rcases hk with (hk | hk) | (hk | hk)
    · exact hearlier (Or.inl hk)
    · exact hnew _ hk
    · exact hearlier (Or.inr hk)
    · exact hnew _ hk

theorem advance (h : s.Counted taken inline block) : s.advance.Counted (taken + 1) inline block :=
  { h with
    nextId := by
      rw [← successor_mod, ← h.nextId]
      rfl
    below := fun k hk => Nat.lt_succ_of_lt (h.below k hk) }

/-- Before the counter begins again the names are made of the numbers themselves. -/
theorem numbered (h : s.Counted taken inline block) (hsize : size = 0 ∨ taken < size) :
    s.Numbered inline block := by
  have hmod : ∀ k ≤ taken, k % size = k := by
    intro k hk
    rcases hsize with rfl | hlt
    · exact Nat.mod_zero k
    · exact Nat.mod_eq_of_lt (Nat.lt_of_le_of_lt hk hlt)
  have hname : ∀ k ∈ inline ++ block, nthName size k = mathName k := by
    intro k hk
    rw [nthName, hmod k (Nat.le_of_lt (h.below k hk))]
  obtain ⟨hinline, hblock⟩ := List.forall_mem_append.mp hname
  refine ⟨?_, ?_, h.inlineIncreasing, h.blockIncreasing, h.disjoint, ?_⟩
  · rw [h.inlineIds, List.map_congr_left hinline]
  · rw [h.blockIds, List.map_congr_left hblock]
  · rw [h.nextId, hmod taken (Nat.le_refl taken)]
    exact h.below

end Counted

/-- What a register may be used for. -/
inductive Use where
  | write (content : Content)
  | contents (title : String)
  | assemble (body : String) (options : Options)
  /-- The next number is taken for something else. -/
  | number

/-- The register after a use. -/
def use (s : Register size) : Use → Register size
  | .write content => (content.render s).2
  | .contents title => (Page.contents s title).2
  | .assemble body options => (Page.assemble body s options).2
  | .number => s.advance

/-- The register after uses in this order. -/
def uses (s : Register size) (us : List Use) : Register size := us.foldl use s

/-- How many pieces of mathematics a table of contents of this register writes. -/
def contentsCount (s : Register size) : Nat :=
  (Content.writtenTagsAll (s.headings.map Heading.entry)).countP Tag.isNumbered

/-- How many numbers a use takes. -/
def useCount (s : Register size) : Use → Nat
  | .write content => content.writtenTags.countP Tag.isNumbered
  | .contents _ => s.contentsCount
  | .assemble _ options => if options.contents then s.contentsCount else 0
  | .number => 1

/-- How many numbers are taken by uses in this order. -/
def usesCount (s : Register size) : List Use → Nat
  | [] => 0
  | u :: us => s.useCount u + (s.use u).usesCount us

theorem exists_counted_use {s : Register size} {taken : Nat} {inline block : List Nat}
    (h : s.Counted taken inline block) (u : Use) :
    ∃ inline block, (s.use u).Counted (taken + s.useCount u) inline block := by
  have hcontents := Content.takes_renderAll (s.headings.map Heading.entry) h.nextId
  cases u with
  | write content => exact ⟨_, _, h.takes (content.takes_render h.nextId)⟩
  | contents title => exact ⟨_, _, h.takes hcontents⟩
  | assemble body options =>
    rw [use, useCount, Page.assemble]
    split
    · exact ⟨_, _, h.takes hcontents⟩
    · exact ⟨_, _, h⟩
  | number => exact ⟨_, _, h.advance⟩

theorem exists_counted_uses (us : List Use) {s : Register size} {taken : Nat}
    {inline block : List Nat} (h : s.Counted taken inline block) :
    ∃ inline block, (s.uses us).Counted (taken + s.usesCount us) inline block := by
  induction us generalizing s taken inline block with
  | nil => exact ⟨inline, block, h⟩
  | cons u us ih =>
    obtain ⟨inline', block', hstep⟩ := exists_counted_use h u
    rw [usesCount, ← Nat.add_assoc]
    exact ih hstep

/-- However a new register is used, no name of mathematics is in it twice, unless its counter has
come to its end; each name is made of a number that was taken, and the numbers in each list
increase. Writing content then adds as many names and headings as the content has pieces of
mathematics and headings that are written. -/
theorem names_never_reused (size : Nat) (us : List Use) :
    let s := (Register.initial : Register size).uses us
    (size = 0 ∨ (Register.initial : Register size).usesCount us < size →
      (s.inlineIds ++ s.blockIds).Nodup ∧ ∃ inline block, s.Numbered inline block) ∧
    ∀ c : Content, ∃ inline block headings,
      ((c.render s).2.inlineIds = s.inlineIds ++ inline ∧
        inline.length = c.writtenTags.count Tag.inlineMath) ∧
      ((c.render s).2.blockIds = s.blockIds ++ block ∧
        block.length = c.writtenTags.count Tag.blockMath) ∧
      ((c.render s).2.headings = s.headings ++ headings ∧
        headings.length = c.writtenTags.countP Tag.isHeading) := by
  intro s
  have hinitial : (Register.initial : Register size).Counted 0 [] [] := .initial
  obtain ⟨inline, block, hcounted⟩ := exists_counted_uses us hinitial
  rw [Nat.zero_add] at hcounted
  refine ⟨fun hsize => ?_, fun c => ?_⟩
  · have hnumbered := hcounted.numbered hsize
    exact ⟨hnumbered.nodup_ids, inline, block, hnumbered⟩
  · have htakes := c.takes_render hcounted.nextId
    obtain ⟨added, hadded, hlength⟩ := htakes.headings
    refine ⟨_, _, added, ⟨htakes.inlineIds, ?_⟩, ⟨htakes.blockIds, ?_⟩, hadded, hlength⟩
    · rw [List.length_map, Tag.length_numbers rfl]
    · rw [List.length_map, Tag.length_numbers rfl]

/-- Mathematics in a heading, which is written again in the table of contents, and a number for
something else: as much as a counter with four numbers has room for. -/
theorem names_never_reused_four :
    let us : List Use := [.write (.element "h1" .empty [.element Tag.inlineMath .empty []]),
      .contents "", .number]
    let s := (Register.initial : Register 4).uses us
    (Register.initial : Register 4).usesCount us < 4 ∧
      (s.inlineIds ++ s.blockIds).Nodup ∧ ∃ inline block, s.Numbered inline block := by
  intro us s
  have hcount : (Register.initial : Register 4).usesCount us < 4 := by decide +kernel
  exact ⟨hcount, (names_never_reused 4 us).1 (Or.inr hcount)⟩

/-- A counter with an end has no room for one number more than its size. -/
theorem name_given_twice (hsize : 0 < size) :
    ∃ us, (Register.initial : Register size).usesCount us = size + 1 ∧
      ¬ ((Register.initial : Register size).uses us).inlineIds.Nodup := by
  let mathematics : Content := .element Tag.inlineMath .empty []
  have htags : ∀ n, Content.writtenTagsAll (List.replicate n mathematics) =
      List.replicate n Tag.inlineMath := by
    intro n
    induction n with
    | zero => rfl
    | succ n ih =>
      rw [List.replicate_succ, Content.writtenTagsAll, ih]
      rfl
  have hnumbered : Tag.isNumbered Tag.inlineMath := rfl
  have hids := (Content.takes_renderAll (List.replicate (size + 1) mathematics)
    (s := (.initial : Register size)) (Nat.zero_mod size).symm).inlineIds
  rw [htags, Tag.numbers_replicate hnumbered] at hids
  refine ⟨[.write (.fragment (List.replicate (size + 1) mathematics))], ?_, fun hnodup => ?_⟩
  · rw [usesCount, useCount, Content.writtenTags, htags, List.countP_replicate, if_pos hnumbered]
    rfl
  · -- the first piece and the last one have the same name
    have hnames : ((List.range' 0 (size + 1)).map (nthName size)).Nodup := by
      have hinitial : (Register.initial : Register size).inlineIds = [] := rfl
      rw [hinitial, List.nil_append] at hids
      rw [← hids]
      exact hnodup
    have hsame : nthName size 0 = nthName size size := by simp [nthName]
    have hzero := List.inj_on_of_nodup_map hnames (by simp) (by simp) hsame
    omega

/-! A counter that is large enough. -/

/-- What is in the register, with a counter that has no last number. -/
def endless (s : Register size) : Register := ⟨s.nextId, s.inlineIds, s.blockIds, s.headings⟩

@[simp] theorem headings_endless (s : Register size) : s.endless.headings = s.headings := rfl

@[simp] theorem inlineIds_endless (s : Register size) : s.endless.inlineIds = s.inlineIds := rfl

@[simp] theorem blockIds_endless (s : Register size) : s.endless.blockIds = s.blockIds := rfl

theorem opening_endless (s : Register size) {tag : String}
    (h : (s.endless.opening tag).state.nextId < size) :
    s.endless.opening tag =
      ⟨(s.opening tag).name, (s.opening tag).attributes, (s.opening tag).state.endless⟩ := by
  have hnext : Tag.isNumbered tag → successor size s.nextId = s.nextId + 1 := by
    intro hnumbered
    rw [nextId_opening, if_pos hnumbered] at h
    exact if_neg (Nat.ne_of_lt h)
  unfold opening
  split_ifs with hinline hblock
  · simp [advance, addInline, endless, freshId, hnext (by simp_all [Tag.isNumbered])]
  · simp [advance, addBlock, endless, freshId, hnext (by simp_all [Tag.isNumbered])]
  all_goals rfl

theorem nextId_le_renderAll (s : Register) (cs : List Content) :
    s.nextId ≤ (Content.renderAll s cs).2.nextId := by
  have htakes := Content.takes_renderAll cs (s := s) (Nat.mod_zero s.nextId).symm
  rw [htakes.nextId, Nat.mod_zero]
  exact Nat.le_add_right _ _

end Register

mutual

/-- As long as the numbers last, nothing depends on how many there are. -/
theorem Content.render_endless {size : Nat} (c : Content) (s : Register size)
    (h : (c.render s.endless).2.nextId < size) :
    c.render s.endless = ((c.render s).1, (c.render s).2.endless) := by
  cases c with
  | text t => rfl
  | fragment children =>
    rw [Content.render, Content.renderAll_endless children s h]
    rfl
  | element tag own children =>
    by_cases hvoid : Tag.isVoid tag
    · rw [Content.render, Content.render]
      simp [Register.opening_of_isVoid _ hvoid, hvoid]
    -- the numbers only grow, so none was missing before the children were written
    have hinner : (Content.renderAll (s.endless.opening tag).state children).2.nextId < size := by
      rw [Content.register_element s.endless hvoid] at h
      split at h <;> exact h
    have hopening := s.opening_endless
      (Nat.lt_of_le_of_lt (Register.nextId_le_renderAll _ children) hinner)
    rw [hopening] at hinner
    have hchildren := Content.renderAll_endless children (s.opening tag).state hinner
    rw [Content.render, Content.render, hopening, hchildren]
    simp only [s.opening_name, Tag.isVoid_shownName, if_neg hvoid]
    split <;> rfl

theorem Content.renderAll_endless {size : Nat} (cs : List Content) (s : Register size)
    (h : (Content.renderAll s.endless cs).2.nextId < size) :
    Content.renderAll s.endless cs =
      ((Content.renderAll s cs).1, (Content.renderAll s cs).2.endless) := by
  cases cs with
  | nil => rfl
  | cons c cs =>
    have hfirst := Content.render_endless c s
      (Nat.lt_of_le_of_lt (Register.nextId_le_renderAll _ cs) h)
    rw [Content.renderAll, hfirst] at h ⊢
    rw [Content.renderAll_endless cs _ h]
    rfl

end

namespace Page

theorem contents_endless {size : Nat} (s : Register size) (title : String)
    (h : (contents s.endless title).2.nextId < size) :
    contents s.endless title = ((contents s title).1, (contents s title).2.endless) := by
  have hentries := Content.renderAll_endless (s.headings.map Heading.entry) s h
  unfold contents
  rw [Register.headings_endless, hentries]

theorem assemble_endless {size : Nat} (body : String) (s : Register size) (options : Options)
    (h : (assemble body s.endless options).2.nextId < size) :
    (assemble body s.endless options).1 = (assemble body s options).1 := by
  cases hcontents : options.contents with
  | false =>
    rw [assemble_eq body s.endless (if_neg (by simp [hcontents])),
      assemble_eq body s (if_neg (by simp [hcontents]))]
    rfl
  | true =>
    simp only [assemble, hcontents, if_true] at h
    rw [assemble_eq body s.endless (if_pos hcontents), assemble_eq body s (if_pos hcontents),
      contents_endless s _ h]
    simp only [Register.blockIds_endless, Register.inlineIds_endless]

end Page

namespace Compilation

/-- A source is compiled to the same page with every counter that has more numbers than the page
takes. -/
theorem page_of_size {size : Nat} (options : Options) (source : String)
    (h : (pageRegister options source).nextId < size) :
    let body := (content source).render (.initial : Register size)
    body.1 = (ofSource options source).body ∧
      (Page.assemble body.1 body.2 options).1 = (ofSource options source).page := by
  intro body
  have hle : (bodyRegister source).nextId ≤ (pageRegister options source).nextId := by
    unfold pageRegister
    split
    · exact Register.nextId_le_renderAll _ _
    · exact Nat.le_refl _
  have hbody := Content.render_endless (content source) (.initial : Register size)
    (Nat.lt_of_le_of_lt hle h)
  have hfirst : (ofSource options source).body = body.1 := congrArg Prod.fst hbody
  have hregister : bodyRegister source = body.2.endless := congrArg Prod.snd hbody
  refine ⟨hfirst.symm, ?_⟩
  rw [page_eq_assemble, hfirst, hregister]
  refine (Page.assemble_endless body.1 body.2 options ?_).symm
  rw [← hregister]
  unfold pageRegister at h
  unfold Page.assemble
  split
  · rename_i hcontents
    rw [if_pos hcontents] at h
    exact h
  · rename_i hcontents
    rw [if_neg hcontents] at h
    exact h

end Compilation

end AcademicMarkup
