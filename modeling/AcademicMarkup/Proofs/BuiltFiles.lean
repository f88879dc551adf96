import AcademicMarkup.CommandLine.Run
import AcademicMarkup.Files.FileTree

/-!
What building a page does to the files. Everything is read before anything is written, so a build
that cannot read its input or its configuration changes nothing. After that directories are made
where nothing was, and one file is written: the page. Every path leads where it led before, also
through links, and every file holds what it held, except the file of the page itself.
-/
namespace AcademicMarkup

namespace FileTree

/-- A text that is written is the text that is read. -/
theorem textOf?_bytesOf (text : String) : textOf? (bytesOf text) = some text := by
  have hvalid : text.toUTF8.IsValidUTF8 := text.isValidUTF8
  simp only [textOf?, bytesOf, Array.toArray_toList, String.fromUTF8?]
  exact dif_pos hvalid

theorem lookup_filter_bne {α β : Type} [BEq α] [LawfulBEq α] [DecidableEq α] (key k : α)
    (entries : List (α × β)) :
    (entries.filter (·.1 != key)).lookup k = if k = key then none else entries.lookup k := by
  induction entries with
  | nil => simp
  | cons e entries ih =>
    obtain ⟨k', value⟩ := e
    by_cases hk' : k' = key
    · subst hk'
      rw [List.filter_cons_of_neg (by simp), ih]
      by_cases hk : k = k'
      · simp [hk]
      · simp [hk, List.lookup_cons, beq_false_of_ne hk]
    · rw [List.filter_cons_of_pos (by simpa using hk'), List.lookup_cons, List.lookup_cons, ih]
      by_cases hk : k = k'
      · simp [hk, hk']
      · simp [beq_false_of_ne hk]

theorem get?_put {location : List String} (h : location ≠ []) (t : FileTree) (entry : FileEntry)
    (l : List String) :
    (t.put location entry).get? l = if l = location then some entry else t.get? l := by
  simp only [get?, put, List.lookup_append, lookup_filter_bne]
  by_cases hl : l = location
  · simp [hl, h]
  · simp [hl, List.lookup_cons, beq_false_of_ne hl]

theorem bytes_setBytes (t : FileTree) (number : Nat) (bytes : List UInt8) (n : Nat) :
    (t.setBytes number bytes).bytes n = if n = number then bytes else t.bytes n := by
  simp only [FileTree.bytes, setBytes, List.lookup_cons, lookup_filter_bne]
  by_cases hn : n = number
  · simp [hn]
  · simp [hn, beq_false_of_ne hn]

theorem get?_create {location : List String} (h : location ≠ []) (t : FileTree)
    (bytes : List UInt8) (l : List String) :
    (t.create location bytes).get? l =
      if l = location then some (.file t.freshNumber) else t.get? l :=
  get?_put h t _ l

theorem bytes_create (t : FileTree) (location : List String) (bytes : List UInt8) (n : Nat) :
    (t.create location bytes).bytes n = if n = t.freshNumber then bytes else t.bytes n :=
  bytes_setBytes _ _ _ _

theorem ne_freshNumber {t : FileTree} {location : List String} {number : Nat}
    (h : t.get? location = some (.file number)) : number ≠ t.freshNumber := by
  have hmem : number ∈ t.numbers := by
    unfold get? at h
    split at h
    · cases h
    · obtain ⟨before, after, hentries, -⟩ := List.lookup_eq_some_iff.mp h
      exact List.mem_filterMap.mpr ⟨(location, .file number), by simp [hentries], rfl⟩
  have hle : ∀ (ns : List Nat), ∀ n ∈ ns, n ≤ ns.foldr max 0 := by
    intro ns n hn
    induction ns with
    | nil => cases hn
    | cons m ns ih =>
      rcases List.mem_cons.mp hn with rfl | hn
      · exact Nat.le_max_left _ _
      · exact Nat.le_trans (ih hn) (Nat.le_max_right _ _)
  have hbelow := hle t.numbers number hmem
  unfold freshNumber
  omega

/-! Ways that stay. -/

/-- Directories and links stay and no link is new, so that paths lead where they led. -/
structure KeepsWays (t t' : FileTree) : Prop where
  workingDirectory : t'.workingDirectory = t.workingDirectory
  directory : ∀ {location}, t.get? location = some .directory → t'.get? location = some .directory
  link? : ∀ location, t'.link? location = t.link? location

namespace KeepsWays

variable {t t' t'' : FileTree}

theorem trans (h : KeepsWays t t') (h' : KeepsWays t' t'') : KeepsWays t t'' :=
  ⟨h'.workingDirectory.trans h.workingDirectory,
    fun hdirectory => h'.directory (h.directory hdirectory),
    fun location => (h'.link? location).trans (h.link? location)⟩

theorem enter_eq_ok (h : KeepsWays t t') {location next : List String} {part : String}
    (henter : t.enter location part = .ok next) : t'.enter location part = .ok next := by
  unfold enter at henter ⊢
  split at henter
  · rename_i hdirectory
    rw [h.directory hdirectory]
    exact henter
  · cases henter
  · cases henter

theorem walkWith_eq_ok (h : KeepsWays t t')
    {onLink onLink' : List String → Path → List String → Except FileError (List String)}
    (honLink : ∀ {directory target rest last},
      onLink directory target rest = .ok last → onLink' directory target rest = .ok last)
    {parts location last : List String} (hwalk : t.walkWith onLink location parts = .ok last) :
    t'.walkWith onLink' location parts = .ok last := by
  induction parts generalizing location with
  | nil => exact hwalk
  | cons part rest ih =>
    unfold walkWith at hwalk ⊢
    split at hwalk
    · cases hwalk
    · rename_i next henter
      rw [h.enter_eq_ok henter]
      simp only [h.link? next]
      split at hwalk
      · exact honLink hwalk
      · exact ih hwalk

theorem walk_eq_ok (h : KeepsWays t t') {links : Nat} {parts location last : List String}
    (hwalk : t.walk links location parts = .ok last) : t'.walk links location parts = .ok last := by
  induction links generalizing location parts last with
  | zero => exact h.walkWith_eq_ok (fun hlast => hlast) hwalk
  | succ links ih =>
    refine h.walkWith_eq_ok ?_ hwalk
    intro directory target rest last hlast
    split at hlast
    · cases hlast
    · rename_i htarget
      rw [if_neg htarget]
      exact ih hlast

/-- A path that leads somewhere still leads there. -/
theorem locate_eq_ok (h : KeepsWays t t') {p : Path} {location : List String}
    (hlocate : t.locate p = .ok location) : t'.locate p = .ok location := by
  unfold locate at hlocate ⊢
  split at hlocate
  · cases hlocate
  · split at hlocate
    · cases hlocate
    · rename_i hempty hlong
      rw [if_neg hempty, if_neg hlong, h.workingDirectory]
      exact h.walk_eq_ok hlocate

end KeepsWays

/-- What stands at a location is left as it is, or a directory is made where nothing was. -/
def SameOrMade (t t' : FileTree) (location : List String) : Prop :=
  t'.get? location = t.get? location ∨
    t.get? location = none ∧ t'.get? location = some .directory

namespace SameOrMade

variable {t t' t'' : FileTree} {location : List String}

theorem get?_eq_some (h : SameOrMade t t' location) {entry : FileEntry}
    (hentry : t.get? location = some entry) : t'.get? location = some entry := by
  rcases h with heq | ⟨hnone, -⟩
  · rw [heq, hentry]
  · rw [hentry] at hnone
    cases hnone

/-- Where no directory stands afterwards, nothing has changed. -/
theorem get?_eq (h : SameOrMade t t' location) (hnot : t'.get? location ≠ some .directory) :
    t'.get? location = t.get? location :=
  h.elim id fun hmade => absurd hmade.2 hnot

theorem trans (h : SameOrMade t t' location) (h' : SameOrMade t' t'' location) :
    SameOrMade t t'' location := by
  rcases h with heq | ⟨hnone, hmade⟩
  · rw [SameOrMade, ← heq]
    exact h'
  · exact Or.inr ⟨hnone, h'.get?_eq_some hmade⟩

theorem link?_eq (h : SameOrMade t t' location) : t'.link? location = t.link? location := by
  rcases h with heq | ⟨hnone, hmade⟩
  · rw [link?, link?, heq]
  · rw [link?, link?, hnone, hmade]

end SameOrMade

/-- Nothing changes but that directories are made where nothing was. -/
structure AddsDirectories (t t' : FileTree) : Prop where
  workingDirectory : t'.workingDirectory = t.workingDirectory
  bytes : ∀ number, t'.bytes number = t.bytes number
  get? : ∀ location, t'.get? location = t.get? location ∨
    t.get? location = none ∧ t'.get? location = some .directory

namespace AddsDirectories

variable {t t' t'' : FileTree}

theorem refl (t : FileTree) : AddsDirectories t t := ⟨rfl, fun _ => rfl, fun _ => Or.inl rfl⟩

theorem sameOrMade (h : AddsDirectories t t') (location : List String) :
    SameOrMade t t' location :=
  h.get? location

theorem trans (h : AddsDirectories t t') (h' : AddsDirectories t' t'') : AddsDirectories t t'' :=
  ⟨h'.workingDirectory.trans h.workingDirectory,
    fun number => (h'.bytes number).trans (h.bytes number),
    fun location => (h.sameOrMade location).trans (h'.sameOrMade location)⟩

theorem keepsWays (h : AddsDirectories t t') : KeepsWays t t' :=
  ⟨h.workingDirectory, fun {location} => (h.sameOrMade location).get?_eq_some,
    fun location => (h.sameOrMade location).link?_eq⟩

end AddsDirectories

/-! What changes the tree. -/

theorem addsDirectories_of_makeDirectory {t t' : FileTree} {p : Path}
    (h : t.makeDirectory p = .ok t') : AddsDirectories t t' := by
  simp only [makeDirectory, bind, Except.bind] at h
  split at h
  · cases h
  · rename_i last hlast
    obtain ⟨location, name⟩ := last
    simp only at h
    split at h
    · cases h
    · rename_i hfree
      obtain rfl : t.put (location ++ [name]) .directory = t' := Except.ok.inj h
      refine ⟨rfl, fun _ => rfl, fun l => ?_⟩
      rw [get?_put (by simp)]
      by_cases hl : l = location ++ [name]
      · have hnone : t.get? (location ++ [name]) = none := by
          simp only [Bool.or_eq_true, not_or, Option.not_isSome_iff_eq_none] at hfree
          exact hfree.2
        exact Or.inr ⟨hl ▸ hnone, if_pos hl⟩
      · exact Or.inl (if_neg hl)

/-- One file holds a text. It is the one that stood at this place or, if nothing stood there, a new
one. All other files hold what they held, and nothing else is new but directories. -/
structure Gains (t t' : FileTree) (place : List String) (number : Nat) (text : String) : Prop where
  keepsWays : KeepsWays t t'
  file : t'.get? place = some (.file number)
  bytes : t'.bytes number = bytesOf text
  before : t.get? place = some (.file number) ∨
    t.get? place = none ∧ ∀ location, t.get? location ≠ some (.file number)
  otherBytes : ∀ n, n ≠ number → t'.bytes n = t.bytes n
  otherEntries : ∀ location, location ≠ place → t'.get? location = t.get? location ∨
    t.get? location = none ∧ t'.get? location = some .directory

theorem gains_setBytes {t : FileTree} {place : List String} {number : Nat}
    (h : t.get? place = some (.file number)) (text : String) :
    Gains t (t.setBytes number (bytesOf text)) place number text where
  keepsWays := ⟨rfl, fun hdirectory => hdirectory, fun _ => rfl⟩
  file := h
  bytes := by rw [bytes_setBytes, if_pos rfl]
  before := Or.inl h
  otherBytes n hn := by rw [bytes_setBytes, if_neg hn]
  otherEntries _ _ := Or.inl rfl

theorem gains_create {t : FileTree} {place : List String} (h : t.get? place = none)
    (text : String) :
    Gains t (t.create place (bytesOf text)) place t.freshNumber text := by
  have hroot : place ≠ [] := by
    rintro rfl
    cases h
  have hget := get?_create hroot t (bytesOf text)
  have hother : ∀ location, location ≠ place →
      SameOrMade t (t.create place (bytesOf text)) location :=
    fun location hne => Or.inl (by rw [hget, if_neg hne])
  have hkeeps : KeepsWays t (t.create place (bytesOf text)) := by
    refine ⟨rfl, ?_, fun location => ?_⟩
    · intro location hdirectory
      have hplace : location ≠ place := by
        rintro rfl
        rw [h] at hdirectory
        cases hdirectory
      exact (hother location hplace).get?_eq_some hdirectory
    · by_cases hplace : location = place
      · rw [link?, link?, hget, if_pos hplace, hplace, h]
      · exact (hother location hplace).link?_eq
  refine ⟨hkeeps, by rw [hget, if_pos rfl], ?_, Or.inr ⟨h, ?_⟩, ?_, hother⟩
  · rw [bytes_create, if_pos rfl]
  · exact fun location hfile => ne_freshNumber hfile rfl
  · intro n hn
    rw [bytes_create, if_neg hn]

/-- What is written goes to where the path leads. -/
theorem gains_of_write {t t' : FileTree} {p : Path} {text : String}
    (h : t.write p text = .ok t') :
    ∃ place number, t.locate p = .ok place ∧ Gains t t' place number text := by
  simp only [write, bind, Except.bind] at h
  split at h
  · cases h
  · rename_i place hplace
    split at h
    · rename_i number hfile
      obtain rfl := Except.ok.inj h
      exact ⟨place, number, hplace, gains_setBytes hfile text⟩
    · cases h
    · cases h
    · rename_i hnone
      obtain rfl := Except.ok.inj h
      exact ⟨place, t.freshNumber, hplace, gains_create hnone text⟩

/-- Directories may be made before. -/
theorem AddsDirectories.gains {t t' t'' : FileTree} (h : AddsDirectories t t')
    {place : List String} {number : Nat} {text : String} (hgains : Gains t' t'' place number text) :
    Gains t t'' place number text where
  keepsWays := h.keepsWays.trans hgains.keepsWays
  file := hgains.file
  bytes := hgains.bytes
  before := by
    have hplace := h.sameOrMade place
    rcases hgains.before with hfile | ⟨hnone, hnew⟩
    · rw [← hplace.get?_eq (by simp [hfile])]
      exact Or.inl hfile
    · rw [← hplace.get?_eq (by simp [hnone])]
      exact Or.inr ⟨hnone, fun l hl => hnew l ((h.sameOrMade l).get?_eq_some hl)⟩
  otherBytes n hn := (hgains.otherBytes n hn).trans (h.bytes n)
  otherEntries location hne := (h.sameOrMade location).trans (hgains.otherEntries location hne)

/-! What is read. -/

theorem found?_eq_some_iff {t : FileTree} {p : Path} {entry : FileEntry} :
    t.found? p = some entry ↔
      ∃ location, t.locate p = .ok location ∧ t.get? location = some entry := by
  cases hlocate : t.locate p with
  | error e => simp [found?, hlocate, Except.toOption]
  | ok location => simp [found?, hlocate, Except.toOption]

theorem read_eq_ok_iff {t : FileTree} {p : Path} {text : String} :
    t.read p = .ok text ↔
      ∃ number, t.found? p = some (.file number) ∧ textOf? (t.bytes number) = some text := by
  rcases hentry : t.found? p with _ | ⟨_ | number | target⟩
  · simp [read, hentry]
  · simp [read, hentry]
  · cases htext : textOf? (t.bytes number) <;> simp [read, hentry, htext]
  · simp [read, hentry]

namespace Gains

variable {t t' : FileTree} {place : List String} {number : Nat} {text : String}

/-- A path that leads to a file still leads to that file. -/
theorem found?_eq_file (h : Gains t t' place number text) {p : Path} {n : Nat}
    (hentry : t.found? p = some (.file n)) : t'.found? p = some (.file n) := by
  obtain ⟨location, hlocate, hfile⟩ := found?_eq_some_iff.mp hentry
  refine found?_eq_some_iff.mpr ⟨location, h.keepsWays.locate_eq_ok hlocate, ?_⟩
  by_cases hplace : location = place
  · subst hplace
    rcases h.before with hbefore | ⟨hnone, -⟩
    · rw [h.file, ← hbefore, hfile]
    · rw [hfile] at hnone
      cases hnone
  · exact SameOrMade.get?_eq_some (h.otherEntries location hplace) hfile

/-- What is read from another file is read still. -/
theorem read_eq_ok (h : Gains t t' place number text) {p : Path} {held : String}
    (hread : t.read p = .ok held) :
    t'.read p = .ok held ∨ t.found? p = some (.file number) := by
  obtain ⟨n, hentry, htext⟩ := read_eq_ok_iff.mp hread
  by_cases hn : n = number
  · exact Or.inr (hn ▸ hentry)
  · refine Or.inl (read_eq_ok_iff.mpr ⟨n, h.found?_eq_file hentry, ?_⟩)
    rw [h.otherBytes n hn, htext]

theorem read_written (h : Gains t t' place number text) {p : Path}
    (hlocate : t'.locate p = .ok place) : t'.read p = .ok text := by
  refine read_eq_ok_iff.mpr ⟨number, found?_eq_some_iff.mpr ⟨place, hlocate, h.file⟩, ?_⟩
  rw [h.bytes, textOf?_bytesOf]

end Gains

/-! The tree as the disk of a program. -/

/-- Whatever the action gives, it does no more to the tree than to make directories. -/
def OnlyAddsDirectories {α : Type} (x : StateM FileTree α) : Prop :=
  ∀ t, AddsDirectories t (x.run t).2

namespace OnlyAddsDirectories

theorem pure {α : Type} (a : α) : OnlyAddsDirectories (Pure.pure a) := fun t => .refl t

theorem bind {α β : Type} {x : StateM FileTree α} {f : α → StateM FileTree β}
    (hx : OnlyAddsDirectories x) (hf : ∀ a, OnlyAddsDirectories (f a)) :
    OnlyAddsDirectories (x >>= f) :=
  fun t => (hx t).trans (hf _ _)

theorem isDirectory (p : Path) : OnlyAddsDirectories (disk.isDirectory p) := fun t => .refl t

theorem makeDirectory (p : Path) : OnlyAddsDirectories (disk.makeDirectory p) := by
  intro t
  simp only [disk, attempt, StateT.run]
  split
  · rename_i hmade
    exact addsDirectories_of_makeDirectory hmade
  · exact .refl t

theorem unlessPresent (p : Path) (e : FileError) :
    OnlyAddsDirectories (disk.unlessPresent p e) := by
  unfold Disk.unlessPresent
  split
  · refine (isDirectory p).bind fun present => ?_
    split <;> exact pure _
  · exact pure _

/-- Also where making directories fails half way, nothing else has been done. -/
theorem makeFirst (ps : List Path) : OnlyAddsDirectories (disk.makeFirst ps) := by
  induction ps with
  | nil => exact pure _
  | cons p above ih =>
    rw [Disk.makeFirst]
    refine (makeDirectory p).bind fun made => ?_
    split
    · exact pure _
    · refine ih.bind fun madeAbove => ?_
      split
      · exact pure _
      · refine (makeDirectory p).bind fun madeNow => ?_
        split
        · exact pure _
        · exact unlessPresent p _
    · exact unlessPresent p _

end OnlyAddsDirectories

end FileTree

/-- A page is longer than its first line. -/
theorem Compilation.length_page (options : Options) (source : String) :
    15 ≤ (Compilation.ofSource options source).page.length := by
  simp only [Compilation.ofSource, Page.assemble, List.append_assoc, List.cons_append]
  rw [String.intercalate_cons_cons]
  simp only [String.length_append]
  have hfirst : "<!DOCTYPE html>".length = 15 := by decide
  omega

namespace CommandLine

open FileTree

/-- The path of the page that is built. -/
def outputPath (path : String) (outDir : Option String) : Path :=
  (outputDirectory (.ofString path) outDir).join (outputName (.ofString path))

/-- The options that a configuration sets. -/
def Configures (t : FileTree) (config : Option String) (options : Options) : Prop :=
  match config with
  | none => options = .default
  | some file => ∃ text, t.read (.ofString file) = .ok text ∧ Config.parse? text = some options

/-- The failures that are found in reading. -/
inductive Unread : Failure → Prop
  | notFound (path : String) : Unread (.notFound path)
  | reading (path : String) (e : FileError) : Unread (.reading path e)
  | config (path : String) : Unread (.config path)

/-- How a build can end, and the tree it leaves. -/
inductive Ends (t : FileTree) (path : String) (outDir config : Option String) :
    Report → FileTree → Prop
  | unread {f : Failure} : Unread f → Ends t path outDir config (.failed "" f) t
  | unwritten {t' : FileTree} {log file : String} {e : FileError} : AddsDirectories t t' →
      Ends t path outDir config (.failed log (.writing file e)) t'
  | built {t' t'' : FileTree} {source log : String} {options : Options} :
      t.read (.ofString path) = .ok source → Configures t config options →
      AddsDirectories t t' →
      t'.write (outputPath path outDir) (Compilation.ofSource options source).page = .ok t'' →
      Ends t path outDir config ⟨"", log, none⟩ t''

theorem run_bind {α β : Type} (x : StateM FileTree α) (f : α → StateM FileTree β) (t : FileTree) :
    (x >>= f).run t = (f (x.run t).1).run (x.run t).2 := rfl

theorem run_pure {α : Type} (a : α) (t : FileTree) :
    (pure a : StateM FileTree α).run t = (a, t) := rfl

theorem run_textOf (t : FileTree) (path : String) :
    (∃ text, t.read (.ofString path) = .ok text ∧ (textOf disk path).run t = (.ok text, t)) ∨
      ∃ f, Unread f ∧ (textOf disk path).run t = (.error f, t) := by
  have hread : (disk.read (.ofString path)).run t = (t.read (.ofString path), t) := rfl
  simp only [textOf, run_bind, hread]
  split
  · rename_i text htext
    exact Or.inl ⟨text, htext, rfl⟩
  · exact Or.inr ⟨_, .notFound path, rfl⟩
  · exact Or.inr ⟨_, .reading path _, rfl⟩

theorem run_optionsOf (t : FileTree) (config : Option String) :
    (∃ options, Configures t config options ∧ (optionsOf disk config).run t = (.ok options, t)) ∨
      ∃ f, Unread f ∧ (optionsOf disk config).run t = (.error f, t) := by
  cases config with
  | none => exact Or.inl ⟨.default, rfl, rfl⟩
  | some file =>
    rw [optionsOf, run_bind]
    rcases run_textOf t file with ⟨text, htext, hrun⟩ | ⟨f, hf, hrun⟩
    · simp only [hrun]
      cases hparse : Config.parse? text with
      | some options => exact Or.inl ⟨options, ⟨text, htext, hparse⟩, rfl⟩
      | none => exact Or.inr ⟨_, .config file, rfl⟩
    · rw [hrun]
      exact Or.inr ⟨f, hf, rfl⟩

theorem run_write (t : FileTree) (p : Path) (text : String) :
    (∃ t', t.write p text = .ok t' ∧ (disk.write p text).run t = (.ok (), t')) ∨
      ∃ e, (disk.write p text).run t = (.error e, t) := by
  simp only [disk, attempt, StateT.run]
  cases t.write p text with
  | ok t' => exact Or.inl ⟨t', rfl, rfl⟩
  | error e => exact Or.inr ⟨e, rfl⟩

theorem build_ends (t : FileTree) (path : String) (outDir config : Option String) :
    Ends t path outDir config ((build disk path outDir config).run t).1
      ((build disk path outDir config).run t).2 := by
  rw [build, run_bind]
  rcases run_textOf t path with ⟨source, hsource, hrun⟩ | ⟨f, hf, hrun⟩
  · simp only [hrun, run_bind]
    rcases run_optionsOf t config with ⟨options, hoptions, hrun⟩ | ⟨f, hf, hrun⟩
    · simp only [hrun, run_bind]
      have hadds : AddsDirectories t
          ((disk.makeDirectories (outputDirectory (.ofString path) outDir)).run t).2 :=
        OnlyAddsDirectories.makeFirst _ t
      generalize (disk.makeDirectories (outputDirectory (.ofString path) outDir)).run t = made
        at hadds ⊢
      obtain ⟨made | made, t'⟩ := made
      · exact .unwritten hadds
      · rcases run_write t' (outputPath path outDir) (Compilation.ofSource options source).page with
          ⟨t'', hwritten, hrun⟩ | ⟨e, hrun⟩
        · simp only [outputPath] at hrun
          simp only [run_bind, hrun, run_pure]
          exact .built hsource hoptions hadds hwritten
        · simp only [outputPath] at hrun
          simp only [run_bind, hrun, run_pure]
          exact .unwritten hadds
    · simp only [hrun, run_pure]
      exact .unread hf
  · simp only [hrun, run_pure]
    exact .unread hf

/-- A build that does not fail has written the page to the file that its path leads to. -/
theorem Ends.gains {before after : FileTree} {path : String} {outDir config : Option String}
    {report : Report} (h : Ends before path outDir config report after)
    (hnone : report.failure = none) :
    ∃ source options place number, before.read (.ofString path) = .ok source ∧
      Configures before config options ∧ after.locate (outputPath path outDir) = .ok place ∧
      Gains before after place number (Compilation.ofSource options source).page := by
  cases h with
  | unread hf => cases hnone
  | unwritten hadds => cases hnone
  | @built mid after source log options hsource hoptions hadds hwritten =>
    obtain ⟨place, number, hlocate, hgains⟩ := gains_of_write hwritten
    -- The path leads to the page only once the directories are there.
    exact ⟨source, options, place, number, hsource, hoptions,
      hgains.keepsWays.locate_eq_ok hlocate, hadds.gains hgains⟩

/-- A build that cannot read what it needs leaves all files as they are. One that does not fail
writes the page to the file that its path leads to, also through links. Of the other files none is
changed and none is new, and whatever was read under any path is read there still, unless the path
led to the file of the page. -/
theorem build_changes_page_only (before : FileTree) (path : String)
    (outDir config : Option String) :
    let report := ((build disk path outDir config).run before).1
    let after := ((build disk path outDir config).run before).2
    (∀ f, report.failure = some f → Unread f → after = before) ∧
    (report.failure = none → ∃ source options place number,
      before.read (.ofString path) = .ok source ∧ Configures before config options ∧
      after.locate (outputPath path outDir) = .ok place ∧
      after.read (outputPath path outDir) = .ok (Compilation.ofSource options source).page ∧
      Gains before after place number (Compilation.ofSource options source).page ∧
      ∀ p text, before.read p = .ok text →
        after.read p = .ok text ∨ before.found? p = some (.file number)) := by
  intro report after
  have hends : Ends before path outDir config report after :=
    build_ends before path outDir config
  constructor
  · intro f hf hunread
    generalize after = after at hends ⊢
    generalize report = report at hends hf
    cases hends with
    | unread _ => rfl
    | unwritten _ =>
      obtain rfl := Option.some.inj hf
      cases hunread
    | built _ _ _ _ => cases hf
  · intro hnone
    obtain ⟨source, options, place, number, hsource, hoptions, hlocate, hgains⟩ :=
      hends.gains hnone
    exact ⟨source, options, place, number, hsource, hoptions, hlocate,
      hgains.read_written hlocate, hgains, fun p text hread => hgains.read_eq_ok hread⟩

/-- A file is built with a configuration, into a directory that is not there yet and that a link
leads to. -/
theorem build_changes_page_only_configured :
    let source := (((FileTree.emptyAt ["work"]).put ["work", "doc"] .directory).create
      ["work", "doc", "a.aml"] (bytesOf "\\h1\x7bx\x7d")).create
        ["work", "c.toml"] (bytesOf "toc = false")
    let before := source.put ["work", "out"] (.link (.ofString "doc"))
    let run := (build disk "doc/a.aml" (some "out/pages") (some "c.toml")).run before
    run.1.failure = none ∧ ∃ source options place number,
      before.read (.ofString "doc/a.aml") = .ok source ∧
      Configures before (some "c.toml") options ∧
      run.2.locate (outputPath "doc/a.aml" (some "out/pages")) = .ok place ∧
      run.2.read (outputPath "doc/a.aml" (some "out/pages")) =
        .ok (Compilation.ofSource options source).page ∧
      Gains before run.2 place number (Compilation.ofSource options source).page ∧
      ∀ p text, before.read p = .ok text →
        run.2.read p = .ok text ∨ before.found? p = some (.file number) := by
  intro source before run
  have hnone : run.1.failure = none := by decide +kernel
  exact ⟨hnone,
    (build_changes_page_only before "doc/a.aml" (some "out/pages") (some "c.toml")).2 hnone⟩

/-- A page that is built from a file of its own name takes the place of that file. -/
theorem build_overwrites_input :
    let before := (FileTree.emptyAt ["work"]).create ["work", "x.html"] (bytesOf "\\p\x7bx\x7d")
    let run := (build disk "x.html" none none).run before
    run.1.failure = none ∧
      before.read (.ofString "x.html") = .ok "\\p\x7bx\x7d" ∧
      run.2.read (.ofString "x.html") ≠ .ok "\\p\x7bx\x7d" := by
  intro before run
  have hnone : run.1.failure = none := by decide +kernel
  have hread : before.read (.ofString "x.html") = .ok "\\p\x7bx\x7d" :=
    read_eq_ok_iff.mpr ⟨1, by decide +kernel, textOf?_bytesOf _⟩
  refine ⟨hnone, hread, ?_⟩
  obtain ⟨source, options, place, number, -, -, hlocate, hgains⟩ :=
    (build_ends before "x.html" none none).gains hnone
  have hpath : outputPath "x.html" none = .ofString "x.html" := by decide +kernel
  rw [hpath] at hlocate
  rw [hgains.read_written hlocate]
  intro hsame
  have hlength := Compilation.length_page options source
  rw [Except.ok.inj hsame] at hlength
  exact absurd hlength (by decide)

end CommandLine

end AcademicMarkup
