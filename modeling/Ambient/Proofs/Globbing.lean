import Ambient.Glob
import Ambient.Proofs.Place

/-!
What patterns select among files. A pattern that never goes up selects by the names below the root
alone (`Leads`): whatever else the tree holds, it selects exactly the files whose names it accepts
(`selectsBy_of_plain`).
-/

namespace Ambient

/-- The path that names lead to from a path. -/
def Path.extend (p : Path) (names : List Text) : Path := { p with parts := p.parts ++ names }

@[simp] theorem Path.extend_nil (p : Path) : p.extend [] = p := by simp [Path.extend]

@[simp] theorem Path.extend_extend (p : Path) (as bs : List Text) :
    (p.extend as).extend bs = p.extend (as ++ bs) := by simp [Path.extend]

theorem Path.child_eq (p : Path) (name : Text) : p.child name = p.extend [name] := rfl

namespace FileTree

variable {t : FileTree} {p : Path} {l : Location}

theorem locate_extend (sound : t.Sound) (located : t.locate p = .ok l) {names : List Text} {e : Entry}
    (found : t.entry? (l ++ names) = some e) : t.locate (p.extend names) = .ok (l ++ names) := by
  have plain := sound.named_below found
  have origin : t.origin (p.extend names) = t.origin p := rfl
  rw [locate, origin, show (p.extend names).parts = p.parts ++ names from rfl, walk_append]
  exact (congrArg (Except.bind · _) located).trans (sound.walk_of_found plain found)

/-- Names that do not go up lead to their entry, if there is one. -/
theorem find?_extend (sound : t.Sound) (located : t.locate p = .ok l) {names : List Text}
    (plain : ['.', '.'] ∉ names) : t.find? (p.extend names) = t.entry? (l ++ names) := by
  cases found : t.entry? (l ++ names) with
  | some e => rw [find?, locate_extend sound located found]; exact found
  | none =>
    rw [find?]
    cases reached : t.locate (p.extend names) with
    | error cause => rfl
    | ok m =>
      have split : m = follow (follow (t.origin p) p.parts) names :=
        (place_of_locate reached).trans (follow_append _ p.parts names)
      rw [follow_of_plain plain, show follow (t.origin p) p.parts = l from
        (place_of_locate located).symm] at split
      simpa [split] using found

/-- There is a file at the location. -/
def HasFile (t : FileTree) (l : Location) : Prop := ∃ bytes, t.entry? l = some (.file bytes)

theorem not_hasFile_of_folder (folder : t.entry? l = some .folder) : ¬ t.HasFile l := by
  rintro ⟨bytes, file⟩
  rw [folder] at file
  cases file

theorem isFile_extend (sound : t.Sound) (located : t.locate p = .ok l) {names : List Text}
    (plain : ['.', '.'] ∉ names) : t.isFile (p.extend names) = true ↔ t.HasFile (l ++ names) := by
  rw [isFile, find?_extend sound located plain, HasFile]
  cases t.entry? (l ++ names) with
  | none => simp
  | some e => cases e <;> simp [Entry.isFolder]

theorem isFolder_iff : t.isFolder p = true ↔
    ∃ l, t.locate p = .ok l ∧ t.entry? l = some .folder := by
  rw [isFolder, find?]
  cases located : t.locate p with
  | error cause => simp
  | ok l =>
    cases found : t.entry? l with
    | none => simp [found]
    | some e => cases e <;> simp [found, Entry.isFolder]

theorem not_isFolder_of_isFile (file : t.isFile p = true) : ¬ t.isFolder p = true := by
  intro folder
  obtain ⟨l, bytes, located, found⟩ := isFile_iff.1 file
  obtain ⟨l', located', found'⟩ := isFolder_iff.1 folder
  obtain rfl := Except.ok.inj (located.symm.trans located')
  rw [found] at found'
  cases found'

/-- What a path leads to that ends by going up is no file. -/
theorem not_isFile_of_up (sound : t.Sound) {front : List Text} (up : p.parts = front ++ [['.', '.']]) :
    ¬ t.isFile p = true := by
  intro file
  obtain ⟨l, bytes, located, found⟩ := isFile_iff.1 file
  rw [locate, up, walk_append] at located
  cases above : t.walk (t.origin p) front with
  | error cause =>
    rw [above] at located
    cases located
  | ok m =>
    rw [above] at located
    change t.walk m [['.', '.']] = .ok l at located
    rw [walk] at located
    split at located
    · cases located
    · cases located
    · next folder =>
      obtain rfl : m.dropLast = l := Except.ok.inj located
      rw [sound.folder_of_dropLast folder] at found
      cases found

/-- What holds a file is a folder. -/
theorem isFolder_of_isFile_extend {names : List Text} (nonempty : names ≠ [])
    (file : t.isFile (p.extend names) = true) : t.isFolder p = true := by
  obtain ⟨m, bytes, reached, -⟩ := isFile_iff.1 file
  have origin : t.origin (p.extend names) = t.origin p := rfl
  rw [locate, origin, show (p.extend names).parts = p.parts ++ names from rfl, walk_append,
    ← locate] at reached
  cases located : t.locate p with
  | error cause =>
    rw [located] at reached
    cases reached
  | ok l =>
    rw [located] at reached
    obtain ⟨name, rest, rfl⟩ := List.exists_cons_of_ne_nil nonempty
    refine isFolder_iff.2 ⟨l, located, ?_⟩
    change t.walk l (name :: rest) = .ok m at reached
    rw [walk] at reached
    split at reached
    · cases reached
    · cases reached
    · next folder => exact folder

theorem mem_children (sound : t.Sound) (located : t.locate p = .ok l) {name : Text} {e : Entry} :
    (name, e) ∈ t.children p ↔ t.entry? (l ++ [name]) = some e := by
  rw [children, located]
  simp only [List.mem_filterMap]
  constructor
  · rintro ⟨⟨m, e'⟩, member, chosen⟩
    split at chosen
    · next inside =>
      obtain ⟨last, final, same⟩ := Option.map_eq_some_iff.1 chosen
      obtain ⟨rfl, rfl⟩ := Prod.mk.inj same
      obtain ⟨front, rfl⟩ := List.getLast?_eq_some_iff.1 final
      rw [List.dropLast_concat] at inside
      exact inside ▸ sound.entry?_of_mem member
    · cases chosen
  · intro found
    exact ⟨(l ++ [name], e), mem_of_found (by simp) found, by simp⟩

theorem mem_foldersFrom (sound : t.Sound) (located : t.locate p = .ok l)
    (folder : t.entry? l = some .folder) {q : Path} :
    q ∈ t.foldersFrom p ↔ ∃ through, q = p.extend through ∧
      t.entry? (l ++ through) = some .folder := by
  rw [foldersFrom, located]
  simp only [List.mem_cons, List.mem_filterMap]
  constructor
  · rintro (rfl | ⟨⟨m, e⟩, member, chosen⟩)
    · exact ⟨[], by simp, by simpa using folder⟩
    · split at chosen
      · next below =>
        simp only [Bool.and_eq_true, List.isPrefixOf_iff_prefix] at below
        obtain ⟨⟨isFolder, -⟩, through, rfl⟩ := below
        refine ⟨through, ?_, ?_⟩
        · rw [← Option.some.inj chosen, List.drop_left]
          rfl
        · cases e with
          | file bytes => cases isFolder
          | folder => exact sound.entry?_of_mem member
      · cases chosen
  · rintro ⟨through, rfl, found⟩
    cases through with
    | nil => exact .inl (by simp)
    | cons name rest =>
      refine .inr ⟨(l ++ name :: rest, .folder), mem_of_found (by simp) found, ?_⟩
      rw [if_pos (by simp [Entry.isFolder, List.isPrefixOf_iff_prefix]), List.drop_left]
      rfl

end FileTree

namespace Glob

open FileTree

/-- The part takes the name of one entry. -/
def Part.takes : Part → Text → Prop
  | descend, _ => False
  | exact known, name => name = known
  | wild pieces, name => Wildcard.accepts pieces name = true

/-- Parts lead along names to a file: each part takes one name, but two stars take any number of
them, though never the last. -/
def Leads : List Part → List Text → Prop
  | [], names => names = []
  | .descend :: rest, names => ∃ through left, names = through ++ left ∧ left ≠ [] ∧ Leads rest left
  | part :: rest, names => ∃ name left, names = name :: left ∧ part.takes name ∧ Leads rest left

variable {t : FileTree} {p q : Path} {l : Location} {foldersOnly : Bool} {parts rest : List Part}
  {part : Part}

theorem leads_cons (plain : part ≠ .descend) {names : List Text} : Leads (part :: rest) names ↔
    ∃ name left, names = name :: left ∧ part.takes name ∧ Leads rest left := by
  cases part with
  | descend => exact absurd rfl plain
  | exact known => rfl
  | wild pieces => rfl

theorem Leads.ne_nil {names : List Text} (h : Leads parts names) (nonempty : parts ≠ []) :
    names ≠ [] := by
  cases parts with
  | nil => exact absurd rfl nonempty
  | cons part rest =>
    by_cases stars : part = .descend
    · subst stars
      obtain ⟨through, left, rfl, more, -⟩ := h
      simp [more]
    · obtain ⟨name, left, rfl, -⟩ := (leads_cons stars).1 h
      simp

/-- A part that is not two stars goes on from the entries whose name it takes. -/
theorem mem_select_cons (sound : t.Sound) (located : t.locate p = .ok l) (notStars : part ≠ .descend)
    (plain : part ≠ .exact ['.', '.']) :
    q ∈ select t foldersOnly (part :: rest) p ↔ ∃ name e, part.takes name ∧
      t.entry? (l ++ [name]) = some e ∧ ((!foldersOnly && rest == []) || e.isFolder) = true ∧
      q ∈ select t foldersOnly rest (p.extend [name]) := by
  cases part with
  | descend => exact absurd rfl notStars
  | exact known =>
    have there : ['.', '.'] ∉ [known] := by
      simpa using fun up : ['.', '.'] = known => plain (up ▸ rfl)
    have found := find?_extend sound located there
    have fits (e : Entry) : (if (foldersOnly || rest != []) = true then e.isFolder else true) =
        ((!foldersOnly && rest == []) || e.isFolder) := by
      cases foldersOnly <;> cases rest <;> simp
    rw [select, Path.child_eq]
    simp only [isFolder, found]
    constructor
    · intro member
      cases entry : t.entry? (l ++ [known]) with
      | none => simp [entry] at member
      | some e =>
        simp only [entry, Option.any_some, Option.isSome_some, fits] at member
        split at member
        · next fit => exact ⟨known, e, rfl, entry, fit, member⟩
        · cases member
    · rintro ⟨name, e, rfl, entry, fit, member⟩
      simp only [entry, Option.any_some, Option.isSome_some, fits]
      rw [if_pos fit]
      exact member
  | wild pieces =>
    rw [select]
    simp only [List.mem_flatMap, List.mem_filter, Bool.and_eq_true, Prod.exists,
      mem_children sound located, Part.takes]
    constructor
    · rintro ⟨name, e, ⟨found, fits, accepted⟩, onward⟩
      exact ⟨name, e, accepted, found, fits, onward⟩
    · rintro ⟨name, e, accepted, found, fits, onward⟩
      exact ⟨name, e, ⟨found, fits, accepted⟩, onward⟩

/-- From every folder the parts select the path exactly if it is a file that they lead to, unless
only folders are wanted. -/
def SelectsFile (t : FileTree) (foldersOnly : Bool) (parts : List Part) (q : Path) : Prop :=
  ∀ p l, t.locate p = .ok l → t.entry? l = some .folder →
    ((q ∈ select t foldersOnly parts p ∧ t.isFile q = true) ↔
      foldersOnly = false ∧ ∃ names, q = p.extend names ∧ Leads parts names ∧
        t.HasFile (l ++ names))

theorem selectsFile_nil (sound : t.Sound) : SelectsFile t foldersOnly [] q := by
  intro p l located folder
  have none : ¬ t.HasFile (l ++ []) := by simpa using not_hasFile_of_folder folder
  constructor
  · rintro ⟨member, file⟩
    obtain rfl : q = p := List.mem_singleton.1 member
    have here : t.isFile (q.extend []) = true ↔ t.HasFile (l ++ []) :=
      isFile_extend sound located (by simp)
    rw [Path.extend_nil] at here
    exact absurd (here.1 file) none
  · rintro ⟨-, names, rfl, rfl, file⟩
    exact absurd file none

/-- Two stars go down to any folder; what follows them takes at least one name. -/
theorem selectsFile_descend (sound : t.Sound) (ih : SelectsFile t foldersOnly rest q) :
    SelectsFile t foldersOnly (.descend :: rest) q := by
  intro p l located folder
  rw [select]
  simp only [List.mem_flatMap, mem_foldersFrom sound located folder]
  constructor
  · rintro ⟨⟨f, ⟨through, rfl, inner⟩, member⟩, file⟩
    obtain ⟨files, left, rfl, leads, there⟩ :=
      (ih _ _ (locate_extend sound located inner) inner).1 ⟨member, file⟩
    rw [List.append_assoc] at there
    refine ⟨files, through ++ left, Path.extend_extend p through left,
      ⟨through, left, rfl, ?_, leads⟩, there⟩
    rintro rfl
    rw [List.append_nil] at there
    exact not_hasFile_of_folder inner there
  · rintro ⟨files, -, rfl, ⟨through, left, rfl, more, leads⟩, there⟩
    rw [← List.append_assoc] at there
    obtain ⟨bytes, found⟩ := there
    have inner := sound.folder_of_append more found
    obtain ⟨member, file⟩ := (ih _ _ (locate_extend sound located inner) inner).2
      ⟨files, left, (Path.extend_extend p through left).symm, leads, bytes, found⟩
    exact ⟨⟨_, ⟨through, rfl, inner⟩, member⟩, file⟩

/-- Any other part takes one name: that of the file if it is the last, else that of a folder. -/
theorem selectsFile_cons (sound : t.Sound) (notStars : part ≠ .descend)
    (plain : part ≠ .exact ['.', '.']) (ih : SelectsFile t foldersOnly rest q) :
    SelectsFile t foldersOnly (part :: rest) q := by
  intro p l located folder
  rw [mem_select_cons sound located notStars plain]
  simp only [leads_cons notStars]
  constructor
  · rintro ⟨⟨name, e, takes, found, fits, member⟩, file⟩
    have here := locate_extend sound located found
    cases e with
    | folder =>
      obtain ⟨files, left, rfl, leads, there⟩ := (ih _ _ here found).1 ⟨member, file⟩
      rw [List.append_assoc] at there
      exact ⟨files, name :: left, Path.extend_extend p [name] left,
        ⟨name, left, rfl, takes, leads⟩, there⟩
    | file bytes =>
      simp only [Entry.isFolder, Bool.or_false, Bool.and_eq_true, Bool.not_eq_true',
        beq_iff_eq] at fits
      obtain ⟨files, rfl⟩ := fits
      exact ⟨files, [name], List.mem_singleton.1 member, ⟨name, [], rfl, takes, rfl⟩, bytes, found⟩
  · rintro ⟨files, -, rfl, ⟨name, left, rfl, takes, leads⟩, there⟩
    have split : l ++ name :: left = l ++ [name] ++ left := by simp
    obtain ⟨bytes, found⟩ := there
    rw [split] at found
    cases left with
    | nil =>
      obtain rfl : rest = [] := by
        by_contra more
        exact leads.ne_nil more rfl
      rw [List.append_nil] at found
      have file := (isFile_extend sound located (sound.named_below found)).2 ⟨bytes, found⟩
      exact ⟨⟨name, .file bytes, takes, found, by simp [files], List.mem_singleton_self _⟩, file⟩
    | cons next left =>
      have inner := sound.folder_of_append (by simp) found
      obtain ⟨member, file⟩ := (ih _ _ (locate_extend sound located inner) inner).2
        ⟨files, next :: left, (Path.extend_extend p [name] _).symm, leads, bytes, found⟩
      exact ⟨⟨name, .folder, takes, inner, by simp [Entry.isFolder], member⟩, file⟩

/-- **What parts select among files** is known from the names: they select the files that they lead
to, unless only folders are wanted. -/
theorem selectsFile (sound : t.Sound) (plain : .exact ['.', '.'] ∉ parts) :
    SelectsFile t foldersOnly parts q := by
  induction parts with
  | nil => exact selectsFile_nil sound
  | cons part rest ih =>
    simp only [List.mem_cons, not_or] at plain
    by_cases stars : part = .descend
    · subst stars
      exact selectsFile_descend sound (ih plain.2)
    · exact selectsFile_cons sound stars (Ne.symm plain.1) (ih plain.2)

/-- The path goes from the root along accepted names, none of which goes up. -/
def Reaches (root : Path) (accepts : List Text → Prop) (q : Path) : Prop :=
  ∃ names, q = root.extend names ∧ ['.', '.'] ∉ names ∧ accepts names

/-- Which files the pattern selects from the root is up to their names alone. -/
def SelectsBy (root : Path) (pattern : Text) (accepts : List Text → Prop) : Prop :=
  ∀ t : FileTree, t.Sound → ∃ found, glob t root pattern = .ok found ∧
    ∀ q, (q ∈ found ∧ t.isFile q = true) ↔ Reaches root accepts q ∧ t.isFile q = true

/-- A pattern is what is read from its text, and has parts. -/
theorem read_of_ofText {text : Text} {pattern : Pattern} (h : Pattern.ofText text = .ok pattern) :
    Pattern.read text = .ok pattern ∧ pattern.parts ≠ [] := by
  rw [Pattern.ofText] at h
  split at h
  · cases h
  · split at h
    · cases h
    · next read =>
      split at h
      · cases h
      · next nonempty =>
        cases h
        exact ⟨read, nonempty⟩

/-- The names lead to a file that the pattern selects. -/
def Pattern.Accepts (pattern : Pattern) (names : List Text) : Prop :=
  pattern.foldersOnly = false ∧ Leads pattern.parts names

/-- **A pattern that never goes up** selects by names alone. -/
theorem selectsBy_of_plain {text : Text} {pattern : Pattern}
    (read : Pattern.ofText text = .ok pattern) (plain : .exact ['.', '.'] ∉ pattern.parts)
    (root : Path) : SelectsBy root text pattern.Accepts := by
  intro t sound
  refine ⟨pattern.paths t root, by rw [glob, read]; rfl, fun q => ?_⟩
  rw [Pattern.paths]
  split
  · next isFolder =>
    obtain ⟨l, located, folder⟩ := isFolder_iff.1 isFolder
    rw [selectsFile sound plain _ _ located folder]
    constructor
    · rintro ⟨files, names, rfl, leads, there⟩
      obtain ⟨bytes, found⟩ := there
      have straight := sound.named_below found
      exact ⟨⟨names, rfl, straight, files, leads⟩,
        (isFile_extend sound located straight).2 ⟨bytes, found⟩⟩
    · rintro ⟨⟨names, rfl, straight, files, leads⟩, file⟩
      exact ⟨files, names, rfl, leads, (isFile_extend sound located straight).1 file⟩
  · next notFolder =>
    constructor
    · rintro ⟨member, -⟩
      cases member
    · rintro ⟨⟨names, rfl, -, -, leads⟩, file⟩
      exact absurd (isFolder_of_isFile_extend (leads.ne_nil (read_of_ofText read).2) file) notFolder

end Glob

end Ambient
