import Ambient.Extract
import Mathlib.Data.List.Induction

/-!
Where paths lead in a tree, and what a change of the tree leaves alone. The place of a path is known
from its parts (`place`). A tree that grows by folders, and by files at some places only
(`Extends`), leads every path to the same place as before, and every source elsewhere still holds
the text it held (`Extends.text?_eq`).
-/

namespace Ambient.FileTree

variable {t t' t'' : FileTree} {l m : Location} {p : Path} {name : Text} {e : Entry}

/-! ### Sound trees -/

/-- Every entry is there once and stands in a folder, and no name goes up. -/
structure Sound (t : FileTree) : Prop where
  once : (t.entries.map Prod.fst).Nodup
  held : ∀ x ∈ t.entries, x.1 ≠ [] ∧ t.entry? x.1.dropLast = some .folder
  named : ∀ x ∈ t.entries, ['.', '.'] ∉ x.1

theorem entry?_below (t : FileTree) (nonempty : l ≠ []) : t.entry? l = t.entries.lookup l :=
  if_neg nonempty

theorem mem_of_found (nonempty : l ≠ []) (h : t.entry? l = some e) : (l, e) ∈ t.entries := by
  rw [entry?_below t nonempty] at h
  obtain ⟨front, back, split, -⟩ := List.lookup_eq_some_iff.1 h
  simp [split]

theorem Sound.entry?_of_mem (h : t.Sound) (member : (l, e) ∈ t.entries) :
    t.entry? l = some e := by
  have nonempty : l ≠ [] := (h.held _ member).1
  rw [entry?_below t nonempty]
  obtain ⟨front, back, split⟩ := List.append_of_mem member
  have once := h.once
  rw [split, List.map_append, List.map_cons] at once
  refine List.lookup_eq_some_iff.2 ⟨front, back, split, fun x inFront => ?_⟩
  have apart := (List.nodup_append.1 once).2.2 x.1 (List.mem_map_of_mem inFront) l List.mem_cons_self
  simpa using Ne.symm apart

/-- What stands on the way to an entry is a folder. -/
theorem Sound.folder_of_append (h : t.Sound) (nonempty : m ≠ []) (found : t.entry? (l ++ m) = some e) :
    t.entry? l = some .folder := by
  induction m using List.reverseRecOn generalizing e with
  | nil => exact absurd rfl nonempty
  | append_singleton m name ih =>
    have held := (h.held _ (mem_of_found (by simp) found)).2
    rw [← List.append_assoc, List.dropLast_concat] at held
    cases m with
    | nil => rwa [List.append_nil] at held
    | cons part m => exact ih (by simp) held

theorem Sound.folder_of_dropLast (h : t.Sound) (found : t.entry? l = some e) :
    t.entry? l.dropLast = some .folder := by
  cases l with
  | nil => rfl
  | cons part l => exact (h.held _ (mem_of_found (by simp) found)).2

theorem Sound.named_of_found (h : t.Sound) (found : t.entry? l = some e) : ['.', '.'] ∉ l := by
  cases l with
  | nil => simp
  | cons part l => exact h.named _ (mem_of_found (by simp) found)

theorem Sound.named_below (h : t.Sound) (found : t.entry? (l ++ m) = some e) : ['.', '.'] ∉ m :=
  fun up => h.named_of_found found (List.mem_append_right l up)

theorem lookup_filter_ne (xs : List (Location × Entry)) (l m : Location) :
    (xs.filter fun x => x.1 != m).lookup l = if l = m then none else xs.lookup l := by
  induction xs with
  | nil => simp
  | cons x xs ih =>
    obtain ⟨k, e⟩ := x
    by_cases removed : k = m
    · rw [List.filter_cons_of_neg (by simpa using removed), ih]
      by_cases here : l = m
      · rw [if_pos here, if_pos here]
      · have other : (l == k) = false := by simpa [removed] using here
        simp only [List.lookup_cons, other]
    · rw [List.filter_cons_of_pos (by simpa using removed)]
      by_cases found : l = k
      · simp [found, removed]
      · have other : (l == k) = false := by simpa using found
        simp only [List.lookup_cons, other, ih]

theorem entry?_put (t : FileTree) (nonempty : m ≠ []) (e : Entry) (l : Location) :
    entry? (t.put m e) l = if l = m then some e else t.entry? l := by
  by_cases top : l = []
  · subst top
    rw [if_neg (Ne.symm nonempty)]
    rfl
  · rw [entry?_below _ top, entry?_below t top, put, List.lookup_append, lookup_filter_ne]
    by_cases here : l = m
    · simp [here]
    · have other : (l == m) = false := by simpa using here
      simp [here, List.lookup_cons, other]

theorem Sound.put (h : t.Sound) (folder : t.entry? l = some .folder) (plain : name ≠ ['.', '.'])
    (keeps : t.entry? (l ++ [name]) = some .folder → e = .folder) :
    (t.put (l ++ [name]) e).Sound := by
  have stays {k : Location} (old : t.entry? k = some .folder) :
      entry? (t.put (l ++ [name]) e) k = some .folder := by
    rw [entry?_put t (by simp)]
    split
    · next here => rw [keeps (here ▸ old)]
    · exact old
  refine ⟨?_, fun x member => ?_, fun x member => ?_⟩
  · have rest : ((t.entries.filter fun x => x.1 != l ++ [name]).map Prod.fst).Nodup :=
      h.once.sublist (List.filter_sublist.map _)
    rw [FileTree.put, List.map_append, List.nodup_append]
    refine ⟨rest, by simp, fun k old k' new => ?_⟩
    obtain ⟨x, kept, rfl⟩ := List.mem_map.1 old
    rw [List.map_singleton, List.mem_singleton] at new
    simpa [new] using (List.mem_filter.1 kept).2
  · rcases List.mem_append.1 member with old | new
    · have held := h.held x (List.mem_filter.1 old).1
      exact ⟨held.1, stays held.2⟩
    · obtain rfl := List.mem_singleton.1 new
      simpa using stays folder
  · rcases List.mem_append.1 member with old | new
    · exact h.named x (List.mem_filter.1 old).1
    · obtain rfl := List.mem_singleton.1 new
      simpa [Ne.symm plain] using h.named_of_found folder

/-! ### Places -/

/-- Where parts lead from a location. -/
def follow (l : Location) : List Text → Location
  | [] => l
  | part :: rest => follow (if part = ['.', '.'] then l.dropLast else l ++ [part]) rest

/-- Where a path leads, if it leads to an entry. -/
def place (t : FileTree) (p : Path) : Location := follow (t.origin p) p.parts

theorem follow_append (l : Location) (as bs : List Text) :
    follow l (as ++ bs) = follow (follow l as) bs := by
  induction as generalizing l with
  | nil => rfl
  | cons part as ih => exact ih _

theorem follow_of_plain {parts : List Text} (plain : ['.', '.'] ∉ parts) (l : Location) :
    follow l parts = l ++ parts := by
  induction parts generalizing l with
  | nil => simp [follow]
  | cons part rest ih =>
    simp only [List.mem_cons, not_or] at plain
    rw [follow, if_neg (Ne.symm plain.1), ih plain.2, List.append_assoc]
    rfl

theorem walk_append (t : FileTree) (l : Location) (as bs : List Text) :
    t.walk l (as ++ bs) = (t.walk l as).bind fun m => t.walk m bs := by
  induction as generalizing l with
  | nil => rfl
  | cons part as ih =>
    rw [List.cons_append, walk, walk]
    split
    · rfl
    · rfl
    · split
      · exact ih _
      · split
        · exact ih _
        · rfl

theorem follow_of_walk {parts : List Text} (h : t.walk l parts = .ok m) : m = follow l parts := by
  induction parts generalizing l with
  | nil => exact (Except.ok.inj h).symm
  | cons part rest ih =>
    rw [walk] at h
    split at h
    · cases h
    · cases h
    · rw [follow]
      split at h
      · next up => rw [if_pos up]; exact ih h
      · next plain =>
        split at h
        · rw [if_neg plain]; exact ih h
        · cases h

theorem place_of_locate (h : t.locate p = .ok l) : l = t.place p := follow_of_walk h

/-- In a sound tree the names down to an entry lead there. -/
theorem Sound.walk_of_found (h : t.Sound) {parts : List Text} (plain : ['.', '.'] ∉ parts)
    (found : t.entry? (l ++ parts) = some e) : t.walk l parts = .ok (l ++ parts) := by
  induction parts generalizing l with
  | nil => simp [walk]
  | cons part rest ih =>
    simp only [List.mem_cons, not_or] at plain
    have whole : l ++ part :: rest = l ++ [part] ++ rest := by simp
    have next : (t.entry? (l ++ [part])).isSome = true := by
      rw [whole] at found
      cases rest with
      | nil => simpa using Option.isSome_of_mem found
      | cons next rest => simp [h.folder_of_append (by simp) found]
    rw [walk, h.folder_of_append (by simp) found]
    simp only [if_neg (Ne.symm plain.1), if_pos next]
    rw [whole] at found ⊢
    exact ih plain.2 found

/-- What is known of a path where its last part can be made. -/
theorem locateLast_some (h : t.locateLast p = .ok (some (l, name))) :
    p.parts = p.parts.dropLast ++ [name] ∧ name ≠ ['.', '.'] ∧
      t.walk (t.origin p) p.parts.dropLast = .ok l ∧ t.entry? l = some .folder := by
  cases last : p.parts.getLast? with
  | none =>
    simp only [locateLast, last] at h
    cases h
  | some part =>
    simp only [locateLast, last] at h
    cases walked : t.walk (t.origin p) p.parts.dropLast with
    | error cause =>
      rw [walked] at h
      cases h
    | ok k =>
      rw [walked] at h
      simp only [bind, Except.bind] at h
      split at h
      · next folder =>
        by_cases up : part = ['.', '.']
        · rw [if_pos up] at h
          cases h
        · rw [if_neg up] at h
          cases h
          obtain ⟨front, split⟩ := List.getLast?_eq_some_iff.1 last
          exact ⟨by simp [split], up, rfl, folder⟩
      · cases h
      · cases h

/-- A file written to the path goes to the location. None is written to a path that ends by going
up. -/
def Lands (t : FileTree) (p : Path) (l : Location) : Prop :=
  ∃ above name, p.parts = above ++ [name] ∧ name ≠ ['.', '.'] ∧
    l = follow (t.origin p) above ++ [name]

theorem Lands.place (h : t.Lands p l) : l = t.place p := by
  obtain ⟨above, name, split, plain, rfl⟩ := h
  rw [FileTree.place, split, follow_append, follow, follow, if_neg plain]

/-- The file has the name that the path ends with. -/
theorem Lands.getLast? (h : t.Lands p l) : l.getLast? = p.parts.getLast? := by
  obtain ⟨above, name, split, -, rfl⟩ := h
  rw [split, List.getLast?_concat, List.getLast?_concat]

theorem lands_of_locateLast (h : t.locateLast p = .ok (some (l, name))) :
    t.Lands p (l ++ [name]) := by
  obtain ⟨split, plain, walked, -⟩ := locateLast_some h
  exact ⟨_, name, split, plain, by rw [← follow_of_walk walked]⟩

/-! ### Growing trees -/

/-- The tree has grown by folders, and by files at some places only; files there may be new. -/
structure Extends (places : Location → Prop) (t t' : FileTree) : Prop where
  workFolder : t'.workFolder = t.workFolder
  folders : ∀ l, t.entry? l = some .folder → t'.entry? l = some .folder
  files : ∀ l bytes, t.entry? l = some (.file bytes) → ∃ bytes', t'.entry? l = some (.file bytes')
  kept : ∀ l, ¬ places l → ∀ bytes,
    t'.entry? l = some (.file bytes) ↔ t.entry? l = some (.file bytes)
  sound : t.Sound → t'.Sound

section
variable {places places' : Location → Prop}

theorem Extends.refl (t : FileTree) : Extends places t t :=
  ⟨rfl, fun _ h => h, fun _ bytes h => ⟨bytes, h⟩, fun _ _ _ => Iff.rfl, fun h => h⟩

theorem Extends.trans (h : Extends places t t') (k : Extends places t' t'') :
    Extends places t t'' where
  workFolder := k.workFolder.trans h.workFolder
  folders l old := k.folders l (h.folders l old)
  files l bytes old := by
    obtain ⟨bytes', mid⟩ := h.files l bytes old
    exact k.files l bytes' mid
  kept l outside bytes := (k.kept l outside bytes).trans (h.kept l outside bytes)
  sound s := k.sound (h.sound s)

theorem Extends.mono (h : Extends places t t') (wider : ∀ l, places l → places' l) :
    Extends places' t t' :=
  { h with kept := fun l outside => h.kept l fun inside => outside (wider l inside) }

theorem Extends.origin_eq (h : Extends places t t') (p : Path) : t'.origin p = t.origin p := by
  rw [origin, origin, h.workFolder]

theorem Extends.place_eq (h : Extends places t t') (p : Path) : t'.place p = t.place p := by
  rw [place, place, h.origin_eq]

theorem Extends.lands_eq (h : Extends places t t') (p : Path) : t'.Lands p = t.Lands p := by
  funext l
  rw [Lands, Lands, h.origin_eq]

theorem Extends.walk (h : Extends places t t') {parts : List Text} (walked : t.walk l parts = .ok m) :
    t'.walk l parts = .ok m := by
  induction parts generalizing l with
  | nil => exact walked
  | cons part rest ih =>
    rw [FileTree.walk] at walked ⊢
    split at walked
    · cases walked
    · cases walked
    · next folder =>
      rw [h.folders l folder]
      simp only
      split at walked
      · next up => rw [if_pos up]; exact ih walked
      · next plain =>
        split at walked
        · next there =>
          obtain ⟨e, found⟩ := Option.isSome_iff_exists.1 there
          have there' : (t'.entry? (l ++ [part])).isSome = true := by
            cases e with
            | folder => simp [h.folders _ found]
            | file bytes =>
              obtain ⟨bytes', found'⟩ := h.files _ bytes found
              simp [found']
          rw [if_neg plain, if_pos there']
          exact ih walked
        · cases walked

theorem Extends.locate (h : Extends places t t') (located : t.locate p = .ok l) :
    t'.locate p = .ok l := by
  rw [FileTree.locate, h.origin_eq]
  exact h.walk located

theorem extends_put_folder (folder : t.entry? l = some .folder) (plain : name ≠ ['.', '.'])
    (free : t.entry? (l ++ [name]) = none) :
    Extends places t (t.put (l ++ [name]) .folder) where
  workFolder := rfl
  folders k old := by
    rw [entry?_put t (by simp)]
    split
    · rfl
    · exact old
  files k bytes old := by
    rw [entry?_put t (by simp), if_neg, old]
    · exact ⟨bytes, rfl⟩
    · rintro rfl
      rw [free] at old
      cases old
  kept k _ bytes := by
    rw [entry?_put t (by simp)]
    split
    · next here => simp [here, free]
    · rfl
  sound s := s.put folder plain fun _ => rfl

theorem extends_put_file (folder : t.entry? l = some .folder) (plain : name ≠ ['.', '.'])
    (free : t.entry? (l ++ [name]) ≠ some .folder) (bytes : ByteArray)
    (inside : places (l ++ [name])) :
    Extends places t (t.put (l ++ [name]) (.file bytes)) where
  workFolder := rfl
  folders k old := by
    rw [entry?_put t (by simp), if_neg, old]
    rintro rfl
    exact free old
  files k bytes' old := by
    rw [entry?_put t (by simp)]
    split
    · exact ⟨bytes, rfl⟩
    · exact ⟨bytes', old⟩
  kept k outside bytes' := by
    rw [entry?_put t (by simp), if_neg]
    rintro rfl
    exact outside inside
  sound s := s.put folder plain fun old => absurd old free

/-! ### Operations -/

theorem makeFolder_extends (h : t.makeFolder p = .ok t') : Extends places t t' := by
  rw [makeFolder] at h
  split at h
  · cases h
  · cases h
    exact .refl t
  · next l name last =>
    obtain ⟨-, plain, -, folder⟩ := locateLast_some last
    split at h
    · cases h
      exact .refl t
    · cases h
    · next free =>
      cases h
      exact extends_put_folder folder plain free

theorem makeFoldersFrom_extends {anchor : Text} {parts : List Text}
    (h : t.makeFoldersFrom anchor parts = .ok t') : Extends places t t' := by
  induction parts generalizing t' with
  | nil =>
    cases h
    exact .refl t
  | cons part above ih =>
    rw [makeFoldersFrom] at h
    split at h
    · next made here =>
      cases h
      exact makeFolder_extends here
    · split at h
      · split at h
        · next made higher => exact (ih higher).trans (makeFolder_extends h)
        · cases h
      · cases h

theorem makeFolders_extends (h : t.makeFolders p = .ok t') : Extends places t t' :=
  makeFoldersFrom_extends h

theorem write_ok {bytes : ByteArray} (h : t.write p bytes = .ok t') :
    ∃ l name, t.locateLast p = .ok (some (l, name)) ∧ t.entry? (l ++ [name]) ≠ some .folder ∧
      t' = t.put (l ++ [name]) (.file bytes) := by
  rw [write] at h
  split at h
  · cases h
  · cases h
  · next l name last =>
    split at h
    · cases h
    · next free =>
      refine ⟨l, name, last, fun folder => free ?_, (Except.ok.inj h).symm⟩
      rw [folder]
      rfl

theorem write_extends {bytes : ByteArray} (h : t.write p bytes = .ok t') :
    Extends (t.Lands p) t t' := by
  obtain ⟨l, name, last, free, rfl⟩ := write_ok h
  obtain ⟨-, plain, -, folder⟩ := locateLast_some last
  exact extends_put_file folder plain free bytes (lands_of_locateLast last)

/-! ### Reading -/

theorem read_eq_ok_iff {bytes : ByteArray} :
    t.read p = .ok bytes ↔ ∃ l, t.locate p = .ok l ∧ t.entry? l = some (.file bytes) := by
  rw [read]
  constructor
  · intro h
    split at h
    · cases h
    · next l located =>
      split at h
      · next found =>
        cases h
        exact ⟨l, located, found⟩
      · cases h
      · cases h
  · rintro ⟨l, located, found⟩
    simp only [located, found]

theorem isFile_iff :
    t.isFile p = true ↔ ∃ l bytes, t.locate p = .ok l ∧ t.entry? l = some (.file bytes) := by
  rw [isFile, find?]
  cases located : t.locate p with
  | error cause => simp
  | ok l =>
    cases found : t.entry? l with
    | none => simp [found]
    | some e => cases e <;> simp [found, Entry.isFolder]

/-- What was written is read. -/
theorem read_write {bytes : ByteArray} (h : t.write p bytes = .ok t') : t'.read p = .ok bytes := by
  have grown := write_extends h
  obtain ⟨l, name, last, -, rfl⟩ := write_ok h
  obtain ⟨split, plain, walked, folder⟩ := locateLast_some last
  have found : entry? (t.put (l ++ [name]) (.file bytes)) (l ++ [name]) = some (.file bytes) := by
    rw [entry?_put t (by simp), if_pos rfl]
  refine read_eq_ok_iff.2 ⟨l ++ [name], ?_, found⟩
  have before := grown.walk walked
  rw [FileTree.locate, split, walk_append]
  refine (congrArg (Except.bind · _) before).trans ?_
  simp [Except.bind, FileTree.walk, grown.folders l folder, plain, found]

theorem Extends.read_of_read {bytes : ByteArray} (h : Extends places t t')
    (outside : ¬ places (t.place p)) (held : t.read p = .ok bytes) : t'.read p = .ok bytes := by
  obtain ⟨l, located, found⟩ := read_eq_ok_iff.1 held
  rw [← place_of_locate located] at outside
  exact read_eq_ok_iff.2 ⟨l, h.locate located, (h.kept l outside bytes).2 found⟩

/-- New folders do not change where the path leads: it leads somewhere, or never goes up. -/
def Settled (t : FileTree) (p : Path) : Prop :=
  (∃ l, t.locate p = .ok l) ∨ ['.', '.'] ∉ p.parts

theorem Extends.settled (h : Extends places t t') (settled : t.Settled p) : t'.Settled p := by
  rcases settled with ⟨l, known⟩ | plain
  · exact .inl ⟨l, h.locate known⟩
  · exact .inr plain

theorem Extends.read_iff (h : Extends places t t') (sound : t.Sound) (settled : t.Settled p)
    (outside : ¬ places (t.place p)) (bytes : ByteArray) :
    t'.read p = .ok bytes ↔ t.read p = .ok bytes := by
  refine ⟨fun held => ?_, h.read_of_read outside⟩
  obtain ⟨l, located, found⟩ := read_eq_ok_iff.1 held
  obtain rfl : l = t.place p := (place_of_locate located).trans (h.place_eq p)
  have here : t.entry? (t.place p) = some (.file bytes) := (h.kept _ outside bytes).1 found
  rcases settled with ⟨l, known⟩ | plain
  · obtain rfl := place_of_locate known
    exact read_eq_ok_iff.2 ⟨_, known, here⟩
  · rw [place, follow_of_plain plain] at here
    exact read_eq_ok_iff.2 ⟨_, sound.walk_of_found plain here, here⟩

/-- The text of a source, if it can be read. -/
def text? (t : FileTree) (p : Path) : Option Text := (readSource t p).toOption

theorem text?_eq_some_iff {text : Text} :
    t.text? p = some text ↔ ∃ bytes, t.read p = .ok bytes ∧ decode? bytes = some text := by
  rw [text?, readSource]
  cases held : t.read p with
  | error cause => simp [Except.toOption]
  | ok bytes => cases decoded : decode? bytes <;> simp [Except.toOption, decoded]

/-- **Sources elsewhere keep their text**, and those without one still have none. -/
theorem Extends.text?_eq (h : Extends places t t') (sound : t.Sound) (settled : t.Settled p)
    (outside : ¬ places (t.place p)) : t'.text? p = t.text? p := by
  refine Option.ext fun text => ?_
  rw [text?_eq_some_iff, text?_eq_some_iff]
  simp only [h.read_iff sound settled outside]

end

end Ambient.FileTree
