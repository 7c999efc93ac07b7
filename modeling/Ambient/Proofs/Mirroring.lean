import Ambient.Build
import Ambient.Proofs.Globbing
import Ambient.Proofs.Trim

/-!
The path that a source is mirrored to: the folders of the source below the input folder, in the
target folder, and the stem of its name with the output suffix. What a pattern selects goes on from
the input folder (`Glob.exists_extend_of_glob`), and so does every source that is mirrored
(`Path.relativeTo_eq_ok_iff`). Two sources are mirrored to one path exactly if they stand in one folder and
their stems agree (`targetOf_eq_iff`).
-/

namespace Ambient

/-- What may stand between two slashes of a path. -/
structure IsPart (part : Text) : Prop where
  nonempty : part ≠ []
  notDot : part ≠ ['.']
  slashless : '/' ∉ part

instance (part : Text) : Decidable (IsPart part) :=
  decidable_of_iff (part ≠ [] ∧ part ≠ ['.'] ∧ '/' ∉ part)
    ⟨fun ⟨nonempty, notDot, slashless⟩ => ⟨nonempty, notDot, slashless⟩,
      fun h => ⟨h.nonempty, h.notDot, h.slashless⟩⟩

/-- Every name in the tree may stand in a path. -/
def FileTree.Named (t : FileTree) : Prop := ∀ x ∈ t.entries, ∀ part ∈ x.1, IsPart part

namespace Path

/-- Parts are read back from their text. -/
theorem ofText_joinPieces {parts : List Text} (nonempty : parts ≠ [])
    (valid : ∀ part ∈ parts, IsPart part) : ofText (joinPieces '/' parts) = ⟨[], parts⟩ := by
  have cut : pieces '/' (joinPieces '/' parts) = parts :=
    pieces_joinPieces nonempty fun part member => (valid part member).slashless
  have kept : (parts.filter fun p => p != [] && p != ['.']) = parts := by
    refine List.filter_eq_self.2 fun part member => ?_
    simp [(valid part member).nonempty, (valid part member).notDot]
  have plain : (joinPieces '/' parts).takeWhile (· == '/') = [] := by
    obtain ⟨first, rest, rfl⟩ := List.exists_cons_of_ne_nil nonempty
    have part := valid first List.mem_cons_self
    obtain ⟨c, more, rfl⟩ := List.exists_cons_of_ne_nil part.nonempty
    have other : c ≠ '/' := fun slash => part.slashless (slash ▸ List.mem_cons_self)
    cases rest with
    | nil => simp [joinPieces, List.intercalate, other]
    | cons next rest => simp [joinPieces_cons_cons, other]
  rw [ofText, cut, kept, plain]
  rfl

theorem ofText_part {part : Text} (valid : IsPart part) : ofText part = ⟨[], [part]⟩ := by
  have read : ofText (joinPieces '/' [part]) = ⟨[], [part]⟩ :=
    ofText_joinPieces (by simp) (by simpa using valid)
  simpa [joinPieces, List.intercalate] using read

theorem withName_part {p : Path} {folders : List Text} {old name : Text}
    (split : p.parts = folders ++ [old]) (valid : IsPart name) :
    p.withName name = .ok { p with parts := folders ++ [name] } := by
  have open' : endsWith ['/'] name = false := by
    rw [endsWith, ← Bool.not_eq_true, List.isSuffixOf_iff_suffix]
    exact fun slash => valid.slashless (slash.subset List.mem_cons_self)
  simp [withName, split, ofText_part valid, open']

/-- What is read from a text may stand in a path. -/
theorem isPart_of_ofText {t part : Text} (h : part ∈ (ofText t).parts) : IsPart part := by
  obtain ⟨piece, kept⟩ := List.mem_filter.1 h
  simp only [Bool.and_eq_true, bne_iff_ne, ne_eq] at kept
  exact ⟨kept.1, kept.2, not_mem_of_mem_pieces piece⟩

/-- **A path is seen from a base** exactly if it goes on from there. -/
theorem relativeTo_eq_ok_iff {base p inner : Path} : p.relativeTo base = .ok inner ↔
    ∃ names, p = base.extend names ∧ inner = ⟨[], names⟩ := by
  rw [relativeTo, below]
  constructor
  · intro h
    split at h
    · next onward =>
      obtain ⟨anchor, names, parts⟩ := onward
      rw [← parts, List.drop_left] at h
      refine ⟨names, ?_, (Except.ok.inj h).symm⟩
      rw [extend, parts, ← anchor]
    · cases h
  · rintro ⟨names, rfl, rfl⟩
    rw [if_pos ⟨rfl, List.prefix_append _ _⟩, extend, List.drop_left]

/-! ### Stems -/

theorem exists_of_beforeLast? {c : Char} {t front : Text} (h : beforeLast? c t = some front) :
    ∃ back, t = front ++ c :: back := by
  induction t generalizing front with
  | nil => cases h
  | cons x r ih =>
    rw [beforeLast?] at h
    split at h
    · next inner found =>
      obtain ⟨back, rfl⟩ := ih found
      cases h
      exact ⟨back, rfl⟩
    · split at h
      · next here =>
        cases h
        exact ⟨r, by rw [here]; rfl⟩
      · cases h

/-- The stem is the name or its start, and never empty. -/
theorem stemOf_cases (name : Text) :
    stemOf name = name ∨ ∃ back, name = stemOf name ++ '.' :: back ∧ stemOf name ≠ [] := by
  rw [stemOf]
  split
  · exact .inl rfl
  · next front found =>
    split
    · exact .inl rfl
    · next inside =>
      simp only [not_or] at inside
      obtain ⟨back, split⟩ := exists_of_beforeLast? found
      exact .inr ⟨back, split, inside.1⟩

/-- A name with another suffix may stand in a path. -/
theorem isPart_renamed {name suffix : Text} (valid : IsPart name) (nonempty : suffix ≠ [])
    (slashless : '/' ∉ suffix) : IsPart (stemOf name ++ suffix) := by
  have stem : stemOf name ≠ [] ∧ '/' ∉ stemOf name := by
    rcases stemOf_cases name with whole | ⟨back, split, some⟩
    · rw [whole]
      exact ⟨valid.nonempty, valid.slashless⟩
    · refine ⟨some, fun slash => valid.slashless ?_⟩
      rw [split]
      exact List.mem_append_left _ slash
  refine ⟨by simp [nonempty], fun dot => ?_, by simp [stem.2, slashless]⟩
  have length := congrArg List.length dot
  have := List.length_pos_iff.2 stem.1
  have := List.length_pos_iff.2 nonempty
  simp only [List.length_append, List.length_singleton] at length
  omega

end Path

/-! ### What patterns select -/

namespace Glob

open FileTree Ambient.Path

variable {t : FileTree} {p q root : Path} {pattern : Pattern} {parts : List Part} {found : List Path}

theorem mem_iff_of_mapM_ok {α β ε : Type} {f : α → Except ε β} {as : List α} {bs : List β}
    (h : as.mapM f = .ok bs) (b : β) : b ∈ bs ↔ ∃ a ∈ as, f a = .ok b := by
  induction as generalizing bs with
  | nil =>
    obtain rfl : [] = bs := Except.ok.inj h
    simp
  | cons a as ih =>
    rw [List.mapM_cons] at h
    cases first : f a with
    | error e =>
      rw [first] at h
      cases h
    | ok b₀ =>
      cases rest : as.mapM f with
      | error e =>
        rw [first, rest] at h
        cases h
      | ok bs₀ =>
        rw [first, rest] at h
        obtain rfl : b₀ :: bs₀ = bs := Except.ok.inj h
        simp only [List.mem_cons, or_and_right, exists_or, exists_eq_left, ih rest, first,
          Except.ok.injEq, eq_comm (a := b)]

theorem eq_of_ofText_exact {t name : Text} (h : Part.ofText t = .ok (.exact name)) : t = name := by
  rw [Part.ofText] at h
  split at h
  · cases h
  · split at h
    · cases h
    · split at h <;> cases h
      rfl

/-- A part that stands for itself is read from the pattern. -/
theorem isPart_of_exact {text name : Text} (h : Pattern.ofText text = .ok pattern)
    (member : .exact name ∈ pattern.parts) : IsPart name := by
  have read := (read_of_ofText h).1
  simp only [Pattern.read] at read
  split at read
  · cases read
  · cases each : (Path.ofText text).parts.mapM Part.ofText with
    | error e =>
      rw [each] at read
      cases read
    | ok parts =>
      rw [each] at read
      obtain rfl := Except.ok.inj read
      obtain ⟨written, among, same⟩ := (mem_iff_of_mapM_ok each _).1 member
      exact eq_of_ofText_exact same ▸ isPart_of_ofText among

theorem isPart_of_children (named : t.Named) {name : Text} {e : Entry}
    (member : (name, e) ∈ t.children p) : IsPart name := by
  rw [children] at member
  split at member
  · cases member
  · simp only [List.mem_filterMap] at member
    obtain ⟨⟨l, e'⟩, entry, chosen⟩ := member
    split at chosen
    · obtain ⟨last, final, same⟩ := Option.map_eq_some_iff.1 chosen
      obtain rfl : last = name := (Prod.mk.inj same).1
      exact named _ entry last (List.mem_of_getLast? final)
    · cases chosen

theorem exists_extend_of_foldersFrom (named : t.Named) (member : q ∈ t.foldersFrom p) :
    ∃ names, q = p.extend names ∧ ∀ part ∈ names, IsPart part := by
  rw [foldersFrom] at member
  split at member
  · cases member
  · rcases List.mem_cons.1 member with rfl | inner
    · exact ⟨[], by simp, by simp⟩
    · simp only [List.mem_filterMap] at inner
      obtain ⟨⟨l, e⟩, entry, chosen⟩ := inner
      split at chosen
      · exact ⟨_, (Option.some.inj chosen).symm, fun part inside =>
          named _ entry part (List.mem_of_mem_drop inside)⟩
      · cases chosen

/-- Parts lead on from where they start. -/
theorem exists_extend_of_select (named : t.Named) {foldersOnly : Bool}
    (valid : ∀ name, .exact name ∈ parts → IsPart name) (member : q ∈ select t foldersOnly parts p) :
    ∃ names, q = p.extend names ∧ ∀ part ∈ names, IsPart part := by
  induction parts generalizing p with
  | nil =>
    obtain rfl : q = p := List.mem_singleton.1 member
    exact ⟨[], by simp, by simp⟩
  | cons part rest ih =>
    have onward {through : List Text} (sound : ∀ part ∈ through, IsPart part)
        (later : q ∈ select t foldersOnly rest (p.extend through)) :
        ∃ names, q = p.extend names ∧ ∀ part ∈ names, IsPart part := by
      obtain ⟨names, rfl, left⟩ := ih (fun name inRest => valid name (.tail part inRest)) later
      exact ⟨through ++ names, by simp, List.forall_mem_append.2 ⟨sound, left⟩⟩
    cases part with
    | descend =>
      obtain ⟨f, folder, later⟩ := List.mem_flatMap.1 member
      obtain ⟨through, rfl, sound⟩ := exists_extend_of_foldersFrom named folder
      exact onward sound later
    | exact name =>
      rw [select, List.mem_ite_nil_right] at member
      have sound : IsPart name := valid name List.mem_cons_self
      exact onward (List.forall_mem_singleton.2 sound) member.2
    | wild pieces =>
      simp only [select] at member
      obtain ⟨⟨name, e⟩, fits, later⟩ := List.mem_flatMap.1 member
      have sound : IsPart name := isPart_of_children named (List.mem_filter.1 fits).1
      exact onward (List.forall_mem_singleton.2 sound) later

/-- **What a pattern selects goes on from the root**, which is a folder then. -/
theorem exists_extend_of_glob (named : t.Named) {text : Text} (known : glob t root text = .ok found)
    (member : q ∈ found) :
    t.isFolder root = true ∧ ∃ names, q = root.extend names ∧ ∀ part ∈ names, IsPart part := by
  rw [glob] at known
  cases read : Pattern.ofText text with
  | error e =>
    rw [read] at known
    cases known
  | ok pattern =>
    rw [read] at known
    obtain rfl : pattern.paths t root = found := Except.ok.inj known
    rw [Pattern.paths] at member
    split at member
    · next folder =>
      exact ⟨folder, exists_extend_of_select named (fun _ => isPart_of_exact read) member⟩
    · cases member

end Glob

/-! ### Targets -/

namespace Build

open Ambient.Path

variable {settings : Settings} {s : State} {folders : List Text} {name : Text}

/-- **A source is mirrored**: its folders stay, and its name gets the output suffix. -/
theorem targetOf_extend (settings : Settings) (s : State)
    (valid : ∀ part ∈ folders ++ [name], IsPart part) (nonempty : settings.outputSuffix ≠ [])
    (slashless : '/' ∉ settings.outputSuffix) :
    targetOf settings s (s.inputFolder.extend (folders ++ [name])) =
      .ok (s.targetFolder.extend (folders ++ [stemOf name ++ settings.outputSuffix])) := by
  have inner : (s.inputFolder.extend (folders ++ [name])).relativeTo s.inputFolder =
      .ok ⟨[], folders ++ [name]⟩ := relativeTo_eq_ok_iff.2 ⟨_, rfl, rfl⟩
  have renamed : IsPart (stemOf name ++ settings.outputSuffix) :=
    isPart_renamed (valid name (by simp)) nonempty slashless
  have parts : ∀ part ∈ folders ++ [stemOf name ++ settings.outputSuffix], IsPart part := by
    intro part member
    rcases List.mem_append.1 member with above | last
    · exact valid part (List.mem_append_left _ above)
    · exact List.mem_singleton.1 last ▸ renamed
  have named : outputPath settings.outputSuffix ⟨[], folders ++ [name]⟩ =
      .ok ⟨[], folders ++ [stemOf name ++ settings.outputSuffix]⟩ := by
    have stem : Path.stem ⟨[], folders ++ [name]⟩ = stemOf name := by
      simp [Path.stem, Path.name]
    rw [outputPath, stem]
    exact withName_part rfl renamed
  have text : Path.toText ⟨[], folders ++ [stemOf name ++ settings.outputSuffix]⟩ =
      joinPieces '/' (folders ++ [stemOf name ++ settings.outputSuffix]) := by
    simp [Path.toText]
  rw [targetOf, inner]
  change (outputPath settings.outputSuffix _).bind _ = _
  rw [named]
  change Except.ok (s.targetFolder.join (ofText _)) = _
  rw [text, ofText_joinPieces (by simp) parts]
  simp [Path.join, Path.extend]

/-- **Two sources share a target** exactly if they share their folder and their stem. -/
theorem targetOf_eq_iff {p q : Path} {as bs : List Text} {a b : Text}
    (nonempty : settings.outputSuffix ≠ []) (slashless : '/' ∉ settings.outputSuffix)
    (hp : p = s.inputFolder.extend (as ++ [a])) (hq : q = s.inputFolder.extend (bs ++ [b]))
    (validP : ∀ part ∈ as ++ [a], IsPart part) (validQ : ∀ part ∈ bs ++ [b], IsPart part) :
    targetOf settings s p = targetOf settings s q ↔ p.parent = q.parent ∧ p.stem = q.stem := by
  have parent (names : List Text) (last : Text) :
      (s.inputFolder.extend (names ++ [last])).parent = s.inputFolder.extend names := by
    simp [Path.parent, Path.extend, ← List.append_assoc]
  have stem (names : List Text) (last : Text) :
      (s.inputFolder.extend (names ++ [last])).stem = stemOf last := by
    simp [Path.stem, Path.name, Path.extend]
  subst hp hq
  rw [targetOf_extend settings s validP nonempty slashless,
    targetOf_extend settings s validQ nonempty slashless, parent, parent, stem, stem]
  simp [Path.extend]

end Build

end Ambient
