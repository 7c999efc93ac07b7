import Ambient.Proofs.Generation
import Ambient.Proofs.Mirroring
import Ambient.Proofs.Ordering

/-!
The selection of sources. What patterns select is known from the files alone: the sources ascend,
and are the files that some pattern matches, without those that carry the output suffix
(`discover_spec`). Outputs carry it, so a build neither reads what it writes
(`separable_of_discovered`) nor selects it when it is run again (`discovery_stable`).
-/

namespace Ambient

open FileTree Glob

theorem exists_mapM_ok {α β ε : Type} {f : α → Except ε β} {as : List α}
    (h : ∀ a ∈ as, ∃ b, f a = .ok b) : ∃ bs, as.mapM f = .ok bs := by
  induction as with
  | nil => exact ⟨[], rfl⟩
  | cons a as ih =>
    obtain ⟨b, first⟩ := h a List.mem_cons_self
    obtain ⟨bs, rest⟩ := ih fun a' member => h a' (List.mem_cons_of_mem a member)
    refine ⟨b :: bs, ?_⟩
    rw [List.mapM_cons, first, rest]
    rfl

variable {t t' : FileTree} {suffix : Text} {root : Path} {patterns : List Text}
  {accepts : Text → List Text → Prop} {found : List Path}

theorem Glob.Reaches.anchor_eq {names : List Text → Prop} {q : Path} (h : Reaches root names q) :
    q.anchor = root.anchor := by
  obtain ⟨names, rfl, -⟩ := h
  rfl

/-- **What is discovered**: the files that some pattern selects, in order, but none that carries the
output suffix. -/
theorem discover_spec (sound : t.Sound) (suffix : Text)
    (selects : ∀ pattern ∈ patterns, SelectsBy root pattern (accepts pattern)) :
    ∃ found, discover t suffix root patterns = .ok found ∧ found.Pairwise Path.Before ∧
      ∀ q, q ∈ found ↔ (∃ pattern ∈ patterns, Reaches root (accepts pattern) q) ∧
        t.isFile q = true ∧ endsWith suffix q.name = false := by
  have each (pattern : Text) (member : pattern ∈ patterns) : ∃ ps, glob t root pattern = .ok ps := by
    obtain ⟨ps, known, -⟩ := selects pattern member t sound
    exact ⟨ps, known⟩
  obtain ⟨pss, globbed⟩ := exists_mapM_ok each
  have mem := mem_iff_of_mapM_ok globbed
  have kept (q : Path) : q ∈ pss.flatten.filter (isSource t suffix) ↔
      (∃ pattern ∈ patterns, Reaches root (accepts pattern) q) ∧
        t.isFile q = true ∧ endsWith suffix q.name = false := by
    rw [List.mem_filter, List.mem_flatten, isSource, Bool.and_eq_true, Bool.not_eq_true']
    constructor
    · rintro ⟨⟨ps, among, member⟩, file, unmarked⟩
      obtain ⟨pattern, listed, known⟩ := (mem ps).1 among
      obtain ⟨ps', known', spec⟩ := selects pattern listed t sound
      obtain rfl : ps' = ps := Except.ok.inj (known'.symm.trans known)
      exact ⟨⟨pattern, listed, ((spec q).1 ⟨member, file⟩).1⟩, file, unmarked⟩
    · rintro ⟨⟨pattern, listed, reaches⟩, file, unmarked⟩
      obtain ⟨ps, known, spec⟩ := selects pattern listed t sound
      exact ⟨⟨ps, (mem ps).2 ⟨pattern, listed, known⟩, ((spec q).2 ⟨reaches, file⟩).1⟩, file,
        unmarked⟩
  have anchored (p : Path) (member : p ∈ pss.flatten.filter (isSource t suffix)) :
      p.anchor = root.anchor := by
    obtain ⟨⟨pattern, -, reaches⟩, -⟩ := (kept p).1 member
    exact reaches.anchor_eq
  refine ⟨_, by rw [discover, globbed]; rfl, ascending_sortPaths anchored, fun q => ?_⟩
  rw [mem_sortPaths]
  exact kept q

/-- What is selected in order is what is discovered. -/
theorem discover_of_ascending {pss : List (List Path)} {anchor : Text}
    (globbed : patterns.mapM (glob t root) = .ok pss)
    (kept : pss.flatten.filter (isSource t suffix) = found) (anchored : ∀ p ∈ found, p.anchor = anchor)
    (ascends : found.Pairwise Path.Before) : discover t suffix root patterns = .ok found := by
  rw [discover, globbed]
  change Except.ok (sortPaths (List.filter _ _)) = _
  rw [kept, sortPaths_of_ascending anchored ascends]

/-- Sources that are known to be discovered. -/
theorem mem_of_discover (sound : t.Sound)
    (selects : ∀ pattern ∈ patterns, SelectsBy root pattern (accepts pattern))
    (discovered : discover t suffix root patterns = .ok found) (q : Path) :
    q ∈ found ↔ (∃ pattern ∈ patterns, Reaches root (accepts pattern) q) ∧
      t.isFile q = true ∧ endsWith suffix q.name = false := by
  obtain ⟨found', known, -, mem⟩ := discover_spec sound suffix selects
  obtain rfl : found' = found := Except.ok.inj (known.symm.trans discovered)
  exact mem q

/-- The order of the patterns does not matter, nor how often each is there. -/
theorem discover_congr {others : List Text} (sound : t.Sound)
    (selects : ∀ pattern ∈ patterns, SelectsBy root pattern (accepts pattern))
    (same : ∀ pattern, pattern ∈ others ↔ pattern ∈ patterns) :
    discover t suffix root others = discover t suffix root patterns := by
  obtain ⟨found, known, ascends, mem⟩ := discover_spec sound suffix selects
  obtain ⟨found', known', ascends', mem'⟩ := discover_spec sound suffix
    fun pattern listed => selects pattern ((same pattern).1 listed)
  have equal : found' = found := by
    refine Path.eq_of_ascending ascends' ascends fun q => ?_
    rw [mem', mem]
    simp only [same]
  rw [known, known', equal]

/-! ### Growing trees -/

/-- The entry at the location carries the output suffix. -/
def Marked (suffix : Text) (l : Location) : Prop :=
  ∃ name, l.getLast? = some name ∧ endsWith suffix name = true

theorem isFile_extend_iff (sound : t.Sound) (grown : Extends (Marked suffix) t t') {l : Location}
    (located : t.locate root = .ok l) (folder : t.entry? l = some .folder) {names : List Text}
    (straight : ['.', '.'] ∉ names) (unmarked : endsWith suffix (root.extend names).name = false) :
    t'.isFile (root.extend names) = true ↔ t.isFile (root.extend names) = true := by
  rw [isFile_extend sound located straight,
    isFile_extend (grown.sound sound) (grown.locate located) straight]
  cases last : names.getLast? with
  | none =>
    obtain rfl := List.getLast?_eq_none_iff.1 last
    rw [List.append_nil]
    exact iff_of_false (not_hasFile_of_folder (grown.folders l folder))
      (not_hasFile_of_folder folder)
  | some name =>
    obtain ⟨front, rfl⟩ := List.getLast?_eq_some_iff.1 last
    refine exists_congr fun bytes => grown.kept _ ?_ bytes
    rintro ⟨name', final, marked⟩
    rw [← List.append_assoc, List.getLast?_concat, Option.some.injEq] at final
    subst final
    simp [Path.name, Path.extend, marked] at unmarked

/-- **Files that carry the output suffix are never discovered**, wherever they are written. -/
theorem discover_extends (sound : t.Sound) (grown : Extends (Marked suffix) t t')
    (folder : t.isFolder root = true)
    (selects : ∀ pattern ∈ patterns, SelectsBy root pattern (accepts pattern)) :
    discover t' suffix root patterns = discover t suffix root patterns := by
  obtain ⟨l, located, folder⟩ := isFolder_iff.1 folder
  obtain ⟨found, known, ascends, mem⟩ := discover_spec sound suffix selects
  obtain ⟨found', known', ascends', mem'⟩ := discover_spec (grown.sound sound) suffix selects
  have equal : found' = found := by
    refine Path.eq_of_ascending ascends' ascends fun q => ?_
    rw [mem', mem]
    refine and_congr_right fun reached => and_congr_left fun unmarked => ?_
    obtain ⟨pattern, listed, names, rfl, straight, -⟩ := reached
    exact isFile_extend_iff sound grown located folder straight unmarked
  rw [known, known', equal]

/-! ### Sources and their targets -/

/-- A source that is a file below the root, by the names that lead there. -/
structure SourceAt (t : FileTree) (suffix : Text) (root source : Path) (folders : List Text)
    (name : Text) : Prop where
  path : source = root.extend (folders ++ [name])
  parts : ∀ part ∈ folders ++ [name], IsPart part
  plain : name ≠ ['.', '.']
  unmarked : endsWith suffix name = false
  located : ∃ l, t.locate source = .ok l

section
variable {source : Path} {folders : List Text} {name : Text}
  (h : SourceAt t suffix root source folders name)
include h

/-- Every name ends in the empty suffix. -/
theorem SourceAt.suffix_ne_nil : suffix ≠ [] := by
  rintro rfl
  have marked := h.unmarked
  simp [endsWith] at marked

/-- The source is at the end of its name, whatever leads there. -/
theorem SourceAt.place_eq : ∃ above, t.place source = above ++ [name] := by
  refine ⟨follow (t.origin source) (root.parts ++ folders), ?_⟩
  have parts : source.parts = root.parts ++ folders ++ [name] := by
    rw [h.path, Path.extend, List.append_assoc]
  rw [FileTree.place, parts, follow_append, follow_of_plain (by simpa using Ne.symm h.plain)]

end

theorem exists_glob_of_discovered (discovered : discover t suffix root patterns = .ok found) {q : Path}
    (member : q ∈ found) : ∃ pattern ∈ patterns, ∃ ps, glob t root pattern = .ok ps ∧ q ∈ ps ∧
      isSource t suffix q = true := by
  rw [discover] at discovered
  cases globbed : patterns.mapM (glob t root) with
  | error e =>
    rw [globbed] at discovered
    cases discovered
  | ok pss =>
    rw [globbed] at discovered
    obtain rfl := Except.ok.inj discovered
    obtain ⟨among, source⟩ := List.mem_filter.1 (mem_sortPaths.1 member)
    obtain ⟨ps, listed, inside⟩ := List.mem_flatten.1 among
    obtain ⟨pattern, inPatterns, known⟩ := (mem_iff_of_mapM_ok globbed _).1 listed
    exact ⟨pattern, inPatterns, ps, known, inside, source⟩

/-- **What is discovered is a file below the root**, whatever the patterns are. -/
theorem exists_sourceAt (sound : t.Sound) (named : t.Named)
    (discovered : discover t suffix root patterns = .ok found) {source : Path}
    (member : source ∈ found) : t.isFolder root = true ∧
      ∃ folders name, SourceAt t suffix root source folders name := by
  obtain ⟨pattern, -, ps, known, inside, isSource⟩ := exists_glob_of_discovered discovered member
  obtain ⟨folder, names, rfl, valid⟩ := exists_extend_of_glob named known inside
  rw [Ambient.isSource, Bool.and_eq_true, Bool.not_eq_true'] at isSource
  obtain ⟨file, unmarked⟩ := isSource
  refine ⟨folder, ?_⟩
  cases last : names.getLast? with
  | none =>
    obtain rfl := List.getLast?_eq_none_iff.1 last
    rw [Path.extend_nil] at file
    exact absurd folder (not_isFolder_of_isFile file)
  | some name =>
    obtain ⟨folders, rfl⟩ := List.getLast?_eq_some_iff.1 last
    refine ⟨folders, name, rfl, valid, ?_, ?_, ?_⟩
    · rintro rfl
      have up : (root.extend (folders ++ [['.', '.']])).parts =
          root.parts ++ folders ++ [['.', '.']] := by simp [Path.extend]
      exact not_isFile_of_up sound up file
    · simpa [Path.name, Path.extend] using unmarked
    · obtain ⟨l, bytes, located, -⟩ := isFile_iff.1 file
      exact ⟨l, located⟩

/-- Where patterns select by names, no folder on the way to a source goes up. -/
theorem SourceAt.straight (sound : t.Sound)
    (selects : ∀ pattern ∈ patterns, SelectsBy root pattern (accepts pattern))
    (discovered : discover t suffix root patterns = .ok found) {source : Path}
    (member : source ∈ found) {folders : List Text} {name : Text}
    (h : SourceAt t suffix root source folders name) : ['.', '.'] ∉ folders := by
  obtain ⟨⟨pattern, -, names, same, straight, -⟩, -⟩ :=
    (mem_of_discover sound selects discovered source).1 member
  have parts := congrArg Path.parts (h.path.symm.trans same)
  obtain rfl : folders ++ [name] = names := List.append_cancel_left parts
  exact fun up => straight (List.mem_append_left _ up)

namespace Build

variable {settings : Settings} {s : State} {source target : Path} {folders : List Text} {name : Text}

section
variable (slashless : '/' ∉ settings.outputSuffix)
  (h : SourceAt t settings.outputSuffix s.inputFolder source folders name)
include slashless h

/-- A source has a target, and the target carries the output suffix. -/
theorem targetOf_sourceAt : targetOf settings s source =
    .ok (s.targetFolder.extend (folders ++ [Path.stemOf name ++ settings.outputSuffix])) := by
  rw [h.path]
  exact targetOf_extend settings s h.parts h.suffix_ne_nil slashless

theorem marked_target (known : targetOf settings s source = .ok target) :
    endsWith settings.outputSuffix target.name = true := by
  rw [targetOf_sourceAt slashless h] at known
  obtain rfl := Except.ok.inj known
  simp [Path.name, Path.extend, endsWith, List.isSuffixOf_iff_suffix]

/-- A target is no source, whatever the files are. -/
theorem isSource_target (known : targetOf settings s source = .ok target) (t' : FileTree) :
    isSource t' settings.outputSuffix target = false := by
  rw [isSource, marked_target slashless h known]
  simp

/-- What is written for a source carries the output suffix. -/
theorem marked_of_lands (known : targetOf settings s source = .ok target) {l : Location}
    (lands : t'.Lands target l) : Marked settings.outputSuffix l := by
  have marked := marked_target slashless h known
  rw [targetOf_sourceAt slashless h] at known
  obtain rfl := Except.ok.inj known
  refine ⟨_, lands.getLast?.trans ?_, marked⟩
  simp [Path.name, Path.extend]

/-- The target is known from the place that it leads to. -/
theorem target_of_lands (plain : ['.', '.'] ∉ folders)
    (known : targetOf settings s source = .ok target) {l : Location} (lands : t'.Lands target l) :
    target = s.targetFolder.extend (l.drop (t'.place s.targetFolder).length) := by
  rw [targetOf_sourceAt slashless h] at known
  obtain rfl := Except.ok.inj known
  obtain ⟨above, last, split, -, rfl⟩ := lands
  have parts : s.targetFolder.parts ++ folders ++ [Path.stemOf name ++ settings.outputSuffix] =
      above ++ [last] := by
    rw [← split, List.append_assoc]
    rfl
  obtain ⟨rfl, same⟩ := List.append_inj' parts rfl
  obtain rfl := (List.cons.inj same).1
  have origin (names : List Text) :
      t'.origin (s.targetFolder.extend names) = t'.origin s.targetFolder := rfl
  rw [origin, follow_append, ← FileTree.place, follow_of_plain plain, List.append_assoc,
    List.drop_left]

variable {source' target' : Path} {folders' : List Text} {name' : Text}
  (h' : SourceAt t settings.outputSuffix s.inputFolder source' folders' name')
include h'

/-- Outputs that go to one place go to one path. -/
theorem target_unique (plain : ['.', '.'] ∉ folders) (plain' : ['.', '.'] ∉ folders')
    (known : targetOf settings s source = .ok target)
    (known' : targetOf settings s source' = .ok target') {l : Location}
    (lands : t'.Lands target l) (lands' : t'.Lands target' l) : target = target' := by
  rw [target_of_lands slashless h plain known lands,
    target_of_lands slashless h' plain' known' lands']

theorem targetOf_eq_iff_of_sourceAt : targetOf settings s source = targetOf settings s source' ↔
    source.parent = source'.parent ∧ source.stem = source'.stem :=
  targetOf_eq_iff h.suffix_ne_nil slashless h.path h'.path h.parts h'.parts

end

section
variable (sound : t.Sound) (named : t.Named) (slashless : '/' ∉ settings.outputSuffix)
  (discovered : discover t settings.outputSuffix s.inputFolder patterns = .ok found)
include sound named slashless discovered

theorem exists_target : ∀ source ∈ found, ∃ target, targetOf settings s source = .ok target := by
  intro source member
  obtain ⟨-, folders, name, here⟩ := exists_sourceAt sound named discovered member
  exact ⟨_, targetOf_sourceAt slashless here⟩

/-- **No output goes to the place of a source.** -/
theorem separable_of_discovered : Separable settings s t found := by
  refine ⟨fun source member => ?_, ?_⟩
  · obtain ⟨-, folders, name, known⟩ := exists_sourceAt sound named discovered member
    exact .inl known.located
  · refine List.Pairwise.imp_of_mem (R := fun _ _ => True) (fun {a b} first second _ => ?_)
      (List.pairwise_of_forall fun _ _ => trivial)
    intro o output lands
    obtain ⟨-, folders, name, source⟩ := exists_sourceAt sound named discovered first
    obtain ⟨-, folders', name', later⟩ := exists_sourceAt sound named discovered second
    obtain ⟨text, target, -, known, rfl⟩ := output?_eq_some_iff.1 output
    obtain ⟨last, final, marked⟩ := marked_of_lands slashless source known lands
    obtain ⟨above, here⟩ := later.place_eq
    rw [here, List.getLast?_concat, Option.some.injEq] at final
    rw [← final, later.unmarked] at marked
    cases marked

variable (selects : ∀ pattern ∈ patterns, SelectsBy s.inputFolder pattern (accepts pattern))
include selects

/-- After outputs were written, the same sources are discovered. -/
theorem discover_storeAll {os : List (Path × ByteArray)}
    (outputs : ∀ o ∈ os, ∃ source ∈ found, targetOf settings s source = .ok o.1)
    (stored : t.storeAll os = .ok t') :
    discover t' settings.outputSuffix s.inputFolder patterns = .ok found := by
  cases os with
  | nil =>
    cases stored
    exact discovered
  | cons o rest =>
    obtain ⟨source, member, -⟩ := outputs o List.mem_cons_self
    obtain ⟨folder, -⟩ := exists_sourceAt sound named discovered member
    have grown : Extends (Marked settings.outputSuffix) t t' := by
      refine storeAll_extends stored fun o' inside l lands => ?_
      obtain ⟨source', member', known⟩ := outputs o' inside
      obtain ⟨-, folders, name, here⟩ := exists_sourceAt sound named discovered member'
      exact marked_of_lands slashless here known lands
    rw [discover_extends sound grown folder selects, discovered]

/-- After a whole run, the same sources are discovered. -/
theorem discover_generated {os : List (Path × ByteArray)} {ps : List Path}
    (taken : Generated settings s t found os ps t') :
    discover t' settings.outputSuffix s.inputFolder patterns = .ok found :=
  discover_storeAll sound named slashless discovered selects taken.exists_source taken.storeAll

/-- A target holds the declarations of its source, unless a later source has the same one. -/
theorem read_target {os : List (Path × ByteArray)} {ps : List Path}
    (taken : Generated settings s t found os ps t') {front back : List Path} {text : Text}
    (split : found = front ++ source :: back) (read : t.text? source = some text)
    (apart : ∀ later ∈ back, (t.text? later).isSome →
      ¬ (later.parent = source.parent ∧ later.stem = source.stem)) :
    ∃ target, targetOf settings s source = .ok target ∧ t'.read target =
      .ok (encode (fileText (declarationText (scanOptions settings s) text).value)) := by
  have located {source : Path} (member : source ∈ found) : ∃ folders name,
      SourceAt t settings.outputSuffix s.inputFolder source folders name ∧ ['.', '.'] ∉ folders := by
    obtain ⟨-, folders, name, here⟩ := exists_sourceAt sound named discovered member
    exact ⟨folders, name, here, here.straight sound selects discovered member⟩
  have stored := taken.storeAll
  rw [(taken.separable sound
    (separable_of_discovered sound named slashless discovered)).1] at stored
  have member : source ∈ found := by simp [split]
  obtain ⟨_, _, here, plain⟩ := located member
  have known := targetOf_sourceAt slashless here
  refine ⟨_, known, ?_⟩
  have output := output?_eq_some_iff.2 ⟨text, _, read, known, rfl⟩
  rw [split, outputs, List.filterMap_append, List.filterMap_cons_some output] at stored
  refine read_of_storeAll stored fun o' behind l lands lands' => ?_
  obtain ⟨later, inBack, output'⟩ := List.mem_filterMap.1 behind
  obtain ⟨text', target', read', known', rfl⟩ := output?_eq_some_iff.1 output'
  obtain ⟨_, _, there, plain'⟩ := located (split ▸ List.mem_append_right front (.tail source inBack))
  have same := target_unique slashless there here plain' plain known' known lands' lands
  refine apart later inBack (by rw [read']; rfl) ?_
  refine (targetOf_eq_iff_of_sourceAt slashless there here).1 ?_
  rw [known', known, same]

end

/-! ### Two sources of one stem -/

/-- A folder with two sources of one stem. -/
def twinTree : FileTree where
  entries := [(["in".toList], .folder),
    (["in".toList, "a.mts".toList], .file (encode "export const a = 1;".toList)),
    (["in".toList, "a.ts".toList], .file (encode "export const b = 2;".toList))]
  workFolder := []

/-- A build that writes beside its sources. -/
def twinState : State :=
  { State.start (.ofText "in".toList) (.ofText "in".toList) with
    targetFolder := .ofText "in".toList
    sources := [.ofText "in/a.mts".toList, .ofText "in/a.ts".toList] }

theorem sound_twinTree : twinTree.Sound where
  once := by decide
  held := by
    intro x member
    simp only [twinTree, List.mem_cons, List.not_mem_nil, or_false] at member
    rcases member with rfl | rfl | rfl <;> exact ⟨by simp, rfl⟩
  named := by decide

theorem named_twinTree : twinTree.Named := by
  unfold FileTree.Named
  decide

/-- One star: it selects what is right inside the root. -/
def star : Pattern := ⟨[.wild (Wildcard.parse ['*'])], false⟩

theorem star_selects (root : Path) : ∀ pattern ∈ [['*']], SelectsBy root pattern star.Accepts := by
  intro pattern listed
  obtain rfl := List.mem_singleton.1 listed
  exact selectsBy_of_plain rfl (by decide) root

theorem twins_discovered : discover twinTree Settings.default.outputSuffix twinState.inputFolder
    [['*']] = .ok twinState.sources := by
  have globbed : [['*']].mapM (glob twinTree twinState.inputFolder) = .ok [twinState.sources] := by
    decide +kernel
  have anchored : ∀ p ∈ twinState.sources, p.anchor = [] := by decide
  have ascends : twinState.sources.Pairwise Path.Before :=
    List.pairwise_pair.2 (by unfold Path.Before; decide)
  exact discover_of_ascending globbed (by decide) anchored ascends

theorem output_first : output? .default twinState twinTree (.ofText "in/a.mts".toList) =
    some (.ofText "in/a.d.ts".toList, encode "export declare const a: number;\n".toList) := by
  decide +kernel

theorem output_second : output? .default twinState twinTree (.ofText "in/a.ts".toList) =
    some (.ofText "in/a.d.ts".toList, encode "export declare const b: number;\n".toList) := by
  decide +kernel

/-- The two sources are written in turn, to one path. -/
theorem twins_generated : ∃ after, Generated .default twinState twinTree twinState.sources
    [(.ofText "in/a.d.ts".toList, encode "export declare const a: number;\n".toList),
      (.ofText "in/a.d.ts".toList, encode "export declare const b: number;\n".toList)] [] after ∧
      after.read (.ofText "in/a.d.ts".toList) =
        .ok (encode "export declare const b: number;\n".toList) := by
  have stores (bytes bytes' : ByteArray) : ∃ between after,
      twinTree.store (.ofText "in/a.d.ts".toList) bytes = .ok between ∧
        between.store (.ofText "in/a.d.ts".toList) bytes' = .ok after := ⟨_, _, rfl, rfl⟩
  obtain ⟨between, after, stored, stored'⟩ := stores
    (encode "export declare const a: number;\n".toList)
    (encode "export declare const b: number;\n".toList)
  have separable := separable_of_discovered sound_twinTree named_twinTree (by decide) twins_discovered
  have same := separable.text?_after sound_twinTree output_first stored _ (List.mem_singleton_self _)
  have second := (output?_congr same).trans output_second
  exact ⟨after, .written output_first stored (.written second stored' (.done after)),
    read_store stored'⟩

/-! ### Results -/

/-- **Discovery is canonical, and generating does not change it.** The sources ascend, and are the
files that some pattern selects, without those that carry the output suffix; the order of the
patterns does not matter, nor how often each is there. No output is a source, and after outputs were
written, also by a whole run, the same sources are found. -/
theorem discovery_stable (settings : Settings) (s : State) (t : FileTree) (patterns : List Text)
    (accepts : Text → List Text → Prop) (sound : t.Sound) (named : t.Named)
    (slashless : '/' ∉ settings.outputSuffix)
    (selects : ∀ pattern ∈ patterns, SelectsBy s.inputFolder pattern (accepts pattern)) :
    ∃ found, discover t settings.outputSuffix s.inputFolder patterns = .ok found ∧
      found.Pairwise Path.Before ∧
      (∀ q, q ∈ found ↔ (∃ pattern ∈ patterns, Reaches s.inputFolder (accepts pattern) q) ∧
        t.isFile q = true ∧ endsWith settings.outputSuffix q.name = false) ∧
      (∀ others, (∀ pattern, pattern ∈ others ↔ pattern ∈ patterns) →
        discover t settings.outputSuffix s.inputFolder others = .ok found) ∧
      (∀ source ∈ found, ∃ target, targetOf settings s source = .ok target ∧
        ∀ t', isSource t' settings.outputSuffix target = false) ∧
      (∀ os t', (∀ o ∈ os, ∃ source ∈ found, targetOf settings s source = .ok o.1) →
        t.storeAll os = .ok t' →
          discover t' settings.outputSuffix s.inputFolder patterns = .ok found) ∧
      (∀ session result next, session.tree = t →
        (generate settings { s with sources := found }).outcome session = (.ok result, next) →
          discover next.tree settings.outputSuffix s.inputFolder patterns = .ok found) := by
  obtain ⟨found, known, ascends, mem⟩ := discover_spec sound settings.outputSuffix selects
  refine ⟨found, known, ascends, mem, fun others same => ?_, fun source member => ?_,
    fun os t' outputs stored => ?_, fun session result next start ended => ?_⟩
  · rw [discover_congr sound selects same, known]
  · obtain ⟨-, folders, name, here⟩ := exists_sourceAt sound named known member
    have target := targetOf_sourceAt slashless here
    exact ⟨_, target, isSource_target slashless here target⟩
  · exact discover_storeAll sound named slashless known selects outputs stored
  · subst start
    let run : State := { s with sources := found }
    have targets : ∀ source ∈ run.sources, ∃ target, targetOf settings run source = .ok target :=
      exists_target sound named slashless known
    rcases generate_cases_of_targets targets session.tree with ⟨os, ps, after, taken⟩ | ⟨e, halts⟩
    · obtain ⟨last, ended', left⟩ := taken.generate session rfl
      obtain rfl : last = next := by
        rw [ended] at ended'
        exact (Prod.mk.inj ended').2.symm
      rw [left]
      exact discover_generated (s := run) sound named slashless known selects taken
    · have failed := halts session rfl
      rw [ended] at failed
      cases failed

theorem twins_found_again :
    discover twinTree Settings.default.outputSuffix twinState.inputFolder [['*']] =
        .ok twinState.sources ∧
      ∃ result next, (generate .default twinState).outcome ⟨twinTree, [], []⟩ = (.ok result, next) ∧
        discover next.tree Settings.default.outputSuffix twinState.inputFolder [['*']] =
          .ok twinState.sources := by
  obtain ⟨found, known, -, -, -, -, -, again⟩ := discovery_stable .default twinState twinTree [['*']]
    (fun _ => star.Accepts) sound_twinTree named_twinTree (by decide) (star_selects _)
  obtain rfl : found = twinState.sources := Except.ok.inj (known.symm.trans twins_discovered)
  obtain ⟨after, taken, -⟩ := twins_generated
  obtain ⟨next, ended, -⟩ := taken.generate ⟨twinTree, [], []⟩ rfl
  exact ⟨known, _, next, ended, again _ _ next rfl ended⟩

/-- **Sources share a target** exactly if they stand in one folder and have one stem, and then the
target holds the declarations of the last of them that can be read. -/
theorem shared_target_holds_last (settings : Settings) (s : State) (session : Session)
    (patterns : List Text) (accepts : Text → List Text → Prop) (sound : session.tree.Sound)
    (named : session.tree.Named) (slashless : '/' ∉ settings.outputSuffix)
    (selects : ∀ pattern ∈ patterns, SelectsBy s.inputFolder pattern (accepts pattern))
    (discovered :
      discover session.tree settings.outputSuffix s.inputFolder patterns = .ok s.sources)
    (unhindered : ∀ e, ((generate settings s).outcome session).1 ≠ .error (.fault (.file e))) :
    (∀ p ∈ s.sources, ∀ q ∈ s.sources,
      targetOf settings s p = targetOf settings s q ↔ p.parent = q.parent ∧ p.stem = q.stem) ∧
    ∃ made next,
      (generate settings s).outcome session = (.ok { s with report := some made }, next) ∧
      made.written = (outputs settings s session.tree s.sources).map Prod.fst ∧
      ∀ front source back text, s.sources = front ++ source :: back →
        session.tree.text? source = some text →
        (∀ later ∈ back, (session.tree.text? later).isSome →
          ¬ (later.parent = source.parent ∧ later.stem = source.stem)) →
        ∃ target, targetOf settings s source = .ok target ∧ next.tree.read target =
          .ok (encode (fileText (declarationText (scanOptions settings s) text).value)) := by
  refine ⟨fun p first q second => ?_, ?_⟩
  · obtain ⟨-, _, _, here⟩ := exists_sourceAt sound named discovered first
    obtain ⟨-, _, _, there⟩ := exists_sourceAt sound named discovered second
    exact targetOf_eq_iff_of_sourceAt slashless here there
  · have targets := exists_target sound named slashless discovered
    rcases generate_cases_of_targets targets session.tree with ⟨os, ps, after, taken⟩ | ⟨e, halts⟩
    · obtain ⟨next, ended, rfl⟩ := taken.generate session rfl
      have separable := separable_of_discovered sound named slashless discovered
      refine ⟨_, next, ended, congrArg _ (taken.separable sound separable).1, ?_⟩
      intro front source back text split read apart
      exact read_target sound named slashless discovered selects taken split read apart
    · exact absurd (halts session rfl) (unhindered e)

theorem later_twin_kept :
    ∃ made next target, (generate .default twinState).outcome ⟨twinTree, [], []⟩ =
        (.ok { twinState with report := some made }, next) ∧
      targetOf .default twinState (.ofText "in/a.ts".toList) = .ok target ∧
      next.tree.read target = .ok (encode (fileText (declarationText
        (scanOptions .default twinState) "export const b = 2;".toList).value)) := by
  obtain ⟨after, taken, -⟩ := twins_generated
  have unhindered := Generated.unhindered ⟨twinTree, [], []⟩ taken
  obtain ⟨-, made, next, ended, -, reads⟩ := shared_target_holds_last .default twinState
    ⟨twinTree, [], []⟩ [['*']] (fun _ => star.Accepts) sound_twinTree named_twinTree (by decide)
    (star_selects _) twins_discovered unhindered
  have text : twinTree.text? (.ofText "in/a.ts".toList) = some "export const b = 2;".toList := by
    decide +kernel
  obtain ⟨target, known, held⟩ := reads [.ofText "in/a.mts".toList] _ [] _ rfl text (by simp)
  exact ⟨made, next, target, ended, known, held⟩

/-- The earlier of two sources with one target is lost. -/
theorem earlier_twin_lost :
    discover twinTree Settings.default.outputSuffix twinState.inputFolder [['*']] =
        .ok [.ofText "in/a.mts".toList, .ofText "in/a.ts".toList] ∧
      targetOf .default twinState (.ofText "in/a.mts".toList) = .ok (.ofText "in/a.d.ts".toList) ∧
      targetOf .default twinState (.ofText "in/a.ts".toList) = .ok (.ofText "in/a.d.ts".toList) ∧
      output? .default twinState twinTree (.ofText "in/a.mts".toList) =
        some (.ofText "in/a.d.ts".toList, encode "export declare const a: number;\n".toList) ∧
      ∃ next, (generate .default twinState).outcome ⟨twinTree, [], []⟩ =
          (.ok { twinState with
            report := some ⟨[.ofText "in/a.d.ts".toList, .ofText "in/a.d.ts".toList], []⟩ }, next) ∧
        next.tree.read (.ofText "in/a.d.ts".toList) ≠
          .ok (encode "export declare const a: number;\n".toList) := by
  obtain ⟨after, taken, held⟩ := twins_generated
  obtain ⟨next, ended, rfl⟩ := taken.generate ⟨twinTree, [], []⟩ rfl
  refine ⟨twins_discovered, rfl, rfl, output_first, next, ended, fun lost => ?_⟩
  rw [held] at lost
  exact absurd (Except.ok.inj lost) (by decide +kernel)

end Build

end Ambient
