import Ambient.Proofs.Reading

/-!
Files in declaration form are their own declaration text. The file is read group by group, the
output shows what was read line for line, and tidying gives back the text of the file.
-/

namespace Ambient

namespace Canonical

open Atom Cleanup Scan

/-- A comment block or a declaration. -/
abbrev Block : Type := CommentText ⊕ Declaration

namespace Block

def lines : Block → List Text := Sum.elim CommentText.lines Declaration.lines

/-- What the output shows of a block before it is tidied. -/
def written : Block → Text := Sum.elim (joinLines ·.lines) Declaration.written

theorem lines_ne_nil (b : Block) : lines b ≠ [] := by
  cases b with
  | inl t => exact t.lines_ne_nil
  | inr d => cases d <;> simp [lines, Declaration.lines]

theorem feed_free (b : Block) : ∀ l ∈ lines b, '\n' ∉ l := by
  cases b with
  | inl t => exact fun l member found => (CommentText.line_free member).1 _ found (by simp)
  | inr d => exact d.feed_free_lines

theorem settles (b : Block) : Settles (written b) (joinLines (lines b)) := by
  cases b with
  | inl t => exact t.settles
  | inr d =>
    have settles := settles_written d
    rwa [← d.joinLines_lines] at settles

end Block

/-- A declaration after its comment block. -/
def blocks (x : Option CommentText × Declaration) : List Block :=
  x.1.toList.map .inl ++ [.inr x.2]

theorem reads_blocks (x : Option CommentText × Declaration) :
    Reads standard .empty ((blocks x).flatMap Block.lines) .empty
      (Shown.addDeclarations ((blocks x).map Block.written)) := by
  obtain ⟨comment, d⟩ := x
  have declared (c : CommentBlock) : Reads standard c d.lines .empty
      (Shown.addDeclarations (c.take?.toList ++ [d.written])) := reads_declaration rfl d.takes
  cases comment with
  | none =>
    have reads := declared .empty
    rw [← List.append_nil d.lines] at reads
    exact reads
  | some t =>
    have reads := (t.reads .empty).append (declared ⟨t.lines⟩)
    rw [t.take?_block, ← List.append_nil d.lines] at reads
    exact reads

/-! ### Files -/

namespace File

/-- The comment blocks and declarations of the file. -/
def body (f : File) : List Block := f.declarations.flatMap blocks

/-- The statements of the last group. -/
def closing (f : File) : List (List Atom) :=
  f.reexports.map Reexport.atoms ++ (f.default.map defaultExport).toList

/-- The last group is added to what is shown. -/
def close (f : File) (v : Shown) : Shown :=
  ⟨v.imports, v.declarations, v.reexports ++ f.reexports.map (spell ·.atoms),
    (f.default.map (spell <| defaultExport ·)).or v.default⟩

/-- The groups of the file, with what each adds to the output. -/
def parts (f : File) : List (List Text × (Shown → Shown)) :=
  [(f.imports.map (spell ·.atoms), Shown.addImports (f.imports.map (spell ·.atoms))),
    (f.body.flatMap Block.lines, Shown.addDeclarations (f.body.map Block.written)),
    (f.closing.map spell, f.close)]

theorem closing_spell (f : File) : f.closing.map spell =
    f.reexports.map (spell ·.atoms) ++ (f.default.map (spell <| defaultExport ·)).toList := by
  cases default : f.default <;> simp [closing, default]

theorem groups_eq (f : File) : f.groups = (f.parts.map Prod.fst).filter (· != []) := by
  have lines : (f.declarations.flatMap fun x => x.1.elim [] CommentText.lines ++ x.2.lines) =
      f.body.flatMap Block.lines := by
    rw [body, List.flatMap_assoc]
    congr 1
    funext x
    cases comment : x.1 <;> simp [blocks, Block.lines, comment]
  rw [groups, lines, ← closing_spell]
  rfl

/-! ### Reading a file -/

theorem reads_closing (f : File) :
    Reads standard .empty (f.closing.map spell) .empty f.close := by
  have reexports := reads_reexports .empty f.reexports
  cases default : f.default with
  | none =>
    have lines : f.closing.map spell = f.reexports.map (spell ·.atoms) := by
      simp [closing, default]
    have same : f.close = Shown.addReexports (f.reexports.map (spell ·.atoms)) := by
      funext v
      simp [close, default, Shown.addReexports]
    rw [lines, same]
    exact reexports
  | some name =>
    have lines : f.closing.map spell =
        f.reexports.map (spell ·.atoms) ++ [spell (defaultExport name)] := by
      simp [closing, default]
    have same : f.close = (fun v => ⟨v.imports, v.declarations, v.reexports,
        some (spell (defaultExport name))⟩) ∘
        Shown.addReexports (f.reexports.map (spell ·.atoms)) := by
      funext v
      simp [close, default, Shown.addReexports]
    rw [lines, same]
    exact reexports.append (reads_defaultExport .empty name)

theorem reads_body (f : File) : Reads standard .empty (f.body.flatMap Block.lines) .empty
    (Shown.addDeclarations (f.body.map Block.written)) := by
  have reads := Reads.flatMap Shown.adds_declarations f.declarations reads_blocks
  rw [body, List.flatMap_assoc, List.map_flatMap]
  exact reads

theorem reads_part (f : File) : ∀ g ∈ f.parts, Reads standard .empty g.1 .empty g.2 := by
  intro g member
  simp only [parts, List.mem_cons, List.not_mem_nil, or_false] at member
  rcases member with rfl | rfl | rfl
  · exact reads_imports .empty f.imports
  · exact f.reads_body
  · exact f.reads_closing

theorem body_eq_nil_iff (f : File) : f.body.flatMap Block.lines = [] ↔ f.body = [] := by
  rw [List.flatMap_eq_nil_iff, List.eq_nil_iff_forall_not_mem]
  exact forall₂_congr fun b _ => iff_false_intro (Block.lines_ne_nil b)

/-- A group without lines adds nothing. -/
theorem part_of_nil (f : File) : ∀ g ∈ f.parts, g.1 = [] → g.2 = id := by
  intro g member
  simp only [parts, List.mem_cons, List.not_mem_nil, or_false] at member
  rcases member with rfl | rfl | rfl
  · intro (empty : f.imports.map (spell ·.atoms) = [])
    show Shown.addImports (f.imports.map (spell ·.atoms)) = id
    rw [empty, Shown.adds_imports.nil]
  · intro empty
    show Shown.addDeclarations (f.body.map Block.written) = id
    rw [f.body_eq_nil_iff.1 empty, List.map_nil, Shown.adds_declarations.nil]
  · intro empty
    have nothing : f.reexports = [] ∧ f.default = none := by simpa [closing] using empty
    funext v
    simp [close, nothing]

theorem closing_whole (f : File) : ∀ as ∈ f.closing, Whole as ∧ Plain as := by
  intro as member
  rcases List.mem_append.1 member with member | member
  · obtain ⟨e, -, rfl⟩ := List.mem_map.1 member
    exact ⟨e.whole, e.plain⟩
  · obtain ⟨name, -, rfl⟩ := Option.map_eq_some_iff.1 (Option.mem_toList.1 member)
    exact ⟨whole_defaultExport name, plain_defaultExport name⟩

theorem feed_free (f : File) : ∀ g ∈ f.groups, ∀ l ∈ g, '\n' ∉ l := by
  intro g member l found
  rw [groups_eq] at member
  have member := (List.mem_filter.1 member).1
  simp only [parts, List.map_cons, List.map_nil, List.mem_cons, List.not_mem_nil, or_false] at member
  rcases member with rfl | rfl | rfl
  · obtain ⟨i, -, rfl⟩ := List.mem_map.1 found
    exact feed_free_spell fun a inside => (i.plain a inside).2
  · obtain ⟨b, -, inside⟩ := List.mem_flatMap.1 found
    exact Block.feed_free b l inside
  · obtain ⟨as, isClosing, rfl⟩ := List.mem_map.1 found
    exact feed_free_spell fun a inside => ((f.closing_whole as isClosing).2 a inside).2

theorem lines_text (f : File) (h : f.groups ≠ []) : lines f.text = [[]].intercalate f.groups := by
  have nonempty : ∀ g ∈ f.groups, g ≠ [] := by
    intro g member
    simpa using (List.mem_filter.1 member).2
  have joined : f.text = joinLines ([[]].intercalate f.groups) :=
    intercalate_joinPieces '\n' nonempty
  rw [joined]
  refine pieces_joinPieces ?_ fun l member => ?_
  · obtain ⟨g, gs, split⟩ := List.exists_cons_of_ne_nil h
    rw [split]
    exact intercalate_ne_nil _ (nonempty g (by simp [split])) gs
  · rcases mem_intercalate member with blank | ⟨g, isGroup, found⟩
    · rw [List.mem_singleton.1 blank]
      simp
    · exact f.feed_free g isGroup l found

/-- What the output shows of the file before it is tidied. -/
def shown (f : File) : Shown :=
  ⟨f.imports.map (spell ·.atoms), f.body.map Block.written, f.reexports.map (spell ·.atoms),
    f.default.map (spell <| defaultExport ·)⟩

theorem declarationText_value (f : File) :
    (declarationText standard f.text).value = clean (Surface.joinGroups f.shown.groups) := by
  have reads : Reads standard .empty (lines f.text) .empty
      (f.parts.foldr (fun g f => f ∘ g.2) id) := by
    have groups := Reads.groups f.reads_part f.part_of_nil
    rw [← groups_eq] at groups
    by_cases empty : f.groups = []
    · have blank : Reads standard .empty [[]] .empty id := reads_other rfl rfl
      have text : lines f.text = [[]] ++ [[]].intercalate f.groups := by
        rw [text, empty]
        rfl
      rw [text]
      exact blank.append groups
    · rwa [f.lines_text empty]
  obtain ⟨-, -, added⟩ := reads 0 .start (rests_of_none rfl) rfl
  have surface : (scan standard f.text).value =
      (stored standard (run standard .start (SourceLine.ofText f.text)).value).surface := by
    rw [scan_value, finish_stored]
  have same : Scan.shown (scan standard f.text).value = f.shown := by
    rw [surface]
    refine added.trans ?_
    show f.close (Shown.addDeclarations _ (Shown.addImports _ ⟨[], [], [], none⟩)) = f.shown
    simp [close, Shown.addDeclarations, Shown.addImports, shown]
  have value : (declarationText standard f.text).value =
      clean (Surface.joinGroups ((scan standard f.text).value.groups true)) := rfl
  rw [value, groups_shown, same]

/-! ### Tidying a file -/

theorem settles_body (f : File) (h : f.body ≠ []) :
    Settles (joinLines (f.body.map Block.written)) (joinLines (f.body.flatMap Block.lines)) := by
  rw [joinLines, joinLines, joinPieces_flatMap '\n' fun b _ => Block.lines_ne_nil b]
  exact settles_intercalate (.inl rfl) h fun b _ => Block.settles b

/-- The groups as they are written and as they stand in the file. -/
def pairs (f : File) : List (List Text × List Text) :=
  [(f.imports.map (spell ·.atoms), f.imports.map (spell ·.atoms)),
    (f.body.map Block.written, f.body.flatMap Block.lines), (f.closing.map spell, f.closing.map spell)]

/-- The groups that are not empty. -/
def kept (f : File) : List (List Text × List Text) := f.pairs.filter (·.1 != [])

theorem groups_kept (f : File) : f.shown.groups = f.kept.map Prod.fst ∧
    f.groups = f.kept.map Prod.snd := by
  constructor
  · have written : f.shown.groups = (f.pairs.map Prod.fst).filter (· != []) := by
      rw [Shown.groups, pairs, closing_spell]
      rfl
    rw [written, List.filter_map]
    rfl
  · have same : ∀ g ∈ f.pairs, (g.2 != []) = (g.1 != []) := by
      intro g member
      simp only [pairs, List.mem_cons, List.not_mem_nil, or_false] at member
      rcases member with rfl | rfl | rfl
      · rfl
      · have empty := f.body_eq_nil_iff
        rw [Bool.eq_iff_iff]
        simpa using not_congr empty
      · rfl
    have stand : f.groups = (f.pairs.map Prod.snd).filter (· != []) := f.groups_eq
    rw [stand, List.filter_map, kept, List.filter_congr fun g member => (same g member).symm]
    rfl

theorem settles_kept (f : File) : ∀ g ∈ f.kept, Settles (joinLines g.1) (joinLines g.2) := by
  intro g member
  obtain ⟨member, nonempty⟩ := List.mem_filter.1 member
  simp only [pairs, List.mem_cons, List.not_mem_nil, or_false] at member
  rcases member with rfl | rfl | rfl
  · exact settles_intercalate (.inl rfl) (by simpa using nonempty) fun i _ => i.whole.settles
  · exact f.settles_body (by simpa using nonempty)
  · exact settles_intercalate (.inl rfl) (by simpa using nonempty) fun as member =>
      (f.closing_whole as member).1.settles

/-- **The declaration text of a file in declaration form is the file.** -/
theorem round_trip (f : File) : (declarationText standard f.text).value = f.text := by
  obtain ⟨written, kept⟩ := f.groups_kept
  have output : Surface.joinGroups f.shown.groups =
      "\n\n".toList.intercalate (f.kept.map fun g => joinLines g.1) := by
    rw [Surface.joinGroups, written, List.map_map]
    rfl
  have text : f.text = "\n\n".toList.intercalate (f.kept.map fun g => joinLines g.2) := by
    rw [File.text, kept, List.map_map]
    rfl
  rw [declarationText_value, output, text]
  by_cases empty : f.kept = []
  · rw [empty]
    exact clean_nil
  · exact clean_of_settles (settles_intercalate (.inr rfl) empty f.settles_kept)

example :
    let name : Word := ⟨'N', [], rfl, by simp⟩
    let path : ModulePath := ⟨⟨'"', "./n".toList, .inl rfl, by decide⟩, by decide⟩
    let doc : CommentText := ⟨" A doc. */".toList, [], by decide, by simp; rfl⟩
    File.text ⟨[.default name path],
        [(some doc, .interface name (.named name (.array (.name name))) [])], [], some name⟩ =
      ("import N from \"./n\"\n\n/** A doc. */\nexport declare interface N \x7b\n  N: N[]\n\x7d\n\n" ++
        "export default N;").toList := by
  rfl

end File

end Canonical

end Ambient
