import Ambient.Proofs.DefaultExport
import Ambient.Proofs.Documentation
import Ambient.Proofs.Remark

/-!
When the comment of a record is a comment. Lines join the comment block by their first characters
alone, so a block may lack its opening mark, and it may go on behind its closing mark. It reads as
blanks and comments exactly when it has the opening mark and nothing else follows the closing one.
-/

namespace Ambient

open Lexer

/-- The records of a surface: the declarations, and the default export if there is one. -/
def Surface.records (s : Surface) : List Declaration := s.declarations ++ s.default.toList

namespace Scan

/-- A default export takes no comment. -/
theorem mem_declarations_of_comment {o : Options} {source : Text} {d : Declaration} {c : Text}
    (h : d ∈ (scan o source).value.records) (has : d.comment = some c) :
    d ∈ (scan o source).value.declarations := by
  refine (List.mem_append.1 h).resolve_right fun default => ?_
  have found := Option.mem_toList.1 default
  rw [default_scan] at found
  obtain ⟨l, -, rfl⟩ := Option.map_eq_some_iff.1 found
  cases has

/-- The lines counted for a declaration stand in source order, each with a mark of a comment. -/
theorem commentLines_sublist (o : Options) (source : Text) (n : Nat) :
    (commentLines o source n).Sublist (SourceLine.ofText source) :=
  (List.Sublist.map _ List.filter_sublist).trans (commented_sublist o _ _)

theorem starts_of_mem_commented {o : Options} {s : State} {ls : List SourceLine}
    {p : Nat × SourceLine} (h : p ∈ commented o s ls) :
    p.2.opensBlock = true ∨ startsWith ['*'] (trim p.2.text) = true := by
  induction ls generalizing s with
  | nil => cases h
  | cons l ls ih =>
    rcases List.mem_append.1 h with here | later
    · split at here
      · next joins =>
        obtain rfl := List.mem_singleton.1 here
        exact starts_of_joinsComment joins
      · cases here
    · exact ih later

/-- Only the first line of the last block can open one. -/
theorem not_opensBlock_of_lastBlock {ls more : List SourceLine} {first : SourceLine}
    (h : lastBlock ls = first :: more) : ∀ l ∈ more, l.opensBlock = false := by
  induction ls with
  | nil => cases h
  | cons m ls ih =>
    rw [lastBlock] at h
    split at h
    · exact ih h
    · next none =>
      obtain ⟨-, rfl⟩ := List.cons.inj h
      simpa using none

theorem exists_trimLeft_joinLines {first : SourceLine} (h : trim first.text ≠ [])
    (more : List SourceLine) :
    ∃ r, trimLeft (joinLines ((first :: more).map fun l => trimRight l.text)) =
      trim first.text ++ r := by
  cases more with
  | nil =>
    refine ⟨[], ?_⟩
    rw [← trimLeft_trimRight_append h]
    simp
  | cons l more =>
    refine ⟨'\n' :: joinLines ((l :: more).map fun l => trimRight l.text), ?_⟩
    rw [joinLines, List.map_cons, List.map_cons, joinPieces_cons_cons]
    exact trimLeft_trimRight_append h _

theorem ne_nil_of_starts {l : SourceLine}
    (h : l.opensBlock = true ∨ startsWith ['*'] (trim l.text) = true) : trim l.text ≠ [] := by
  intro empty
  rcases h with slash | star
  · rw [SourceLine.opensBlock, empty] at slash
    cases slash
  · rw [empty] at star
    cases star

section
variable {o : Options} {source : Text} {d : Declaration} {c : Text}

/-- A comment is made of source lines that start with a mark of a comment. -/
theorem exists_lines_of_comment (member : d ∈ (scan o source).value.declarations)
    (has : d.comment = some c) :
    ∃ first more, (first :: more).Sublist (SourceLine.ofText source) ∧
      c = joinLines ((first :: more).map fun l => trimRight l.text) ∧
      (first.opensBlock = true ∨ startsWith ['*'] (trim first.text) = true) ∧
      ∀ l ∈ more, startsWith ['*'] (trim l.text) = true := by
  obtain ⟨n, found⟩ := List.getElem?_of_mem member
  have comment := comment_eq_attached found
  rw [has] at comment
  have kept : attached (commentLines o source n) = some c := by
    cases keep : o.keepComments <;> simp_all
  have nonempty : commentLines o source n ≠ [] := by
    intro empty
    simp [attached, empty] at kept
  rw [attached, if_neg nonempty] at kept
  obtain ⟨first, more, block⟩ := List.exists_cons_of_ne_nil (lastBlock_ne_nil nonempty)
  have suffix : first :: more <:+ commentLines o source n := block ▸ lastBlock_suffix _
  have starts : ∀ l ∈ first :: more,
      l.opensBlock = true ∨ startsWith ['*'] (trim l.text) = true := by
    intro l inside
    exact starts_of_mem_commented (mem_linesFor.1 (suffix.subset inside))
  refine ⟨first, more, suffix.sublist.trans (commentLines_sublist o source n), ?_,
    starts first List.mem_cons_self, ?_⟩
  · rw [← blockText_eq fun l inside => ne_nil_of_starts (starts l inside), ← block]
    exact (Option.some.inj kept).symm
  · intro l inside
    have later := not_opensBlock_of_lastBlock block l inside
    exact (starts l (List.mem_cons_of_mem first inside)).resolve_left (by simp [later])

/-- **Comments are lines with comment marks, and comments where they are written as such.** The
comment of a record is made of source lines in order that start with a mark of a comment, of which
only the first can be the opening mark. It reads as blanks and comments alone exactly when it
has the opening mark and whatever follows its first closing mark does so too. -/
theorem comment_reads_as_comment_iff (member : d ∈ (scan o source).value.records)
    (has : d.comment = some c) :
    ∃ first more, (first :: more).Sublist (SourceLine.ofText source) ∧
      c = joinLines ((first :: more).map fun l => trimRight l.text) ∧
      (first.opensBlock = true ∨ startsWith ['*'] (trim first.text) = true) ∧
      (∀ l ∈ more, startsWith ['*'] (trim l.text) = true) ∧
      ((∀ tok ∈ tokens c, tok.kind.isGap = true) ↔
        startsWith "/*".toList (trimLeft c) = true ∧ ∀ body rest, ¬ ['*', '/'] <:+: body →
          trimLeft c = '/' :: '*' :: (body ++ '*' :: '/' :: rest) →
          ∀ tok ∈ tokens rest, tok.kind.isGap = true) := by
  obtain ⟨first, more, inSource, spelled, starts, stars⟩ :=
    exists_lines_of_comment (mem_declarations_of_comment member has) has
  refine ⟨first, more, inSource, spelled, starts, stars, ?_⟩
  obtain ⟨r, left⟩ := exists_trimLeft_joinLines (ne_nil_of_starts starts) more
  rw [← spelled] at left
  rw [tokens_gap_iff, ← Remark.dropWhile_iff, ← trimLeft]
  constructor
  · intro remark
    refine ⟨?_, fun body rest free closed => ?_⟩
    · rw [left] at remark ⊢
      rcases starts with slash | star
      · exact List.isPrefixOf_iff_prefix.2
          ((List.isPrefixOf_iff_prefix.1 slash).trans (List.prefix_append _ r))
      · obtain ⟨u, starred⟩ := List.isPrefixOf_iff_prefix.1 star
        rw [← starred] at remark
        cases remark with
        | blank blank => exact absurd blank (by decide)
    · rw [closed, Remark.block_iff free] at remark
      exact (tokens_gap_iff rest).2 remark
  · rintro ⟨opens, behind⟩
    obtain ⟨u, slashed⟩ := List.isPrefixOf_iff_prefix.1 opens
    rcases closed_or_open u with free | ⟨body, rest, rfl, free⟩
    · rw [← slashed]
      exact .openBlock free
    · rw [← slashed]
      exact (Remark.block_iff free).2 ((tokens_gap_iff rest).1 (behind body rest free slashed.symm))

end

/-- A closed block reads as a comment. -/
theorem closed_block_reads_as_comment :
    let o : Options := ⟨true, true, .plain "  ".toList⟩
    let c : Text := "/** Upper\n * bound. */".toList
    let d : Declaration := ⟨.constant, "export declare const a: number;".toList, some c, 3⟩
    d ∈ (scan o (c ++ "\nexport const a = 1".toList)).value.records ∧
      ∀ tok ∈ tokens c, tok.kind.isGap = true := by
  intro o c d
  have member : d ∈ (scan o (c ++ "\nexport const a = 1".toList)).value.records := by
    decide +kernel
  obtain ⟨first, more, -, -, -, -, reads⟩ := comment_reads_as_comment_iff member rfl
  refine ⟨member, reads.2 ⟨rfl, fun body rest free closed => ?_⟩⟩
  obtain ⟨-, spelled⟩ := List.cons.inj (List.cons.inj closed).2
  have left := blockTail_append_close free rest
  rw [← spelled] at left
  obtain rfl : [] = rest := (Prod.mk.inj left).2
  simp [tokens, lex, Lexeme.place]

/-- A line of code that starts with a star goes to the comment block. -/
theorem product_taken_as_comment :
    let o : Options := ⟨true, true, .plain "  ".toList⟩
    (scan o "const area = width\n  * height\nexport const c = 2".toList).value.records.map
        Declaration.comment = [some "  * height".toList] ∧
      ¬ ∀ tok ∈ tokens "  * height".toList, tok.kind.isGap = true := by
  decide +kernel

end Scan

end Ambient
