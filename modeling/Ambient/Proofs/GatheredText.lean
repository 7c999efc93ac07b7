import Ambient.Proofs.Levels
import Ambient.Proofs.Resting

/-!
The text of gathered lines. Its balance is that of its lines, its lines are those that were gathered,
without blanks at their ends, and it ends as its last line does. What such a text holds is told by the
parts that stand in it in order.
-/

namespace Ambient

/-! ### Texts in order -/

/-- The parts stand in a text, one behind the other. -/
def HoldsInOrder : List Text → Text → Prop
  | [], _ => True
  | p :: ps, t => ∃ front back, t = front ++ p ++ back ∧ HoldsInOrder ps back

namespace HoldsInOrder

variable {ps qs : List Text} {t : Text}

theorem behind (h : HoldsInOrder ps t) (front : Text) : HoldsInOrder ps (front ++ t) := by
  cases ps with
  | nil => trivial
  | cons p ps =>
    obtain ⟨front', back, rfl, rest⟩ := h
    exact ⟨front ++ front', back, by simp, rest⟩

theorem before (h : HoldsInOrder ps t) (back : Text) : HoldsInOrder ps (t ++ back) := by
  induction ps generalizing t with
  | nil => trivial
  | cons p ps ih =>
    obtain ⟨front, back', rfl, rest⟩ := h
    exact ⟨front, back' ++ back, by simp, ih rest⟩

theorem of_sublist (h : HoldsInOrder qs t) (some : List.Sublist ps qs) : HoldsInOrder ps t := by
  induction some generalizing t with
  | slnil => trivial
  | cons q _ ih =>
    obtain ⟨front, back, rfl, rest⟩ := h
    exact (ih rest).behind (front ++ q)
  | cons_cons q _ ih =>
    obtain ⟨front, back, whole, rest⟩ := h
    exact ⟨front, back, whole, ih rest⟩

/-- Empty parts stand everywhere. -/
theorem of_solid (h : HoldsInOrder (ps.filter (· != [])) t) : HoldsInOrder ps t := by
  induction ps generalizing t with
  | nil => trivial
  | cons p ps ih =>
    by_cases empty : p = []
    · rw [List.filter_cons_of_neg (by simpa using empty)] at h
      exact ⟨[], t, by rw [empty]; rfl, ih h⟩
    · rw [List.filter_cons_of_pos (by simpa using empty)] at h
      obtain ⟨front, back, whole, rest⟩ := h
      exact ⟨front, back, whole, ih rest⟩

theorem single (h : HoldsInOrder [p] t) : p <:+: t := by
  obtain ⟨front, back, whole, -⟩ := h
  exact ⟨front, back, whole.symm⟩

/-- Lines that hold a part each hold the parts in order. -/
theorem of_lines {α : Type} {part line : α → Text} {xs : List α}
    (h : ∀ x ∈ xs, part x <:+: line x) :
    HoldsInOrder (xs.map part) (joinLines (xs.map line)) := by
  induction xs with
  | nil => trivial
  | cons x xs ih =>
    obtain ⟨front, back, whole⟩ := h x List.mem_cons_self
    have later := ih fun y member => h y (List.mem_cons_of_mem x member)
    rw [List.map_cons, List.map_cons, ← whole]
    cases xs with
    | nil => exact ⟨front, back, joinLines_singleton _, trivial⟩
    | cons y ys =>
      refine ⟨front, back ++ (['\n'] ++ joinLines ((y :: ys).map line)), ?_, ?_⟩
      · rw [joinLines, List.map_cons, joinPieces_cons_cons, List.append_assoc]
        rfl
      · exact (later.behind ['\n']).behind back

end HoldsInOrder

/-! ### Gathered lines -/

/-- Lines that close their own brackets add nothing. -/
theorem sum_of_paired {ms : List Text} (h : ∀ m ∈ ms, bracketBalance m = 0) :
    (ms.map bracketBalance).sum = 0 := by
  induction ms with
  | nil => rfl
  | cons m ms ih =>
    rw [List.map_cons, List.sum_cons, h m List.mem_cons_self,
      ih fun n member => h n (List.mem_cons_of_mem m member), Int.zero_add]

/-- A text that holds all of `mark` behind a foreign character ends with `mark` where its rest does. -/
theorem isSuffix_append_iff {mark front : Text} (foreign : ∀ c ∈ front.getLast?, c ∉ mark) (t : Text) :
    mark <:+ front ++ t ↔ mark <:+ t := by
  refine ⟨fun ends => ?_, fun ends => ends.trans (List.suffix_append front t)⟩
  rcases List.suffix_or_suffix_of_suffix ends (List.suffix_append front t) with inside | ⟨w, split⟩
  · exact inside
  · subst split
    have behind : w <:+ front := (List.suffix_append_self_iff.1 ends)
    cases last : w.getLast? with
    | none =>
      rw [List.getLast?_eq_none_iff.1 last]
      exact List.suffix_refl t
    | some c =>
      have inFront : front.getLast? = some c := by
        obtain ⟨v, rfl⟩ := behind
        rw [List.getLast?_append, last]
        rfl
      exact absurd (List.mem_append_left t (List.mem_of_getLast? last)) (foreign c inFront)

namespace Scan

/-- The balance of gathered lines is counted line by line. -/
theorem braceBalance_gatheredText {ts : List Text} (h : ∀ t ∈ ts, Written (trim t)) :
    braceBalance (gatheredText ts) = ((ts.map trim).map braceBalance).sum := by
  have written : ∀ l ∈ ts.map trimRight, Written l := by
    intro l member
    obtain ⟨t, inside, rfl⟩ := List.mem_map.1 member
    exact .of_trimLeft (trimLeft_trimRight t ▸ h t inside)
  have same : braceBalance ∘ trimRight = braceBalance ∘ trim := by
    funext t
    simp only [Function.comp_apply, braceBalance_trimRight, braceBalance_trim]
  rw [gatheredText, braceBalance_trim, braceBalance_joinLines written, List.map_map, List.map_map, same]

theorem exists_last_of_trim {t : Text} (solid : trim t ≠ []) :
    ∃ c, (trimRight t).getLast? = some c ∧ isBlank c = false := by
  refine getLast?_trimRight fun none => solid ?_
  rw [← trimLeft_trimRight, none]
  rfl

/-- Trimming the gathered text touches the first line only. -/
theorem gatheredText_eq {first last : Text} (mid : List Text) (solid : trim first ≠ [])
    (solid' : trim last ≠ []) : gatheredText (first :: mid ++ [last]) =
      joinLines (trim first :: (mid ++ [last]).map trimRight) := by
  obtain ⟨c, ends, other⟩ := exists_last_of_trim solid'
  have split (t : Text) : joinLines (t :: (mid ++ [last]).map trimRight) =
      t ++ (['\n'] ++ joinLines ((mid ++ [last]).map trimRight)) := by
    rw [joinLines, joinPieces_cons_of_ne_nil '\n' t (by simp), List.append_assoc]
    rfl
  have ended (t : Text) : (joinLines (t :: (mid ++ [last]).map trimRight)).getLast? = some c := by
    rw [List.map_append, List.map_singleton, ← List.cons_append]
    exact getLast?_joinPieces _ ends
  rw [gatheredText, List.cons_append, List.map_cons, split, trim, trimLeft_trimRight_append solid, ← split]
  exact trimRight_of_getLast (ended _) other

theorem mem_of_mem_trimRight {t : Text} {c : Char} (h : c ∈ trimRight t) : c ∈ t := by
  obtain ⟨w, -, split⟩ := exists_trimRight_append t
  exact split ▸ List.mem_append_left w h

/-- The bracket balance of gathered lines is counted line by line. -/
theorem bracketBalance_gatheredText {ts : List Text} (h : ∀ t ∈ ts, Closed t) :
    bracketBalance (gatheredText ts) = (ts.map bracketBalance).sum := by
  have closed : ∀ l ∈ ts.map trimRight, Closed l := by
    intro l member
    obtain ⟨t, inside, rfl⟩ := List.mem_map.1 member
    exact closed_trimRight (h t inside)
  have same : bracketBalance ∘ trimRight = bracketBalance := funext bracketBalance_trimRight
  rw [gatheredText, bracketBalance_trim, (written_joinLines closed).2, List.map_map, same]

/-- The lines of the text are those gathered. -/
theorem lines_trim_gatheredText {first last : Text} {mid : List Text}
    (free : ∀ t ∈ first :: mid ++ [last], '\n' ∉ t) (solid : trim first ≠ [])
    (solid' : trim last ≠ []) :
    lines (trim (gatheredText (first :: mid ++ [last]))) =
      trim first :: (mid.map trimRight ++ [trimRight last]) := by
  have free' : ∀ t ∈ trim first :: (mid ++ [last]).map trimRight, '\n' ∉ t := by
    refine List.forall_mem_cons.2 ⟨fun member => free first (by simp) (mem_of_mem_trim member), ?_⟩
    intro l member
    obtain ⟨t, held, rfl⟩ := List.mem_map.1 member
    exact fun feed => free t (List.mem_cons_of_mem first held) (mem_of_mem_trimRight feed)
  have trimmed : trim (gatheredText (first :: mid ++ [last])) = gatheredText (first :: mid ++ [last]) :=
    trim_trim _
  rw [trimmed, gatheredText_eq mid solid solid', lines, joinLines,
    pieces_joinPieces (List.cons_ne_nil _ _) free', List.map_append, List.map_singleton]

theorem lines_gatheredText {first last : Text} {mid : List Text}
    (free : ∀ t ∈ first :: mid ++ [last], '\n' ∉ t) (solid : trim first ≠ [])
    (solid' : trim last ≠ []) :
    (lines (trim (gatheredText (first :: mid ++ [last])))).map trim =
      (first :: mid ++ [last]).map trim := by
  have same : trim ∘ trimRight = trim := funext trim_trimRight
  rw [lines_trim_gatheredText free solid solid', List.map_cons, trim_trim, List.map_append, List.map_map,
    same, List.map_singleton, trim_trimRight, List.cons_append, List.map_cons, List.map_append,
    List.map_singleton]

/-- The text ends with a mark where its last line does. -/
theorem endsWith_gatheredText {mark : Text} (solid : ∀ c ∈ mark, isBlank c = false) (ls : List Text)
    {last : Text} (solid' : trim last ≠ []) :
    endsWith mark (gatheredText (ls ++ [last])) = endsWith mark (trimRight last) := by
  have feed : '\n' ∉ mark := fun member => absurd (solid _ member) (by decide)
  have joined : ∃ front : Text, joinLines ((ls ++ [last]).map trimRight) = front ++ trimRight last ∧
      ∀ c ∈ front.getLast?, c ∉ mark := by
    rw [List.map_append, List.map_singleton]
    by_cases none : ls.map trimRight = []
    · exact ⟨[], by rw [none, List.nil_append, joinLines_singleton, List.nil_append], by simp⟩
    · refine ⟨_, joinPieces_concat '\n' none _, fun c ends => ?_⟩
      obtain rfl : '\n' = c := by simpa using ends
      exact feed
  obtain ⟨front, split, foreign⟩ := joined
  obtain ⟨c, ends, other⟩ := exists_last_of_trim solid'
  have ended : (front ++ trimRight last).getLast? = some c := by simp [ends]
  obtain ⟨w, blank, left⟩ := exists_trimLeft_append (front ++ trimRight last)
  have foreign' : ∀ c ∈ w.getLast?, c ∉ mark := by
    intro c ends inMark
    have space := solid c inMark
    rw [blank c (List.mem_of_getLast? ends)] at space
    cases space
  have whole : gatheredText (ls ++ [last]) = trimLeft (front ++ trimRight last) := by
    have ended' : (trimLeft (front ++ trimRight last)).getLast? = some c := by
      have solidEnd : trimLeft (front ++ trimRight last) ≠ [] := by
        intro none
        rw [none, List.append_nil] at left
        have space := blank c (List.mem_of_getLast? (left ▸ ended))
        rw [other] at space
        cases space
      rw [left, List.getLast?_append_of_ne_nil _ solidEnd] at ended
      exact ended
    rw [gatheredText, split, trim, trimRight_of_getLast ended' other]
  rw [endsWith, endsWith, Bool.eq_iff_iff, List.isSuffixOf_iff_suffix, List.isSuffixOf_iff_suffix, whole,
    ← isSuffix_append_iff foreign', ← left, isSuffix_append_iff foreign]

end Scan

end Ambient
