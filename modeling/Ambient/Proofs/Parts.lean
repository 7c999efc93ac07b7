import Ambient.Proofs.Written

/-!
Where a text is cut. Only the marks of a text decide it: they are taken character by character, so a
text that is put together from written texts is cut along them, however the lexer groups their
characters.
-/

namespace Ambient

/-- A written text without marks: brackets and separators stand only in its literals and comments. -/
def Unmarked (t : Text) : Prop := Written t ∧ ∀ x ∈ marks t, x = none

theorem Unmarked.nil : Unmarked [] := Written.of_dull (by simp)

theorem Unmarked.append {t u : Text} (h : Unmarked t) (k : Unmarked u) : Unmarked (t ++ u) := by
  refine ⟨h.1.append k.1, fun x member => ?_⟩
  rw [h.1.marks_append k.1] at member
  exact (List.mem_append.1 member).elim (h.2 x) (k.2 x)

theorem Unmarked.of_segment {seg : Segment} (hidden : ∀ x ∈ seg.outline, x = none) :
    Unmarked seg.text := by
  obtain ⟨written, shown⟩ := Written.of_segment seg
  exact ⟨written, shown ▸ hidden⟩

namespace Nesting

/-- Cuts characters, each with the mark it shows, at the `mark`s of depth zero. -/
def cut (mark : Char) (depth : Int) (part : Text) : List (Option Char × Char) → List Text
  | [] => [part]
  | (x, c) :: cs =>
    if x = some mark ∧ depth = 0 then part :: cut mark depth [] cs
    else cut mark (depth + Outline.depth [x]) (part ++ [c]) cs

/-- The characters of a text with their marks. -/
def marked (t : Text) : List (Option Char × Char) := (marks t).zip t

variable {mark : Char} {depth : Int}

theorem cut_cons (mark : Char) (depth : Int) (part : Text) (x : Option Char) (c : Char)
    (cs : List (Option Char × Char)) :
    cut mark depth part ((x, c) :: cs) =
      if x = some mark ∧ depth = 0 then part :: cut mark depth [] cs
      else cut mark (depth + Outline.depth [x]) (part ++ [c]) cs := rfl

/-- Where nothing is cut, the characters go to the current part. -/
theorem cut_append (part : Text) {o : Outline} {t : Text} (length : o.length = t.length)
    (uncut : o.firstTop mark depth = none) (cs : List (Option Char × Char)) :
    cut mark depth part (o.zip t ++ cs) = cut mark (depth + o.depth) (part ++ t) cs := by
  induction t generalizing o depth part with
  | nil =>
    obtain rfl := List.length_eq_zero_iff.1 length
    simp
  | cons c t ih =>
    cases o with
    | nil => simp at length
    | cons x o =>
      rw [Outline.firstTop] at uncut
      split at uncut
      · cases uncut
      · next other =>
        have later := ih (part ++ [c]) (by simpa using length) (Option.map_eq_none_iff.1 uncut)
        have total : Outline.depth (x :: o) = Outline.depth [x] + Outline.depth o :=
          Outline.depth_append [x] o
        rw [List.zip_cons_cons, List.cons_append, cut_cons, if_neg other, later, total,
          List.append_assoc, Int.add_assoc]
        rfl

/-- Sharp lexemes are cut as their characters are. -/
theorem partsFrom_place (structural : isMark mark = true) (depth : Int) (part : Text)
    {ls : List Lexeme} (sharp : ∀ l ∈ ls, l.Sharp) (start : Nat) :
    partsFrom false [mark] depth part (Lexeme.place start ls) =
      cut mark depth part ((Lexeme.outlines ls).zip (Lexeme.spell ls)) := by
  induction ls generalizing depth part start with
  | nil => rfl
  | cons l ls ih =>
    have later := fun depth part => ih depth part (fun m member => sharp m (.tail l member))
      (start + l.text.length)
    have here := sharp l List.mem_cons_self
    have length := l.length_outline
    have pairs : (Lexeme.outlines (l :: ls)).zip (Lexeme.spell (l :: ls)) =
        l.outline.zip l.text ++ (Lexeme.outlines ls).zip (Lexeme.spell ls) := by
      rw [Lexeme.outlines_cons, Lexeme.spell_cons, List.zip_append length]
    have top := Lexeme.isTop_of_sharp here structural depth start
    rw [Lexeme.place, partsFrom, pairs]
    by_cases found : (Token.mk start l.kind l.text).isTop [mark] depth = true
    · -- The lexeme is the mark alone.
      have text : l.text = [mark] := by
        simp only [Token.isTop, Bool.and_eq_true, beq_iff_eq] at found
        exact found.2
      rw [if_pos found] at top
      obtain ⟨x, shown⟩ := List.length_eq_one_iff.1 (length.trans (congrArg List.length text))
      have cutHere : x = some mark ∧ depth = 0 := by
        rw [shown, Outline.firstTop] at top
        split at top
        · assumption
        · cases top
      rw [if_pos found, later, shown, text]
      simp [cut_cons, cutHere]
    · rw [if_neg found] at top ⊢
      rw [later, cut_append part length top.symm]
      congr 2
      rw [← (Lexeme.shift_of_sharp here start).1]
      rfl

/-- **The parts of a text are cut at its marks.** -/
theorem split_eq (structural : isMark mark = true) (t : Text) :
    split false [mark] t = ((cut mark 0 [] (marked t)).map trim).filter (· != []) := by
  rw [split, tokens, partsFrom_place structural 0 [] (lex_sharp .code none t), Lexer.spell_lex,
    marked, marks]

theorem marked_append {t u : Text} (h : Written t) (k : Written u) :
    marked (t ++ u) = marked t ++ marked u := by
  rw [marked, h.marks_append k, List.zip_append (length_marks t)]
  rfl

/-- A part is closed when its brackets are paired and the mark stands in it only inside brackets. -/
structure Uncut (mark : Char) (p : Text) : Prop where
  written : Written p
  paired : (marks p).depth = 0
  inside : (marks p).firstTop mark 0 = none

theorem Uncut.of_unmarked {p : Text} (h : Unmarked p) : Uncut mark p :=
  ⟨h.1, Outline.depth_of_unmarked h.2, Outline.firstTop_of_unmarked mark 0 h.2⟩

theorem cut_uncut {p : Text} (h : Uncut mark p) (part : Text) (cs : List (Option Char × Char)) :
    cut mark 0 part (marked p ++ cs) = cut mark 0 (part ++ p) cs := by
  rw [marked, cut_append part (length_marks p) h.inside, h.paired, Int.add_zero]

theorem written_joinPieces {mark : Char} (sep : mark ∈ Lexer.separators) {ps : List Text}
    (h : ∀ p ∈ ps, Written p) : Written (joinPieces mark ps) := by
  have bare : ∀ c ∈ Lexer.separators, isBare c = true := by decide
  induction ps with
  | nil => exact .nil
  | cons p ps ih =>
    have first := h p List.mem_cons_self
    by_cases last : ps = []
    · subst last
      simpa [joinPieces] using first
    · rw [joinPieces_cons_of_ne_nil mark p last]
      exact (first.append (.of_bare (by simpa using bare mark sep))).append
        (ih fun q member => h q (.tail p member))

/-- Parts that are joined with a separator are cut again. -/
theorem cut_joinPieces (sep : mark ∈ Lexer.separators) {p : Text} {ps : List Text}
    (h : ∀ q ∈ p :: ps, Uncut mark q) (part : Text) :
    cut mark 0 part (marked (joinPieces mark (p :: ps))) = (part ++ p) :: ps := by
  have known : ∀ c ∈ Lexer.separators, isBare c = true ∧ isMark c = true := by decide
  obtain ⟨bare, structural⟩ := known mark sep
  have one : Written [mark] := .of_bare (by simpa using bare)
  have shown : marked [mark] = [(some mark, mark)] := by
    rw [marked, Written.marks_of_bare (by simpa using bare)]
    simp [mark?, structural]
  induction ps generalizing p part with
  | nil =>
    have whole := cut_uncut (h p List.mem_cons_self) part []
    rw [List.append_nil] at whole
    simpa [joinPieces, cut] using whole
  | cons q ps ih =>
    have first := h p List.mem_cons_self
    have rest : ∀ r ∈ q :: ps, Uncut mark r := fun r member => h r (.tail p member)
    have written : Written (joinPieces mark (q :: ps)) :=
      written_joinPieces sep fun r member => (rest r member).written
    rw [joinPieces_cons_of_ne_nil mark p (List.cons_ne_nil q ps),
      marked_append (first.written.append one) written, marked_append first.written one,
      List.append_assoc, cut_uncut first, shown, List.singleton_append, cut_cons, if_pos ⟨rfl, rfl⟩,
      ih rest []]
    rfl

/-- **Parts that are joined with a separator are the parts again**, trimmed and without the empty
ones. -/
theorem split_joinPieces (sep : mark ∈ Lexer.separators) {ps : List Text}
    (h : ∀ p ∈ ps, Uncut mark p) :
    split false [mark] (joinPieces mark ps) = (ps.map trim).filter (· != []) := by
  have known : ∀ c ∈ Lexer.separators, isMark c = true := by decide
  cases ps with
  | nil => simp [split, tokens, Lexer.lex, Lexeme.place, partsFrom, joinPieces, trim, trimRight,
      trimRightBy, trimLeft]
  | cons p ps =>
    rw [split_eq (known mark sep), cut_joinPieces sep h []]
    rfl

end Nesting

end Ambient
