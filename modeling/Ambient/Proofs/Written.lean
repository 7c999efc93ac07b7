import Ambient.Proofs.Surroundings
import Mathlib.Algebra.Ring.Int.Defs

/-!
Texts written in segments, and lines that end every literal and comment they start. Such texts can be
joined and cut at their separators: the balance of the whole is the sum of the balances of the parts.
-/

namespace Ambient

open Lexer

/-- The text is a sequence of segments. -/
def Written (t : Text) : Prop := ∃ segs, Segment.spell segs = t

/-- The line ends every literal and comment that starts on it; a line comment ends with the line. -/
def Closed (l : Text) : Prop := '\n' ∉ l ∧ Written (l ++ ['\n'])

theorem marks_spell (segs : List Segment) : marks (Segment.spell segs) = Segment.outlines segs :=
  (Segment.lex_spell segs none).2

namespace Written

theorem nil : Written [] := ⟨[], rfl⟩

theorem append {t u : Text} (h : Written t) (k : Written u) : Written (t ++ u) := by
  obtain ⟨segs, rfl⟩ := h
  obtain ⟨more, rfl⟩ := k
  exact ⟨segs ++ more, List.flatMap_append⟩

theorem of_bare {t : Text} (h : ∀ c ∈ t, isBare c = true) : Written t :=
  ⟨[.run t h], by simp [Segment.text]⟩

theorem of_bracket {c : Char} (h : c ∈ openers ++ closers) : Written [c] :=
  ⟨[.bracket c h], by simp [Segment.text]⟩

theorem marks_of_bare {t : Text} (h : ∀ c ∈ t, isBare c = true) : marks t = t.map mark? := by
  have spelled : Segment.spell [.run t h] = t := by simp [Segment.text]
  conv => lhs; rw [← spelled]
  rw [marks_spell, Segment.outlines_cons, Segment.outline]
  exact List.append_nil _

/-- A segment alone shows its own marks. -/
theorem of_segment (seg : Segment) : Written seg.text ∧ marks seg.text = seg.outline := by
  have spelled : Segment.spell [seg] = seg.text := by simp
  have shown : marks (Segment.spell [seg]) = seg.outline := by
    rw [marks_spell]
    simp [Segment.outlines]
  exact ⟨⟨[seg], spelled⟩, spelled ▸ shown⟩

theorem marks_of_bracket {c : Char} (h : c ∈ openers ++ closers) : marks [c] = [some c] :=
  (of_segment (.bracket c h)).2

/-- Dull text shows no mark. -/
theorem of_dull {t : Text} (h : ∀ c ∈ t, isDull c = true) : Written t ∧ ∀ x ∈ marks t, x = none := by
  have bare : ∀ c ∈ t, isBare c = true := fun c member => isBare_of_isDull (h c member)
  refine ⟨of_bare bare, ?_⟩
  rw [marks_of_bare bare]
  intro x member
  obtain ⟨c, char, rfl⟩ := List.mem_map.1 member
  simp [mark?, isMark_of_isDull (h c char)]

/-- The marks of joined texts stand side by side. -/
theorem marks_append {t u : Text} (h : Written t) (k : Written u) :
    marks (t ++ u) = marks t ++ marks u := by
  obtain ⟨segs, rfl⟩ := h
  obtain ⟨more, rfl⟩ := k
  have joined : Segment.spell segs ++ Segment.spell more = Segment.spell (segs ++ more) :=
    List.flatMap_append.symm
  rw [joined, marks_spell, marks_spell, marks_spell]
  exact List.flatMap_append

theorem bracketBalance_append {t u : Text} (h : Written t) (k : Written u) :
    bracketBalance (t ++ u) = bracketBalance t + bracketBalance u := by
  rw [bracketBalance_eq, h.marks_append k, Outline.depth_append, bracketBalance_eq,
    bracketBalance_eq]

theorem dropWhile {p : Char → Bool} (dull : ∀ c, p c = true → isDull c = true) {t : Text}
    (h : Written t) : Written (t.dropWhile p) := by
  obtain ⟨segs, rfl⟩ := h
  obtain ⟨rest, left, -⟩ := Segment.spell_of_takeWhile dull segs
  exact ⟨rest, left.symm⟩

theorem of_trimLeft {t : Text} (h : Written (trimLeft t)) : Written t := by
  have blanks : Written (t.takeWhile isBlank) := .of_bare fun c member =>
    isBare_of_isDull (isDull_of_isBlank (List.all_eq_true.1 List.all_takeWhile c member))
  have whole := blanks.append h
  rwa [trimLeft, List.takeWhile_append_dropWhile] at whole

end Written

theorem bracketBalance_of_free {t : Text} (h : ∀ c ∈ t, c ∉ openers ++ closers) :
    bracketBalance t = 0 := by
  rw [bracketBalance_eq, marks]
  refine Lexeme.depth_of_free ?_
  rwa [spell_lex]

theorem bracketBalance_of_bare {t : Text} (h : ∀ c ∈ t, isBare c = true) : bracketBalance t = 0 := by
  refine bracketBalance_of_free fun c member sign => ?_
  have bare := h c member
  simp only [isBare, List.contains_eq_mem, Bool.not_eq_true', decide_eq_false_iff_not,
    List.append_assoc, List.mem_append, not_or] at bare
  rcases List.mem_append.1 sign with opener | closer
  · exact bare.2.1 opener
  · exact bare.2.2 closer

theorem isBare_of_isNeutral {c : Char} (h : isNeutral c = true) : isBare c = true := by
  have signs : ∀ d ∈ literalSigns ++ openers ++ closers, isNeutral d = false := by decide
  simp only [isBare, List.contains_eq_mem, Bool.not_eq_true', decide_eq_false_iff_not]
  intro member
  exact ne_of_isNeutral h (signs c member) rfl

/-! ### The end of a text -/

/-- A segment that is neither a run nor a line comment ends with a character that is not neutral. -/
theorem Segment.end_cases (seg : Segment) : (∃ t bare, seg = .run t bare) ∨
    (∃ body inside, seg = .lineComment body inside) ∨
    ∃ c, seg.text.getLast? = some c ∧ isNeutral c = false := by
  cases seg with
  | run t bare => exact .inl ⟨t, bare, rfl⟩
  | lineComment body inside => exact .inr (.inl ⟨body, inside, rfl⟩)
  | bracket c sign =>
    have solid : ∀ d ∈ openers ++ closers, isNeutral d = false := by decide
    exact .inr (.inr ⟨c, rfl, solid c sign⟩)
  | quoted q body quote inside =>
    refine .inr (.inr ⟨q, by simp [Segment.text, List.getLast?_cons], ?_⟩)
    rcases quote with rfl | rfl <;> decide
  | template body inside =>
    exact .inr (.inr ⟨'`', by simp [Segment.text, List.getLast?_cons], by decide⟩)
  | blockComment body inside =>
    exact .inr (.inr ⟨'/', by simp [Segment.text, List.getLast?_cons], by decide⟩)
  | regex head gap literal sign blank inside =>
    obtain ⟨body, flags, rfl, -, -, -, letters⟩ := inside
    right
    right
    cases last : flags.getLast? with
    | none =>
      obtain rfl := List.getLast?_eq_none_iff.1 last
      exact ⟨'/', by simp [Segment.text, List.getLast?_cons, List.getLast?_append], by decide⟩
    | some c =>
      refine ⟨c, by simp [Segment.text, List.getLast?_cons, List.getLast?_append, last], ?_⟩
      cases neutral : isNeutral c with
      | false => rfl
      | true =>
        have letter := letters c (List.mem_of_getLast? last)
        simp [isAlpha_of_isNeutral neutral] at letter

/-- The end of a line comment may be exchanged. -/
theorem replace_comment_tail {w v z x last body rest : Text} {d : Char} (inside : '\n' ∉ body)
    (old : ∀ c ∈ w, isNeutral c = true ∧ c ≠ '\n') (fresh : ∀ c ∈ v, isNeutral c = true ∧ c ≠ '\n')
    (ends : z = [] ∨ z = ['\n']) (whole : '/' :: '/' :: (body ++ ['\n']) = x ++ d :: last)
    (tail : w ++ z = d :: last ++ rest) : Written (x ++ (v ++ z)) := by
  have feed : '\n' ∈ d :: last := by
    have ending : (x ++ d :: last).getLast? = some '\n' := by
      simp [← whole, List.getLast?_cons, List.getLast?_append]
    rw [List.getLast?_append_cons] at ending
    exact List.mem_of_getLast? ending
  have notInTail : '\n' ∉ w := fun member => (old _ member).2 rfl
  obtain ⟨rfl, ended⟩ : z = ['\n'] ∧ d :: last = w ++ ['\n'] := by
    rcases List.append_eq_append_iff.1 tail with ⟨more, longer, rest⟩ | ⟨more, rfl, -⟩
    · rcases ends with rfl | rfl
      · obtain ⟨rfl, -⟩ := List.append_eq_nil_iff.1 rest.symm
        exact absurd (by simpa [longer] using feed) notInTail
      · cases more with
        | nil => exact absurd (by simpa [longer] using feed) notInTail
        | cons e more =>
          obtain ⟨rfl, empty⟩ := List.cons.inj rest
          obtain ⟨rfl, -⟩ := List.append_eq_nil_iff.1 empty.symm
          exact ⟨rfl, longer⟩
    · exact absurd (List.mem_append_left _ feed) notInTail
  have front : ['/', '/'] ++ body = x ++ w := by
    rw [ended, ← List.append_assoc] at whole
    exact List.append_cancel_right
      (show ['/', '/'] ++ body ++ ['\n'] = x ++ w ++ ['\n'] from whole)
  obtain ⟨b, rfl, rfl⟩ : ∃ b, x = '/' :: '/' :: b ∧ body = b ++ w := by
    rcases List.append_eq_append_iff.1 front with ⟨b, rfl, rest⟩ | ⟨more, marks, rfl⟩
    · exact ⟨b, rfl, rest⟩
    · cases more with
      | nil =>
        rw [List.append_nil] at marks
        exact ⟨[], marks.symm, rfl⟩
      | cons e more =>
        have slash : e = '/' := by
          have member : e ∈ ['/', '/'] := marks ▸ List.mem_append_right x List.mem_cons_self
          simpa using member
        exact absurd (old e (by simp)).1 (by rw [slash]; decide)
  have clear : '\n' ∉ b ++ v := by
    intro member
    rcases List.mem_append.1 member with inBody | inFresh
    · exact inside (List.mem_append_left _ inBody)
    · exact (fresh _ inFresh).2 rfl
  exact ⟨[.lineComment (b ++ v) clear], by simp [Segment.text]⟩

/-- What stands at the end of a text may be exchanged: blanks, commas and semicolons, before a line
feed or before nothing. -/
theorem Written.replace_tail {w v z : Text} (old : ∀ c ∈ w, isNeutral c = true ∧ c ≠ '\n')
    (fresh : ∀ c ∈ v, isNeutral c = true ∧ c ≠ '\n') (ends : z = [] ∨ z = ['\n']) {x : Text}
    (h : Written (x ++ (w ++ z))) : Written (x ++ (v ++ z)) := by
  have tailBare {u : Text} (h : ∀ c ∈ u, isNeutral c = true ∧ c ≠ '\n') :
      ∀ c ∈ u ++ z, isBare c = true := by
    intro c member
    rcases List.mem_append.1 member with inside | last
    · exact isBare_of_isNeutral (h c inside).1
    · rcases ends with rfl | rfl
      · cases last
      · obtain rfl := List.mem_singleton.1 last
        decide
  obtain ⟨segs, spelled⟩ := h
  induction segs generalizing x with
  | nil =>
    obtain ⟨rfl, -⟩ := List.append_eq_nil_iff.1 spelled.symm
    exact .of_bare (tailBare fresh)
  | cons seg segs ih =>
    rw [Segment.spell_cons] at spelled
    have one : Written seg.text := ⟨[seg], by simp⟩
    rcases List.append_eq_append_iff.1 spelled with ⟨more, rfl, rest⟩ | ⟨last, whole, rest⟩
    · rw [List.append_assoc]
      exact one.append (ih rest)
    · cases last with
      | nil =>
        rw [List.append_nil] at whole
        exact (whole ▸ one).append (.of_bare (tailBare fresh))
      | cons d last =>
        have inTail : ∀ c ∈ d :: last, isNeutral c = true := by
          intro c member
          have there : c ∈ w ++ z := rest ▸ List.mem_append_left _ member
          rcases List.mem_append.1 there with inside | feed
          · exact (old c inside).1
          · rcases ends with rfl | rfl
            · cases feed
            · obtain rfl := List.mem_singleton.1 feed
              decide
        rcases seg.end_cases with ⟨t, bare, rfl⟩ | ⟨body, inside, rfl⟩ | ⟨c, ending, solid⟩
        · refine .append (.of_bare fun c member => bare c ?_) (.of_bare (tailBare fresh))
          rw [show t = x ++ d :: last from whole]
          exact List.mem_append_left _ member
        · exact replace_comment_tail inside old fresh ends whole rest
        · rw [whole, List.getLast?_append_cons] at ending
          have := inTail c (List.mem_of_getLast? ending)
          simp [solid] at this

/-! ### Cuts at separators -/

theorem Segment.length_outline (seg : Segment) : seg.outline.length = seg.text.length := by
  cases seg <;> simp [Segment.outline, Segment.text]

/-- A separator stands in a run, or before a regular expression. -/
theorem Segment.separator_cases {seg : Segment} {c : Char} (sep : c ∈ separators) {x y : Text}
    (spelled : seg.text = x ++ c :: y) (shown : seg.outline[x.length]? = some (some c)) :
    (∀ d ∈ x ++ y, isBare d = true) ∨ x = [] ∧ ∃ gap literal, y = gap ++ literal ∧
      (∀ d ∈ gap, isBlank d = true) ∧ RegexLiteral literal := by
  have hidden {n : Nat} (h : (List.replicate n (none : Option Char))[x.length]? = some (some c)) :
      False := by
    simp [List.getElem?_replicate] at h
  cases seg with
  | run t bare =>
    refine .inl fun d member => bare d ?_
    rw [show t = x ++ c :: y from spelled]
    rcases List.mem_append.1 member with inside | inside
    · exact List.mem_append_left _ inside
    · exact List.mem_append_right _ (List.mem_cons_of_mem c inside)
  | bracket d sign =>
    obtain ⟨-, rfl, -⟩ : x = [] ∧ d = c ∧ y = [] := by
      cases x with
      | nil => exact ⟨rfl, (List.cons.inj spelled).1, (List.cons.inj spelled).2.symm⟩
      | cons e x => exact absurd (List.cons.inj spelled).2 (by simp)
    have apart : ∀ d ∈ separators, d ∉ openers ++ closers := by decide
    exact absurd sign (apart d sep)
  | quoted | template | blockComment | lineComment => exact (hidden shown).elim
  | regex head gap literal sign blank inside =>
    cases x with
    | nil => exact .inr ⟨rfl, gap, literal, (List.cons.inj spelled).2.symm, blank, inside⟩
    | cons e x =>
      have later : (List.replicate (gap ++ literal).length (none : Option Char))[x.length]? =
          some (some c) := by simpa [Segment.outline] using shown
      simp [List.getElem?_replicate] at later

/-- What may stand behind a separator: a written text, or a regular expression before one. -/
def Operand (y : Text) : Prop :=
  Written y ∨ ∃ gap literal rest, y = gap ++ literal ++ rest ∧ (∀ d ∈ gap, isBlank d = true) ∧
    RegexLiteral literal ∧ Written rest

/-- A written text is cut at a separator. -/
theorem Written.cut {c : Char} (sep : c ∈ separators) {x y : Text} (h : Written (x ++ c :: y))
    (shown : (marks (x ++ c :: y))[x.length]? = some (some c)) :
    Written x ∧ Operand y := by
  obtain ⟨segs, spelled⟩ := h
  rw [← spelled, marks_spell] at shown
  induction segs generalizing x with
  | nil => simp at spelled
  | cons seg segs ih =>
    rw [Segment.spell_cons] at spelled
    rw [Segment.outlines_cons] at shown
    have one : Written seg.text := ⟨[seg], by simp⟩
    -- Either the separator stands behind the first segment, or inside it.
    have behind {more : Text} (front : x = seg.text ++ more)
        (rest : Segment.spell segs = more ++ c :: y) : Written x ∧ Operand y := by
      subst front
      rw [List.length_append, List.getElem?_append_right (by rw [seg.length_outline]; omega),
        seg.length_outline, Nat.add_sub_cancel_left] at shown
      obtain ⟨left, right⟩ := ih shown rest
      exact ⟨one.append left, right⟩
    rcases List.append_eq_append_iff.1 spelled with ⟨more, front, rest⟩ | ⟨last, front, rest⟩
    · exact behind front rest
    · cases last with
      | nil =>
        rw [List.append_nil] at front
        exact behind (show x = seg.text ++ [] by simp [front]) rest.symm
      | cons d last =>
        obtain ⟨rfl, rfl⟩ := List.cons.inj rest
        rw [List.getElem?_append_left (by rw [seg.length_outline, front]; simp)] at shown
        rcases Segment.separator_cases sep front shown with
          bare | ⟨rfl, gap, literal, rfl, blank, inside⟩
        · refine ⟨.of_bare fun e member => bare e (List.mem_append_left _ member), .inl ?_⟩
          exact .append (.of_bare fun e member => bare e (List.mem_append_right _ member)) ⟨segs, rfl⟩
        · exact ⟨.nil, .inr ⟨gap, literal, _, rfl, blank, inside, segs, rfl⟩⟩

/-! ### Lines -/

theorem mem_of_mem_trim {t : Text} {c : Char} (h : c ∈ trim t) : c ∈ t := by
  obtain ⟨w, -, split⟩ := exists_trimRight_append (trimLeft t)
  refine (List.dropWhile_sublist isBlank).subset ?_
  rw [← trimLeft, split]
  exact List.mem_append_left _ h

theorem bracketBalance_feed (l : Text) : bracketBalance (l ++ ['\n']) = bracketBalance l :=
  bracketBalance_append_neutral (by decide) l

theorem dropWhile_of_agree {p q : Char → Bool} {t : Text} (h : ∀ c ∈ t, p c = q c) :
    t.dropWhile p = t.dropWhile q := by
  induction t with
  | nil => rfl
  | cons c t ih =>
    rw [List.dropWhile_cons, List.dropWhile_cons, h c List.mem_cons_self,
      ih fun d member => h d (List.mem_cons_of_mem c member)]

/-- Blanks other than the line feed. -/
def isSpace (c : Char) : Bool := isBlank c && c != '\n'

theorem dropWhile_isSpace {l : Text} (h : '\n' ∉ l) (r : Text) :
    (l ++ '\n' :: r).dropWhile isSpace = trimLeft l ++ '\n' :: r := by
  rw [(takeWhile_append_stop (p := isSpace) (by decide) l r).2, trimLeft]
  congr 1
  refine dropWhile_of_agree fun c member => ?_
  have other : c ≠ '\n' := fun feed => h (feed ▸ member)
  simp [isSpace, other]

theorem isDull_of_isSpace (c : Char) (h : isSpace c = true) : isDull c = true := by
  simp only [isSpace, Bool.and_eq_true] at h
  exact isDull_of_isBlank h.1

theorem blank_tail {w : Text} (h : ∀ c ∈ w, isBlank c = true) (free : '\n' ∉ w) :
    ∀ c ∈ w, isNeutral c = true ∧ c ≠ '\n' :=
  fun c member => ⟨by simp [isNeutral, h c member], fun feed => free (feed ▸ member)⟩

theorem closed_of_written {t : Text} (free : '\n' ∉ t) (h : Written t) : Closed t :=
  ⟨free, h.append (.of_bare (by decide))⟩

theorem closed_prepend {w l : Text} (bare : ∀ c ∈ w, isBare c = true ∧ c ≠ '\n') (h : Closed l) :
    Closed (w ++ l) ∧ bracketBalance (w ++ l) = bracketBalance l := by
  have front : Written w := .of_bare fun c member => (bare c member).1
  refine ⟨⟨?_, ?_⟩, ?_⟩
  · intro member
    rcases List.mem_append.1 member with inside | inside
    · exact (bare _ inside).2 rfl
    · exact h.1 inside
  · rw [List.append_assoc]
    exact front.append h.2
  · rw [← bracketBalance_feed, List.append_assoc, front.bracketBalance_append h.2,
      bracketBalance_feed, bracketBalance_of_bare fun c member => (bare c member).1, Int.zero_add]

theorem closed_trimLeft {l : Text} (h : Closed l) : Closed (trimLeft l) := by
  refine ⟨fun member => h.1 ((List.dropWhile_sublist _).subset member), ?_⟩
  rw [← dropWhile_isSpace h.1]
  exact h.2.dropWhile isDull_of_isSpace

theorem closed_replace_tail {x w v : Text} (h : Closed (x ++ w)) (old : ∀ c ∈ w, isNeutral c = true)
    (fresh : ∀ c ∈ v, isNeutral c = true ∧ c ≠ '\n') :
    Closed (x ++ v) ∧ bracketBalance (x ++ v) = bracketBalance (x ++ w) := by
  refine ⟨⟨fun member => ?_, ?_⟩, ?_⟩
  · rcases List.mem_append.1 member with inside | inside
    · exact h.1 (List.mem_append_left _ inside)
    · exact (fresh _ inside).2 rfl
  · have tail : ∀ c ∈ w, isNeutral c = true ∧ c ≠ '\n' := fun c member =>
      ⟨old c member, fun feed => h.1 (List.mem_append_right _ (feed ▸ member))⟩
    rw [List.append_assoc]
    refine Written.replace_tail tail fresh (.inr rfl) ?_
    rw [← List.append_assoc]
    exact h.2
  · rw [bracketBalance_append_neutral old,
      bracketBalance_append_neutral fun c member => (fresh c member).1]

theorem closed_trimRight {l : Text} (h : Closed l) : Closed (trimRight l) := by
  obtain ⟨w, blank, split⟩ := exists_trimRight_append l
  rw [split] at h
  have cut := (closed_replace_tail (v := []) h (fun c member => by simp [isNeutral, blank c member])
    (by simp)).1
  rwa [List.append_nil] at cut

theorem closed_trim {l : Text} (h : Closed l) : Closed (trim l) := closed_trimRight (closed_trimLeft h)

/-- Lines that end what they start are read one by one. -/
theorem written_joinLines {ls : List Text} (h : ∀ l ∈ ls, Closed l) :
    Written (joinLines ls ++ ['\n']) ∧
      bracketBalance (joinLines ls) = (ls.map bracketBalance).sum := by
  have lines : Written (ls.flatMap (· ++ ['\n'])) ∧
      bracketBalance (ls.flatMap (· ++ ['\n'])) = (ls.map bracketBalance).sum := by
    induction ls with
    | nil => exact ⟨.nil, bracketBalance_of_free (by simp)⟩
    | cons l ls ih =>
      obtain ⟨written, sum⟩ := ih fun m member => h m (List.mem_cons_of_mem l member)
      have first := (h l List.mem_cons_self).2
      rw [List.flatMap_cons, List.map_cons, List.sum_cons]
      exact ⟨first.append written,
        by rw [first.bracketBalance_append written, bracketBalance_feed, sum]⟩
  by_cases empty : ls = []
  · subst empty
    exact ⟨.of_bare (by decide), bracketBalance_of_free (by simp [joinLines, joinPieces])⟩
  · rw [flatMap_concat_mark '\n' empty, bracketBalance_feed] at lines
    exact lines

end Ambient
