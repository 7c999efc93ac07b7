import Ambient.Declaration.Layout
import Ambient.Proofs.Written

/-!
Members keep their brackets: rendered on a line of their own, with a space behind the colon and a
semicolon at the end, or split from one line at the separators between them.
-/

namespace Ambient

open Lexer

/-! ### Members on lines of their own -/

/-- Ending a member exchanges only blanks, commas and semicolons at its end. -/
theorem terminate_cases (x : Text) : ∃ y w v, x = y ++ w ∧ terminate x = y ++ v ∧
    (∀ c ∈ w, isNeutral c = true) ∧ ∀ c ∈ v, isNeutral c = true ∧ c ≠ '\n' := by
  have semicolon : ∀ c ∈ [';'], isNeutral c = true ∧ c ≠ '\n' := by decide
  unfold terminate
  split
  · next comma =>
    obtain ⟨front, rfl⟩ := List.isSuffixOf_iff_suffix.1 comma
    obtain ⟨w, blank, split⟩ := exists_trimRight_append front
    refine ⟨trimRight front, w ++ [','], [';'], ?_, by simp, fun c member => ?_, semicolon⟩
    · rw [← List.append_assoc, ← split]
    · rcases List.mem_append.1 member with inside | last
      · simp [isNeutral, blank c inside]
      · obtain rfl := List.mem_singleton.1 last
        decide
  · split
    · exact ⟨x, [], [], by simp, by simp, by simp, by simp⟩
    · exact ⟨x, [], [';'], by simp, rfl, by simp, semicolon⟩

theorem closed_terminate {l : Text} (h : Closed l) :
    Closed (terminate l) ∧ bracketBalance (terminate l) = bracketBalance l := by
  obtain ⟨y, w, v, split, ended, old, fresh⟩ := terminate_cases l
  rw [split] at h
  rw [ended, split]
  exact closed_replace_tail h old fresh

theorem Lexeme.getElem?_outlines {ls : List Lexeme} {n : Nat} {c : Char}
    (h : (Lexeme.outlines ls)[n]? = some (some c)) : (Lexeme.spell ls)[n]? = some c := by
  induction ls generalizing n with
  | nil => simp [Lexeme.outlines] at h
  | cons l ls ih =>
    have length := l.length_outline
    rw [Lexeme.outlines_cons] at h
    rw [Lexeme.spell_cons]
    by_cases inside : n < l.text.length
    · rw [List.getElem?_append_left (by omega)] at h
      rw [List.getElem?_append_left inside]
      obtain ⟨d, at', shown⟩ : ∃ d, l.text[n]? = some d ∧
          (if l.kind.isInert then none else mark? d) = some c := by
        simpa [Lexeme.outline] using h
      rw [at']
      split at shown
      · cases shown
      · unfold mark? at shown
        split at shown
        · exact shown
        · cases shown
    · rw [List.getElem?_append_right (by omega), length] at h
      rw [List.getElem?_append_right (by omega)]
      exact ih h

/-- The colon of a member is one of its marks. -/
theorem splitColon?_cases {l key value : Text} (h : splitColon? l = some (key, value)) :
    l = key ++ ':' :: value ∧ (marks l)[key.length]? = some (some ':') := by
  obtain ⟨n, found, split⟩ := Option.map_eq_some_iff.1 h
  obtain ⟨rfl, rfl⟩ := Prod.mk.inj split
  rw [find?_eq (by decide)] at found
  have shown := ((Outline.firstTop_zero_iff ':' (marks l) n).1 found).1.1
  have char : l[n]? = some ':' := by
    have := Lexeme.getElem?_outlines shown
    rwa [spell_lex] at this
  obtain ⟨inside, at'⟩ := List.getElem?_eq_some_iff.1 char
  have length : (l.take n).length = n := by simp; omega
  refine ⟨?_, by rw [length]; exact shown⟩
  rw [← at', List.getElem_cons_drop, List.take_append_drop]

theorem exists_slash_of_literal {literal : Text} (h : RegexLiteral literal) :
    ∃ r, literal = '/' :: r := by
  obtain ⟨body, flags, rfl, -⟩ := h
  exact ⟨_, rfl⟩

namespace Operand

theorem dropWhile_isSpace {y : Text} (h : Operand y) : Operand (y.dropWhile isSpace) := by
  rcases h with written | ⟨gap, literal, rest, rfl, blank, inside, later⟩
  · exact .inl (written.dropWhile isDull_of_isSpace)
  · obtain ⟨r, slash⟩ := exists_slash_of_literal inside
    refine .inr ⟨gap.dropWhile isSpace, literal, rest, ?_, fun d member => ?_, inside, later⟩
    · rw [List.append_assoc, List.append_assoc, slash, List.cons_append]
      exact (takeWhile_append_stop (by decide) gap (r ++ rest)).2
    · exact blank d ((List.dropWhile_sublist _).subset member)

/-- Behind a separator and blanks, an operand is part of a written text. -/
theorem behind {c : Char} (sep : c ∈ separators) {y : Text} (h : Operand y) {gap : Text}
    (space : ∀ c ∈ gap, isBlank c = true) : Written (c :: (gap ++ y)) := by
  have bare : ∀ d ∈ separators, isBare d = true := by decide
  rcases h with written | ⟨more, literal, rest, rfl, blank, inside, segs, rfl⟩
  · refine Written.append (t := c :: gap) (.of_bare fun d member => ?_) written
    rcases List.mem_cons.1 member with rfl | member
    · exact bare d sep
    · exact isBare_of_isDull (isDull_of_isBlank (space d member))
  · have blanks : ∀ c ∈ gap ++ more, isBlank c = true := by
      intro c member
      rcases List.mem_append.1 member with front | back
      · exact space c front
      · exact blank c back
    exact ⟨.regex c (gap ++ more) literal (List.mem_append_right _ sep) blanks inside :: segs,
      by simp [Segment.text]⟩

end Operand

theorem written_trim {t : Text} (free : '\n' ∉ t) (h : Written t) : Written (trim t) := by
  obtain ⟨w, blank, split⟩ := exists_trimRight_append (trimLeft t)
  have left : Written (trimLeft t) := h.dropWhile fun _ => isDull_of_isBlank
  have tail : '\n' ∉ w := by
    intro member
    refine free ((List.dropWhile_sublist isBlank).subset ?_)
    rw [← trimLeft, split]
    exact List.mem_append_right _ member
  have cut := Written.replace_tail (v := []) (x := trimRight (trimLeft t)) (z := [])
    (blank_tail blank tail) (by simp) (.inl rfl) (by rwa [List.append_nil, ← split])
  rwa [List.append_nil, List.append_nil] at cut

/-- The parts of a member around its colon, put together again with one space. -/
theorem closed_colon {key value : Text} (h : Closed (key ++ ':' :: value))
    (shown : (marks (key ++ ':' :: value))[key.length]? = some (some ':')) :
    Closed (trim key ++ (':' :: ' ' :: trimLeft value)) ∧
      bracketBalance (trim key ++ (':' :: ' ' :: trimLeft value)) =
        bracketBalance (key ++ ':' :: value) := by
  obtain ⟨free, written⟩ := h
  have freeKey : '\n' ∉ key := fun member => free (List.mem_append_left _ member)
  have freeValue : '\n' ∉ value := fun member =>
    free (List.mem_append_right _ (List.mem_cons_of_mem _ member))
  rw [List.append_assoc, List.cons_append] at written
  have there : (marks (key ++ ':' :: (value ++ ['\n'])))[key.length]? = some (some ':') := by
    obtain ⟨o, -, joined⟩ := marks_append (w := ['\n']) (by decide) (key ++ ':' :: value)
    rw [List.append_assoc, List.cons_append] at joined
    rw [joined, List.getElem?_append_left (by rw [length_marks]; simp), shown]
  obtain ⟨front, operand⟩ := written.cut (by decide) there
  have behind := operand.dropWhile_isSpace
  rw [show (value ++ ['\n']).dropWhile isSpace = trimLeft value ++ ['\n'] from
    dropWhile_isSpace freeValue []] at behind
  have colon : Written (':' :: ([' '] ++ (trimLeft value ++ ['\n']))) := behind.behind (by decide) (by decide)
  have whole : Written (':' :: ([] ++ (value ++ ['\n']))) := operand.behind (by decide) (by simp)
  refine ⟨⟨?_, ?_⟩, ?_⟩
  · intro member
    rcases List.mem_append.1 member with inKey | inValue
    · exact freeKey (mem_of_mem_trim inKey)
    · simp only [List.mem_cons, Char.reduceEq, false_or] at inValue
      exact freeValue ((List.dropWhile_sublist isBlank).subset inValue)
  · rw [List.append_assoc]
    exact (written_trim freeKey front).append colon
  · rw [← bracketBalance_feed, ← bracketBalance_feed (key ++ ':' :: value), List.append_assoc,
      List.append_assoc]
    calc bracketBalance (trim key ++ (':' :: ([' '] ++ (trimLeft value ++ ['\n']))))
        = bracketBalance (trim key) + bracketBalance (':' :: ([' '] ++ (trimLeft value ++ ['\n']))) :=
          (written_trim freeKey front).bracketBalance_append colon
      _ = bracketBalance key + bracketBalance (':' :: (value ++ ['\n'])) := by
          have blanks : ∀ c ∈ value.takeWhile isBlank, isBlank c = true :=
            fun c member => List.all_eq_true.1 List.all_takeWhile c member
          have split : value ++ ['\n'] =
              value.takeWhile isBlank ++ (trimLeft value ++ ['\n']) := by
            rw [← List.append_assoc, trimLeft, List.takeWhile_append_dropWhile]
          rw [bracketBalance_trim, bracketBalance_colon (by decide), split,
            bracketBalance_colon blanks]
      _ = bracketBalance (key ++ ':' :: (value ++ ['\n'])) :=
          (front.bracketBalance_append whole).symm

/-- **Rendering a member keeps its brackets.** -/
theorem closed_renderMember {l : Text} (h : Closed l) :
    Closed (renderMember l) ∧ bracketBalance (renderMember l) = bracketBalance l := by
  unfold renderMember
  cases split : splitColon? l with
  | none => exact closed_terminate h
  | some parts =>
    obtain ⟨key, value⟩ := parts
    obtain ⟨rfl, shown⟩ := splitColon?_cases split
    obtain ⟨closed, balance⟩ := closed_colon h shown
    obtain ⟨blanks, blank, value'⟩ := exists_trimRight_append (trimLeft value)
    obtain ⟨y, w, v, trimmed, ended, old, fresh⟩ := terminate_cases (trim value)
    have spelled : trim key ++ (':' :: ' ' :: trimLeft value) =
        (trim key ++ ": ".toList ++ y) ++ (w ++ blanks) := by
      rw [value', show trimRight (trimLeft value) = y ++ w from trimmed]
      simp
    have neutral : ∀ c ∈ w ++ blanks, isNeutral c = true := by
      intro c member
      rcases List.mem_append.1 member with inside | inside
      · exact old c inside
      · simp [isNeutral, blank c inside]
    rw [spelled] at closed balance
    simp only [ended]
    rw [← List.append_assoc, ← balance]
    exact closed_replace_tail closed neutral fresh

theorem levelsFrom_snd (depth : Int) (start : Nat) (ts : List Token) (ls : List Text) :
    (Nesting.levelsFrom depth start ts ls).map (·.2) = ls := by
  induction ls generalizing depth start ts with
  | nil => rfl
  | cons l ls ih => simp only [Nesting.levelsFrom, List.map_cons, ih]

/-- Lines that are left out do not count when their brackets pair up. -/
theorem sum_filtered {p : Text → Bool} {ls : List Text}
    (h : ∀ l ∈ ls, p (trim l) = false → bracketBalance l = 0) :
    (((ls.map trim).filter p).map bracketBalance).sum = (ls.map bracketBalance).sum := by
  induction ls with
  | nil => rfl
  | cons l ls ih =>
    have later := ih fun m member => h m (List.mem_cons_of_mem l member)
    rw [List.map_cons, List.map_cons, List.sum_cons, List.filter_cons]
    split
    · rw [List.map_cons, List.sum_cons, later, bracketBalance_trim]
    · next dropped =>
      rw [later, h l List.mem_cons_self (by simpa using dropped), Int.zero_add]

theorem bracketBalance_of_blank {l : Text} (h : trim l = []) : bracketBalance l = 0 := by
  rw [← bracketBalance_trim, h]
  exact bracketBalance_of_free (by simp)

theorem sum_kept (ls : List Text) :
    (((ls.map trim).filter (· != [])).map bracketBalance).sum = (ls.map bracketBalance).sum :=
  sum_filtered fun _ _ blank => bracketBalance_of_blank (by simpa using blank)

/-- Lines that are written each in their own way keep their brackets. -/
theorem closed_levels {write : Nat → Text → Text}
    (keeps : ∀ level l, Closed l → Closed (write level l) ∧
      bracketBalance (write level l) = bracketBalance l)
    {ls : List Text} (h : ∀ l ∈ ls, Closed l) :
    let body := (Nesting.levels 1 ls).map fun p => write p.1 p.2
    (∀ l ∈ body, Closed l) ∧ (body.map bracketBalance).sum = (ls.map bracketBalance).sum := by
  intro body
  have kept : (Nesting.levels 1 ls).map (·.2) = (ls.map trim).filter (· != []) :=
    levelsFrom_snd _ _ _ _
  have closed : ∀ p ∈ Nesting.levels 1 ls, Closed p.2 := by
    intro p member
    have inside : p.2 ∈ (Nesting.levels 1 ls).map (·.2) := List.mem_map_of_mem member
    rw [kept] at inside
    obtain ⟨l, source, same⟩ := List.mem_map.1 (List.mem_filter.1 inside).1
    rw [← same]
    exact closed_trim (h l source)
  constructor
  · intro l member
    obtain ⟨p, inside, rfl⟩ := List.mem_map.1 member
    exact (keeps p.1 p.2 (closed p inside)).1
  · have same : body.map bracketBalance = ((Nesting.levels 1 ls).map (·.2)).map bracketBalance := by
      rw [List.map_map, List.map_map]
      exact List.map_congr_left fun p inside => (keeps p.1 p.2 (closed p inside)).2
    rw [same, kept, sum_kept]

/-! ### Members on one line -/

section
variable {angles : Bool} {sep : Char} (known : sep ∈ separators)
include known

theorem outline_of_isTop {depth : Int} {start : Nat} {l : Lexeme}
    (h : (Token.mk start l.kind l.text).isTop [sep] depth = true) :
    l.text = [sep] ∧ l.outline = [some sep] := by
  have marked : ∀ c ∈ separators, isMark c = true := by decide
  simp only [Token.isTop, Bool.and_eq_true, Bool.not_eq_true', beq_iff_eq] at h
  obtain ⟨⟨active, -⟩, text⟩ := h
  exact ⟨text, by simp [Lexeme.outline, text, active, mark?, marked sep known]⟩

/-- The first part goes on over all characters that show no mark. -/
theorem first_part (depth : Int) (part : Text) (start : Nat) (ls : List Lexeme) :
    ∃ q rest more, Nesting.partsFrom angles [sep] depth part (Lexeme.place start ls) =
        (part ++ q) :: more ∧ Lexeme.spell ls = q ++ rest ∧
      ∀ k, k ≤ (Lexeme.spell ls).length → (∀ x ∈ (Lexeme.outlines ls).take k, x = none) →
        k ≤ q.length := by
  induction ls generalizing depth part start with
  | nil => exact ⟨[], [], [], by simp [Lexeme.place, Nesting.partsFrom], rfl, fun k bound _ => bound⟩
  | cons l ls ih =>
    rw [Lexeme.place, Nesting.partsFrom]
    by_cases top : (Token.mk start l.kind l.text).isTop [sep] depth = true
    · rw [if_pos top]
      refine ⟨[], Lexeme.spell (l :: ls), _, by rw [List.append_nil], rfl, fun k _ hidden => ?_⟩
      cases k with
      | zero => exact Nat.le_refl 0
      | succ k =>
        rw [Lexeme.outlines_cons, (outline_of_isTop known top).2] at hidden
        exact absurd (hidden (some sep) (by simp)) (by simp)
    · rw [if_neg top]
      obtain ⟨q, rest, more, parts, text, goesOn⟩ := ih
        ((Token.mk start l.kind l.text).depthAfter angles depth) (part ++ l.text)
        (start + l.text.length)
      refine ⟨l.text ++ q, rest, more, ?_, ?_, fun k bound hidden => ?_⟩
      · rw [← List.append_assoc]
        exact parts
      · rw [Lexeme.spell_cons, text, List.append_assoc]
      · rw [Lexeme.spell_cons, List.length_append] at bound
        have later := goesOn (k - l.text.length) (by omega) fun x member => hidden x (by
          rw [Lexeme.outlines_cons, List.take_append, l.length_outline]
          exact List.mem_append_right _ member)
        rw [List.length_append]
        omega

omit known in
/-- A regular expression at the head of a part is read as one, whatever follows it. -/
theorem regex?_of_literal {gap literal : Text} (blank : ∀ d ∈ gap, isBlank d = true)
    (inside : RegexLiteral literal) (rest : Text) :
    regex? (trimLeft (gap ++ literal ++ rest)) ≠ none := by
  obtain ⟨r, slash⟩ := exists_slash_of_literal inside
  have skipped : trimLeft (gap ++ literal ++ rest) = literal ++ rest := by
    rw [trimLeft, List.append_assoc, List.dropWhile_append_of_pos blank, slash]
    rfl
  rw [skipped, regex?_append inside]
  simp

/-- Parts that start with no regular expression are parted by no separator before one. -/
theorem no_regex_part {depth : Int} {start : Nat} {ls : List Lexeme}
    (regex : ∃ gap literal rest, Lexeme.spell ls = gap ++ literal ++ rest ∧
      (∀ d ∈ gap, isBlank d = true) ∧ RegexLiteral literal ∧ Written rest)
    (shown : marks (sep :: Lexeme.spell ls) = some sep :: Lexeme.outlines ls)
    (quiet : ∀ p ∈ Nesting.partsFrom angles [sep] depth [] (Lexeme.place start ls),
      regex? (trimLeft p) = none) : False := by
  obtain ⟨gap, literal, _, text, blank, inside, segs, rfl⟩ := regex
  obtain ⟨q, rest, more, parts, spelled, goesOn⟩ := first_part known depth [] start ls
  have hidden : Lexeme.outlines ls =
      List.replicate (gap ++ literal).length none ++ Segment.outlines segs := by
    let seg : Segment := .regex sep gap literal (List.mem_append_right _ known) blank inside
    have whole : sep :: Lexeme.spell ls = Segment.spell (seg :: segs) := by
      simp [text, seg, Segment.text]
    rw [whole, marks_spell] at shown
    exact (List.cons.inj shown).2.symm
  have long : (gap ++ literal).length ≤ q.length := by
    refine goesOn _ (by simp [text]) fun x member => ?_
    rw [hidden, List.take_left' (by simp)] at member
    exact List.eq_of_mem_replicate member
  obtain ⟨tail, rfl⟩ : gap ++ literal <+: q :=
    List.prefix_of_prefix_length_le (by rw [← spelled, text]; exact List.prefix_append _ _)
      (List.prefix_append q rest) long
  have none := quiet _ (by rw [parts]; exact List.mem_cons_self)
  exact regex?_of_literal blank inside tail none

/-- One cut: both sides are written texts, and their balances add up. -/
theorem written_of_cut {depth : Int} {start : Nat} {part : Text} {ls : List Lexeme} {o : Outline}
    (written : Written (part ++ sep :: Lexeme.spell ls))
    (shown : marks (part ++ sep :: Lexeme.spell ls) = o ++ some sep :: Lexeme.outlines ls)
    (length : o.length = part.length)
    (quiet : ∀ p ∈ Nesting.partsFrom angles [sep] depth [] (Lexeme.place start ls),
      regex? (trimLeft p) = none) :
    Written part ∧ Written (Lexeme.spell ls) ∧ marks (Lexeme.spell ls) = Lexeme.outlines ls ∧
      bracketBalance (part ++ sep :: Lexeme.spell ls) =
        bracketBalance part + bracketBalance (Lexeme.spell ls) := by
  have here : (marks (part ++ sep :: Lexeme.spell ls))[part.length]? = some (some sep) := by
    rw [shown, ← length, List.getElem?_append_right (Nat.le_refl _), Nat.sub_self]
    rfl
  obtain ⟨front, operand⟩ := written.cut known here
  have whole : Written (sep :: ([] ++ Lexeme.spell ls)) := operand.behind known (by simp)
  rw [List.nil_append] at whole
  have apart : marks (sep :: Lexeme.spell ls) = some sep :: Lexeme.outlines ls := by
    rw [front.marks_append whole] at shown
    exact (List.append_inj shown (by rw [length_marks, length])).2
  have rest : Written (Lexeme.spell ls) :=
    operand.resolve_right fun regex => no_regex_part known regex apart quiet
  have bare : ∀ d ∈ [sep], isBare d = true := by
    have signs : ∀ d ∈ separators, isBare d = true := by decide
    simpa using signs sep known
  have sign : Written [sep] := .of_bare bare
  refine ⟨front, rest, ?_, ?_⟩
  · have joined : marks [sep] ++ marks (Lexeme.spell ls) = [some sep] ++ Lexeme.outlines ls := by
      rw [← sign.marks_append rest]
      exact apart
    exact (List.append_inj joined (by rw [length_marks]; rfl)).2
  · rw [front.bracketBalance_append whole, ← List.singleton_append, sign.bracketBalance_append rest,
      bracketBalance_of_bare bare, Int.zero_add]

/-- **Cutting at separators keeps the brackets**: the parts are written texts again, and their
balances add up, when none of them starts with a regular expression. -/
theorem parts_written {depth : Int} {start : Nat} {part : Text} {ls : List Lexeme} {o : Outline}
    (written : Written (part ++ Lexeme.spell ls))
    (shown : marks (part ++ Lexeme.spell ls) = o ++ Lexeme.outlines ls)
    (length : o.length = part.length)
    (quiet : ∀ p ∈ Nesting.partsFrom angles [sep] depth part (Lexeme.place start ls),
      regex? (trimLeft p) = none) :
    (∀ p ∈ Nesting.partsFrom angles [sep] depth part (Lexeme.place start ls), Written p) ∧
      ((Nesting.partsFrom angles [sep] depth part (Lexeme.place start ls)).map bracketBalance).sum =
        bracketBalance (part ++ Lexeme.spell ls) := by
  induction ls generalizing depth start part o with
  | nil =>
    have text : part ++ Lexeme.spell [] = part := List.append_nil part
    rw [text] at written ⊢
    simpa [Lexeme.place, Nesting.partsFrom] using written
  | cons l ls ih =>
    rw [Lexeme.place, Nesting.partsFrom] at quiet ⊢
    rw [Lexeme.spell_cons] at written ⊢
    rw [Lexeme.spell_cons, Lexeme.outlines_cons] at shown
    by_cases top : (Token.mk start l.kind l.text).isTop [sep] depth = true
    · rw [if_pos top] at quiet ⊢
      generalize start + l.text.length = next at quiet ⊢
      obtain ⟨text, outline⟩ := outline_of_isTop known top
      rw [text, List.singleton_append] at written ⊢
      rw [text, outline, List.singleton_append, List.singleton_append] at shown
      have later := fun p member => quiet p (List.mem_cons_of_mem part member)
      obtain ⟨front, rest, marked, balance⟩ := written_of_cut known written shown length later
      obtain ⟨inner, sum⟩ := ih rest (show marks ([] ++ _) = [] ++ _ from marked) rfl later
      refine ⟨List.forall_mem_cons.2 ⟨front, inner⟩, ?_⟩
      rw [List.map_cons, List.sum_cons, sum, balance]
      rfl
    · rw [if_neg top] at quiet ⊢
      rw [← List.append_assoc] at written shown ⊢
      refine ih written (by rw [shown, List.append_assoc]) ?_ quiet
      rw [List.length_append, List.length_append, length]
      simp [Lexeme.outline]

omit known in
theorem mem_of_mem_parts {depth : Int} {start : Nat} {part : Text} {ls : List Lexeme} {p : Text}
    (h : p ∈ Nesting.partsFrom angles [sep] depth part (Lexeme.place start ls)) {c : Char}
    (inside : c ∈ p) : c ∈ part ++ Lexeme.spell ls := by
  induction ls generalizing depth start part with
  | nil =>
    obtain rfl := List.mem_singleton.1 h
    exact List.mem_append_left _ inside
  | cons l ls ih =>
    rw [Lexeme.place, Nesting.partsFrom] at h
    rw [Lexeme.spell_cons]
    split at h
    · rcases List.mem_cons.1 h with rfl | later
      · exact List.mem_append_left _ inside
      · exact List.mem_append_right _ (List.mem_append_right _ (by simpa using ih later))
    · have member := ih h
      rwa [List.append_assoc] at member

omit known in
/-- The members between separators hold nothing but the text. -/
theorem mem_of_mem_split {t p : Text} (h : p ∈ Nesting.split angles [sep] t) {c : Char}
    (inside : c ∈ p) : c ∈ t := by
  obtain ⟨part, cut, rfl⟩ := List.mem_map.1 (List.mem_filter.1 h).1
  have spelled : [] ++ Lexeme.spell (lex .code none t) = t := spell_lex .code none t
  exact spelled ▸ mem_of_mem_parts cut (mem_of_mem_trim inside)

/-- The members between separators on one line. -/
theorem split_closed {t : Text} (free : '\n' ∉ t) (written : Written t)
    (quiet : ∀ m ∈ Nesting.split angles [sep] t, regex? m = none) :
    (∀ m ∈ Nesting.split angles [sep] t, '\n' ∉ m ∧ Written m) ∧
      ((Nesting.split angles [sep] t).map bracketBalance).sum = bracketBalance t := by
  let parts := Nesting.partsFrom angles [sep] 0 [] (tokens t)
  have spelled : [] ++ Lexeme.spell (lex .code none t) = t := spell_lex .code none t
  have calm : ∀ p ∈ parts, regex? (trimLeft p) = none := by
    intro p member
    obtain ⟨w, blank, split⟩ : ∃ w, (∀ c ∈ w, isBlank c = true) ∧ trimLeft p = trim p ++ w :=
      exists_trimRight_append (trimLeft p)
    by_cases empty : trim p = []
    · rw [split, empty, List.nil_append]
      refine regex?_of_head? fun slash => ?_
      exact absurd (blank '/' (List.mem_of_head? slash)) (by decide)
    · have none : regex? (trim p) = none :=
        quiet _ (List.mem_filter.2 ⟨List.mem_map_of_mem member, by simpa using empty⟩)
      have apart : Apart w := apart_of_neutral fun c member => by simp [isNeutral, blank c member]
      rw [split, apart.regex?_append empty]
      exact Option.map_eq_none_iff.2 none
  have shown : marks ([] ++ Lexeme.spell (lex .code none t)) =
      [] ++ Lexeme.outlines (lex .code none t) := by
    rw [spelled]
    rfl
  obtain ⟨inner, sum⟩ := parts_written known (by rwa [spelled]) shown rfl calm
  have inText : ∀ p ∈ parts, '\n' ∉ p := by
    intro p member feed
    refine free ?_
    rw [← spelled]
    exact mem_of_mem_parts member feed
  refine ⟨fun m member => ?_, ?_⟩
  · obtain ⟨p, part, rfl⟩ := List.mem_map.1 (List.mem_filter.1 member).1
    exact ⟨fun feed => inText p part (mem_of_mem_trim feed), written_trim (inText p part) (inner p part)⟩
  · rw [spelled] at sum
    rw [← sum]
    exact sum_kept parts

end

end Ambient
