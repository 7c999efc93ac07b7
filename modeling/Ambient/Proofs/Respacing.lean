import Ambient.Proofs.Seam

/-!
What cleaning does to any text, well formed or not. Every pass but one keeps the solid characters
of a text; the last drops one semicolon at most behind each opening brace. What a pass has settled
the later passes leave settled, so where no semicolon goes and the blanks are spaces, tabs and line
feeds, a cleaned text is clean.
-/

namespace Ambient.Cleanup

/-- The text without its blanks. -/
def solid (t : Text) : Text := t.filter (!isBlank ·)

@[simp] theorem solid_append (a b : Text) : solid (a ++ b) = solid a ++ solid b := List.filter_append ..

theorem solid_of_blank {w : Text} (blank : ∀ c ∈ w, isBlank c = true) : solid w = [] :=
  List.filter_eq_nil_iff.2 fun c member => by simp [blank c member]

theorem solid_cons (c : Char) (r : Text) : solid (c :: r) = solid [c] ++ solid r :=
  solid_append [c] r

theorem head?_solid (t : Text) : (solid t).head? = (trimLeft t).head? := by
  induction t with
  | nil => rfl
  | cons c t ih => cases blank : isBlank c <;> simp_all [solid, trimLeft]

/-- What a class of blanks is dropped from keeps its solid characters. -/
theorem solid_dropWhile {p : Char → Bool} (blank : ∀ c, p c = true → isBlank c = true) (t : Text) :
    solid (t.dropWhile p) = solid t := by
  have dropped : solid (t.takeWhile p) = [] :=
    solid_of_blank fun c member => blank c (List.all_eq_true.1 List.all_takeWhile c member)
  conv_rhs => rw [← List.takeWhile_append_dropWhile (p := p) (l := t), solid_append, dropped]
  rfl

theorem solid_trim (t : Text) : solid (trim t) = solid t := by
  obtain ⟨w, blank, cut⟩ := exists_trimRight_append (trimLeft t)
  have left : solid (trimLeft t) = solid t := solid_dropWhile (fun _ h => h) t
  rw [← left, cut, solid_append, solid_of_blank blank, List.append_nil, trim]

/-! ### The solid characters -/

theorem solid_joinBraces (t : Text) : solid (joinBraces t) = solid t := by
  fun_induction joinBraces t with
  | case1 => rfl
  | case2 r rest found ih =>
    have kept : solid (trimLeft r) = solid r := solid_dropWhile (fun _ h => h) r
    rw [found] at kept
    rw [solid_cons, solid_cons '}', ih, ← solid_cons '}', kept, ← solid_cons]
  | case3 r _ ih | case4 c r _ ih => rw [solid_cons, ih, ← solid_cons]

theorem solid_tightenEnds (t : Text) : solid (tightenEnds t) = solid t := by
  fun_induction tightenEnds t with
  | case1 => rfl
  | case2 c r pad rest found ends ih =>
    have kept : solid (r.dropWhile isPad) = solid r := solid_dropWhile (fun _ => isBlank_of_isPad) r
    have gone : solid [c] = [] := solid_of_blank (by simpa using isBlank_of_isPad pad)
    rw [solid_cons, ih, ← solid_cons, ← found, kept, solid_cons c, gone]
    rfl
  | case3 c r _ _ _ _ ih | case4 c r _ _ ih | case5 c r _ ih => rw [solid_cons, ih, ← solid_cons]

theorem solid_capFeeds (kept : Nat) (t : Text) : solid (capFeeds kept t) = solid t := by
  fun_induction capFeeds kept t with
  | case1 => rfl
  | case2 kept r room ih => rw [solid_cons, ih, ← solid_cons]
  | case3 kept r full ih =>
    rw [ih, solid_cons]
    rfl
  | case4 kept c r other ih => rw [solid_cons, ih, ← solid_cons]

theorem solid_breakBraces (t : Text) : solid (breakBraces t) = solid t := by
  fun_induction breakBraces t with
  | case1 => rfl
  | case2 c r pair ih =>
    rw [solid_cons, solid_cons '\n', ih, solid_cons c, pair.1]
    rfl
  | case3 c r other ih => rw [solid_cons, ih, ← solid_cons]

/-- At most one semicolon behind each opening brace is left out. -/
inductive Thinned : Text → Text → Prop
  | nil : Thinned [] []
  | keep {x y : Text} (c : Char) : Thinned x y → Thinned (c :: x) (c :: y)
  | drop {x y : Text} : Thinned x y → Thinned ('{' :: ';' :: x) ('{' :: y)

theorem thinned_dropEmpty (t : Text) : Thinned (solid t) (solid (dropEmpty t)) := by
  have keep (c : Char) {x y : Text} (h : Thinned x y) : Thinned (solid [c] ++ x) (solid [c] ++ y) := by
    cases blank : isBlank c with
    | true => simpa [solid, blank] using h
    | false => simpa [solid, blank] using h.keep c
  fun_induction dropEmpty t with
  | case1 => exact .nil
  | case2 c => simpa using keep c .nil
  | case3 c d r pair ih =>
    obtain ⟨rfl, rfl⟩ := pair
    exact ih.drop
  | case4 c d r _ ih =>
    rw [solid_cons c, solid_cons c (dropEmpty _)]
    exact keep c ih

/-! ### Line feeds in a row -/

theorem length_capFeeds_le (kept : Nat) (t : Text) : (capFeeds kept t).length ≤ t.length := by
  fun_induction capFeeds kept t <;> simp <;> omega

/-- What the first character of a text with few line feeds in a row says about the rest. -/
theorem capFeeds_cons_eq_self {kept : Nat} {c : Char} {r : Text} :
    capFeeds kept (c :: r) = c :: r ↔
      (c = '\n' ∧ kept < 2 ∧ capFeeds (kept + 1) r = r) ∨ (c ≠ '\n' ∧ capFeeds 0 r = r) := by
  rw [capFeeds]
  by_cases feed : c = '\n'
  · by_cases room : kept < 2
    · simp [feed, room]
    · have shorter := length_capFeeds_le kept r
      have differs : capFeeds kept r ≠ '\n' :: r := by
        intro same
        rw [same, List.length_cons] at shorter
        omega
      simp [feed, room, differs]
  · simp [feed]

theorem capFeeds_capFeeds {kept : Nat} (room : kept ≤ 2) (t : Text) :
    capFeeds kept (capFeeds kept t) = capFeeds kept t := by
  fun_induction capFeeds kept t with
  | case1 => rfl
  | case2 kept r few ih => exact capFeeds_cons_eq_self.2 (.inl ⟨rfl, few, ih few⟩)
  | case3 kept r _ ih => exact ih room
  | case4 kept c r other ih => exact capFeeds_cons_eq_self.2 (.inr ⟨other, ih (by omega)⟩)

/-- A text is left with its line feeds exactly when no three of them are in a row. -/
theorem capFeeds_eq_self_iff {t : Text} : capFeeds 0 t = t ↔ ¬['\n', '\n', '\n'] <:+: t := by
  -- The line feeds that were kept already count as part of the text.
  suffices general : ∀ kept ≤ 2, capFeeds kept t = t ↔
      ¬['\n', '\n', '\n'] <:+: List.replicate kept '\n' ++ t from general 0 (by omega)
  induction t with
  | nil =>
    intro kept room
    have short : ¬['\n', '\n', '\n'] <:+: List.replicate kept '\n' := by
      intro inside
      have := inside.length_le
      simp only [List.length_cons, List.length_nil, List.length_replicate] at this
      omega
    simpa [capFeeds] using short
  | cons c r ih =>
    intro kept room
    rw [capFeeds_cons_eq_self]
    by_cases feed : c = '\n'
    · subst feed
      have shifted : List.replicate kept '\n' ++ '\n' :: r = List.replicate (kept + 1) '\n' ++ r := by
        rw [List.replicate_succ', List.append_assoc, List.singleton_append]
      rw [shifted]
      by_cases few : kept < 2
      · simp [few, ih (kept + 1) few]
      · obtain rfl : kept = 2 := by omega
        have three : ['\n', '\n', '\n'] <:+: List.replicate 3 '\n' ++ r := ⟨[], r, rfl⟩
        simpa using three
    · have same : ['\n', '\n', '\n'] <:+: List.replicate kept '\n' ++ c :: r ↔
          ['\n', '\n', '\n'] <:+: r := by
        obtain rfl | rfl | rfl : kept = 0 ∨ kept = 1 ∨ kept = 2 := by omega
        all_goals simp [List.infix_cons_iff, List.replicate_succ, Ne.symm feed]
      simp [feed, same, ih 0 (by omega)]

theorem head?_breakBraces (t : Text) : (breakBraces t).head? = t.head? := by
  cases t with
  | nil => rfl
  | cons c r =>
    rw [breakBraces]
    split
    · next pair => simp [pair.1]
    · rfl

theorem capFeeds_breakBraces {kept : Nat} {t : Text} (capped : capFeeds kept t = t) :
    capFeeds kept (breakBraces t) = breakBraces t := by
  fun_induction breakBraces t generalizing kept with
  | case1 => rfl
  | case2 c r pair ih =>
    obtain ⟨rfl, brace⟩ := pair
    obtain ⟨r, rfl⟩ := List.head?_eq_some_iff.1 brace
    have rest := (capFeeds_cons_eq_self.1 capped).resolve_left fun feed => absurd feed.1 (by decide)
    -- A brace follows the new line feed, so the count starts again.
    have anew : capFeeds 1 ('}' :: r) = '}' :: r := rest.2
    simp [capFeeds, ih anew]
  | case3 c r _ ih =>
    rcases capFeeds_cons_eq_self.1 capped with ⟨feed, few, rest⟩ | ⟨other, rest⟩
    · exact capFeeds_cons_eq_self.2 (.inl ⟨feed, few, ih rest⟩)
    · exact capFeeds_cons_eq_self.2 (.inr ⟨other, ih rest⟩)

theorem capFeeds_dropEmpty {kept : Nat} {t : Text} (capped : capFeeds kept t = t) :
    capFeeds kept (dropEmpty t) = dropEmpty t := by
  fun_induction dropEmpty t generalizing kept with
  | case1 => rfl
  | case2 c => exact capped
  | case3 c d r pair ih =>
    obtain ⟨rfl, rfl⟩ := pair
    have behind := (capFeeds_cons_eq_self.1 capped).resolve_left fun feed => absurd feed.1 (by decide)
    have rest := (capFeeds_cons_eq_self.1 behind.2).resolve_left fun feed => absurd feed.1 (by decide)
    exact capFeeds_cons_eq_self.2 (.inr ⟨by decide, ih rest.2⟩)
  | case4 c d r _ ih =>
    rcases capFeeds_cons_eq_self.1 capped with ⟨feed, few, rest⟩ | ⟨other, rest⟩
    · exact capFeeds_cons_eq_self.2 (.inl ⟨feed, few, ih rest⟩)
    · exact capFeeds_cons_eq_self.2 (.inr ⟨other, ih rest⟩)

/-! ### Braces behind semicolons -/

theorem pair_prefix_iff {a b c : Char} {r : Text} :
    [a, b] <+: c :: r ↔ a = c ∧ r.head? = some b := by
  cases r with
  | nil => simp
  | cons d r => simp [eq_comm]

theorem not_infix_breakBraces (t : Text) : ¬[';', '}'] <:+: breakBraces t := by
  fun_induction breakBraces t with
  | case1 => decide
  | case2 c r pair ih => simpa [List.infix_cons_iff] using ih
  | case3 c r other ih =>
    rw [List.infix_cons_iff, not_or, pair_prefix_iff, head?_breakBraces]
    exact ⟨fun pair => other ⟨pair.1.symm, pair.2⟩, ih⟩

theorem breakBraces_of_not_infix {t : Text} (h : ¬[';', '}'] <:+: t) : breakBraces t = t := by
  induction t with
  | nil => rfl
  | cons c r ih =>
    rw [List.infix_cons_iff, not_or, pair_prefix_iff] at h
    rw [breakBraces, ih h.2, if_neg fun pair => h.1 ⟨pair.1.symm, pair.2⟩]

theorem head?_dropEmpty (t : Text) : (dropEmpty t).head? = t.head? := by
  fun_cases dropEmpty t with
  | case3 c d r pair => simp [pair.1]
  | _ => rfl

theorem not_infix_dropEmpty {t : Text} (h : ¬[';', '}'] <:+: t) : ¬[';', '}'] <:+: dropEmpty t := by
  fun_induction dropEmpty t with
  | case1 | case2 => exact h
  | case3 c d r pair ih =>
    simp only [List.infix_cons_iff, not_or] at h
    simpa [List.infix_cons_iff] using ih h.2.2
  | case4 c d r other ih =>
    rw [List.infix_cons_iff, not_or, pair_prefix_iff] at h
    rw [List.infix_cons_iff, not_or, pair_prefix_iff, head?_dropEmpty]
    exact ⟨h.1, ih h.2⟩

theorem dropEmpty_of_not_infix {t : Text} (h : ¬['{', ';'] <:+: t) : dropEmpty t = t := by
  induction t with
  | nil => rfl
  | cons c r ih =>
    rw [List.infix_cons_iff, not_or, pair_prefix_iff] at h
    rw [dropEmpty_cons fun pair => h.1 ⟨pair.1.symm, pair.2⟩, ih h.2]

/-! ### Braces drawn together -/

/-- An opening brace whose next solid character closes it has it right behind. -/
def Drawn : Text → Prop
  | [] => True
  | c :: r => (c = '{' → (trimLeft r).head? = some '}' → r.head? = some '}') ∧ Drawn r

theorem Drawn.suffix {s t : Text} (h : Drawn t) (behind : s <:+ t) : Drawn s := by
  induction t with
  | nil => rwa [List.suffix_nil.1 behind]
  | cons c r ih =>
    rcases List.suffix_cons_iff.1 behind with rfl | behind
    · exact h
    · exact ih h.2 behind

/-- Blanks at the end do not matter. -/
theorem Drawn.front {t w : Text} (blank : ∀ c ∈ w, isBlank c = true) (h : Drawn (t ++ w)) :
    Drawn t := by
  induction t with
  | nil => trivial
  | cons c r ih =>
    refine ⟨fun brace closes => ?_, ih h.2⟩
    have nonempty : r ≠ [] := by
      rintro rfl
      cases closes
    have whole : (trimLeft (r ++ w)).head? = some '}' := by
      rw [← head?_solid, solid_append, solid_of_blank blank, List.append_nil, head?_solid, closes]
    exact (List.head?_append_of_ne_nil r nonempty).symm.trans (h.1 brace whole)

theorem Drawn.trim {t : Text} (h : Drawn t) : Drawn (trim t) := by
  obtain ⟨w, blank, cut⟩ := exists_trimRight_append (trimLeft t)
  have left : Drawn (trimLeft t) := h.suffix (List.dropWhile_suffix _)
  exact (cut ▸ left).front blank

/-- A pass that keeps the solid characters and copies a closing brace at the front. -/
theorem Drawn.copy {c : Char} {r s : Text} (h : Drawn (c :: r)) (same : solid s = solid r)
    (copies : r.head? = some '}' → s.head? = some '}') (rest : Drawn s) : Drawn (c :: s) := by
  refine ⟨fun brace closes => copies (h.1 brace ?_), rest⟩
  rw [← head?_solid, ← same, head?_solid, closes]

theorem drawn_joinBraces (t : Text) : Drawn (joinBraces t) := by
  fun_induction joinBraces t with
  | case1 => trivial
  | case2 r rest found ih => exact ⟨fun _ _ => rfl, fun brace => absurd brace (by decide), ih⟩
  | case3 r other ih =>
    refine ⟨fun _ closes => ?_, ih⟩
    rw [← head?_solid, solid_joinBraces, head?_solid] at closes
    obtain ⟨rest, found⟩ := List.head?_eq_some_iff.1 closes
    exact absurd found (other rest)
  | case4 c r other ih => exact ⟨fun brace => absurd brace other, ih⟩

theorem joinBraces_of_drawn {t : Text} (h : Drawn t) : joinBraces t = t := by
  induction t with
  | nil => rw [joinBraces]
  | cons c r ih =>
    have rest := ih h.2
    by_cases brace : c = '{'
    · by_cases closes : (trimLeft r).head? = some '}'
      · obtain ⟨r, rfl⟩ := List.head?_eq_some_iff.1 (h.1 brace closes)
        rw [joinBraces_cons (by decide)] at rest
        have pair := joinBraces_pair (w := []) (by simp) r
        rw [(List.cons.inj rest).2] at pair
        rw [brace]
        exact pair
      · rw [brace, joinBraces_brace closes, rest]
    · rw [joinBraces_cons brace, rest]

theorem head?_tightenEnds {t : Text} (solid : ∀ c ∈ t.head?, isPad c = false) :
    (tightenEnds t).head? = t.head? := by
  cases t with
  | nil => rw [tightenEnds]
  | cons c r =>
    rw [tightenEnds, if_neg (by simp [solid c rfl])]
    rfl

theorem drawn_tightenEnds {t : Text} (h : Drawn t) : Drawn (tightenEnds t) := by
  fun_induction tightenEnds t with
  | case1 => trivial
  | case2 c r pad rest found ends ih =>
    have behind : ';' :: rest <:+ c :: r :=
      found ▸ (List.dropWhile_suffix _).trans (List.suffix_cons c r)
    exact ⟨fun brace => absurd brace (by decide), ih (h.suffix behind).2⟩
  | case3 c r _ _ _ _ ih | case4 c r _ _ ih | case5 c r _ ih =>
    refine h.copy (solid_tightenEnds r) (fun closes => ?_) (ih h.2)
    rw [head?_tightenEnds] <;> simp [closes, isPad]

theorem drawn_capFeeds {kept : Nat} {t : Text} (h : Drawn t) : Drawn (capFeeds kept t) := by
  fun_induction capFeeds kept t with
  | case1 => trivial
  | case2 kept r room ih => exact ⟨fun brace => absurd brace (by decide), ih h.2⟩
  | case3 kept r full ih => exact ih h.2
  | case4 kept c r other ih =>
    refine h.copy (solid_capFeeds 0 r) (fun closes => ?_) (ih h.2)
    obtain ⟨r, rfl⟩ := List.head?_eq_some_iff.1 closes
    rfl

theorem drawn_breakBraces {t : Text} (h : Drawn t) : Drawn (breakBraces t) := by
  fun_induction breakBraces t with
  | case1 => trivial
  | case2 c r pair ih =>
    exact ⟨fun brace => absurd brace (by decide), fun brace => absurd brace (by decide), ih h.2⟩
  | case3 c r other ih =>
    exact h.copy (solid_breakBraces r) (fun closes => (head?_breakBraces r).trans closes) (ih h.2)

/-! ### Padding before semicolons -/

/-- No padding stands before a semicolon that ends a line or a body. -/
def Tight : Text → Prop
  | [] => True
  | c :: r => (isPad c = true →
      ∀ rest, r.dropWhile isPad = ';' :: rest → endsMember rest = false) ∧ Tight r

theorem Tight.suffix {s t : Text} (h : Tight t) (behind : s <:+ t) : Tight s := by
  induction t with
  | nil => rwa [List.suffix_nil.1 behind]
  | cons c r ih =>
    rcases List.suffix_cons_iff.1 behind with rfl | behind
    · exact h
    · exact ih h.2 behind

theorem tightenEnds_of_tight {t : Text} (h : Tight t) : tightenEnds t = t := by
  induction t with
  | nil => rw [tightenEnds]
  | cons c r ih => rw [tightenEnds_cons h.1, ih h.2]

theorem endsMember_eq (t : Text) : endsMember t =
    ((t.dropWhile isPad).head?.all fun c => c == '\n' || c == '}') := by
  rw [endsMember]
  split <;> next left => simp [left]

theorem isPad_head?_dropWhile {t : Text} : ∀ c ∈ (t.dropWhile isPad).head?, isPad c = false := by
  intro c head
  have := List.head?_dropWhile_not isPad t
  rwa [show (t.dropWhile isPad).head? = some c from head] at this

/-- The pass copies padding, or drops it down to what follows, whose first character it copies. -/
structure KeepsPads (pass : Text → Text) : Prop where
  drop : ∀ t, (pass t).dropWhile isPad = pass (t.dropWhile isPad)
  head : ∀ {t}, (∀ c ∈ t.head?, isPad c = false) → (pass t).head? = t.head?

section
variable {pass : Text → Text}

theorem KeepsPads.head?_drop (h : KeepsPads pass) (t : Text) :
    ((pass t).dropWhile isPad).head? = (t.dropWhile isPad).head? := by
  rw [h.drop, h.head isPad_head?_dropWhile]

theorem KeepsPads.endsMember (h : KeepsPads pass) (t : Text) :
    endsMember (pass t) = endsMember t := by
  rw [endsMember_eq, endsMember_eq, h.head?_drop]

theorem KeepsPads.exists_semicolon (h : KeepsPads pass) {r rest : Text}
    (found : (pass r).dropWhile isPad = ';' :: rest) :
    ∃ rest', r.dropWhile isPad = ';' :: rest' ∧ pass (';' :: rest') = ';' :: rest := by
  have head := h.head?_drop r
  rw [found] at head
  obtain ⟨rest', left⟩ := List.head?_eq_some_iff.1 head.symm
  exact ⟨rest', left, by rw [← left, ← h.drop, found]⟩

end

theorem keepsPads_tightenEnds : KeepsPads tightenEnds := by
  refine ⟨fun t => ?_, head?_tightenEnds⟩
  have semicolon (rest : Text) : tightenEnds (';' :: rest) = ';' :: tightenEnds rest :=
    tightenEnds_cons fun pad => absurd pad (by decide)
  fun_induction tightenEnds t with
  | case1 => rw [List.dropWhile_nil, tightenEnds]
  | case2 c r pad rest found ends ih =>
    rw [List.dropWhile_cons_of_pos pad, found, semicolon]
    rfl
  | case3 c r pad _ _ _ ih | case4 c r pad _ ih =>
    rw [List.dropWhile_cons_of_pos pad, List.dropWhile_cons_of_pos pad, ih]
  | case5 c r other ih =>
    rw [List.dropWhile_cons_of_neg other, List.dropWhile_cons_of_neg other, tightenEnds,
      if_neg other]

theorem keepsPads_capFeeds : KeepsPads (capFeeds 0) := by
  refine ⟨fun t => ?_, fun {t} _ => ?_⟩
  · induction t with
    | nil => rfl
    | cons c r ih =>
      by_cases pad : isPad c = true
      · have other : c ≠ '\n' := by
          rintro rfl
          cases pad
        rw [capFeeds, if_neg other, List.dropWhile_cons_of_pos pad, ih,
          List.dropWhile_cons_of_pos pad]
      · rw [List.dropWhile_cons_of_neg pad, capFeeds]
        split <;> simp [pad]
  · cases t with
    | nil => rfl
    | cons c r =>
      rw [capFeeds]
      split <;> rfl

theorem keepsPads_breakBraces : KeepsPads breakBraces := by
  refine ⟨fun t => ?_, fun {t} _ => head?_breakBraces t⟩
  induction t with
  | nil => rfl
  | cons c r ih =>
    by_cases pad : isPad c = true
    · have other : c ≠ ';' := by
        rintro rfl
        cases pad
      rw [breakBraces, if_neg fun pair => other pair.1, List.dropWhile_cons_of_pos pad, ih,
        List.dropWhile_cons_of_pos pad]
    · rw [List.dropWhile_cons_of_neg pad, breakBraces]
      split
      · rfl
      · rw [List.dropWhile_cons_of_neg pad]

theorem tight_tightenEnds (t : Text) : Tight (tightenEnds t) := by
  fun_induction tightenEnds t with
  | case1 => trivial
  | case2 c r pad rest found ends ih => exact ⟨fun pad => absurd pad (by decide), ih⟩
  | case3 c r pad rest found other ih =>
    refine ⟨fun _ rest' left => ?_, ih⟩
    obtain ⟨rest'', same, written⟩ := keepsPads_tightenEnds.exists_semicolon left
    obtain ⟨-, rfl⟩ := List.cons.inj (found.symm.trans same)
    rw [tightenEnds_cons fun pad => absurd pad (by decide)] at written
    rw [← (List.cons.inj written).2, keepsPads_tightenEnds.endsMember]
    simpa using other
  | case4 c r pad other ih =>
    refine ⟨fun _ rest left => ?_, ih⟩
    obtain ⟨rest', same, -⟩ := keepsPads_tightenEnds.exists_semicolon left
    exact absurd same (other rest')
  | case5 c r other ih => exact ⟨fun pad => absurd pad other, ih⟩

theorem tight_capFeeds {kept : Nat} {t : Text} (h : Tight t) : Tight (capFeeds kept t) := by
  fun_induction capFeeds kept t with
  | case1 => trivial
  | case2 kept r room ih => exact ⟨fun pad => absurd pad (by decide), ih h.2⟩
  | case3 kept r full ih => exact ih h.2
  | case4 kept c r other ih =>
    refine ⟨fun pad rest left => ?_, ih h.2⟩
    obtain ⟨rest', same, written⟩ := keepsPads_capFeeds.exists_semicolon left
    have copied : capFeeds 0 (';' :: rest') = ';' :: capFeeds 0 rest' := rfl
    rw [copied] at written
    rw [← (List.cons.inj written).2, keepsPads_capFeeds.endsMember, h.1 pad rest' same]

theorem tight_breakBraces {t : Text} (h : Tight t) : Tight (breakBraces t) := by
  fun_induction breakBraces t with
  | case1 => trivial
  | case2 c r pair ih =>
    exact ⟨fun pad => absurd pad (by decide), fun pad => absurd pad (by decide), ih h.2⟩
  | case3 c r other ih =>
    refine ⟨fun pad rest left => ?_, ih h.2⟩
    obtain ⟨rest', same, written⟩ := keepsPads_breakBraces.exists_semicolon left
    have open' := h.1 pad rest' same
    -- A semicolon right before a brace ends a member, so no line feed is put behind this one.
    have apart : ¬(';' = ';' ∧ rest'.head? = some '}') := by
      rintro ⟨-, brace⟩
      obtain ⟨r, rfl⟩ := List.head?_eq_some_iff.1 brace
      cases open'
    rw [breakBraces, if_neg apart] at written
    rw [← (List.cons.inj written).2, keepsPads_breakBraces.endsMember, open']

/-- The blanks of the text are spaces, tabs and line feeds. -/
def Plain (t : Text) : Prop := ∀ c ∈ t, isBlank c = true → c ∈ [' ', '\t', '\n']

theorem endsMember_of_plain {w : Text} (blank : ∀ c ∈ w, isBlank c = true) (plain : Plain w) :
    endsMember w = true := by
  rw [endsMember_eq]
  cases head : (w.dropWhile isPad).head? with
  | none => rfl
  | some c =>
    have member : c ∈ w := (List.dropWhile_sublist _).subset (List.mem_of_head? head)
    have other := isPad_head?_dropWhile c head
    have signs := plain c member (blank c member)
    simp only [isPad, Bool.or_eq_false_iff, beq_eq_false_iff_ne] at other
    simp_all

theorem endsMember_append {t w : Text} (blank : ∀ c ∈ w, isBlank c = true) (plain : Plain w)
    (ends : endsMember t = true) : endsMember (t ++ w) = true := by
  rw [endsMember_eq] at ends ⊢
  rw [List.dropWhile_append]
  split
  · exact (endsMember_eq w).symm.trans (endsMember_of_plain blank plain)
  · next some_char =>
    rwa [List.head?_append_of_ne_nil _ (by simpa using some_char)]

/-- Blanks at the end do not matter unless they are neither padding nor line feeds. -/
theorem Tight.front {t w : Text} (blank : ∀ c ∈ w, isBlank c = true) (plain : Plain w)
    (h : Tight (t ++ w)) : Tight t := by
  induction t with
  | nil => trivial
  | cons c r ih =>
    refine ⟨fun pad rest left => ?_, ih h.2⟩
    have whole : (r ++ w).dropWhile isPad = ';' :: (rest ++ w) := by
      rw [List.dropWhile_append, left]
      rfl
    have goesOn := h.1 pad _ whole
    cases ends : endsMember rest with
    | false => rfl
    | true =>
      rw [endsMember_append blank plain ends] at goesOn
      cases goesOn

theorem Tight.trim {t : Text} (plain : Plain t) (h : Tight t) : Tight (trim t) := by
  obtain ⟨w, blank, cut⟩ := exists_trimRight_append (trimLeft t)
  have left : trimLeft t <:+ t := List.dropWhile_suffix _
  have plainEnd : Plain w := by
    intro c member
    exact plain c (left.subset (cut ▸ List.mem_append_right _ member))
  exact (cut ▸ h.suffix left).front blank plainEnd

/-! ### The blanks of a text -/

theorem joinBraces_sublist (t : Text) : (joinBraces t).Sublist t := by
  fun_induction joinBraces t with
  | case1 => exact .slnil
  | case2 r rest found ih =>
    have behind : ('}' :: rest).Sublist r := by
      rw [← found]
      exact List.dropWhile_sublist _
    exact ((ih.cons_cons '}').trans behind).cons_cons '{'
  | case3 r _ ih | case4 c r _ ih => exact ih.cons_cons _

theorem tightenEnds_sublist (t : Text) : (tightenEnds t).Sublist t := by
  fun_induction tightenEnds t with
  | case1 => exact .slnil
  | case2 c r pad rest found ends ih =>
    have behind : (';' :: rest).Sublist r := by
      rw [← found]
      exact List.dropWhile_sublist _
    exact ((ih.cons_cons ';').trans behind).cons c
  | case3 c r _ _ _ _ ih | case4 c r _ _ ih | case5 c r _ ih => exact ih.cons_cons c

theorem capFeeds_sublist (kept : Nat) (t : Text) : (capFeeds kept t).Sublist t := by
  fun_induction capFeeds kept t with
  | case1 => exact .slnil
  | case3 kept r full ih => exact ih.cons _
  | case2 kept r room ih | case4 kept c r other ih => exact ih.cons_cons _

theorem mem_breakBraces {c : Char} {t : Text} (member : c ∈ breakBraces t) : c ∈ t ∨ c = '\n' := by
  fun_induction breakBraces t with
  | case1 => cases member
  | case2 d r pair ih => simp_all; tauto
  | case3 d r other ih => simp_all; tauto

/-! ### All passes together -/

/-- The passes that touch blanks only. -/
def respace (t : Text) : Text := breakBraces (capFeeds 0 (tightenEnds (joinBraces t)))

theorem clean_eq_respace (t : Text) : clean t = trim (dropEmpty (respace t)) := rfl

theorem solid_respace (t : Text) : solid (respace t) = solid t := by
  rw [respace, solid_breakBraces, solid_capFeeds, solid_tightenEnds, solid_joinBraces]

theorem drawn_respace (t : Text) : Drawn (respace t) :=
  drawn_breakBraces (drawn_capFeeds (drawn_tightenEnds (drawn_joinBraces t)))

theorem tight_respace (t : Text) : Tight (respace t) :=
  tight_breakBraces (tight_capFeeds (tight_tightenEnds _))

theorem capFeeds_respace (t : Text) : capFeeds 0 (respace t) = respace t :=
  capFeeds_breakBraces (capFeeds_capFeeds (by decide) _)

theorem Plain.respace {t : Text} (plain : Plain t) : Plain (respace t) := by
  intro c member blank
  rcases mem_breakBraces member with inside | rfl
  · have shorter : (capFeeds 0 (tightenEnds (joinBraces t))).Sublist t :=
      (capFeeds_sublist 0 _).trans ((tightenEnds_sublist _).trans (joinBraces_sublist t))
    exact plain c (shorter.subset inside) blank
  · decide

theorem trim_infix (t : Text) : trim t <:+: t := by
  obtain ⟨w, -, cut⟩ := exists_trimRight_append (trimLeft t)
  have front : trim t <+: trimLeft t := ⟨w, cut.symm⟩
  exact front.isInfix.trans (List.dropWhile_suffix _).isInfix

/-- Where no semicolon is the next solid character behind an opening brace, none is dropped. -/
theorem dropEmpty_respace {t : Text} (none_behind : ¬['{', ';'] <:+: solid t) :
    dropEmpty (respace t) = respace t := by
  refine dropEmpty_of_not_infix fun inside => none_behind ?_
  have kept : ['{', ';'] <:+: solid (respace t) := inside.filter (!isBlank ·)
  rwa [solid_respace] at kept

/-- **Cleaning a text respaces it.** The result starts and ends with solid characters, has no three
line feeds in a row and no brace closing right behind a semicolon; its solid characters are those
of the text, with one semicolon at most left out behind an opening brace. Where no semicolon comes
next behind a brace, no solid character is left out, and a text whose blanks are spaces, tabs and
line feeds is clean once it is cleaned. -/
theorem clean_normalizes (t : Text) :
    trim (clean t) = clean t ∧ ¬['\n', '\n', '\n'] <:+: clean t ∧ ¬[';', '}'] <:+: clean t ∧
      Thinned (solid t) (solid (clean t)) ∧
      (¬['{', ';'] <:+: solid t → solid (clean t) = solid t ∧
        ((∀ c ∈ t, isBlank c = true → c ∈ [' ', '\t', '\n']) → clean (clean t) = clean t)) := by
  have feeds : ¬['\n', '\n', '\n'] <:+: dropEmpty (respace t) :=
    capFeeds_eq_self_iff.1 (capFeeds_dropEmpty (capFeeds_respace t))
  have breaks : ¬[';', '}'] <:+: dropEmpty (respace t) :=
    not_infix_dropEmpty (not_infix_breakBraces _)
  have inside : clean t <:+: dropEmpty (respace t) := trim_infix _
  have noRow : ¬['\n', '\n', '\n'] <:+: clean t := fun row => feeds (row.trans inside)
  have noBreak : ¬[';', '}'] <:+: clean t := fun pair => breaks (pair.trans inside)
  have thinned : Thinned (solid t) (solid (clean t)) := by
    rw [clean_eq_respace, solid_trim, ← solid_respace t]
    exact thinned_dropEmpty (respace t)
  refine ⟨trim_trim _, noRow, noBreak, thinned, fun none_behind => ?_⟩
  have whole : clean t = trim (respace t) := by
    rw [clean_eq_respace, dropEmpty_respace none_behind]
  have same : solid (clean t) = solid t := by rw [whole, solid_trim, solid_respace]
  refine ⟨same, fun plain => ?_⟩
  have drawn : Drawn (clean t) := whole ▸ (drawn_respace t).trim
  have tight : Tight (clean t) := whole ▸ (tight_respace t).trim (Plain.respace plain)
  have respaced : respace (clean t) = clean t := by
    rw [respace, joinBraces_of_drawn drawn, tightenEnds_of_tight tight,
      capFeeds_eq_self_iff.2 noRow, breakBraces_of_not_infix noBreak]
  rw [clean_eq_respace (clean t), dropEmpty_respace (same ▸ none_behind), respaced]
  exact trim_trim _

/-- An empty body, padding before a semicolon and a row of line feeds. -/
theorem clean_respaces_text :
    let t := "interface A \x7b\t\n\x7d\n\n\n\ntype B = \x7b c: D ; \x7d ;\n".toList
    (¬['{', ';'] <:+: solid t ∧ ∀ c ∈ t, isBlank c = true → c ∈ [' ', '\t', '\n']) ∧
      solid (clean t) = solid t ∧ clean (clean t) = clean t ∧
      clean t = "interface A \x7b\x7d\n\ntype B = \x7b c: D; \x7d;".toList := by
  intro t
  have none_behind : ¬['{', ';'] <:+: solid t := by decide +kernel
  have plain : ∀ c ∈ t, isBlank c = true → c ∈ [' ', '\t', '\n'] := by decide +kernel
  obtain ⟨-, -, -, -, settled⟩ := clean_normalizes t
  obtain ⟨same, again⟩ := settled none_behind
  exact ⟨⟨none_behind, plain⟩, same, again plain, by decide +kernel⟩

-- A second semicolon behind a brace and a carriage return at the end are left for a second cleaning.
example : clean "\x7b;;".toList = "\x7b;".toList ∧ clean "\x7b;".toList = "\x7b".toList ∧
    clean "A ;\r".toList = "A ;".toList ∧ clean "A ;".toList = "A;".toList := by decide +kernel

end Ambient.Cleanup
