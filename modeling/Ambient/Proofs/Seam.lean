import Ambient.Proofs.Tidy

/-!
The passes of cleaning at a seam. Each pass reads a text from left to right and looks ahead from a
brace, from padding or from a semicolon. Where a text ends with none of these, no pass looks across
its end, so it works on the text and on what follows it separately.
-/

namespace Ambient

namespace Cleanup

def passes : List (Text → Text) :=
  [joinBraces, tightenEnds, capFeeds 0, breakBraces, dropEmpty, trimLeft, trimRight]

theorem clean_eq_foldl (t : Text) : clean t = passes.foldl (fun t pass => pass t) t := rfl

/-- Every pass leaves the text as it is, and it does not end with an opening brace. -/
structure Still (t : Text) : Prop where
  fixed : ∀ pass ∈ passes, pass t = t
  ending : t.getLast? ≠ some '{'

instance (t : Text) : Decidable (Still t) :=
  decidable_of_iff ((∀ pass ∈ passes, pass t = t) ∧ t.getLast? ≠ some '{')
    ⟨fun h => ⟨h.1, h.2⟩, fun h => ⟨h.1, h.2⟩⟩

/-- No pass looks across the end of `t` into `rest`. -/
def Seam (t rest : Text) : Prop := ∀ c ∈ t.getLast?, isBlank c = false ∧ c ≠ '{' ∧
  (c = ';' → ∀ d ∈ rest.head?, d = '\n')

theorem Seam.tail {c : Char} {t rest : Text} (h : Seam (c :: t) rest) : Seam t rest := by
  intro d last
  exact h d (getLast?_cons_of_mem last)

theorem Seam.behind {a t rest : Text} (h : Seam (a ++ t) rest) : Seam t rest := by
  induction a with
  | nil => exact h
  | cons c a ih => exact ih h.tail

/-- At a seam the text holds a character that is not blank. -/
theorem Seam.solid {t rest : Text} (h : Seam t rest) (nonempty : t ≠ []) :
    ∃ c ∈ t, isBlank c = false := by
  obtain ⟨c, last⟩ := Option.isSome_iff_exists.1 (List.getLast?_isSome.2 nonempty)
  exact ⟨c, List.mem_of_getLast? last, (h c last).1⟩

/-- A class of blanks is left within the text. -/
theorem Seam.dropWhile {p : Char → Bool} (blank : ∀ c, p c = true → isBlank c = true)
    {t rest : Text} (h : Seam t rest) (nonempty : t ≠ []) :
    ∃ c r, t.dropWhile p = c :: r ∧ (t ++ rest).dropWhile p = c :: (r ++ rest) := by
  obtain ⟨d, member, solid⟩ := h.solid nonempty
  cases left : t.dropWhile p with
  | nil =>
    have all := List.all_eq_true.1 (List.all_takeWhile (p := p) (l := t))
    have whole : t.takeWhile p = t := by
      have cut := List.takeWhile_append_dropWhile (p := p) (l := t)
      rwa [left, List.append_nil] at cut
    rw [whole] at all
    rw [blank d (all d member)] at solid
    cases solid
  | cons c r => exact ⟨c, r, rfl, by rw [List.dropWhile_append, left]; rfl⟩

theorem joinBraces_seam {t rest : Text} (h : Seam t rest) :
    joinBraces (t ++ rest) = joinBraces t ++ joinBraces rest := by
  generalize size : t.length = n
  induction n using Nat.strongRecOn generalizing t with
  | ind n ih =>
    cases t with
    | nil => rw [show joinBraces [] = [] by rw [joinBraces]]; rfl
    | cons c t =>
      simp only [List.length_cons] at size
      by_cases brace : c = '{'
      · subst brace
        have nonempty : t ≠ [] := by
          rintro rfl
          exact (h '{' rfl).2.1 rfl
        obtain ⟨d, r, left, leftAll⟩ := h.tail.dropWhile (p := isBlank) (fun _ blank => blank) nonempty
        by_cases pair : d = '}'
        · subst pair
          have blank : ∀ c ∈ t.takeWhile isBlank, isBlank c = true :=
            List.all_eq_true.1 List.all_takeWhile
          have cut : t = t.takeWhile isBlank ++ '}' :: r := by
            rw [← left, List.takeWhile_append_dropWhile]
          have behind : Seam ('}' :: r) rest := .behind (cut ▸ h.tail)
          have shorter : r.length < n := by
            rw [cut, List.length_append, List.length_cons] at size
            omega
          rw [cut, List.cons_append, List.append_assoc, List.cons_append, joinBraces_pair blank,
            joinBraces_pair blank, ih _ shorter behind.tail rfl]
          rfl
        · have open' : (trimLeft t).head? ≠ some '}' := by
            rw [trimLeft, left]
            simpa using pair
          have openAll : (trimLeft (t ++ rest)).head? ≠ some '}' := by
            rw [trimLeft, leftAll]
            simpa using pair
          rw [List.cons_append, joinBraces_brace openAll, joinBraces_brace open',
            ih _ (by omega) h.tail rfl]
          rfl
      · rw [List.cons_append, joinBraces_cons brace, joinBraces_cons brace, ih _ (by omega) h.tail rfl]
        rfl

theorem isBlank_of_isPad {c : Char} (h : isPad c = true) : isBlank c = true := by
  simp only [isPad, Bool.or_eq_true, beq_iff_eq] at h
  rcases h with rfl | rfl <;> decide

theorem tightenEnds_cons {c : Char} {r : Text}
    (h : isPad c = true → ∀ rest, r.dropWhile isPad = ';' :: rest → endsMember rest = false) :
    tightenEnds (c :: r) = c :: tightenEnds r := by
  rw [tightenEnds]
  split
  · next pad =>
    split
    · next rest found => rw [if_neg (by simp [h pad rest found])]
    · rfl
  · rfl

theorem tightenEnds_pads {c : Char} {r rest : Text} (pad : isPad c = true)
    (found : r.dropWhile isPad = ';' :: rest) (ends : endsMember rest = true) :
    tightenEnds (c :: r) = ';' :: tightenEnds rest := by
  rw [tightenEnds, if_pos pad]
  split
  · next rest' same =>
    obtain ⟨-, rfl⟩ := List.cons.inj (found.symm.trans same)
    rw [if_pos ends]
  · next other => exact absurd found (other rest)

theorem Seam.endsMember {t rest : Text} (h : Seam (';' :: t) rest) :
    endsMember (t ++ rest) = endsMember t := by
  cases t with
  | nil =>
    have feed := (h ';' rfl).2.2 rfl
    cases rest with
    | nil => rfl
    | cons d rest =>
      obtain rfl := feed d rfl
      rfl
  | cons c t =>
    obtain ⟨d, r, left, leftAll⟩ := h.tail.dropWhile (fun _ => isBlank_of_isPad) (by simp)
    rw [Cleanup.endsMember, Cleanup.endsMember, left, leftAll]

theorem tightenEnds_seam {t rest : Text} (h : Seam t rest) :
    tightenEnds (t ++ rest) = tightenEnds t ++ tightenEnds rest := by
  generalize size : t.length = n
  induction n using Nat.strongRecOn generalizing t with
  | ind n ih =>
    cases t with
    | nil => rw [show tightenEnds [] = [] by rw [tightenEnds]]; rfl
    | cons c t =>
      simp only [List.length_cons] at size
      have goesOn (alone : tightenEnds (c :: t) = c :: tightenEnds t)
          (whole : tightenEnds (c :: (t ++ rest)) = c :: tightenEnds (t ++ rest)) :
          tightenEnds (c :: t ++ rest) = tightenEnds (c :: t) ++ tightenEnds rest := by
        rw [List.cons_append, whole, alone, ih _ (by omega) h.tail rfl]
        rfl
      by_cases pad : isPad c = true
      · have nonempty : t ≠ [] := by
          rintro rfl
          have solid := (h c rfl).1
          rw [isBlank_of_isPad pad] at solid
          cases solid
        obtain ⟨d, r, left, leftAll⟩ := h.tail.dropWhile (fun _ => isBlank_of_isPad) nonempty
        by_cases semicolon : d = ';'
        · subst semicolon
          have cut : t = t.takeWhile isPad ++ ';' :: r := by
            rw [← left, List.takeWhile_append_dropWhile]
          have behind : Seam (';' :: r) rest := .behind (cut ▸ h.tail)
          cases ends : endsMember r with
          | true =>
            have shorter : r.length < n := by
              rw [cut, List.length_append, List.length_cons] at size
              omega
            rw [List.cons_append, tightenEnds_pads pad left ends,
              tightenEnds_pads pad leftAll (behind.endsMember.trans ends),
              ih _ shorter behind.tail rfl]
            rfl
          | false =>
            refine goesOn (tightenEnds_cons fun _ r' same => ?_) (tightenEnds_cons fun _ r' same => ?_)
            · obtain ⟨-, rfl⟩ := List.cons.inj (left.symm.trans same)
              exact ends
            · obtain ⟨-, rfl⟩ := List.cons.inj (leftAll.symm.trans same)
              exact behind.endsMember.trans ends
        · refine goesOn (tightenEnds_cons fun _ r' same => ?_) (tightenEnds_cons fun _ r' same => ?_)
          · exact absurd (List.cons.inj (left.symm.trans same)).1 semicolon
          · exact absurd (List.cons.inj (leftAll.symm.trans same)).1 semicolon
      · exact goesOn (tightenEnds_cons fun same => absurd same pad)
          (tightenEnds_cons fun same => absurd same pad)

theorem capFeeds_seam {t rest : Text} (h : Seam t rest) (nonempty : t ≠ []) (kept : Nat) :
    capFeeds kept (t ++ rest) = capFeeds kept t ++ capFeeds 0 rest := by
  induction t generalizing kept with
  | nil => exact absurd rfl nonempty
  | cons c t ih =>
    rw [List.cons_append, capFeeds, capFeeds]
    by_cases feed : c = '\n'
    · subst feed
      have more : t ≠ [] := by
        rintro rfl
        exact absurd (h '\n' rfl).1 (by decide)
      have later := ih h.tail more
      rw [if_pos rfl, if_pos rfl]
      split
      · rw [later]
        rfl
      · exact later kept
    · rw [if_neg feed, if_neg feed]
      cases t with
      | nil => rfl
      | cons d t =>
        rw [ih h.tail (by simp) 0]
        rfl

theorem breakBraces_seam {t rest : Text} (h : Seam t rest) :
    breakBraces (t ++ rest) = breakBraces t ++ breakBraces rest := by
  induction t with
  | nil => rfl
  | cons c t ih =>
    have same : c = ';' ∧ (t ++ rest).head? = some '}' ↔ c = ';' ∧ t.head? = some '}' := by
      cases t with
      | cons d t => rfl
      | nil =>
        refine and_congr_right fun semicolon => ⟨fun brace => ?_, fun brace => by cases brace⟩
        exact absurd ((h c rfl).2.2 semicolon '}' brace) (by decide)
    rw [List.cons_append, breakBraces, breakBraces, ih h.tail]
    simp only [same]
    split <;> rfl

theorem dropEmpty_cons {c : Char} {r : Text} (h : ¬(c = '{' ∧ r.head? = some ';')) :
    dropEmpty (c :: r) = c :: dropEmpty r := by
  cases r with
  | nil => rfl
  | cons d r => rw [dropEmpty, if_neg (by simpa using h)]

theorem dropEmpty_brace (r : Text) : dropEmpty ('{' :: ';' :: r) = '{' :: dropEmpty r := by
  rw [dropEmpty, if_pos ⟨rfl, rfl⟩]

theorem dropEmpty_seam {t rest : Text} (h : Seam t rest) :
    dropEmpty (t ++ rest) = dropEmpty t ++ dropEmpty rest := by
  fun_induction dropEmpty t with
  | case1 => rfl
  | case2 c =>
    have open' : ¬(c = '{' ∧ rest.head? = some ';') := fun brace => (h c rfl).2.1 brace.1
    exact dropEmpty_cons open'
  | case3 c d r pair ih =>
    obtain ⟨rfl, rfl⟩ := pair
    rw [List.cons_append, List.cons_append, dropEmpty_brace, ih h.tail.tail]
    rfl
  | case4 c d r other ih =>
    rw [List.cons_append, List.cons_append, dropEmpty_cons (by simpa using other),
      ← List.cons_append, ih h.tail]
    rfl

theorem trimRight_seam {t rest : Text} (h : Seam t rest) :
    trimRight (t ++ rest) = trimRight t ++ trimRight rest := by
  cases last : t.getLast? with
  | none => rw [List.getLast?_eq_none_iff.1 last]; rfl
  | some c =>
    have solid := (h c last).1
    rw [trimRight_append_of_getLast last solid, trimRight_of_getLast last solid]

end Cleanup

end Ambient
