import Ambient.Text.Basic

/-!
Trimming, joining and cutting. Blanks at the end of a text are invisible to trimming, a text with a
solid first and last character is left as it is, and joined lines are cut into themselves.
-/

namespace Ambient

theorem trimRight_append_blank {w : Text} (h : ∀ c ∈ w, isBlank c = true) (t : Text) :
    trimRight (t ++ w) = trimRight t := by
  rw [trimRight, trimRight, trimRightBy, trimRightBy, List.reverse_append,
    List.dropWhile_append_of_pos fun c member => h c (List.mem_reverse.1 member)]

/-- What trimming takes from the end satisfies the predicate. -/
theorem exists_trimRightBy_append (p : Char → Bool) (t : Text) :
    ∃ w, (∀ c ∈ w, p c = true) ∧ t = trimRightBy p t ++ w := by
  refine ⟨(t.reverse.takeWhile p).reverse, fun c member => ?_, ?_⟩
  · exact List.all_eq_true.1 List.all_takeWhile c (List.mem_reverse.1 member)
  · rw [trimRightBy, ← List.reverse_append, List.takeWhile_append_dropWhile, List.reverse_reverse]

theorem exists_trimRight_append (t : Text) :
    ∃ w, (∀ c ∈ w, isBlank c = true) ∧ t = trimRight t ++ w := exists_trimRightBy_append isBlank t

/-- What trimming takes from the front is blank. -/
theorem exists_trimLeft_append (t : Text) :
    ∃ w, (∀ c ∈ w, isBlank c = true) ∧ t = w ++ trimLeft t :=
  ⟨t.takeWhile isBlank, List.all_eq_true.1 List.all_takeWhile, List.takeWhile_append_dropWhile.symm⟩

theorem trimRightBy_of_getLast {p : Char → Bool} {t : Text} {c : Char} (last : t.getLast? = some c)
    (other : p c = false) : trimRightBy p t = t := by
  obtain ⟨front, rfl⟩ := List.getLast?_eq_some_iff.1 last
  simp [trimRightBy, other]

theorem trimRight_of_getLast {t : Text} {c : Char} (last : t.getLast? = some c)
    (solid : isBlank c = false) : trimRight t = t := trimRightBy_of_getLast last solid

theorem trimLeft_of_head {t : Text} {c : Char} (head : t.head? = some c)
    (solid : isBlank c = false) : trimLeft t = t := by
  obtain ⟨rest, rfl⟩ := List.head?_eq_some_iff.1 head
  simp [trimLeft, solid]

theorem trim_of_ends {t : Text} {c d : Char} (head : t.head? = some c) (last : t.getLast? = some d)
    (solidHead : isBlank c = false) (solidLast : isBlank d = false) : trim t = t := by
  rw [trim, trimLeft_of_head head solidHead, trimRight_of_getLast last solidLast]

theorem trim_append_blank {w : Text} (h : ∀ c ∈ w, isBlank c = true) (t : Text) :
    trim (t ++ w) = trim t := by
  rw [trim, trim, trimLeft, trimLeft, List.dropWhile_append]
  split
  · next empty =>
    have blank : w.dropWhile isBlank = [] := by
      rw [← List.append_nil w, List.dropWhile_append_of_pos h]
      rfl
    rw [blank, List.isEmpty_iff.1 empty]
  · exact trimRight_append_blank h _

theorem trimLeft_space (t : Text) : trimLeft (' ' :: t) = trimLeft t :=
  List.dropWhile_cons_of_pos (by decide)

theorem trim_space (t : Text) : trim (' ' :: t) = trim t := by rw [trim, trimLeft_space, ← trim]

theorem trim_trimRight (t : Text) : trim (trimRight t) = trim t := by
  obtain ⟨w, blank, split⟩ := exists_trimRight_append t
  conv => rhs; rw [split]
  exact (trim_append_blank blank _).symm

theorem trimRight_trimRight (t : Text) : trimRight (trimRight t) = trimRight t := by
  obtain ⟨w, blank, split⟩ := exists_trimRight_append t
  conv => rhs; rw [split]
  exact (trimRight_append_blank blank _).symm

theorem getLast?_trimRight {t : Text} (h : trimRight t ≠ []) :
    ∃ c, (trimRight t).getLast? = some c ∧ isBlank c = false := by
  rw [trimRight, trimRightBy, List.getLast?_reverse]
  have rest : t.reverse.dropWhile isBlank ≠ [] := by simpa [trimRight, trimRightBy] using h
  obtain ⟨c, r, cons⟩ := List.exists_cons_of_ne_nil rest
  exact ⟨c, by rw [cons]; rfl, by simpa [cons] using List.head_dropWhile_not isBlank rest⟩

theorem head_trimLeft_solid {t : Text} {c : Char} (h : (trimLeft t).head? = some c) :
    isBlank c = false := by
  have solid := List.head?_dropWhile_not isBlank t
  rw [← trimLeft, h] at solid
  simpa using solid

theorem trimLeft_trimLeft (t : Text) : trimLeft (trimLeft t) = trimLeft t := by
  cases head : (trimLeft t).head? with
  | none => rw [List.head?_eq_none_iff.1 head]; rfl
  | some c => exact trimLeft_of_head head (head_trimLeft_solid head)

theorem trim_trim (t : Text) : trim (trim t) = trim t := by
  calc trim (trim t) = trim (trimLeft t) := trim_trimRight (trimLeft t)
    _ = trim t := congrArg trimRight (trimLeft_trimLeft t)

theorem trimLeft_trim (t : Text) : trimLeft (trim t) = trim t := by
  obtain ⟨w, -, split⟩ := exists_trimRight_append (trimLeft t)
  cases spelled : trim t with
  | nil => rfl
  | cons c r =>
    have head : (trimLeft t).head? = some c := by
      rw [split, ← trim, spelled]
      rfl
    exact trimLeft_of_head (c := c) rfl (head_trimLeft_solid head)

theorem trimRight_append_of_ne_nil (t : Text) {r : Text} (h : trimRight r ≠ []) :
    trimRight (t ++ r) = t ++ trimRight r := by
  obtain ⟨w, blank, split⟩ := exists_trimRight_append r
  obtain ⟨c, last, solid⟩ := getLast?_trimRight h
  rw [split, ← List.append_assoc, trimRight_append_blank blank, ← split]
  exact trimRight_of_getLast (by rw [List.getLast?_append, last]; rfl) solid

theorem trimRight_ne_nil {t : Text} {c : Char} (member : c ∈ t) (solid : isBlank c = false) :
    trimRight t ≠ [] := by
  intro empty
  obtain ⟨w, blank, split⟩ := exists_trimRight_append t
  rw [empty, List.nil_append] at split
  have := blank c (split ▸ member)
  simp [solid] at this

/-- Trimming at the end keeps a solid character at the head. -/
theorem head?_trimRight {t : Text} {c : Char} (head : t.head? = some c) (solid : isBlank c = false) :
    (trimRight t).head? = some c := by
  obtain ⟨w, -, split⟩ := exists_trimRight_append t
  obtain ⟨d, r, kept⟩ :=
    List.exists_cons_of_ne_nil (trimRight_ne_nil (List.mem_of_head? head) solid)
  rw [split, kept] at head
  rw [kept]
  exact head

/-- A character that stays keeps the text before it, whatever stands behind. -/
theorem trimRightBy_append_of_getLast {p : Char → Bool} {t : Text} {c : Char}
    (last : t.getLast? = some c) (other : p c = false) (r : Text) :
    trimRightBy p (t ++ r) = t ++ trimRightBy p r := by
  obtain ⟨front, rfl⟩ := List.getLast?_eq_some_iff.1 last
  simp only [trimRightBy, List.reverse_append, List.reverse_singleton, List.dropWhile_append]
  cases kept : r.reverse.dropWhile p <;> simp [other]

theorem trimRight_append_of_getLast {t : Text} {c : Char} (last : t.getLast? = some c)
    (solid : isBlank c = false) (r : Text) : trimRight (t ++ r) = t ++ trimRight r :=
  trimRightBy_append_of_getLast last solid r

theorem trimLeft_trimRight_append {t : Text} (h : trim t ≠ []) (r : Text) :
    trimLeft (trimRight t ++ r) = trim t ++ r := by
  have split : t = t.takeWhile isBlank ++ trimLeft t := List.takeWhile_append_dropWhile.symm
  have right : trimRight t = t.takeWhile isBlank ++ trim t := by
    conv => lhs; rw [split]
    exact trimRight_append_of_ne_nil _ h
  obtain ⟨w, -, whole⟩ := exists_trimRight_append (trimLeft t)
  obtain ⟨c, u, cons⟩ := List.exists_cons_of_ne_nil h
  have solid : isBlank c = false := by
    refine head_trimLeft_solid (t := t) ?_
    rw [whole, show trimRight (trimLeft t) = c :: u from cons]
    rfl
  rw [right, List.append_assoc, trimLeft,
    List.dropWhile_append_of_pos fun d member => List.all_eq_true.1 List.all_takeWhile d member, cons]
  simp [solid]

/-- Both ends can be trimmed in either order. -/
theorem trimLeft_trimRight (t : Text) : trimLeft (trimRight t) = trim t := by
  by_cases blank : trim t = []
  · cases left : trimLeft (trimRight t) with
    | nil => exact blank.symm
    | cons c r =>
      have solid := head_trimLeft_solid (t := trimRight t) (c := c) (by rw [left]; rfl)
      have none : trimRight (c :: r) = [] := by rw [← left, ← trim, trim_trimRight, blank]
      exact absurd none (trimRight_ne_nil List.mem_cons_self solid)
  · have whole := trimLeft_trimRight_append blank []
    rwa [List.append_nil, List.append_nil] at whole

@[simp] theorem joinLines_singleton (t : Text) : joinLines [t] = t := by
  simp [joinLines, joinPieces, List.intercalate]

theorem joinPieces_cons_of_ne_nil (mark : Char) (t : Text) {ts : List Text} (h : ts ≠ []) :
    joinPieces mark (t :: ts) = t ++ [mark] ++ joinPieces mark ts := by
  obtain ⟨u, us, rfl⟩ := List.exists_cons_of_ne_nil h
  rw [joinPieces_cons_cons]
  simp

theorem joinPieces_append (mark : Char) {ts us : List Text} (h : ts ≠ []) (k : us ≠ []) :
    joinPieces mark (ts ++ us) = joinPieces mark ts ++ [mark] ++ joinPieces mark us := by
  induction ts with
  | nil => exact absurd rfl h
  | cons t ts ih =>
    cases ts with
    | nil => simpa [joinPieces, List.intercalate] using joinPieces_cons_of_ne_nil mark t k
    | cons u ts =>
      rw [List.cons_append, joinPieces_cons_of_ne_nil mark t (by simp), ih (by simp),
        joinPieces_cons_of_ne_nil mark t (by simp)]
      simp

theorem joinPieces_concat (mark : Char) {ps : List Text} (h : ps ≠ []) (p : Text) :
    joinPieces mark (ps ++ [p]) = joinPieces mark ps ++ [mark] ++ p := by
  rw [joinPieces_append mark h (by simp)]
  simp [joinPieces, List.intercalate]

/-- Joined pieces end as the last one does, if that is not empty. -/
theorem getLast?_joinPieces {mark c : Char} {p : Text} (ps : List Text) (h : p.getLast? = some c) :
    (joinPieces mark (ps ++ [p])).getLast? = some c := by
  by_cases empty : ps = []
  · simpa [empty, joinPieces, List.intercalate] using h
  · rw [joinPieces_concat mark empty, List.getLast?_append, h]
    rfl

/-- Pieces with a mark after each of them. -/
theorem flatMap_concat_mark (mark : Char) {ps : List Text} (h : ps ≠ []) :
    ps.flatMap (· ++ [mark]) = joinPieces mark ps ++ [mark] := by
  induction ps with
  | nil => exact absurd rfl h
  | cons p ps ih =>
    cases ps with
    | nil => simp [joinPieces, List.intercalate]
    | cons q ps =>
      rw [List.flatMap_cons, ih (by simp), joinPieces_cons_of_ne_nil mark p (by simp)]
      simp

theorem mem_intercalate {α : Type} {c : α} {mark : List α} {ps : List (List α)}
    (h : c ∈ mark.intercalate ps) : c ∈ mark ∨ ∃ p ∈ ps, c ∈ p := by
  induction ps with
  | nil => cases h
  | cons p ps ih =>
    cases ps with
    | nil => exact .inr ⟨p, by simp, by simpa [List.intercalate] using h⟩
    | cons q ps =>
      have split : mark.intercalate (p :: q :: ps) = p ++ (mark ++ mark.intercalate (q :: ps)) := by
        simp [List.intercalate]
      rw [split, List.mem_append, List.mem_append] at h
      rcases h with here | between | later
      · exact .inr ⟨p, by simp, here⟩
      · exact .inl between
      · rcases ih later with between | ⟨r, member, found⟩
        · exact .inl between
        · exact .inr ⟨r, by simp [member], found⟩

theorem intercalate_ne_nil {α : Type} (mark : List α) {p : List α} (h : p ≠ [])
    (ps : List (List α)) : mark.intercalate (p :: ps) ≠ [] := by
  cases ps <;> simp [List.intercalate, h]

/-- Groups of pieces with two marks between the groups: an empty piece divides them. -/
theorem intercalate_joinPieces (mark : Char) {gs : List (List Text)} (h : ∀ g ∈ gs, g ≠ []) :
    [mark, mark].intercalate (gs.map (joinPieces mark)) =
      joinPieces mark ([[]].intercalate gs) := by
  induction gs with
  | nil => rfl
  | cons g gs ih =>
    cases gs with
    | nil => simp [List.intercalate]
    | cons g' gs =>
      have later := ih fun g member => h g (by simp [member])
      have nonempty : [[]].intercalate (g' :: gs) ≠ [] := intercalate_ne_nil _ (h g' (by simp)) gs
      have split : [[]].intercalate (g :: g' :: gs) = g ++ ([] :: [[]].intercalate (g' :: gs)) := by
        simp [List.intercalate]
      rw [split, joinPieces_append mark (h g (by simp)) (by simp),
        joinPieces_cons_of_ne_nil mark [] nonempty, ← later]
      simp [List.intercalate]

/-- Pieces joined run by run. -/
theorem joinPieces_flatMap (mark : Char) {α : Type} {run : α → List Text} {xs : List α}
    (h : ∀ x ∈ xs, run x ≠ []) :
    joinPieces mark (xs.flatMap run) = joinPieces mark (xs.map fun x => joinPieces mark (run x)) := by
  induction xs with
  | nil => rfl
  | cons x xs ih =>
    have later := ih fun y member => h y (by simp [member])
    rw [List.flatMap_cons, List.map_cons]
    cases xs with
    | nil => simp [joinPieces, List.intercalate]
    | cons y ys =>
      have nonempty : (y :: ys).flatMap run ≠ [] := by simp [h y (by simp)]
      rw [joinPieces_append mark (h x (by simp)) nonempty, later,
        joinPieces_cons_of_ne_nil mark _ (by simp)]

theorem not_mem_of_mem_pieces {mark : Char} {t p : Text} (h : p ∈ pieces mark t) : mark ∉ p := by
  induction t generalizing p with
  | nil =>
    obtain rfl := List.mem_singleton.1 h
    exact List.not_mem_nil
  | cons c r ih =>
    obtain ⟨q, qs, rest⟩ := List.exists_cons_of_ne_nil (pieces_ne_nil mark r)
    rw [rest] at ih
    by_cases here : c = mark
    · rw [pieces, if_pos here, rest] at h
      rcases List.mem_cons.1 h with rfl | later
      · exact List.not_mem_nil
      · exact ih later
    · simp only [pieces, if_neg here, rest] at h
      rcases List.mem_cons.1 h with rfl | later
      · exact List.not_mem_cons_of_ne_of_not_mem (Ne.symm here) (ih List.mem_cons_self)
      · exact ih (List.mem_cons_of_mem q later)

theorem pieces_of_free {mark : Char} {t : Text} (h : mark ∉ t) : pieces mark t = [t] := by
  induction t with
  | nil => rfl
  | cons c r ih =>
    have other : c ≠ mark := fun same => h (by simp [same])
    rw [pieces, if_neg other, ih fun member => h (by simp [member])]

theorem pieces_append {mark : Char} {t : Text} (h : mark ∉ t) (r : Text) :
    pieces mark (t ++ mark :: r) = t :: pieces mark r := by
  induction t with
  | nil => rw [List.nil_append, pieces, if_pos rfl]
  | cons c t ih =>
    have other : c ≠ mark := fun same => h (by simp [same])
    rw [List.cons_append, pieces, if_neg other, ih fun member => h (by simp [member])]

/-- What holds no mark stands in the first piece. -/
theorem headD_pieces_append {mark : Char} {t : Text} (h : mark ∉ t) (r : Text) :
    (pieces mark (t ++ r)).headD [] = t ++ (pieces mark r).headD [] := by
  induction t with
  | nil => rfl
  | cons c t ih =>
    have other : c ≠ mark := fun same => h (by simp [same])
    have later := ih fun member => h (by simp [member])
    obtain ⟨p, ps, cut⟩ := List.exists_cons_of_ne_nil (pieces_ne_nil mark (t ++ r))
    rw [cut] at later
    rw [List.cons_append, pieces, if_neg other, cut, List.cons_append, ← later]
    rfl

/-- Pieces without a mark in them are what the joined text is cut into. -/
theorem pieces_joinPieces {mark : Char} {ps : List Text} (nonempty : ps ≠ [])
    (free : ∀ p ∈ ps, mark ∉ p) : pieces mark (joinPieces mark ps) = ps := by
  induction ps with
  | nil => exact absurd rfl nonempty
  | cons p ps ih =>
    cases ps with
    | nil => simpa [joinPieces, List.intercalate] using pieces_of_free (free p (by simp))
    | cons q ps =>
      rw [joinPieces_cons_cons, pieces_append (free p (by simp)),
        ih (by simp) fun r member => free r (by simp [member])]

end Ambient
