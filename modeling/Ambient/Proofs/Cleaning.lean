import Ambient.Output
import Ambient.Proofs.Piece
import Ambient.Proofs.Seam

/-!
Cleaning and literals. The passes work on plain text, so a literal or comment that holds what they
look for is changed like any code. One that every pass leaves as it is (`Still`) is copied wherever
it stands, and the code around it is only respaced (`Respaced`): blanks go, a line feed comes
before a brace, a semicolon goes behind one. The pieces still fit together after that, so the lexer
reads the same literals.
-/

namespace Ambient

open Lexer

namespace Piece

open Cleanup

/-! ### Respacing -/

/-- The second sequence holds the literals of the first, with the code between them respaced. Where
a literal is right before the pieces, blanks go only at the end of the text or before a semicolon,
and no line feed goes before one. -/
inductive Respaced : Bool → List Piece → List Piece → Prop
  | nil {behind : Bool} : Respaced behind [] []
  | keep {behind : Bool} {ps qs : List Piece} (p : Piece) : Respaced p.isLiteral ps qs →
      Respaced behind (p :: ps) (p :: qs)
  | drop {behind : Bool} {ps qs : List Piece} {c : Char} {plain : c ∉ literalSigns} :
      isBlank c = true →
      (behind = true → qs = [] ∨ c ≠ '\n' ∧ (spell qs).head? = some ';') →
      Respaced behind ps qs → Respaced behind (code c plain :: ps) qs
  | feed {ps qs : List Piece} (plain : '\n' ∉ literalSigns) : Respaced false ps qs →
      Respaced false ps (code '\n' plain :: qs)
  | semicolon {behind : Bool} {ps qs : List Piece} {brace : '{' ∉ literalSigns}
      {mark : ';' ∉ literalSigns} : Respaced false ps qs →
      Respaced behind (code '{' brace :: code ';' mark :: ps) (code '{' brace :: qs)

section
variable {behind : Bool} {ps qs : List Piece}

theorem Respaced.refl (behind : Bool) (ps : List Piece) : Respaced behind ps ps := by
  induction ps generalizing behind with
  | nil => exact .nil
  | cons p ps ih => exact .keep p (ih p.isLiteral)

theorem Respaced.filter_isLiteral (h : Respaced behind ps qs) :
    qs.filter isLiteral = ps.filter isLiteral := by
  induction h with
  | nil => rfl
  | keep p _ ih => rw [List.filter_cons, List.filter_cons, ih]
  | drop _ _ _ ih => simpa [isLiteral] using ih
  | feed _ _ ih => simpa [isLiteral] using ih
  | semicolon _ ih => simpa [isLiteral] using ih

theorem allLiterals_filter (ps : List Piece) : allLiterals (ps.filter isLiteral) = allLiterals ps := by
  induction ps with
  | nil => rfl
  | cons p ps ih =>
    cases p with
    | code => exact ih
    | literal | regex => rw [List.filter_cons_of_pos rfl, allLiterals_cons, allLiterals_cons, ih]

/-- What stands right behind a literal stays there, or is the end, or a semicolon. -/
theorem Respaced.head? (h : Respaced true ps qs) : (spell qs).head? = (spell ps).head? ∨ qs = [] ∨
    (spell qs).head? = some ';' ∧ ∃ c, (spell ps).head? = some c ∧ c ≠ '\n' := by
  cases h with
  | nil => exact .inr (.inl rfl)
  | semicolon => exact .inl rfl
  | keep p =>
    rw [spell_cons, spell_cons, List.head?_append_of_ne_nil _ (text_ne_nil p),
      List.head?_append_of_ne_nil _ (text_ne_nil p)]
    exact .inl rfl
  | drop _ allowed =>
    rcases allowed rfl with ends | ⟨notFeed, mark⟩
    · exact .inr (.inl ends)
    · exact .inr (.inr ⟨mark, _, rfl, notFeed⟩)

/-- Respaced pieces fit together as before. -/
theorem Respaced.fits (h : Respaced behind ps qs) {operand : Bool} (fits : Fits operand ps) :
    Fits operand qs := by
  induction h generalizing operand with
  | nil => trivial
  | drop blank _ _ ih =>
    rw [Fits, if_pos blank] at fits
    exact ih fits
  | feed _ _ ih =>
    rw [Fits, if_pos (by decide)]
    exact ih fits
  | semicolon _ ih =>
    rw [Fits, Fits] at fits
    rw [Fits]
    exact ih fits
  | keep p next ih =>
    cases p with
    | code c plain => exact ih (by exact fits)
    | literal t closed =>
      refine ⟨fun line c head => ?_, ih fits.2⟩
      rcases next.head? with same | rfl | ⟨-, d, first, notFeed⟩
      · exact fits.1 line c (same ▸ head)
      · cases head
      · exact absurd (fits.1 line d first) notFeed
    | regex t closed =>
      refine ⟨fits.1, fun c head => ?_, ih fits.2.2⟩
      rcases next.head? with same | rfl | ⟨mark, -⟩
      · exact fits.2.1 c (same ▸ head)
      · cases head
      · rw [mark] at head
        obtain rfl := Option.some.inj head
        decide

theorem eq_nil_of_spell (h : spell ps = []) : ps = [] := by
  cases ps with
  | nil => rfl
  | cons p ps => exact absurd (List.append_eq_nil_iff.1 h).1 (text_ne_nil p)

/-- Blanks at the head may be dropped, all of them. -/
theorem exists_behind {w r : Text} (blank : ∀ c ∈ w, isBlank c = true) (h : spell ps = w ++ r) :
    ∃ ps', spell ps' = r ∧ ps' <:+ ps ∧ ∀ behind qs,
      (behind = true → qs = [] ∨ '\n' ∉ w ∧ (spell qs).head? = some ';') →
      Respaced behind ps' qs → Respaced behind ps qs := by
  induction w generalizing ps with
  | nil => exact ⟨ps, h, List.suffix_refl ps, fun _ _ _ same => same⟩
  | cons c w ih =>
    have first := blank c (by simp)
    obtain ⟨rest, rfl, spelled⟩ := eq_code_of_spell (notSign_of_isDull (isDull_of_isBlank first)) h
    obtain ⟨ps', left, suffix, dropped⟩ := ih (fun d member => blank d (by simp [member])) spelled
    refine ⟨ps', left, suffix.trans (List.suffix_cons _ _), fun behind qs allowed next => ?_⟩
    refine .drop first (fun literal => ?_) (dropped behind qs (fun literal => ?_) next)
    · exact (allowed literal).imp_right fun ⟨noFeed, mark⟩ =>
        ⟨fun feed => noFeed (by simp [feed]), mark⟩
    · exact (allowed literal).imp_right fun ⟨noFeed, mark⟩ =>
        ⟨fun member => noFeed (by simp [member]), mark⟩

end

/-! ### The passes -/

/-- The pieces fit together, and cleaning leaves every literal as it is. -/
structure Sound (ps : List Piece) : Prop where
  fits : ∃ operand, Fits operand ps
  still : ∀ p ∈ ps, p.isLiteral = true → Still p.text

/-- The pass only respaces the pieces, whatever stands before them. -/
def Respaces (pass : Text → Text) (ps : List Piece) : Prop :=
  ∃ qs, spell qs = pass (spell ps) ∧ ∀ behind, Respaced behind ps qs

section
variable {p : Piece} {ps : List Piece}

theorem Sound.tail (h : Sound (p :: ps)) : Sound ps := by
  refine ⟨?_, fun q member => h.still q (List.mem_cons_of_mem p member)⟩
  obtain ⟨operand, fits⟩ := h.fits
  cases p with
  | code => exact ⟨_, fits⟩
  | literal => exact ⟨_, fits.2⟩
  | regex => exact ⟨_, fits.2.2⟩

theorem Sound.suffix {qs : List Piece} (h : Sound ps) (suffix : qs <:+ ps) : Sound qs := by
  obtain ⟨front, rfl⟩ := suffix
  induction front with
  | nil => exact h
  | cons p front ih => exact ih h.tail

/-- The end of a literal is a seam. -/
theorem Sound.seam (h : Sound (p :: ps)) (literal : p.isLiteral = true) :
    Seam p.text (spell ps) := by
  obtain ⟨operand, fits⟩ := h.fits
  have still := h.still p (by simp) literal
  intro c last
  refine ⟨?_, fun brace => still.ending (brace ▸ last), ?_⟩
  · have trimmed : trimRight p.text = p.text := still.fixed _ (by simp [passes])
    obtain ⟨d, same, solid⟩ := getLast?_trimRight (trimmed.symm ▸ text_ne_nil p)
    rw [trimmed, show p.text.getLast? = some c from last] at same
    obtain rfl := Option.some.inj same
    exact solid
  · rintro rfl
    cases p with
    | code => cases literal
    | literal t closed => exact fits.1 (isLineComment_of_last closed last)
    | regex t closed => exact absurd last (regexLiteral_last closed)

/-- A pass that works apart on both sides of a seam copies every literal, so what it does to the
first character of code decides. -/
theorem respaces_of_code {pass : Text → Text} (known : pass ∈ passes) (nil : pass [] = [])
    (apart : ∀ {t rest}, Seam t rest → pass (t ++ rest) = pass t ++ pass rest)
    (first : ∀ (c : Char) (plain : c ∉ literalSigns) (ps : List Piece),
      (∀ rest, rest <:+ ps → Respaces pass rest) →
      pass (c :: spell ps) = c :: pass (spell ps) ∨ Respaces pass (code c plain :: ps))
    (h : Sound ps) : Respaces pass ps := by
  suffices all : ∀ rest, rest <:+ ps → Respaces pass rest from all ps (List.suffix_refl ps)
  induction ps with
  | nil =>
    intro rest suffix
    rw [List.suffix_nil.1 suffix]
    exact ⟨[], nil.symm, fun _ => .nil⟩
  | cons p ps ih =>
    intro rest suffix
    rcases List.suffix_cons_iff.1 suffix with rfl | suffix
    · obtain ⟨qs, spelled, next⟩ := ih h.tail ps (List.suffix_refl ps)
      have kept (value : pass (spell (p :: ps)) = p.text ++ pass (spell ps)) :
          Respaces pass (p :: ps) :=
        ⟨p :: qs, by rw [value, spell_cons, spelled], fun _ => .keep p (next _)⟩
      have copied (literal : p.isLiteral = true) :
          pass (spell (p :: ps)) = p.text ++ pass (spell ps) := by
        rw [spell_cons, apart (h.seam literal), (h.still p (by simp) literal).fixed pass known]
      cases p with
      | literal | regex => exact kept (copied rfl)
      | code c plain => exact (first c plain ps (ih h.tail)).elim (fun value => kept value) id
    · exact ih h.tail rest suffix

theorem respaces_joinBraces (h : Sound ps) : Respaces joinBraces ps := by
  refine respaces_of_code (by simp [passes]) (by rw [joinBraces]) joinBraces_seam ?_ h
  intro c plain ps ih
  by_cases brace : c = '{'
  · subst brace
    by_cases pair : (trimLeft (spell ps)).head? = some '}'
    · obtain ⟨r, found⟩ := List.head?_eq_some_iff.1 pair
      have blank : ∀ c ∈ (spell ps).takeWhile isBlank, isBlank c = true :=
        List.all_eq_true.1 List.all_takeWhile
      have cut : spell ps = (spell ps).takeWhile isBlank ++ '}' :: r := by
        rw [← found, trimLeft, List.takeWhile_append_dropWhile]
      obtain ⟨ps', left, suffix, dropped⟩ := exists_behind blank cut
      obtain ⟨rest, rfl, rfl⟩ := eq_code_of_spell (by decide) left
      obtain ⟨qs, spelled, next⟩ := ih rest ((List.suffix_cons _ rest).trans suffix)
      refine .inr ⟨code '{' plain :: code '}' (by decide) :: qs, ?_, fun _ => ?_⟩
      · have value := joinBraces_pair blank (spell rest)
        rw [← cut, ← spelled] at value
        exact value.symm
      · exact .keep _ (dropped false _ (by simp) (.keep _ (next _)))
    · exact .inl (joinBraces_brace pair)
  · exact .inl (joinBraces_cons brace _)

theorem respaces_tightenEnds (h : Sound ps) : Respaces tightenEnds ps := by
  refine respaces_of_code (by simp [passes]) (by rw [tightenEnds]) tightenEnds_seam ?_ h
  intro c plain ps ih
  by_cases ends : isPad c = true ∧ ∃ r, (spell ps).dropWhile isPad = ';' :: r ∧ endsMember r = true
  · obtain ⟨pad, r, found, ends⟩ := ends
    have pads : ∀ d ∈ c :: (spell ps).takeWhile isPad, isPad d = true := by
      have inside := List.all_eq_true.1 (List.all_takeWhile (p := isPad) (l := spell ps))
      simpa [pad] using inside
    have cut : spell (code c plain :: ps) = (c :: (spell ps).takeWhile isPad) ++ ';' :: r := by
      rw [List.cons_append, ← found, List.takeWhile_append_dropWhile]
      rfl
    obtain ⟨ps', left, suffix, dropped⟩ :=
      exists_behind (fun d member => isBlank_of_isPad (pads d member)) cut
    obtain ⟨rest, rfl, rfl⟩ := eq_code_of_spell (by decide) left
    have later : rest <:+ ps := by
      rcases List.suffix_cons_iff.1 suffix with same | suffix
      · obtain ⟨mark, rfl⟩ := List.cons.inj same
        exact List.suffix_refl rest
      · exact (List.suffix_cons _ rest).trans suffix
    obtain ⟨qs, spelled, next⟩ := ih rest later
    refine .inr ⟨code ';' (by decide) :: qs, ?_, fun _ => ?_⟩
    · have value := tightenEnds_pads pad found ends
      rw [← spelled] at value
      exact value.symm
    · refine dropped _ _ (fun _ => .inr ⟨fun feed => ?_, rfl⟩) (.keep _ (next _))
      exact absurd (pads '\n' feed) (by decide)
  · refine .inl (tightenEnds_cons fun pad r found => ?_)
    cases member : endsMember r with
    | false => rfl
    | true => exact absurd ⟨pad, r, found, member⟩ ends

theorem respaces_breakBraces (h : Sound ps) : Respaces breakBraces ps := by
  refine respaces_of_code (by simp [passes]) rfl breakBraces_seam ?_ h
  intro c plain ps ih
  rw [breakBraces]
  by_cases pair : c = ';' ∧ (spell ps).head? = some '}'
  · obtain ⟨qs, spelled, next⟩ := ih ps (List.suffix_refl ps)
    refine .inr ⟨code c plain :: code '\n' (by decide) :: qs, ?_,
      fun _ => .keep _ (.feed _ (next _))⟩
    have whole : spell (code c plain :: ps) = c :: spell ps := rfl
    rw [whole, breakBraces, if_pos pair, ← spelled, ← pair.1]
    rfl
  · exact .inl (if_neg pair)

theorem respaces_dropEmpty (h : Sound ps) : Respaces dropEmpty ps := by
  refine respaces_of_code (by simp [passes]) rfl dropEmpty_seam ?_ h
  intro c plain ps ih
  by_cases pair : c = '{' ∧ (spell ps).head? = some ';'
  · obtain ⟨rfl, head⟩ := pair
    obtain ⟨r, cons⟩ := List.head?_eq_some_iff.1 head
    obtain ⟨rest, rfl, rfl⟩ := eq_code_of_spell (by decide) cons
    obtain ⟨qs, spelled, next⟩ := ih rest (List.suffix_cons _ rest)
    refine .inr ⟨code '{' plain :: qs, ?_, fun _ => .semicolon (next _)⟩
    rw [spell_cons, spelled]
    exact (dropEmpty_brace (spell rest)).symm
  · exact .inl (dropEmpty_cons pair)

theorem respaces_trimRight (h : Sound ps) : Respaces trimRight ps := by
  refine respaces_of_code (by simp [passes]) rfl trimRight_seam ?_ h
  intro c plain ps ih
  cases blank : isBlank c with
  | false => exact .inl (trimRight_append_of_getLast (t := [c]) rfl blank (spell ps))
  | true =>
    by_cases empty : trimRight (spell ps) = []
    · obtain ⟨qs, spelled, next⟩ := ih ps (List.suffix_refl ps)
      obtain rfl : qs = [] := eq_nil_of_spell (spelled.trans empty)
      refine .inr ⟨[], ?_, fun _ => .drop blank (fun _ => .inl rfl) (next _)⟩
      obtain ⟨w, blanks, split⟩ := exists_trimRight_append (spell ps)
      rw [empty, List.nil_append] at split
      rw [spell_cons, text, split, ← List.nil_append ([c] ++ w), trimRight_append_blank]
      · rfl
      · simpa [blank] using blanks
    · exact .inl (trimRight_append_of_ne_nil [c] empty)

/-- Line feeds: `kept` of them are right before the pieces. -/
theorem exists_capFeeds (h : Sound ps) {behind : Bool} {kept : Nat}
    (start : behind = true → kept = 0) :
    ∃ qs, spell qs = capFeeds kept (spell ps) ∧ Respaced behind ps qs := by
  induction ps generalizing behind kept with
  | nil => exact ⟨[], rfl, .nil⟩
  | cons p ps ih =>
    have copied {next : Nat}
        (value : capFeeds kept (spell (p :: ps)) = p.text ++ capFeeds next (spell ps))
        (start : p.isLiteral = true → next = 0) :
        ∃ qs, spell qs = capFeeds kept (spell (p :: ps)) ∧ Respaced behind (p :: ps) qs := by
      obtain ⟨qs, spelled, respaced⟩ := ih h.tail start
      exact ⟨p :: qs, by rw [value, spell_cons, spelled], .keep p respaced⟩
    have literal (literal : p.isLiteral = true) :
        capFeeds kept (spell (p :: ps)) = p.text ++ capFeeds 0 (spell ps) := by
      have fixed : capFeeds 0 p.text = p.text :=
        (h.still p (by simp) literal).fixed _ (by simp [passes])
      obtain ⟨c, sign, head⟩ := head?_of_isLiteral literal
      obtain ⟨r, cons⟩ := List.head?_eq_some_iff.1 head
      have other : c ≠ '\n' := by
        rintro rfl
        exact absurd sign (by decide)
      have same : capFeeds kept p.text = capFeeds 0 p.text := by
        rw [cons, capFeeds, if_neg other, capFeeds, if_neg other]
      rw [spell_cons, capFeeds_seam (h.seam literal) (text_ne_nil p), same, fixed]
    cases p with
    | literal | regex => exact copied (literal rfl) fun _ => rfl
    | code c plain =>
      have whole : spell (code c plain :: ps) = c :: spell ps := rfl
      by_cases feed : c = '\n'
      · by_cases room : kept < 2
        · exact copied (by rw [whole, capFeeds, if_pos feed, if_pos room]; rfl)
            (absurd · Bool.false_ne_true)
        · obtain ⟨qs, spelled, respaced⟩ := ih h.tail start
          refine ⟨qs, ?_, .drop (feed ▸ by decide) (fun literal => ?_) respaced⟩
          · rw [whole, capFeeds, if_pos feed, if_neg room, spelled]
          · rw [start literal] at room
            exact absurd (by decide) room
      · exact copied (by rw [whole, capFeeds, if_neg feed]; rfl) (absurd · Bool.false_ne_true)

theorem exists_trimLeft (ps : List Piece) :
    ∃ qs, spell qs = trimLeft (spell ps) ∧ Respaced false ps qs := by
  have blank : ∀ c ∈ (spell ps).takeWhile isBlank, isBlank c = true :=
    List.all_eq_true.1 List.all_takeWhile
  obtain ⟨qs, left, -, dropped⟩ := exists_behind blank List.takeWhile_append_dropWhile.symm
  exact ⟨qs, left, dropped false qs (absurd · Bool.false_ne_true) (.refl false qs)⟩

theorem exists_respaced (h : Sound ps) {pass : Text → Text} (known : pass ∈ passes) :
    ∃ qs, spell qs = pass (spell ps) ∧ Respaced false ps qs := by
  have whole {pass : Text → Text} (respaces : Respaces pass ps) :
      ∃ qs, spell qs = pass (spell ps) ∧ Respaced false ps qs := by
    obtain ⟨qs, spelled, respaced⟩ := respaces
    exact ⟨qs, spelled, respaced false⟩
  simp only [passes, List.mem_cons, List.not_mem_nil, or_false] at known
  rcases known with rfl | rfl | rfl | rfl | rfl | rfl | rfl
  · exact whole (respaces_joinBraces h)
  · exact whole (respaces_tightenEnds h)
  · exact exists_capFeeds h (absurd · Bool.false_ne_true)
  · exact whole (respaces_breakBraces h)
  · exact whole (respaces_dropEmpty h)
  · exact exists_trimLeft ps
  · exact whole (respaces_trimRight h)

theorem Sound.respaced {qs : List Piece} (h : Sound ps) (respaced : Respaced false ps qs) :
    Sound qs := by
  obtain ⟨operand, fits⟩ := h.fits
  refine ⟨⟨operand, respaced.fits fits⟩, fun p member literal => ?_⟩
  have kept : p ∈ ps.filter isLiteral := by
    rw [← respaced.filter_isLiteral]
    exact List.mem_filter.2 ⟨member, literal⟩
  exact h.still p (List.mem_filter.1 kept).1 literal

/-- Passes in a row keep the literals and leave the pieces fitting together. -/
theorem exists_foldl {fs : List (Text → Text)} (known : ∀ f ∈ fs, f ∈ passes) (h : Sound ps)
    (fits : Fits false ps) : ∃ qs, spell qs = fs.foldl (fun t pass => pass t) (spell ps) ∧
      Fits false qs ∧ allLiterals qs = allLiterals ps := by
  induction fs generalizing ps with
  | nil => exact ⟨ps, rfl, fits, rfl⟩
  | cons f fs ih =>
    obtain ⟨qs, spelled, respaced⟩ := exists_respaced h (known f (by simp))
    obtain ⟨rs, spelledAll, fitsAll, same⟩ :=
      ih (fun g member => known g (by simp [member])) (h.respaced respaced) (respaced.fits fits)
    refine ⟨rs, ?_, fitsAll, same.trans ?_⟩
    · rw [spelledAll, spelled, List.foldl_cons]
    · rw [← allLiterals_filter qs, respaced.filter_isLiteral, allLiterals_filter]

end

end Piece

open Piece Cleanup

/-- **Cleaning keeps every literal that it leaves as it is.** The text of a surface is written in
pieces that fit together. Where each pass leaves each literal and comment as it is, the declaration
file holds the same literals and comments in the same order, however the code around them is
cleaned. -/
theorem render_keeps_literals (s : Surface) (keepComments : Bool) (ps : List Piece)
    (written : Surface.joinGroups (s.groups keepComments) = spell ps) (fits : Fits false ps)
    (still : ∀ p ∈ ps, p.isLiteral = true → Still p.text) :
    literals (s.render keepComments).value =
      literals (Surface.joinGroups (s.groups keepComments)) := by
  obtain ⟨qs, cleaned, fitsToo, same⟩ :=
    exists_foldl (fun _ known => known) ⟨⟨false, fits⟩, still⟩ fits
  have value : (s.render keepComments).value = spell qs := by
    rw [cleaned, ← clean_eq_foldl, ← written]
    rfl
  rw [value, written, literals_spell fitsToo, literals_spell fits, same]

/-- A body is drawn together between literals that hold braces and semicolons themselves. -/
theorem literals_kept_around_body :
    let s : Surface := (Scan.scan ⟨true, true, .plain "  ".toList⟩
      ("/** A \x7b\x7d; */\nexport interface B \x7b\n\n\x7d\n" ++
        "export type C = ';' | `a$\x7bB\x7d` // c;").toList).value
    ∃ ps, Surface.joinGroups (s.groups true) = spell ps ∧ Fits false ps ∧
      (∀ p ∈ ps, p.isLiteral = true → Still p.text) ∧ clean (spell ps) ≠ spell ps ∧
      literals (s.render true).value = literals (Surface.joinGroups (s.groups true)) := by
  intro s
  let ps : List Piece :=
    [literal _ (@Enclosed.blockComment "* A \x7b\x7d; ".toList (by decide +kernel))] ++
    List.pmap code "\nexport declare interface B \x7b\n\n\x7d\nexport declare type C = ".toList
      (by decide +kernel) ++
    [literal _ (@Enclosed.quoted '\'' [';'] (.inr rfl)
      (.plain (by decide) (by decide) (by decide) .nil))] ++
    List.pmap code [' ', '|', ' '] (by decide) ++
    [literal _ (@Enclosed.template ['a', '$', '{', 'B', '}']
      (.plain (by decide) (by decide) (by decide)
        (@TemplateBody.substitution ['B'] [] (by decide) .nil)))] ++
    [code ' ' (by decide), literal _ (@Enclosed.lineComment [' ', 'c', ';'] (by decide))]
  have written : Surface.joinGroups (s.groups true) = spell ps := by decide +kernel
  have fits : Fits false ps := by decide +kernel
  have still : ∀ p ∈ ps, p.isLiteral = true → Still p.text := by decide +kernel
  exact ⟨ps, written, fits, still, by decide +kernel,
    render_keeps_literals s true ps written fits still⟩

/-- Cleaning takes the blank out of a string and of a comment that hold an empty body. -/
theorem literals_changed_by_cleaning :
    let s : Surface := (Scan.scan ⟨true, true, .plain "  ".toList⟩
      "/** An empty body \x7b \x7d. */\nexport type T = '\x7b \x7d'".toList).value
    literals (s.render true).value =
        [⟨.blockComment, "/** An empty body \x7b\x7d. */".toList⟩,
          ⟨.singleQuoted, "'\x7b\x7d'".toList⟩] ∧
      literals (s.render true).value ≠ literals (Surface.joinGroups (s.groups true)) := by
  decide +kernel

end Ambient
