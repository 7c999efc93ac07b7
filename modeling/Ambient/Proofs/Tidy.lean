import Ambient.Output.Cleanup
import Ambient.Proofs.Atom
import Ambient.Proofs.Trim

/-!
Texts that tidying leaves as they are. A text *settles* to another when tidying turns the one into
the other wherever it stands; texts that settle may be joined by one line feed or two, and a text
that settles is cleaned to what it settles to. A text written in atoms settles to itself.
-/

namespace Ambient.Cleanup

/-- The second character may stand right after the first in a tidy text: no padding or opening brace
before a semicolon, no semicolon before a closing brace. -/
def Tidy (c d : Char) : Prop := (d = ';' → isPad c = false ∧ c ≠ '{') ∧ (d = '}' → c ≠ ';')

instance : DecidableRel Tidy := fun _ _ => inferInstanceAs (Decidable (_ ∧ _))

theorem tidy_of_free {d : Char} (semicolon : d ≠ ';') (brace : d ≠ '}') (c : Char) : Tidy c d :=
  ⟨fun same => absurd same semicolon, fun same => absurd same brace⟩

theorem tidy_feed (d : Char) : Tidy '\n' d := ⟨fun _ => by decide, fun _ => by decide⟩

/-- A text with neither semicolons nor closing braces is tidy. -/
theorem isChain_of_free {t : Text} (h : ∀ c ∈ t, c ≠ ';' ∧ c ≠ '}') : t.IsChain Tidy := by
  induction t with
  | nil => exact .nil
  | cons c t ih =>
    refine List.isChain_cons.2 ⟨fun d head => ?_, ih fun d member => h d (by simp [member])⟩
    obtain ⟨semicolon, brace⟩ := h d (List.mem_cons_of_mem c (List.mem_of_head? head))
    exact tidy_of_free semicolon brace c

/-! ### The passes on a tidy text -/

theorem head?_dropWhile_isPad {c : Char} {r : Text} (pad : isPad c = true)
    (h : (c :: r).IsChain Tidy) : (r.dropWhile isPad).head? ≠ some ';' := by
  induction r generalizing c with
  | nil => simp
  | cons d r ih =>
    obtain ⟨tidy, rest⟩ := List.isChain_cons_cons.1 h
    cases padding : isPad d with
    | true => simpa [padding] using ih padding rest
    | false =>
      rw [List.dropWhile_cons_of_neg (by simp [padding])]
      rintro same
      have := (tidy.1 (by simpa using same)).1
      simp [pad] at this

theorem tightenEnds_of_isChain {t : Text} (h : t.IsChain Tidy) : tightenEnds t = t := by
  induction t with
  | nil => rw [tightenEnds]
  | cons c r ih =>
    have rest := ih h.tail
    rw [tightenEnds]
    split
    · next pad =>
      have other := head?_dropWhile_isPad pad h
      split
      · next found => simp [found] at other
      · rw [rest]
    · rw [rest]

theorem breakBraces_of_isChain {t : Text} (h : t.IsChain Tidy) : breakBraces t = t := by
  induction t with
  | nil => rfl
  | cons c r ih =>
    rw [breakBraces, ih h.tail, if_neg]
    rintro ⟨rfl, head⟩
    exact ((List.isChain_cons.1 h).1 '}' head).2 rfl rfl

theorem dropEmpty_of_isChain {t : Text} (h : t.IsChain Tidy) : dropEmpty t = t := by
  induction t with
  | nil => rfl
  | cons c r ih =>
    cases r with
    | nil => rfl
    | cons d r =>
      rw [dropEmpty, ih h.tail, if_neg]
      rintro ⟨rfl, rfl⟩
      exact ((List.isChain_cons_cons.1 h).1.1 rfl).2 rfl

theorem joinBraces_cons {c : Char} (h : c ≠ '{') (r : Text) :
    joinBraces (c :: r) = c :: joinBraces r := by
  rw [joinBraces, if_neg h]

theorem joinBraces_append {a : Text} (h : '{' ∉ a) (b : Text) :
    joinBraces (a ++ b) = a ++ joinBraces b := by
  induction a with
  | nil => rfl
  | cons c a ih =>
    have other : c ≠ '{' := fun same => h (by simp [same])
    rw [List.cons_append, joinBraces_cons other, ih fun member => h (by simp [member])]
    rfl

theorem joinBraces_brace {r : Text} (h : (trimLeft r).head? ≠ some '}') :
    joinBraces ('{' :: r) = '{' :: joinBraces r := by
  rw [joinBraces, if_pos rfl]
  split
  · next found => simp [found] at h
  · rfl

/-- Braces with nothing but blanks between them. -/
theorem joinBraces_pair {w : Text} (blank : ∀ c ∈ w, isBlank c = true) (r : Text) :
    joinBraces ('{' :: (w ++ '}' :: r)) = '{' :: '}' :: joinBraces r := by
  have found : trimLeft (w ++ '}' :: r) = '}' :: r := by
    rw [trimLeft, List.dropWhile_append_of_pos blank]
    rfl
  rw [joinBraces, if_pos rfl]
  split
  · next rest same =>
    rw [found] at same
    rw [(List.cons.inj same).2]
  · next other => exact absurd found (other r)

theorem capFeeds_append {a : Text} (free : '\n' ∉ a) (nonempty : a ≠ []) (kept : Nat) (b : Text) :
    capFeeds kept (a ++ b) = a ++ capFeeds 0 b := by
  induction a generalizing kept with
  | nil => exact absurd rfl nonempty
  | cons c a ih =>
    have other : c ≠ '\n' := fun same => free (by simp [same])
    rw [List.cons_append, capFeeds, if_neg other]
    cases a with
    | nil => rfl
    | cons d a => rw [ih (fun member => free (by simp [member])) (by simp)]; rfl

/-! ### Texts that settle -/

/-- Wherever `a` stands, tidying turns it into `b`, which starts and ends with a solid character. -/
structure Settles (a b : Text) : Prop where
  braces : ∀ rest, joinBraces (a ++ rest) = b ++ joinBraces rest
  feeds : ∀ kept rest, capFeeds kept (b ++ rest) = b ++ capFeeds 0 rest
  tidy : b.IsChain Tidy
  head : ∃ c ∈ b.head?, isBlank c = false
  last : ∃ c ∈ b.getLast?, isBlank c = false

theorem Settles.trim_eq {a b : Text} (h : Settles a b) : trim b = b := by
  obtain ⟨c, head, solidHead⟩ := h.head
  obtain ⟨d, last, solidLast⟩ := h.last
  exact trim_of_ends head last solidHead solidLast

theorem clean_of_settles {a b : Text} (h : Settles a b) : clean a = b := by
  have braces : joinBraces a = b := by
    have whole := h.braces []
    rwa [List.append_nil, show joinBraces [] = [] by rw [joinBraces], List.append_nil] at whole
  have feeds : capFeeds 0 b = b := by
    have whole := h.feeds 0 []
    rwa [List.append_nil, show capFeeds 0 [] = [] from rfl, List.append_nil] at whole
  rw [clean, braces, tightenEnds_of_isChain h.tidy, feeds, breakBraces_of_isChain h.tidy,
    dropEmpty_of_isChain h.tidy, h.trim_eq]

theorem clean_nil : clean [] = [] := by
  rw [clean, joinBraces, tightenEnds]
  rfl

/-- One or two line feeds between two texts stay as they are. -/
theorem Settles.join {a b a' b' feeds : Text} (h : Settles a b) (h' : Settles a' b')
    (some_feed : feeds = ['\n'] ∨ feeds = ['\n', '\n']) :
    Settles (a ++ feeds ++ a') (b ++ feeds ++ b') := by
  obtain ⟨c, head, solidHead⟩ := h.head
  obtain ⟨d, last, solidLast⟩ := h'.last
  refine ⟨fun rest => ?_, fun kept rest => ?_, ?_, ⟨c, ?_, solidHead⟩, ⟨d, ?_, solidLast⟩⟩
  · have noBrace : '{' ∉ feeds := by rcases some_feed with rfl | rfl <;> decide
    simp only [List.append_assoc, h.braces, joinBraces_append noBrace, h'.braces]
  · have feeds (kept : Nat) := h'.feeds kept rest
    rcases some_feed with rfl | rfl <;> simp [h.feeds, capFeeds, feeds]
  · have between : feeds.IsChain Tidy := by
      refine isChain_of_free ?_
      rcases some_feed with rfl | rfl <;> decide
    refine List.isChain_append.2 ⟨List.isChain_append.2 ⟨h.tidy, between, ?_⟩, h'.tidy, ?_⟩
    · intro x _ y first
      obtain rfl : y = '\n' := by rcases some_feed with rfl | rfl <;> simpa [eq_comm] using first
      exact tidy_of_free (by decide) (by decide) x
    · intro x final y _
      obtain rfl : x = '\n' := by rcases some_feed with rfl | rfl <;> simpa [eq_comm] using final
      exact tidy_feed y
  · rw [List.append_assoc, List.head?_append, head]
    rfl
  · rw [List.getLast?_append, last]
    rfl

/-- Texts that settle, with one or two line feeds between them. -/
theorem settles_intercalate {α : Type} {raw text : α → Text} {feeds : Text}
    (some_feed : feeds = ['\n'] ∨ feeds = ['\n', '\n']) {xs : List α} (nonempty : xs ≠ [])
    (h : ∀ x ∈ xs, Settles (raw x) (text x)) :
    Settles (feeds.intercalate (xs.map raw)) (feeds.intercalate (xs.map text)) := by
  induction xs with
  | nil => exact absurd rfl nonempty
  | cons x xs ih =>
    cases xs with
    | nil => simpa [List.intercalate] using h x (by simp)
    | cons y ys =>
      have later := ih (by simp) fun z member => h z (by simp [member])
      have joined := (h x (by simp)).join later some_feed
      simpa [List.intercalate] using joined

theorem capFeeds_joinLines {ls : List Text} (nonempty : ls ≠ [])
    (h : ∀ l ∈ ls, '\n' ∉ l ∧ l ≠ []) (kept : Nat) (rest : Text) :
    capFeeds kept (joinLines ls ++ rest) = joinLines ls ++ capFeeds 0 rest := by
  induction ls generalizing kept with
  | nil => exact absurd rfl nonempty
  | cons l ls ih =>
    obtain ⟨free, some_char⟩ := h l (by simp)
    cases ls with
    | nil =>
      rw [joinLines_singleton]
      exact capFeeds_append free some_char kept rest
    | cons m ms =>
      have later := ih (by simp) fun l member => h l (by simp [member])
      rw [joinLines] at later ⊢
      rw [joinPieces_cons_of_ne_nil _ _ (by simp), List.append_assoc, List.append_assoc,
        capFeeds_append free some_char, List.singleton_append, capFeeds, if_pos rfl, if_pos (by decide),
        later]
      simp

/-- Lines that hold no brace and no semicolon. -/
theorem settles_of_free {ls : List Text} (nonempty : ls ≠ [])
    (free : ∀ l ∈ ls, l ≠ [] ∧ ∀ c ∈ l, c ∉ ['{', '}', ';', '\n'])
    (head : ∃ c ∈ (joinLines ls).head?, isBlank c = false)
    (last : ∃ c ∈ (joinLines ls).getLast?, isBlank c = false) :
    Settles (joinLines ls) (joinLines ls) := by
  have inside : ∀ c ∈ joinLines ls, c ∉ ['{', '}', ';'] := by
    intro c member
    rcases mem_intercalate member with feed | ⟨l, inLines, found⟩
    · rw [List.mem_singleton.1 feed]
      decide
    · have := (free l inLines).2 c found
      simp_all
  refine ⟨joinBraces_append fun member => inside _ member (by simp), ?_, isChain_of_free ?_, head, last⟩
  · refine capFeeds_joinLines nonempty fun l member => ⟨fun found => ?_, (free l member).1⟩
    exact (free l member).2 _ found (by simp)
  · intro c member
    have := inside c member
    simp_all

/-! ### Texts written in atoms -/

open Atom Lexer

/-- The literals of the atom hold no sign that tidying looks at. -/
def Calm : Atom → Prop
  | .literal q => ∀ c ∈ q.body, c ∉ [';', '{', '}']
  | _ => True

/-- The atom can end a text: it is neither a gap nor an opening brace. -/
def isShut : Atom → Bool
  | .gap _ | .brace _ => false
  | _ => true

theorem not_sign_of_isNameChar {c : Char} (h : isNameChar c = true) :
    c ∉ [';', '{', '}', '\n', ' ', '\t'] := by
  have known : ∀ c ∈ [';', '{', '}', '\n', ' ', '\t'], isNameChar c = false := by decide
  exact fun member => absurd h (by rw [known c member]; decide)

theorem not_mem_of_calm {a : Atom} (h : Calm a) : (∀ g, a ≠ .brace g) → a ≠ .braces → '{' ∉ a.text := by
  intro notBrace notBraces
  cases a with
  | word w =>
    rw [text_word]
    exact fun member => absurd (w.all_chars _ member) (by decide)
  | literal q =>
    rw [text_literal, Quotation.text]
    intro member
    rcases List.mem_append.1 member with member | member
    · rcases List.mem_cons.1 member with same | member
      · rcases q.quote with mark | mark <;> simp [mark] at same
      · exact h '{' member (by decide)
    · rcases q.quote with mark | mark <;> simp [mark] at member
  | bracket b => cases b <;> decide
  | sign s => cases s <;> decide
  | gap g => cases g <;> decide
  | brace g => exact absurd rfl (notBrace g)
  | braces => exact absurd rfl notBraces

/-- Where an opening brace stands, a word follows it. -/
theorem exists_word_of_brace {g : Option Gap} {as : List Atom} (sound : Sound (.brace g :: as))
    (shut : ∀ a ∈ (Atom.brace g :: as).getLast?, isShut a = true) :
    ∃ g' w bs, g = some g' ∧ as = .word w :: bs := by
  cases as with
  | nil =>
    have shut := shut (.brace g) rfl
    cases shut
  | cons b bs =>
    have follows := (List.isChain_cons_cons.1 sound).1
    cases g with
    | none => cases follows
    | some g =>
      cases b with
      | word w => exact ⟨g, w, bs, rfl, rfl⟩
      | _ => cases follows

theorem joinBraces_spell {as : List Atom} (sound : Sound as) (calm : ∀ a ∈ as, Calm a)
    (shut : ∀ a ∈ as.getLast?, isShut a = true) (rest : Text) :
    joinBraces (spell as ++ rest) = spell as ++ joinBraces rest := by
  induction as with
  | nil => rfl
  | cons a as ih =>
    have later : joinBraces (spell as ++ rest) = spell as ++ joinBraces rest :=
      ih sound.tail (fun b member => calm b (by simp [member]))
        fun b last => shut b (getLast?_cons_of_mem last)
    rw [spell_cons, List.append_assoc, List.append_assoc]
    cases a with
    | brace g =>
      obtain ⟨g, w, bs, rfl, rfl⟩ := exists_word_of_brace sound shut
      have blank : ∀ c ∈ g.text, isBlank c = true := by cases g <;> decide
      have noBrace : '{' ∉ g.text := by cases g <;> decide
      have head : (trimLeft (g.text ++ (spell (.word w :: bs) ++ rest))).head? ≠ some '}' := by
        rw [trimLeft, List.dropWhile_append_of_pos blank, spell_cons, text_word, Word.text,
          List.cons_append, List.cons_append,
          List.dropWhile_cons_of_neg (by simp [isBlank_of_isNameStart w.start])]
        have start := w.start
        rintro same
        rw [Option.some.inj same] at start
        exact absurd start (by decide)
      rw [text_brace, List.cons_append, joinBraces_brace head, joinBraces_append noBrace, later]
      rfl
    | braces =>
      have pair := joinBraces_pair (w := []) (by simp) (spell as ++ rest)
      rw [List.nil_append, later] at pair
      exact pair
    | _ =>
      rw [joinBraces_append (not_mem_of_calm (calm _ (by simp)) (by simp) (by simp)), later]

/-- An atom that can end a text ends with a solid character. -/
theorem last_solid {a : Atom} (shut : isShut a = true) {c : Char} (last : c ∈ a.text.getLast?) :
    isBlank c = false ∧ c ≠ '{' := by
  have known : ∀ c ∈ a.lastSigns, isBlank c = false ∧ c ≠ '{' := by
    cases a with
    | word w | literal q =>
      simp only [lastSigns]
      decide
    | bracket b => cases b <;> decide
    | sign s => cases s <;> decide
    | gap g | brace g => cases shut
    | braces => decide
  rcases last_class last with ⟨-, isName⟩ | sign
  · refine ⟨isBlank_of_isNameChar isName, fun same => ?_⟩
    exact not_sign_of_isNameChar isName (by simp [same])
  · exact known c sign

theorem last_ne_semicolon {a : Atom} (other : a ≠ .sign .semicolon) {c : Char}
    (last : c ∈ a.text.getLast?) : c ≠ ';' := by
  have known : ∀ c ∈ a.lastSigns, c ≠ ';' := by
    cases a with
    | word w | literal q =>
      simp only [lastSigns]
      decide
    | bracket b => cases b <;> decide
    | sign s => cases s <;> first | decide | exact absurd rfl other
    | gap g => cases g <;> decide
    | brace g =>
      cases g with
      | none => decide
      | some g => cases g <;> decide
    | braces => decide
  rcases last_class last with ⟨-, isName⟩ | sign
  · exact fun same => not_sign_of_isNameChar isName (by simp [same])
  · exact known c sign

theorem first_free {b : Atom} (semicolon : b ≠ .sign .semicolon) (brace : b ≠ .bracket .closeBrace) :
    b.first ≠ ';' ∧ b.first ≠ '}' := by
  cases b with
  | word w =>
    have signs := not_sign_of_isNameChar (isNameChar_of_isNameStart w.start)
    simp only [List.mem_cons, not_or] at signs
    exact ⟨signs.1, signs.2.2.1⟩
  | literal q =>
    simp only [first]
    rcases q.quote with mark | mark <;> rw [mark] <;> decide
  | bracket b => cases b <;> first | decide | exact absurd rfl brace
  | sign s => cases s <;> first | decide | exact absurd rfl semicolon
  | gap g => cases g <;> decide
  | brace g | braces => simp [first]

theorem text_tidy {a : Atom} (calm : Calm a) : a.text.IsChain Tidy := by
  cases a with
  | word w =>
    refine isChain_of_free fun c member => ?_
    rw [text_word] at member
    have signs := not_sign_of_isNameChar (w.all_chars c member)
    simp only [List.mem_cons, not_or] at signs
    exact ⟨signs.1, signs.2.2.1⟩
  | literal q =>
    refine isChain_of_free fun c member => ?_
    rw [text_literal, Quotation.text] at member
    have mark : q.mark ≠ ';' ∧ q.mark ≠ '}' := by
      rcases q.quote with mark | mark <;> rw [mark] <;> decide
    rcases List.mem_append.1 member with member | member
    · rcases List.mem_cons.1 member with rfl | member
      · exact mark
      · have signs := calm c member
        simp only [List.mem_cons, not_or] at signs
        exact ⟨signs.1, signs.2.2.1⟩
    · rw [List.mem_singleton.1 member]
      exact mark
  | bracket b => exact .singleton _
  | sign s => cases s <;> decide
  | gap g => cases g <;> decide
  | brace g =>
    cases g with
    | none => decide
    | some g => cases g <;> decide
  | braces => decide

/-- Atoms that may follow each other are tidy where they meet. -/
theorem tidy_of_follows {a b : Atom} (follows : Follows a b = true) {c : Char}
    (last : c ∈ a.text.getLast?) : Tidy c b.first := by
  by_cases semicolon : b = .sign .semicolon
  · have shut : isShut a = true := by
      subst semicolon
      cases a with
      | gap g => cases follows
      | brace g => cases g <;> cases follows
      | _ => rfl
    obtain ⟨solid, notBrace⟩ := last_solid shut last
    have notPad : isPad c = false := by
      cases pad : isPad c with
      | false => rfl
      | true =>
        simp only [isPad, Bool.or_eq_true, beq_iff_eq] at pad
        rcases pad with rfl | rfl <;> exact absurd solid (by decide)
    rw [semicolon]
    exact ⟨fun _ => ⟨notPad, notBrace⟩, fun same => absurd same (by decide)⟩
  · by_cases brace : b = .bracket .closeBrace
    · have other : a ≠ .sign .semicolon := by
        rintro rfl
        rw [brace] at follows
        cases follows
      rw [brace]
      exact ⟨fun same => absurd same (by decide), fun _ => last_ne_semicolon other last⟩
    · exact tidy_of_free (first_free semicolon brace).1 (first_free semicolon brace).2 c

theorem spell_tidy {as : List Atom} (sound : Sound as) (calm : ∀ a ∈ as, Calm a) :
    (spell as).IsChain Tidy := by
  induction as with
  | nil => exact .nil
  | cons a as ih =>
    rw [spell_cons]
    refine List.isChain_append.2 ⟨text_tidy (calm a (by simp)),
      ih sound.tail fun b member => calm b (by simp [member]), fun c last d head => ?_⟩
    obtain ⟨b, first, rfl⟩ := head?_spell head
    exact tidy_of_follows ((List.isChain_cons.1 sound).1 b first) last

/-- A gap is kept where something solid follows it. -/
theorem capFeeds_gap {g : Gap} {t : Text} (h : ∀ kept, capFeeds kept t = capFeeds 0 t) :
    capFeeds 0 (g.text ++ t) = g.text ++ capFeeds 0 t := by
  cases g <;> simp [Gap.text, capFeeds, h]

theorem feed_free {a : Atom} (shut : isShut a = true) : '\n' ∉ a.text := by
  cases a with
  | word w =>
    rw [text_word]
    exact fun member => not_sign_of_isNameChar (w.all_chars _ member) (by simp)
  | literal q =>
    rw [text_literal, Quotation.text]
    have mark : q.mark ≠ '\n' := by rcases q.quote with mark | mark <;> rw [mark] <;> decide
    intro member
    simp only [List.cons_append, List.mem_cons, List.mem_append, List.not_mem_nil, or_false] at member
    rcases member with same | member | same
    · exact mark same.symm
    · exact (q.inside _ member).2.2 rfl
    · exact mark same.symm
  | bracket b => cases b <;> decide
  | sign s => cases s <;> decide
  | gap g | brace g => cases shut
  | braces => decide

theorem capFeeds_spell {as : List Atom} (sound : Sound as)
    (shut : ∀ a ∈ as.getLast?, isShut a = true) (kept : Nat)
    (start : kept = 0 ∨ ∃ a ∈ as.head?, a.isGap = false) (rest : Text) :
    capFeeds kept (spell as ++ rest) = spell as ++ capFeeds 0 rest := by
  induction as generalizing kept with
  | nil =>
    obtain rfl : kept = 0 := by simpa using start
    rfl
  | cons a as ih =>
    have shutRest : ∀ b ∈ as.getLast?, isShut b = true :=
      fun b last => shut b (getLast?_cons_of_mem last)
    have later := ih sound.tail shutRest 0 (.inl rfl)
    -- After a gap comes an atom that is none, so whatever was kept before it is forgotten.
    have anew (opens : isShut a = false) (kept : Nat) :
        capFeeds kept (spell as ++ rest) = capFeeds 0 (spell as ++ rest) := by
      rw [later]
      refine ih sound.tail shutRest kept (.inr ?_)
      cases as with
      | nil => exact absurd (shut a rfl) (by simp [opens])
      | cons b bs =>
        refine ⟨b, rfl, ?_⟩
        have follows := (List.isChain_cons_cons.1 sound).1
        cases a with
        | gap g => cases b <;> first | rfl | cases follows
        | brace g => cases g <;> cases b <;> first | rfl | cases follows
        | _ => cases opens
    rw [spell_cons, List.append_assoc, List.append_assoc, ← later]
    cases a with
    | gap g =>
      obtain rfl : kept = 0 := start.resolve_right (by simp [isGap])
      rw [text_gap]
      exact capFeeds_gap (anew rfl)
    | brace g =>
      obtain ⟨g, w, bs, rfl, rfl⟩ := exists_word_of_brace sound shut
      rw [text_brace]
      exact congrArg ('{' :: ·) (capFeeds_gap (anew rfl))
    | _ =>
      refine capFeeds_append (feed_free rfl) ?_ kept _
      obtain ⟨r, spelled⟩ := exists_text _
      rw [spelled]
      simp

/-- **A text written in atoms is tidy.** It settles to itself unless it starts with a gap or ends
open. -/
theorem settles_spell {as : List Atom} (sound : Sound as) (calm : ∀ a ∈ as, Calm a)
    (start : ∃ a ∈ as.head?, a.isGap = false) (shut : ∃ a ∈ as.getLast?, isShut a = true) :
    Settles (spell as) (spell as) := by
  obtain ⟨z, last, shut⟩ := shut
  have shut' : ∀ a ∈ as.getLast?, isShut a = true := by
    intro a same
    obtain rfl : z = a := Option.some.inj (last.symm.trans same)
    exact shut
  refine ⟨joinBraces_spell sound calm shut', fun kept => capFeeds_spell sound shut' kept (.inr start),
    spell_tidy sound calm, ?_, ?_⟩
  · obtain ⟨a, head, notGap⟩ := start
    obtain ⟨bs, rfl⟩ := List.head?_eq_some_iff.1 head
    exact ⟨a.first, spell_head a bs, a.first_class.2.1.trans notGap⟩
  · obtain ⟨bs, rfl⟩ := List.getLast?_eq_some_iff.1 last
    obtain ⟨c, final⟩ := exists_last z
    exact ⟨c, (spell_last bs z).trans final, (last_solid shut final).1⟩

/-- The atom stays on its line. -/
def isFlat : Atom → Bool
  | .gap g | .brace (some g) => g == .space
  | _ => true

theorem feed_free_of_isFlat {a : Atom} (h : isFlat a = true) : '\n' ∉ a.text := by
  cases shut : isShut a with
  | true => exact feed_free shut
  | false =>
    cases a with
    | gap g => cases g <;> first | decide | cases h
    | brace g =>
      cases g with
      | none => decide
      | some g => cases g <;> first | decide | cases h
    | _ => cases shut

theorem feed_free_spell {as : List Atom} (h : ∀ a ∈ as, isFlat a = true) : '\n' ∉ spell as := by
  intro member
  obtain ⟨a, inside, found⟩ := List.mem_flatMap.1 member
  exact feed_free_of_isFlat (h a inside) found

end Ambient.Cleanup
