import Ambient.Property
import Ambient.Proofs.Datum
import Ambient.Proofs.Members

/-!
What an inferred type says about the members of an object literal. The type is read off the outer
lines and the heads of their values, while the members are what stands between the commas. Where each
member has its value on an outer line, and no value goes on behind a quoted literal at its head, a
type other than the one over `any` holds for every member (`inferred_type_sound`).
-/

namespace Ambient

open Lexer

/-! ### Literals -/

/-- A radix other than ten: the letters that mark it, and its digits. -/
def radixes : List (Text × Text) :=
  [("xX".toList, "0123456789abcdefABCDEF".toList), ("oO".toList, "01234567".toList),
    ("bB".toList, "01".toList)]

/-- Decimal digits and separators between them. -/
def IsDigits (t : Text) : Prop := ∀ c ∈ t, isDecimal c = true ∨ c = '_'

/-- No sign or one. -/
def IsSign (t : Text) : Prop := t = [] ∨ t = ['+'] ∨ t = ['-']

/-- Nothing, or an exponent. -/
def IsExponent (t : Text) : Prop :=
  t = [] ∨ ∃ mark sign digits, t = mark :: (sign ++ digits) ∧ (mark = 'e' ∨ mark = 'E') ∧
    IsSign sign ∧ digits ≠ [] ∧ ∀ c ∈ digits, isDecimal c = true

/-- A numeric literal without a sign. -/
inductive IsNumeral : Text → Prop
  | radix {marks digits t : Text} {mark : Char} (known : (marks, digits) ∈ radixes)
      (marked : mark ∈ marks) (nonempty : t ≠ []) (inside : ∀ c ∈ t, c ∈ digits ∨ c = '_') :
      IsNumeral ('0' :: mark :: t)
  | whole {c : Char} {t e : Text} (digit : isDecimal c = true) (digits : IsDigits t)
      (exponent : IsExponent e) : IsNumeral (c :: (t ++ e))
  | fraction {c : Char} {t u e : Text} (digit : isDecimal c = true) (digits : IsDigits t)
      (behind : IsDigits u) (exponent : IsExponent e) : IsNumeral (c :: (t ++ '.' :: (u ++ e)))
  | point {c : Char} {t e : Text} (digit : isDecimal c = true) (digits : IsDigits t)
      (exponent : IsExponent e) : IsNumeral ('.' :: c :: (t ++ e))
  | infinity : IsNumeral "Infinity".toList

/-- One literal of the kind, from the first character to the last. -/
def ValueKind.IsWhole : ValueKind → Text → Prop
  | string, t =>
    (∃ q : QuotedText, t = q.text) ∨ ∃ body, TemplateBody body ∧ t = '`' :: (body ++ ['`'])
  | boolean, t => t = "true".toList ∨ t = "false".toList
  | number, t => ∃ sign body, t = sign ++ body ∧ IsSign sign ∧ IsNumeral body
  | unknown, _ => False

namespace Number

theorem exists_sign (t : Text) : ∃ sign, t = sign ++ unsigned t ∧ IsSign sign := by
  cases t with
  | nil => exact ⟨[], rfl, .inl rfl⟩
  | cons c r =>
    rw [unsigned]
    split
    · next sign => exact ⟨[c], rfl, .inr (by simpa using sign)⟩
    · exact ⟨[], rfl, .inl rfl⟩

theorem isDigits_takeWhile (t : Text) : IsDigits (t.takeWhile isDigitOrGap) := by
  intro c member
  have inside := List.all_eq_true.1 (List.all_takeWhile (l := t)) c member
  simpa [isDigitOrGap] using inside

theorem exponent_of_isExponent {t : Text} (h : isExponent t = true) : IsExponent t := by
  cases t with
  | nil => exact .inl rfl
  | cons c r =>
    simp only [isExponent, Bool.and_eq_true, Bool.or_eq_true, beq_iff_eq, bne_iff_ne,
      List.all_eq_true] at h
    obtain ⟨sign, split, signed⟩ := exists_sign r
    exact .inr ⟨c, sign, unsigned r, congrArg _ split, h.1.1, signed, h.1.2, h.2⟩

theorem numeral_of_inRadix {marks digits t : Text} (known : (marks, digits) ∈ radixes)
    (h : inRadix marks digits t = true) : IsNumeral t := by
  unfold inRadix at h
  split at h
  · simp only [Bool.and_eq_true, List.contains_eq_mem, decide_eq_true_eq, bne_iff_ne,
      List.all_eq_true, Bool.or_eq_true, beq_iff_eq] at h
    exact .radix known h.1.1 h.1.2 h.2
  · cases h

theorem numeral_of_inDecimal {t : Text} (h : inDecimal t = true) : IsNumeral t := by
  cases t with
  | nil => cases h
  | cons c r =>
    have digits := isDigits_takeWhile r
    have whole : r.takeWhile isDigitOrGap ++ r.dropWhile isDigitOrGap = r :=
      List.takeWhile_append_dropWhile
    simp only [inDecimal] at h
    split at h
    · next point =>
      cases r with
      | nil => cases h
      | cons d r =>
        simp only [Bool.and_eq_true] at h
        have numeral := IsNumeral.point h.1 (isDigits_takeWhile r) (exponent_of_isExponent h.2)
        rw [List.takeWhile_append_dropWhile] at numeral
        exact point ▸ numeral
    · rw [Bool.and_eq_true] at h
      obtain ⟨digit, behind⟩ := h
      rw [← whole]
      split at behind
      · next none => exact .whole digit digits (.inl none)
      · next d rest found =>
        rw [found]
        split at behind
        · next point =>
          have numeral := IsNumeral.fraction digit digits (isDigits_takeWhile rest)
            (exponent_of_isExponent behind)
          rw [List.takeWhile_append_dropWhile] at numeral
          exact point ▸ numeral
        · exact .whole digit digits (exponent_of_isExponent behind)

/-- **What is taken for a number is a numeric literal.** -/
theorem numeral_of_isNumber {t : Text} (h : isNumber t = true) : ValueKind.number.IsWhole t := by
  obtain ⟨sign, split, signed⟩ := exists_sign t
  refine ⟨sign, unsigned t, split, signed, ?_⟩
  simp only [isNumber, Bool.or_eq_true, beq_iff_eq] at h
  rcases h with (((hexadecimal | octal) | binary) | decimal) | infinity
  · exact numeral_of_inRadix (by decide) hexadecimal
  · exact numeral_of_inRadix (by decide) octal
  · exact numeral_of_inRadix (by decide) binary
  · exact numeral_of_inDecimal decimal
  · exact infinity ▸ .infinity

end Number

/-- Neither blanks nor signs of structure. -/
def Solid (t : Text) : Prop := ∀ c ∈ t, isDull c = true ∧ isBlank c = false

theorem Solid.append {t u : Text} (h : Solid t) (k : Solid u) : Solid (t ++ u) := fun c member =>
  (List.mem_append.1 member).elim (h c) (k c)

theorem Solid.cons {c : Char} {t : Text} (h : isDull c = true ∧ isBlank c = false) (k : Solid t) :
    Solid (c :: t) := List.forall_mem_cons.2 ⟨h, k⟩

theorem solid_of_isDecimal {c : Char} (h : isDecimal c = true) :
    isDull c = true ∧ isBlank c = false := by
  refine ⟨isDull_of_isDecimal h, ?_⟩
  cases blank : isBlank c with
  | false => rfl
  | true => simp [isDecimal_of_isBlank blank] at h

theorem IsDigits.solid {t : Text} (h : IsDigits t) : Solid t := fun c member => by
  rcases h c member with digit | rfl
  · exact solid_of_isDecimal digit
  · decide

theorem IsSign.solid {t : Text} (h : IsSign t) : Solid t := by
  rcases h with rfl | rfl | rfl
  · exact nofun
  · exact .cons (by decide) nofun
  · exact .cons (by decide) nofun

theorem IsExponent.solid {t : Text} (h : IsExponent t) : Solid t := by
  rcases h with rfl | ⟨mark, sign, digits, rfl, known, signed, -, inside⟩
  · exact nofun
  · refine .cons ?_ (signed.solid.append fun c member => solid_of_isDecimal (inside c member))
    rcases known with rfl | rfl <;> decide

theorem IsNumeral.solid {t : Text} (h : IsNumeral t) : Solid t ∧ t ≠ [] := by
  cases h with
  | @radix marks digits t mark known marked nonempty inside =>
    have chars : ∀ r ∈ radixes, Solid r.1 ∧ Solid r.2 := by
      change ∀ r ∈ radixes, (∀ c ∈ r.1, _) ∧ ∀ c ∈ r.2, _
      decide
    obtain ⟨marks, digits⟩ := chars _ known
    have body : Solid t := fun c member => by
      rcases inside c member with digit | rfl
      · exact digits c digit
      · decide
    exact ⟨.cons (by decide) (.cons (marks mark marked) body), List.cons_ne_nil _ _⟩
  | whole digit digits exponent =>
    exact ⟨.cons (solid_of_isDecimal digit) (digits.solid.append exponent.solid),
      List.cons_ne_nil _ _⟩
  | fraction digit digits behind exponent =>
    have decimals := Solid.cons (by decide : isDull '.' = true ∧ isBlank '.' = false)
      (behind.solid.append exponent.solid)
    exact ⟨.cons (solid_of_isDecimal digit) (digits.solid.append decimals), List.cons_ne_nil _ _⟩
  | point digit digits exponent =>
    exact ⟨.cons (by decide) (.cons (solid_of_isDecimal digit) (digits.solid.append exponent.solid)),
      List.cons_ne_nil _ _⟩
  | infinity => exact ⟨show ∀ c ∈ _, _ by decide, by decide⟩

/-- A literal without quotes holds no blanks and no signs. -/
theorem ValueKind.IsWhole.solid {k : ValueKind} {t : Text} (h : k.IsWhole t) (other : k ≠ .string) :
    Solid t ∧ t ≠ [] := by
  cases k with
  | string => exact absurd rfl other
  | boolean => rcases h with rfl | rfl <;> exact ⟨show ∀ c ∈ _, _ by decide, by decide⟩
  | number =>
    obtain ⟨sign, body, rfl, signed, numeral⟩ := h
    exact ⟨signed.solid.append numeral.solid.1, by simp [numeral.solid.2]⟩
  | unknown => cases h

/-! ### Values of lines -/

def quotes : List Text := [['\''], ['"'], ['`']]

theorem startsWithAny_quotes {t : Text} :
    startsWithAny quotes t = true ↔ ∃ c ∈ ['\'', '"', '`'], t.head? = some c := by
  cases t with
  | nil => simp [startsWithAny, quotes, startsWith]
  | cons d r => simp [startsWithAny, quotes, startsWith, List.isPrefixOf, @eq_comm Char _ d]

/-- The text by which the value behind a colon is classified. -/
def literalOf (t : Text) : Text :=
  trim (trimRightBy ([',', ';'].contains ·) (trim (trim (trimRightBy (· == ',') (trim t)))))

/-- What is left of `t` when neutral characters are taken from its end; it does not start with a
blank. -/
structure Heads (t x : Text) : Prop where
  start : trimLeft x = x
  rest : ∃ w, (∀ c ∈ w, isNeutral c = true) ∧ t = x ++ w

namespace Heads

variable {t x : Text}

theorem cut (h : Heads t x) {p : Char → Bool} (neutral : ∀ c, p c = true → isNeutral c = true) :
    Heads t (trimRightBy p x) := by
  obtain ⟨w, inside, whole⟩ := h.rest
  obtain ⟨u, last, split⟩ := exists_trimRightBy_append p x
  refine ⟨?_, u ++ w, fun c member => ?_, ?_⟩
  · cases first : trimRightBy p x with
    | nil => rfl
    | cons c r =>
      rw [first] at split
      refine trimLeft_of_head rfl ?_
      exact head_trimLeft_solid (t := x) (by rw [h.start, split]; rfl)
  · exact (List.mem_append.1 member).elim (fun inLast => neutral c (last c inLast)) (inside c)
  · rw [whole, ← List.append_assoc, ← split]

theorem trim (h : Heads t x) : Heads t (trim x) := by
  rw [Ambient.trim, h.start]
  exact h.cut fun c => isNeutral_of_isBlank

end Heads

theorem heads_literalOf (t : Text) : Heads (trimLeft t) (literalOf t) := by
  have whole : Heads (trimLeft t) (trimLeft t) := ⟨trimLeft_trimLeft t, [], nofun, by simp⟩
  have trimmed : Heads (trimLeft t) (trim t) := whole.cut fun c => isNeutral_of_isBlank
  have comma : ∀ c, (c == ',') = true → isNeutral c = true := by
    intro c same
    rw [beq_iff_eq.1 same]
    decide
  have sign : ∀ c, [',', ';'].contains c = true → isNeutral c = true := by
    intro c member
    rw [isNeutral, member, Bool.or_true]
  exact (((trimmed.cut comma).trim.trim.cut sign).trim)

/-- What a kind that is not unknown says about the literal. -/
theorem classify_cases {v : Text} {k : ValueKind} (known : k ≠ .unknown)
    (h : ValueKind.classify (trim (trimRightBy (· == ',') (trim v))) = k) :
    k = .string ∧ startsWithAny quotes (literalOf v) = true ∨
      k ≠ .string ∧ k.IsWhole (literalOf v) := by
  rw [ValueKind.classify] at h
  change (if startsWithAny quotes (literalOf v) then ValueKind.string
    else if literalOf v = "true".toList ∨ literalOf v = "false".toList then .boolean
    else if Number.isNumber (literalOf v) then .number else .unknown) = k at h
  split at h
  · next quoted => exact .inl ⟨h.symm, quoted⟩
  · split at h
    · next named => exact .inr ⟨by rw [← h]; decide, h ▸ named⟩
    · split at h
      · next number => exact .inr ⟨by rw [← h]; decide, h ▸ Number.numeral_of_isNumber number⟩
      · exact absurd h.symm known

/-! ### Lines and members -/

/-- The members of an object literal with the given lines inside it, comment lines left out. -/
def objectMembers (ls : List Text) : List Text :=
  Nesting.split false [','] (joinLines (ls.filter fun l => !isCommentLine (trim l)))

/-- The lines of the outermost level that neither start with a closing bracket nor like a comment. -/
def outerLines (ls : List Text) : List Text :=
  ((Nesting.levels 1 ls).filter fun p =>
    p.1 == 1 && !p.2.head?.any (closers.contains ·) && !isCommentLine p.2).map (·.2)

/-- The line has the value of the member behind its colon. -/
inductive HoldsValue (l m : Text) : Prop
  /-- It holds the whole value, and behind it nothing, a comma or a comment. -/
  | whole {key key' value behind : Text} (member : splitColon? m = some (key, value))
      (line : splitColon? l = some (key', value ++ behind))
      (ends : ∀ c ∈ (trim value).getLast?, c ≠ ',' ∧ c ≠ ';')
      (stops : ∀ c ∈ (trimLeft behind).head?, c = ',' ∨ c = '/')
  /-- It holds the start of a literal in quotes that goes on below. -/
  | opened {key key' value more : Text} (member : splitColon? m = some (key, value ++ more))
      (line : splitColon? l = some (key', value))
      (starts : startsWithAny quotes (trimLeft value) = true)

namespace Property

theorem exists_ofLine? {ls : List Text} {l : Text} (outer : l ∈ outerLines ls) :
    ∃ p ∈ ofLines ls, ofLine? l = some p ∧ trim l = l := by
  obtain ⟨⟨level, t⟩, member, rfl⟩ := List.mem_map.1 outer
  obtain ⟨leveled, shown⟩ := List.mem_filter.1 member
  simp only [Bool.and_eq_true, beq_iff_eq, Bool.not_eq_true'] at shown
  obtain ⟨⟨rfl, opens⟩, comment⟩ := shown
  have kept : t ∈ (ls.map trim).filter (· != []) := by
    rw [← levelsFrom_snd 1 0 (tokens (joinLines ((ls.map trim).filter (· != []))))
      ((ls.map trim).filter (· != []))]
    exact List.mem_map.2 ⟨(1, t), leveled, rfl⟩
  obtain ⟨inside, solid⟩ := List.mem_filter.1 kept
  obtain ⟨raw, -, rfl⟩ := List.mem_map.1 inside
  have read : ∃ p, ofLine? (trim raw) = some p := by
    have one : ¬ (trim raw = [] ∨ isCommentLine (trim raw) = true) := by
      simpa [comment] using solid
    simp only [ofLine?, trim_trim, if_neg one]
    split <;> exact ⟨_, rfl⟩
  obtain ⟨p, found⟩ := read
  refine ⟨p, List.mem_filterMap.2 ⟨(1, trim raw), leveled, ?_⟩, found, trim_trim raw⟩
  simp only [ne_eq, not_true_eq_false, false_or, opens, Bool.false_eq_true, ↓reduceIte]
  exact found

theorem kind_of_ofLine? {l : Text} {p : Property} (h : ofLine? l = some p) :
    p.kind = match splitColon? (trim l) with
      | none => .unknown
      | some (_, rest) => .classify (trim (trimRightBy (· == ',') (trim rest))) := by
  unfold ofLine? at h
  simp only at h
  split at h
  · cases h
  · cases found : splitColon? (trim l) with
    | none =>
      rw [found] at h
      rw [← Option.some.inj h]
    | some cut =>
      obtain ⟨key, rest⟩ := cut
      rw [found] at h
      rw [← Option.some.inj h]

/-- A kind shared by all properties is the kind of each. -/
theorem kind_of_commonKind {ps : List Property} {k : ValueKind} (known : k ≠ .unknown)
    (h : commonKind ps = k) : ∀ p ∈ ps, p.kind = k := by
  intro p member
  have inside : p.kind ∈ (ps.map kind).eraseDups :=
    List.mem_eraseDups.2 (List.mem_map.2 ⟨p, member, rfl⟩)
  rw [commonKind] at h
  split at h
  · next j single =>
    rw [single] at inside
    exact (List.mem_singleton.1 inside).trans h
  · exact absurd h.symm known

end Property

theorem indexSignature_injective {j k : ValueKind} (h : indexSignature j = indexSignature k) :
    j = k := by
  revert h
  cases j <;> cases k <;> decide

/-! ### Soundness -/

section
variable {value behind : Text}

theorem head_trim_append {c : Char} (h : (trimLeft value).head? = some c) (behind : Text) :
    (trim (value ++ behind)).head? = some c := by
  obtain ⟨r, first⟩ := List.head?_eq_some_iff.1 h
  have whole : trimLeft (value ++ behind) = c :: r ++ behind := by
    rw [trimLeft, List.dropWhile_append, ← trimLeft, first]
    rfl
  rw [trim, whole]
  exact head?_trimRight rfl (head_trimLeft_solid h)

/-- What stands first behind the colon: the value, or what follows an empty one. -/
theorem trimLeft_cases (value behind : Text) : trimLeft value ≠ [] ∧
      trimLeft (value ++ behind) = trimLeft value ++ behind ∨
    trimLeft value = [] ∧ trimLeft (value ++ behind) = trimLeft behind := by
  rw [trimLeft, trimLeft, List.dropWhile_append]
  cases first : value.dropWhile isBlank with
  | nil => exact .inr ⟨rfl, by simp [trimLeft]⟩
  | cons c r => exact .inl ⟨List.cons_ne_nil c r, by simp⟩

/-- A value that is followed by a comma or a comment starts as the line goes on. -/
theorem startsWith_value (stops : ∀ c ∈ (trimLeft behind).head?, c = ',' ∨ c = '/')
    (h : startsWithAny quotes (literalOf (value ++ behind)) = true) :
    startsWithAny quotes (trim value) = true := by
  obtain ⟨c, quote, head⟩ := startsWithAny_quotes.1 h
  obtain ⟨w, -, whole⟩ := (heads_literalOf (value ++ behind)).rest
  have first : (trimLeft (value ++ behind)).head? = some c := by
    rw [whole, List.head?_append, head]
    rfl
  rcases trimLeft_cases value behind with ⟨nonempty, split⟩ | ⟨-, split⟩
  · have start : (trimLeft value).head? = some c := by
      rwa [split, List.head?_append_of_ne_nil _ nonempty] at first
    have trimmed := head_trim_append start []
    rw [List.append_nil] at trimmed
    exact startsWithAny_quotes.2 ⟨c, quote, trimmed⟩
  · rw [split] at first
    have apart : ∀ d ∈ ['\'', '"', '`'], ¬ (d = ',' ∨ d = '/') := by decide
    exact absurd (stops c first) (apart c quote)

/-- A literal without quotes is the value that a comma or a comment follows. -/
theorem literalOf_value (ends : ∀ c ∈ (trim value).getLast?, c ≠ ',' ∧ c ≠ ';')
    (stops : ∀ c ∈ (trimLeft behind).head?, c = ',' ∨ c = '/')
    (solid : Solid (literalOf (value ++ behind))) (nonempty : literalOf (value ++ behind) ≠ []) :
    literalOf (value ++ behind) = trim value := by
  obtain ⟨w, neutral, whole⟩ := (heads_literalOf (value ++ behind)).rest
  have apart : ∀ c, c = ',' ∨ c = '/' → isDull c = false := by
    rintro c (rfl | rfl) <;> decide
  rcases trimLeft_cases value behind with ⟨some_value, split⟩ | ⟨-, split⟩
  · obtain ⟨u, blank, trimmed⟩ := exists_trimRight_append (trimLeft value)
    rw [← trim] at trimmed
    have both : trim value ++ (u ++ behind) = literalOf (value ++ behind) ++ w := by
      rw [← whole, split, ← List.append_assoc, ← trimmed]
    rcases List.append_eq_append_iff.1 both with ⟨x, longer, rest⟩ | ⟨y, shorter, rest⟩
    · -- The literal would go on into what follows the value.
      cases x with
      | nil => rw [longer, List.append_nil]
      | cons d x =>
        have inside := solid d (longer ▸ List.mem_append_right _ List.mem_cons_self)
        cases u with
        | cons e u =>
          rw [(List.cons.inj rest).1] at blank
          simp [blank d List.mem_cons_self] at inside
        | nil =>
          have head : (trimLeft behind).head? = some d := by
            rw [show behind = d :: (x ++ w) from rest]
            exact congrArg List.head? (trimLeft_of_head rfl inside.2)
          simp [apart d (stops d head)] at inside
    · -- The value would end with what is taken from the end.
      rcases List.eq_nil_or_concat y with rfl | ⟨y, d, rfl⟩
      · rw [shorter, List.append_nil]
      · rw [List.concat_eq_append] at shorter rest
        have last : (trim value).getLast? = some d := by
          rw [shorter, ← List.append_assoc, List.getLast?_concat]
        have cut := neutral d (rest ▸ by simp)
        obtain ⟨e, solidEnd, other⟩ := getLast?_trimRight (t := trimLeft value) (by
          rw [← trim, shorter]
          simp)
        rw [← trim, last] at solidEnd
        obtain rfl := Option.some.inj solidEnd
        simp [isNeutral, other, ends d last] at cut
  · obtain ⟨d, r, first⟩ := List.exists_cons_of_ne_nil nonempty
    have head : (trimLeft behind).head? = some d := by
      rw [← split, whole, first]
      rfl
    have inside := solid d (first ▸ List.mem_cons_self)
    simp [apart d (stops d head)] at inside

end

/-- A line that holds the value of a member has the kind that the value has. -/
theorem whole_of_holdsValue {l m : Text} (holds : HoldsValue l m) {k : ValueKind}
    (quoted : ∀ key value, splitColon? m = some (key, value) →
      startsWithAny quotes (trim value) = true → ValueKind.string.IsWhole (trim value))
    (known : k ≠ .unknown) {key rest : Text} (colon : splitColon? l = some (key, rest))
    (kind : ValueKind.classify (trim (trimRightBy (· == ',') (trim rest))) = k) :
    ∃ key value, splitColon? m = some (key, value) ∧ k.IsWhole (trim value) := by
  cases holds with
  | @whole key₀ key' value behind member line ends stops =>
    obtain ⟨rfl, rfl⟩ := Prod.mk.inj (Option.some.inj (line.symm.trans colon))
    refine ⟨key₀, value, member, ?_⟩
    rcases classify_cases known kind with ⟨rfl, starts⟩ | ⟨other, whole⟩
    · exact quoted _ _ member (startsWith_value stops starts)
    · obtain ⟨solid, nonempty⟩ := whole.solid other
      rw [literalOf_value ends stops solid nonempty] at whole
      exact whole
  | @opened key₀ key' value more member line starts =>
    obtain ⟨rfl, rfl⟩ := Prod.mk.inj (Option.some.inj (line.symm.trans colon))
    obtain ⟨c, quote, head⟩ := startsWithAny_quotes.1 starts
    refine ⟨key₀, value ++ more, member, ?_⟩
    rcases classify_cases known kind with ⟨rfl, -⟩ | ⟨other, whole⟩
    · exact quoted _ _ member (startsWithAny_quotes.2 ⟨c, quote, head_trim_append head more⟩)
    · -- A literal without quotes does not start with one.
      obtain ⟨solid, nonempty⟩ := whole.solid other
      obtain ⟨d, r, spelled⟩ := List.exists_cons_of_ne_nil nonempty
      obtain ⟨w, -, first⟩ := (heads_literalOf value).rest
      obtain rfl : d = c := by
        rw [first, spelled] at head
        exact Option.some.inj head
      have marked : ∀ c ∈ ['\'', '"', '`'], isDull c = false := by decide
      have inside := solid d (spelled ▸ List.mem_cons_self)
      simp [marked d quote] at inside

/-- **Inferred types are sound**, where each value stands on an outer line, as far as all of them are
read as literals, and nothing goes on behind a literal at the head of a value. -/
theorem inferred_type_sound (ls : List Text)
    (laid : (∀ p ∈ Property.ofLines ls, p.kind ≠ .unknown) →
      ∀ m ∈ objectMembers ls, ∃ l ∈ outerLines ls, HoldsValue l m)
    (quoted : ∀ m ∈ objectMembers ls, ∀ key value, splitColon? m = some (key, value) →
      startsWithAny quotes (trim value) = true → ValueKind.string.IsWhole (trim value)) :
    (∀ k ≠ ValueKind.unknown, (objectType ls).value = indexSignature k →
      ∀ m ∈ objectMembers ls, ∃ key value, splitColon? m = some (key, value) ∧ k.IsWhole (trim value)) ∧
    ((∀ k ≠ ValueKind.unknown, (objectType ls).value ≠ indexSignature k) →
      (objectType ls).value = indexSignature .unknown) := by
  have inferred : (objectType ls).value = indexSignature (Property.commonKind (Property.ofLines ls)) :=
    rfl
  rw [inferred]
  constructor
  · intro k known type m member
    have each := Property.kind_of_commonKind known (indexSignature_injective type)
    obtain ⟨l, outer, holds⟩ := laid (fun p property => (each p property).symm ▸ known) m member
    obtain ⟨p, property, read, trimmed⟩ := Property.exists_ofLine? outer
    have kind := (Property.kind_of_ofLine? read).symm.trans (each p property)
    rw [trimmed] at kind
    cases found : splitColon? l with
    | none =>
      rw [found] at kind
      exact absurd kind.symm known
    | some cut =>
      rw [found] at kind
      exact whole_of_holdsValue holds (quoted m member) known found kind
  · intro none
    cases kind : Property.commonKind (Property.ofLines ls) with
    | unknown => rfl
    | string | boolean | number => exact absurd (by rw [kind]) (none _ (by decide))

/-- A line that is a member with a comma behind it holds its value. -/
theorem holdsValue_append {m key value w : Text} (colon : splitColon? m = some (key, value))
    (neutral : ∀ c ∈ w, isNeutral c = true) (stops : ∀ c ∈ (trimLeft w).head?, c = ',' ∨ c = '/')
    (ends : ∀ c ∈ (trim value).getLast?, c ≠ ',' ∧ c ≠ ';') : HoldsValue (m ++ w) m := by
  obtain ⟨n, found, cut⟩ := Option.map_eq_some_iff.1 colon
  obtain ⟨o, -, shown⟩ := marks_append neutral m
  rw [find?_eq (by decide)] at found
  have inside : n < m.length := by
    have at' := ((Outline.firstTop_zero_iff ':' (marks m) n).1 found).1.1
    exact length_marks m ▸ (List.getElem?_eq_some_iff.1 at').1
  have line : splitColon? (m ++ w) = some (key, value ++ w) := by
    obtain ⟨rfl, rfl⟩ := Prod.mk.inj cut
    rw [splitColon?, find?_eq (by decide), shown, Outline.firstTop_append, found, Option.some_or,
      Option.map_some, List.take_append_of_le_length (by omega), List.drop_append_of_le_length inside]
  exact .whole colon line ends stops

/-- Strings in quotes and in templates, with comments on and between the lines. -/
theorem strings_inferred :
    let ls : List Text := ["// c".toList, "a: 'x',".toList, "b: `y`, // d".toList, "e: 'z'".toList]
    objectMembers ls = ["a: 'x'".toList, "b: `y`".toList, "// d\ne: 'z'".toList] ∧
      (objectType ls).value = indexSignature .string ∧
      ∀ m ∈ objectMembers ls, ∃ key value, splitColon? m = some (key, value) ∧
        ValueKind.string.IsWhole (trim value) := by
  intro ls
  have found : objectMembers ls = ["a: 'x'".toList, "b: `y`".toList, "// d\ne: 'z'".toList] := by
    decide +kernel
  have outer : outerLines ls = ["a: 'x'".toList ++ [','], "b: `y`, // d".toList, "e: 'z'".toList] := by
    decide +kernel
  have first : splitColon? "a: 'x'".toList = some (['a'], " 'x'".toList) := by decide +kernel
  have second : splitColon? "b: `y`".toList = some (['b'], " `y`".toList) ∧
      splitColon? "b: `y`, // d".toList = some (['b'], " `y`".toList ++ ", // d".toList) := by
    decide +kernel
  have third : splitColon? "// d\ne: 'z'".toList = some ("// d\ne".toList, " 'z'".toList) ∧
      splitColon? "e: 'z'".toList = some (['e'], " 'z'".toList ++ []) := by
    decide +kernel
  have type : (objectType ls).value = indexSignature .string := by decide +kernel
  have sound := inferred_type_sound ls
    (fun _ => by
      rw [found, outer]
      simp only [List.forall_mem_cons, List.exists_mem_cons_iff]
      exact ⟨.inl (holdsValue_append first (by decide) (by decide) (by decide)),
        .inr (.inl (.whole second.1 second.2 (by decide) (by decide))),
        .inr (.inr (.inl (.whole third.1 third.2 (by decide) (by decide)))), nofun⟩)
    (fun m member key value colon _ => by
      have plain {c : Char} (other : c ≠ '\'' ∧ c ≠ '\\' ∧ c ≠ '\n') : QuotedBody '\'' [c] :=
        .plain other.1 other.2.1 other.2.2 .nil
      rw [found] at member
      simp only [List.mem_cons, List.not_mem_nil, or_false] at member
      rcases member with rfl | rfl | rfl
      · obtain ⟨rfl, rfl⟩ := Prod.mk.inj (Option.some.inj (first.symm.trans colon))
        exact .inl ⟨⟨'\'', ['x'], .inr rfl, plain (by decide)⟩, rfl⟩
      · obtain ⟨rfl, rfl⟩ := Prod.mk.inj (Option.some.inj (second.1.symm.trans colon))
        exact .inr ⟨['y'], .plain (by decide) (by decide) (by decide) .nil, rfl⟩
      · obtain ⟨rfl, rfl⟩ := Prod.mk.inj (Option.some.inj (third.1.symm.trans colon))
        exact .inl ⟨⟨'\'', ['z'], .inr rfl, plain (by decide)⟩, rfl⟩)
  exact ⟨found, type, sound.1 .string (by decide) type⟩

/-- **A literal at the head of a value hides what follows it**, and the second line of a conditional
value reads as a property of its own. -/
theorem expressions_inferred_as_literals :
    let sum : List Text := ["a: 'x' + 1,".toList]
    let choice : List Text := ["a: 1".toList, "? 2 : 3,".toList]
    ((objectType sum).value = indexSignature .string ∧ objectMembers sum = ["a: 'x' + 1".toList] ∧
      splitColon? "a: 'x' + 1".toList = some (['a'], " 'x' + 1".toList) ∧
      ¬ ValueKind.string.IsWhole (trim " 'x' + 1".toList)) ∧
    ((objectType choice).value = indexSignature .number ∧ objectMembers choice = ["a: 1\n? 2 : 3".toList] ∧
      splitColon? "a: 1\n? 2 : 3".toList = some (['a'], " 1\n? 2 : 3".toList) ∧
      ¬ ValueKind.number.IsWhole (trim " 1\n? 2 : 3".toList)) := by
  refine ⟨⟨by decide +kernel, by decide +kernel, by decide +kernel, ?_⟩, by decide +kernel,
    by decide +kernel, by decide +kernel, fun whole => ?_⟩
  · rintro (⟨q, same⟩ | ⟨body, -, same⟩)
    · have first : some '\'' = some q.mark := congrArg List.head? same
      have last := congrArg List.getLast? same
      rw [QuotedText.text, List.getLast?_concat, ← first] at last
      exact absurd last (by decide)
    · have first : (trim " 'x' + 1".toList).head? = some '\'' := by decide
      rw [same] at first
      exact absurd (Option.some.inj first) (by decide)
  · exact absurd ((whole.solid (by decide)).1 '\n' (by decide)).2 (by decide)

end Ambient
