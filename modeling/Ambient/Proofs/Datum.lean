import Ambient.Proofs.Expression
import Ambient.Proofs.Forms
import Ambient.Proofs.Written

/-!
Keys and values of object literals that stand on one line: names, literals and integers. A literal
shows no mark, whatever it holds (`Datum.written`), and the kind of a value is read off its text
(`Datum.classify_text`).
-/

namespace Ambient

open Lexer

/-! ### Keys and values -/

/-- A key or a value on its line: a name, a literal or an integer. -/
inductive Datum
  | name (w : Word)
  | quoted (q : QuotedText)
  | template (body : Text) (inside : TemplateBody body)
  | integer (sign : Option Char) (signed : ∀ c ∈ sign, c = '-' ∨ c = '+') (first : Char) (more : Text)
      (digits : ∀ c ∈ first :: more, isDecimal c = true)

/-- The characters at the ends of keys and values. -/
def isEdge (c : Char) : Bool :=
  isNameChar c || isDecimal c || ['"', '\'', '`', '-', '+'].contains c

theorem isBlank_of_isEdge {c : Char} (h : isEdge c = true) : isBlank c = false := by
  have marks : ∀ d ∈ ['"', '\'', '`', '-', '+'], isBlank d = false := by decide
  simp only [isEdge, Bool.or_eq_true, List.contains_eq_mem, decide_eq_true_eq] at h
  rcases h with (name | digit) | mark
  · exact isBlank_of_isNameChar name
  · cases blank : isBlank c with
    | false => rfl
    | true => rw [isDecimal_of_isBlank blank] at digit; cases digit
  · exact marks c mark

theorem not_mem_of_isEdge {c : Char} (h : isEdge c = true) {signs : List Char}
    (apart : ∀ d ∈ signs, isEdge d = false) : c ∉ signs := by
  intro member
  rw [apart c member] at h
  cases h

namespace Datum

def text : Datum → Text
  | name w => w.text
  | quoted q => q.text
  | template body _ => '`' :: body ++ ['`']
  | integer sign _ first more _ => sign.toList ++ first :: more

def kind : Datum → ValueKind
  | name w =>
    if w.text = "true".toList ∨ w.text = "false".toList then .boolean
    else if w.text = "Infinity".toList then .number
    else .unknown
  | quoted _ | template .. => .string
  | integer .. => .number

/-- A key or a value shows no mark, whatever its literal holds. -/
theorem written (d : Datum) : Written d.text ∧ ∀ x ∈ marks d.text, x = none := by
  have literal (seg : Segment) (inert : seg.outline = List.replicate seg.text.length none) :
      Written seg.text ∧ ∀ x ∈ marks seg.text, x = none := by
    have spelled : Segment.spell [seg] = seg.text := by simp
    refine ⟨⟨_, spelled⟩, ?_⟩
    rw [← spelled, marks_spell, Segment.outlines_cons, inert]
    have alone : List.replicate seg.text.length none ++ Segment.outlines [] =
        List.replicate seg.text.length none := List.append_nil _
    rw [alone]
    exact fun x member => List.eq_of_mem_replicate member
  cases d with
  | name w => exact Written.of_dull fun c member => isDull_of_isNameChar (w.all_chars c member)
  | quoted q => exact literal (.quoted q.mark q.body q.quote q.inside) rfl
  | template body inside => exact literal (.template body inside) rfl
  | integer sign signed first more digits =>
    refine Written.of_dull fun c member => ?_
    rcases List.mem_append.1 member with member | member
    · rcases signed c (Option.mem_toList.1 member) with rfl | rfl <;> decide
    · exact isDull_of_isDecimal (digits c member)

theorem edges (d : Datum) : (∃ c, d.text.head? = some c ∧ isEdge c = true) ∧
    ∃ c, d.text.getLast? = some c ∧ isEdge c = true := by
  have nameEdge {c : Char} (h : isNameChar c = true) : isEdge c = true := by simp [isEdge, h]
  have digitEdge {c : Char} (h : isDecimal c = true) : isEdge c = true := by simp [isEdge, h]
  cases d with
  | name w =>
    obtain ⟨c, last⟩ : ∃ c, w.text.getLast? = some c := ⟨_, List.getLast?_cons⟩
    exact ⟨⟨w.first, rfl, nameEdge (isNameChar_of_isNameStart w.start)⟩,
      c, last, nameEdge (w.all_chars c (List.mem_of_getLast? last))⟩
  | quoted q =>
    have mark : isEdge q.mark = true := by rcases q.quote with mark | mark <;> rw [mark] <;> decide
    exact ⟨⟨q.mark, rfl, mark⟩, q.mark, List.getLast?_concat, mark⟩
  | template body inside => exact ⟨⟨'`', rfl, by decide⟩, '`', List.getLast?_concat, by decide⟩
  | integer sign signed first more digits =>
    obtain ⟨c, last⟩ : ∃ c, (first :: more).getLast? = some c := ⟨_, List.getLast?_cons⟩
    refine ⟨?_, c, ?_, digitEdge (digits c (List.mem_of_getLast? last))⟩
    · cases sign with
      | none => exact ⟨first, rfl, digitEdge (digits first List.mem_cons_self)⟩
      | some s =>
        refine ⟨s, rfl, ?_⟩
        rcases signed s rfl with rfl | rfl <;> decide
    · rw [text, List.getLast?_append, last]
      rfl

theorem ne_nil (d : Datum) : d.text ≠ [] := by
  obtain ⟨⟨c, head, -⟩, -⟩ := d.edges
  intro none
  rw [none] at head
  cases head

theorem trim_eq (d : Datum) : trim d.text = d.text := by
  obtain ⟨⟨c, head, edge⟩, e, last, edge'⟩ := d.edges
  exact trim_of_ends head last (isBlank_of_isEdge edge) (isBlank_of_isEdge edge')

/-- A key is no export, also when it is named so. -/
theorem unexported (d : Datum) (r : Text) : afterExport? (d.text ++ ':' :: r) = none := by
  have quote (c : Char) (other : c ≠ 'e') (u : Text) : afterExport? (c :: u) = none := by
    have same : 'e' ≠ c := Ne.symm other
    simp [afterExport?, afterSpaced?, after?, same]
  have solid {w : Text} (h : ∀ c ∈ w, isEdge c = true) : afterExport? (w ++ ':' :: r) = none :=
    Canonical.afterSpaced?_of_solid (by decide) (by decide) fun c member => isBlank_of_isEdge (h c member)
  cases d with
  | name w => exact solid fun c member => by simp [isEdge, w.all_chars c member]
  | quoted q => exact quote q.mark (by rcases q.quote with mark | mark <;> rw [mark] <;> decide) _
  | template body inside => exact quote '`' (by decide) _
  | integer sign signed first more digits =>
    refine solid fun c member => ?_
    rcases List.mem_append.1 member with member | member
    · rcases signed c (Option.mem_toList.1 member) with rfl | rfl <;> decide
    · simp [isEdge, digits c member]

end Datum

/-! ### Kinds of values -/

namespace Number

theorem inRadix_of_head {c : Char} (other : c ≠ '0') (marks digits r : Text) :
    inRadix marks digits (c :: r) = false := by
  unfold inRadix
  split
  · next same => exact absurd (List.cons.inj same).1 other
  · rfl

/-- The only name that is a number. -/
theorem isNumber_name (w : Word) : isNumber w.text = (w.text == "Infinity".toList) := by
  have signs : ∀ c ∈ ['+', '-', '0', '.'], isNameStart c = false := by decide
  have other (c : Char) (sign : c ∈ ['+', '-', '0', '.']) : w.first ≠ c := by
    rintro same
    have start := w.start
    rw [same, signs c sign] at start
    cases start
  have letter : isDecimal w.first = false := by
    cases digit : isDecimal w.first with
    | false => rfl
    | true => exact absurd w.start (by simp [isNameStart_of_isDecimal digit])
  have unsigned : unsigned w.text = w.text := by
    simp [Word.text, Number.unsigned, other '+' (by decide), other '-' (by decide)]
  have noDecimal : inDecimal w.text = false := by
    simp [Word.text, inDecimal, other '.' (by decide), letter]
  have noRadix (marks digits : Text) : inRadix marks digits w.text = false :=
    inRadix_of_head (other '0' (by decide)) marks digits w.more
  simp only [isNumber, unsigned, noRadix, noDecimal, Bool.false_or]

theorem isNumber_integer {sign : Option Char} (signed : ∀ c ∈ sign, c = '-' ∨ c = '+') {first : Char}
    {more : Text} (digits : ∀ c ∈ first :: more, isDecimal c = true) :
    isNumber (sign.toList ++ first :: more) = true := by
  have signs : ∀ c ∈ ['+', '-', '.'], isDecimal c = false := by decide
  have digit := digits first List.mem_cons_self
  have other (c : Char) (mark : c ∈ ['+', '-', '.']) : first ≠ c := by
    rintro rfl
    rw [signs first mark] at digit
    cases digit
  have unsigned : unsigned (sign.toList ++ first :: more) = first :: more := by
    cases sign with
    | none => simp [Number.unsigned, other '+' (by decide), other '-' (by decide)]
    | some s => rcases signed s rfl with rfl | rfl <;> rfl
  have rest : more.dropWhile isDigitOrGap = [] := by
    have inside : ∀ c ∈ more, isDigitOrGap c = true := fun c member => by
      simp [isDigitOrGap, digits c (List.mem_cons_of_mem first member)]
    exact (List.append_nil more) ▸ List.dropWhile_append_of_pos inside
  have decimal : inDecimal (first :: more) = true := by
    simp [inDecimal, other '.' (by decide), digit, rest]
  simp only [isNumber, unsigned, decimal, Bool.or_true, Bool.true_or]

end Number

namespace ValueKind

variable {t : Text} {c e : Char}

/-- A value that ends with no comma or semicolon is judged as it stands. -/
theorem judged_whole (trimmed : trim t = t) (last : t.getLast? = some e) (ends : e ∉ [',', ';']) :
    trim (trimRightBy ([',', ';'].contains ·) (trim t)) = t := by
  rw [trimmed, trimRightBy_of_getLast last (by simpa using ends), trimmed]

theorem classify_of_quoted (trimmed : trim t = t) (head : t.head? = some c)
    (quote : c ∈ ['\'', '"', '`']) (last : t.getLast? = some e) (ends : e ∉ [',', ';']) :
    classify t = .string := by
  have starts : startsWithAny [['\''], ['"'], ['`']] t = true := by
    obtain ⟨r, rfl⟩ := List.head?_eq_some_iff.1 head
    simp only [List.mem_cons, List.not_mem_nil, or_false] at quote
    rcases quote with rfl | rfl | rfl <;> rfl
  simp only [classify, judged_whole trimmed last ends, starts, ↓reduceIte]

/-- A value without quotes at its head is judged as a word or a number. -/
theorem classify_of_unquoted (trimmed : trim t = t) (head : t.head? = some c)
    (unquoted : c ∉ ['\'', '"', '`']) (last : t.getLast? = some e) (ends : e ∉ [',', ';']) :
    classify t =
      if t = "true".toList ∨ t = "false".toList then .boolean
      else if Number.isNumber t then .number
      else .unknown := by
  have plain : startsWithAny [['\''], ['"'], ['`']] t = false := by
    obtain ⟨r, rfl⟩ := List.head?_eq_some_iff.1 head
    simp only [List.mem_cons, List.not_mem_nil, or_false, not_or] at unquoted
    simp [startsWithAny, startsWith, List.isPrefixOf, Ne.symm unquoted.1, Ne.symm unquoted.2.1,
      Ne.symm unquoted.2.2]
  simp only [classify, judged_whole trimmed last ends, plain, Bool.false_eq_true, ↓reduceIte]

end ValueKind

/-- Digits and signs start neither a literal in quotes nor a truth value. -/
theorem Number.not_mem_of_numeral {c : Char} (h : isDecimal c = true ∨ c = '-' ∨ c = '+') :
    c ∉ ['\'', '"', '`', 't', 'f'] := by
  have marks : ∀ d ∈ ['\'', '"', '`', 't', 'f'], isDecimal d = false ∧ d ≠ '-' ∧ d ≠ '+' := by
    decide
  intro member
  obtain ⟨letter, minus, plus⟩ := marks c member
  rcases h with digit | same | same
  · exact absurd digit (by simp [letter])
  · exact minus same
  · exact plus same

namespace Datum

/-- The kind of a value is read off its text. -/
theorem classify_text (d : Datum) : ValueKind.classify d.text = d.kind := by
  have apart : ∀ c ∈ [',', ';'], isEdge c = false := by decide
  obtain ⟨-, e, last, edge⟩ := d.edges
  have ends := not_mem_of_isEdge edge apart
  cases d with
  | name w =>
    have unquoted : w.first ∉ ['\'', '"', '`'] := by
      have marks : ∀ c ∈ ['\'', '"', '`'], isNameStart c = false := by decide
      intro member
      exact absurd w.start (by simp [marks _ member])
    rw [ValueKind.classify_of_unquoted (trim_eq (.name w)) rfl unquoted last ends, text,
      Number.isNumber_name, kind]
    simp only [beq_iff_eq]
  | quoted q =>
    have quote : q.mark ∈ ['\'', '"', '`'] := by rcases q.quote with mark | mark <;> simp [mark]
    exact ValueKind.classify_of_quoted (trim_eq _) rfl quote last ends
  | template body inside =>
    exact ValueKind.classify_of_quoted (c := '`') (trim_eq _) rfl (by decide) last ends
  | integer sign signed first more digits =>
    have numeral : ∀ c ∈ sign.toList ++ first :: more, isDecimal c = true ∨ c = '-' ∨ c = '+' := by
      intro c member
      rcases List.mem_append.1 member with member | member
      · exact .inr (signed c (Option.mem_toList.1 member))
      · exact .inl (digits c member)
    obtain ⟨⟨c, head, -⟩, -⟩ := edges (.integer sign signed first more digits)
    have other := Number.not_mem_of_numeral (numeral c (List.mem_of_head? head))
    have noWord : ¬ (text (.integer sign signed first more digits) = "true".toList ∨
        text (.integer sign signed first more digits) = "false".toList) := by
      rintro (same | same) <;>
      · rw [same] at head
        obtain rfl := Option.some.inj head
        exact other (by decide)
    have unquoted : c ∉ ['\'', '"', '`'] :=
      fun member => other (List.mem_append_left ['t', 'f'] member)
    have number : Number.isNumber (text (.integer sign signed first more digits)) = true :=
      Number.isNumber_integer signed digits
    rw [ValueKind.classify_of_unquoted (trim_eq _) head unquoted last ends, if_neg noWord,
      if_pos number, kind]

end Datum

end Ambient
