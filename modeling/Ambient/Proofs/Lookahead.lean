import Ambient.Proofs.Implementation

/-!
What is read of a text before a brace. The lexemes before a brace that is a token of its own do not
depend on what stands behind it: a literal or comment that is open at the brace either takes the
brace or is none (`step_upto_brace`). So a text whose brace is found keeps its lexemes when its line
is cut off behind the brace and the blanks before the brace change (`lex_before_brace`).
-/

namespace Ambient

open Lexer

/-! ### Tails with a brace -/

/-- A tail of blanks on one line, a brace, and `b` behind the brace. -/
inductive BeforeBrace (b : Text) : Text → Prop
  | here : BeforeBrace b ('{' :: b)
  | blank {c : Char} {t : Text} : isBlank c = true → c ≠ '\n' → BeforeBrace b t →
      BeforeBrace b (c :: t)

theorem beforeBrace_append {b w : Text} (blank : ∀ c ∈ w, isBlank c = true) (flat : '\n' ∉ w) :
    BeforeBrace b (w ++ '{' :: b) := by
  induction w with
  | nil => exact .here
  | cons c w ih =>
    obtain ⟨other, later⟩ := not_or.1 (mt List.mem_cons.2 flat)
    exact .blank (blank c List.mem_cons_self) (Ne.symm other)
      (ih (fun d member => blank d (List.mem_cons_of_mem c member)) later)

theorem rest_length_le {cut : Text × Text} {t : Text} (whole : cut.1 ++ cut.2 = t) :
    cut.2.length ≤ t.length :=
  (whole ▸ List.suffix_append cut.1 cut.2 : cut.2 <:+ t).length_le

namespace BeforeBrace

variable {b t : Text} (tail : BeforeBrace b t)
include tail

theorem head : ∀ c ∈ t.head?, isBreak c = true := by
  intro c first
  cases tail with
  | here => obtain rfl := Option.some.inj first; decide
  | blank blank _ _ =>
    obtain rfl := Option.some.inj first
    simp [isBreak, isNeutral, blank]

theorem trimLeft_eq : trimLeft t = '{' :: b := by
  induction tail with
  | here => exact List.dropWhile_cons_of_neg (by decide)
  | blank blank _ _ ih => rw [trimLeft, List.dropWhile_cons_of_pos blank, ← trimLeft, ih]

/-- A run of characters that takes blanks and braces goes on behind the brace. -/
theorem dropWhile_le {p : Char → Bool} (blanks : ∀ c, isBlank c = true → c ≠ '\n' → p c = true)
    (brace : p '{' = true) : (t.dropWhile p).length ≤ b.length := by
  induction tail with
  | here =>
    rw [List.dropWhile_cons_of_pos brace]
    exact (List.dropWhile_sublist p).length_le
  | blank blank other _ ih =>
    rw [List.dropWhile_cons_of_pos (blanks _ blank other)]
    exact ih

theorem quotedTail?_le {q : Char} (quote : isBreak q = false) {cut : Text × Text}
    (read : quotedTail? q t = some cut) : cut.2.length ≤ b.length := by
  induction tail generalizing cut with
  | here =>
    have other : '{' ≠ q := ne_of_class (p := isBreak) (by decide) quote
    rw [quotedTail?_plain other (by decide) (by decide)] at read
    obtain ⟨inner, later, rfl⟩ := Option.map_eq_some_iff.1 read
    have behind : inner.2.length ≤ b.length := rest_length_le (append_of_quotedTail? later)
    exact behind
  | @blank c t blank other _ ih =>
    have breaks : isBreak c = true := by simp [isBreak, isNeutral, blank]
    have plain : c ≠ '\\' := ne_of_class breaks (by decide)
    rw [quotedTail?_plain (ne_of_class breaks quote) plain other] at read
    obtain ⟨inner, later, rfl⟩ := Option.map_eq_some_iff.1 read
    have behind : inner.2.length ≤ b.length := ih later
    exact behind

theorem regexTail?_le {inClass : Bool} {cut : Text × Text}
    (read : regexTail? inClass t = some cut) : cut.2.length ≤ b.length := by
  have step {c : Char} {r : Text} (slash : c ≠ '/') (backslash : c ≠ '\\') (feed : c ≠ '\n')
      {inClass : Bool} {cut : Text × Text} (read : regexTail? inClass (c :: r) = some cut) :
      ∃ again inner, regexTail? again r = some inner ∧ cut.2 = inner.2 := by
    cases inClass with
    | true =>
      rw [regexTail?_inClass backslash feed] at read
      obtain ⟨inner, later, rfl⟩ := Option.map_eq_some_iff.1 read
      exact ⟨_, inner, later, rfl⟩
    | false =>
      rw [regexTail?_plain slash backslash feed] at read
      obtain ⟨inner, later, rfl⟩ := Option.map_eq_some_iff.1 read
      exact ⟨_, inner, later, rfl⟩
  induction tail generalizing inClass cut with
  | here =>
    obtain ⟨again, inner, later, same⟩ := step (by decide) (by decide) (by decide) read
    rw [same]
    exact rest_length_le (append_of_regexTail? later)
  | @blank c t blank other _ ih =>
    have breaks : isBreak c = true := by simp [isBreak, isNeutral, blank]
    obtain ⟨again, inner, later, same⟩ :=
      step (ne_of_class breaks (by decide)) (ne_of_class breaks (by decide)) other read
    rw [same]
    exact ih later

theorem blockTail_le : (blockTail t).2.length ≤ b.length := by
  induction tail with
  | here =>
    simp only [blockTail, show ¬('{' = '*') by decide, false_and, ↓reduceIte, onto]
    exact rest_length_le (blockTail_append b)
  | @blank c t blank other _ ih =>
    have plain : ¬(c = '*') := ne_of_class blank (by decide)
    simpa only [blockTail, plain, false_and, ↓reduceIte, onto] using ih

end BeforeBrace

/-! ### Literals -/

/-- What a reader takes of a text, alone and with the tail `t` behind it: the same, or it takes
nothing of the text alone and goes on behind the brace of the tail. -/
inductive Lexer.CutsBefore (b t : Text) : Option (Text × Text) → Option (Text × Text) → Prop
  | none : CutsBefore b t none none
  | same (read rest : Text) : CutsBefore b t (some (read, rest)) (some (read, rest ++ t))
  | far {cut : Text × Text} : cut.2.length ≤ b.length → CutsBefore b t none (some cut)

namespace Lexer.CutsBefore

variable {b t : Text}

theorem of_far {cut : Option (Text × Text)} (far : ∀ c, cut = some c → c.2.length ≤ b.length) :
    CutsBefore b t Option.none cut := by
  cases cut with
  | none => exact .none
  | some c => exact .far (far c rfl)

theorem onto {short long : Option (Text × Text)} (h : CutsBefore b t short long) (front : Text) :
    CutsBefore b t (short.map (Lexer.onto front)) (long.map (Lexer.onto front)) := by
  cases h with
  | none => exact .none
  | same read rest => exact .same (front ++ read) rest
  | far behind => exact .far behind

end Lexer.CutsBefore

section
variable {b t : Text} (tail : BeforeBrace b t)
include tail

/-- A backslash at the end of the text takes the first character of the tail. -/
theorem BeforeBrace.quotedTail?_tail_le {q : Char} (quote : isBreak q = false) {cut : Text × Text}
    (read : quotedTail? q t.tail = some cut) : cut.2.length ≤ b.length := by
  cases tail with
  | here => exact rest_length_le (append_of_quotedTail? read)
  | blank _ _ later => exact later.quotedTail?_le quote read

theorem BeforeBrace.regexTail?_tail_le {inClass : Bool} {cut : Text × Text}
    (read : regexTail? inClass t.tail = some cut) : cut.2.length ≤ b.length := by
  cases tail with
  | here => exact rest_length_le (append_of_regexTail? read)
  | blank _ _ later => exact later.regexTail?_le read

theorem quotedTail?_before {q : Char} (quote : isBreak q = false) (u : Text) :
    CutsBefore b t (quotedTail? q u) (quotedTail? q (u ++ t)) := by
  fun_induction quotedTail? q u with
  | case1 => exact .of_far fun cut read => tail.quotedTail?_le quote read
  | case2 r =>
    rw [List.cons_append, quotedTail?_quote]
    exact .same _ r
  | case3 other =>
    refine .of_far fun cut read => ?_
    cases t with
    | nil => simp [quotedTail?, other] at read
    | cons d t =>
      simp only [List.cons_append, List.nil_append, quotedTail?, other, ↓reduceIte] at read
      obtain ⟨inner, later, rfl⟩ := Option.map_eq_some_iff.1 read
      have behind : inner.2.length ≤ b.length := tail.quotedTail?_tail_le quote later
      exact behind
  | case4 d r other ih => simpa [quotedTail?, other] using ih.onto ['\\', d]
  | case5 r other =>
    have none : quotedTail? q ('\n' :: (r ++ t)) = none := by simp [quotedTail?.eq_def, other]
    rw [List.cons_append, none]
    exact .none
  | case6 c r other backslash feed ih =>
    rw [List.cons_append, quotedTail?_plain other backslash feed]
    exact ih.onto [c]

theorem regexTail?_before (inClass : Bool) (u : Text) :
    CutsBefore b t (regexTail? inClass u) (regexTail? inClass (u ++ t)) := by
  fun_induction regexTail? inClass u with
  | case1 inClass => exact .of_far fun cut read => tail.regexTail?_le read
  | case2 inClass r =>
    have none : regexTail? inClass ('\n' :: (r ++ t)) = none := by simp [regexTail?.eq_def]
    rw [List.cons_append, none]
    exact .none
  | case3 inClass =>
    refine .of_far fun cut read => ?_
    cases t with
    | nil => simp [regexTail?] at read
    | cons d t =>
      by_cases feed : d = '\n'
      · simp [regexTail?, feed] at read
      · have escaped : regexTail? inClass ('\\' :: d :: t) =
            (regexTail? inClass t).map (onto ['\\', d]) := by simp [regexTail?, feed]
        rw [List.cons_append, List.nil_append, escaped] at read
        obtain ⟨inner, later, rfl⟩ := Option.map_eq_some_iff.1 read
        have behind : inner.2.length ≤ b.length := tail.regexTail?_tail_le later
        exact behind
  | case4 inClass r => simpa [regexTail?] using CutsBefore.none
  | case5 inClass d r feed _ ih => simpa [regexTail?, feed] using ih.onto ['\\', d]
  | case6 c r feed backslash ih =>
    rw [List.cons_append, regexTail?_inClass backslash feed]
    exact ih.onto [c]
  | case7 inClass r outside =>
    obtain rfl : inClass = false := by simpa using outside
    rw [List.cons_append, regexTail?_slash]
    exact .same _ r
  | case8 inClass c r feed backslash outside slash ih =>
    obtain rfl : inClass = false := by simpa using outside
    rw [List.cons_append, regexTail?_plain slash backslash feed]
    exact ih.onto [c]

theorem regex?_before {u : Text} (nonempty : u ≠ []) :
    CutsBefore b t (regex? u) (regex? (u ++ t)) := by
  obtain ⟨c, r, rfl⟩ := List.exists_cons_of_ne_nil nonempty
  by_cases slash : c = '/'
  · subst slash
    have heads (d : Char) (solid : isBreak d = false) :
        (r ++ t).head? = some d ↔ r.head? = some d := by
      cases r with
      | nil => simpa using fun found => ne_of_class (tail.head d found) solid rfl
      | cons => simp
    have read := regexTail?_before tail false r
    simp only [List.cons_append, regex?, heads '*' (by decide), heads '/' (by decide)]
    split
    · exact .none
    · generalize regexTail? false r = short at read
      generalize regexTail? false (r ++ t) = long at read
      cases read with
      | none => exact .none
      | same body rest =>
        obtain ⟨taken, left⟩ := span_append_of_break tail.head
          (p := Char.isAlpha) (fun _ => isAlpha_of_isBreak) rest
        simp only [Option.map_some, taken, left]
        exact .same _ _
      | @far cut behind =>
        have shorter := (List.dropWhile_sublist Char.isAlpha (l := cut.2)).length_le
        exact .far (shorter.trans behind)
  · rw [List.cons_append, regex?_of_head? (by simpa using slash),
      regex?_of_head? (by simpa using slash)]
    exact .none

end

/-! ### Steps -/

/-- The step goes on behind the brace that `b` follows, and its first lexeme is the only one that
may carry structure. -/
structure Lexer.Step.Overruns (b : Text) (s : Step) : Prop where
  inert : ∀ l ∈ s.lexemes.tail, l.kind.isInert = true
  behind : s.rest.length ≤ b.length

/-- What is read of a text with the tail `t`, and with the tail `v`: the same, unless the reading
with `t` runs over the brace. -/
inductive Lexer.ReadsBefore (b t v : Text) : Option Step → Option Step → Prop
  | none : ReadsBefore b t v none none
  | same (ls : List Lexeme) (rest : Text) (mode : Mode) :
      ReadsBefore b t v (some ⟨ls, rest ++ t, mode⟩) (some ⟨ls, rest ++ v, mode⟩)
  | overrun {s : Step} (short : Option Step) : s.Overruns b → ReadsBefore b t v (some s) short

def Lexer.Rule.ReadsBefore (rule : Rule) (b t v : Text) (before : Option Char) (c : Char)
    (r : Text) : Prop :=
  Lexer.ReadsBefore b t v (rule before (c :: (r ++ t))) (rule before (c :: (r ++ v)))

theorem readsBefore_findSome? {α : Type} {b t v : Text} {f g : α → Option Step} {xs : List α}
    (h : ∀ x ∈ xs, ReadsBefore b t v (f x) (g x)) :
    ReadsBefore b t v (xs.findSome? f) (xs.findSome? g) := by
  induction xs with
  | nil => exact .none
  | cons x xs ih =>
    have later := ih fun y member => h y (List.mem_cons_of_mem x member)
    have here := h x List.mem_cons_self
    rw [List.findSome?_cons, List.findSome?_cons]
    generalize f x = long at here
    generalize g x = short at here
    cases here with
    | none => exact later
    | same ls rest mode => exact .same ls rest mode
    | overrun short overruns => exact .overrun _ overruns

theorem Lexer.Step.single_overruns {b : Text} (cut : Text × Text) (behind : cut.2.length ≤ b.length)
    (kind : TokenKind) (next : Mode) : (Step.single kind next cut).Overruns b :=
  ⟨fun l member => by simp [Step.single] at member, behind⟩

theorem Lexer.CutsBefore.single {b t v : Text} {short long : Option (Text × Text)}
    (h : CutsBefore b t short long) (kind : TokenKind) (next : Mode) :
    Lexer.ReadsBefore b t v (long.map (Step.single kind next))
      ((short.map fun cut => (cut.1, cut.2 ++ v)).map (Step.single kind next)) := by
  cases h with
  | none => exact .none
  | same read rest => exact .same [⟨kind, read⟩] rest next
  | far behind => exact .overrun _ (Step.single_overruns _ behind kind next)

section
variable {b t v : Text} (tail : BeforeBrace b t) (apart : Apart v) {before : Option Char}
  {c : Char} {r : Text}
include tail apart

theorem Lexer.Rule.Settled.readsBefore {rule : Rule} (settled : rule.Settled before c r) :
    rule.ReadsBefore b t v before c r := by
  obtain ⟨read, alone⟩ := settled
  rw [Rule.ReadsBefore, alone t tail.head, alone v apart.head]
  cases read with
  | none => exact .none
  | some s => exact .same s.lexemes s.rest s.mode

omit apart in
/-- A run stops in the text, or it runs over the blanks and the brace. -/
theorem readsBefore_span {kind : TokenKind} {next : Mode} {p : Char → Bool} (front u : Text)
    (passes : (∀ d ∈ u, p d = true) →
      (∀ d, isBlank d = true → d ≠ '\n' → p d = true) ∧ p '{' = true) :
    Lexer.ReadsBefore b t v
      (some (.single kind next (front ++ (u ++ t).takeWhile p, (u ++ t).dropWhile p)))
      (some (.single kind next (front ++ (u ++ v).takeWhile p, (u ++ v).dropWhile p))) := by
  rcases span_append_cases p u t with ⟨inside, -, -, -, behind⟩ | ⟨stops, taken, left⟩
  · obtain ⟨blanks, brace⟩ := passes inside
    refine .overrun _ (Step.single_overruns _ ?_ kind next)
    rw [behind]
    exact tail.dropWhile_le blanks brace
  · rcases span_append_cases p u v with ⟨-, -, none, -⟩ | ⟨-, taken', left'⟩
    · exact absurd none stops
    · rw [taken, left, taken', left']
      exact .same [_] _ next

omit apart in
theorem readsBefore_run {kind : TokenKind} {next : Mode} {first inside : Char → Bool}
    (passes : first c = true → (∀ d ∈ r, inside d = true) →
      (∀ d, isBlank d = true → d ≠ '\n' → inside d = true) ∧ inside '{' = true) :
    (run kind next first inside).ReadsBefore b t v before c r := by
  rw [Rule.ReadsBefore, run, run]
  cases start : first c with
  | false => exact .none
  | true => exact readsBefore_span tail [c] r (passes start)

omit apart in
theorem readsBefore_dollar (other : v.head? ≠ some '{') :
    (sign .interpolation .interpolation ['$', '{']).ReadsBefore b t v before c r := by
  unfold Rule.ReadsBefore sign
  by_cases dollar : c = '$'
  · subst dollar
    simp only [after?_cons, ↓reduceIte]
    cases r with
    | cons d r =>
      simp only [List.cons_append, after?_cons, after?_nil]
      by_cases brace : '{' = d
      · rw [if_pos brace, if_pos brace]
        exact .same [_] r .interpolation
      · rw [if_neg brace, if_neg brace]
        exact .none
    | nil =>
      have none {w : Text} (other : w.head? ≠ some '{') : after? ['{'] w = none :=
        Option.eq_none_iff_forall_not_mem.2 fun rest found =>
          other (by rw [after?_eq_some_iff.1 found]; rfl)
      cases tail with
      | here =>
        exact .overrun _ (Step.single_overruns (['$', '{'], b) le_rfl _ _)
      | @blank d w space _ _ =>
        have head : (d :: w).head? ≠ some '{' := by
          rintro found
          obtain rfl := Option.some.inj found
          cases space
        rw [List.nil_append, List.nil_append, none head, none other]
        exact .none
  · rw [after?_cons, after?_cons, if_neg (Ne.symm dollar), if_neg (Ne.symm dollar)]
    exact .none

theorem readsBefore_blockComment : blockComment.ReadsBefore b t v before c r := by
  unfold Rule.ReadsBefore blockComment
  rw [after?_cons_of_break tail.head (by simp) (by decide), apart.after?_cons (by simp) (by decide)]
  cases after? ['/', '*'] (c :: r) with
  | none => exact .none
  | some u =>
    simp only [Option.map_some]
    rcases closed_or_open u with free | ⟨body, rest, rfl, free⟩
    · have slash : t.head? ≠ some '/' := fun found =>
        ne_of_class (tail.head _ found) (by decide) rfl
      have overruns : Step.Overruns b
          (.single .blockComment .code (onto ['/', '*'] (onto u (blockTail t)))) :=
        Step.single_overruns (onto ['/', '*'] (onto u (blockTail t))) tail.blockTail_le _ _
      rw [blockTail_append_open free slash]
      exact .overrun _ overruns
    · rw [List.append_assoc, List.append_assoc, List.cons_append, List.cons_append,
        List.cons_append, List.cons_append, blockTail_append_close free, blockTail_append_close free]
      exact .same [_] rest .code

theorem readsBefore_lineComment : lineComment.ReadsBefore b t v before c r := by
  unfold Rule.ReadsBefore lineComment
  rw [after?_cons_of_break tail.head (by simp) (by decide), apart.after?_cons (by simp) (by decide)]
  cases after? ['/', '/'] (c :: r) with
  | none => exact .none
  | some u =>
    exact readsBefore_span tail ['/', '/'] u fun _ =>
      ⟨fun d _ other => by simpa using other, by decide⟩

theorem readsBefore_quoted {q : Char} {kind : TokenKind} (quote : isBreak q = false) :
    (quoted q kind).ReadsBefore b t v before c r := by
  unfold Rule.ReadsBefore quoted
  rw [after?_cons_of_break tail.head (by simp) (by simp), apart.after?_cons (by simp) (by simp)]
  cases after? [q] (c :: r) with
  | none => exact .none
  | some u =>
    have read := ((quotedTail?_before tail quote u).onto [q]).single (v := v) kind .code
    simp only [Option.map_some, Option.bind_some, apart.quotedTail?_append quote]
    simpa [Option.map_map, Function.comp_def, onto] using read

theorem readsBefore_beforeRegex? (kind : TokenKind) (head r : Text) :
    Lexer.ReadsBefore b t v (beforeRegex? kind head (r ++ t)) (beforeRegex? kind head (r ++ v)) := by
  unfold beforeRegex?
  by_cases blank : ∀ d ∈ r, isBlank d = true
  · -- Only blanks stand behind the sign, and no slash follows them.
    have none {w : Text} (slash : (trimLeft w).head? ≠ some '/') :
        regex? (trimLeft (r ++ w)) = none := by
      rw [trimLeft, List.dropWhile_append_of_pos blank]
      exact regex?_of_head? slash
    rw [none apart.noSlash, none (by rw [tail.trimLeft_eq]; simp)]
    exact .none
  · have read (w : Text) : (r ++ w).takeWhile isBlank = r.takeWhile isBlank ∧
        trimLeft (r ++ w) = trimLeft r ++ w ∧ trimLeft r ≠ [] := by
      rcases span_append_cases isBlank r w with ⟨all, -⟩ | ⟨nonempty, taken, left⟩
      · exact absurd all blank
      · exact ⟨taken, left, nonempty⟩
    obtain ⟨taken, left, nonempty⟩ := read t
    obtain ⟨taken', left', -⟩ := read v
    have known := regex?_before tail nonempty
    rw [taken, left, taken', left', apart.regex?_append nonempty]
    generalize regex? (trimLeft r) = short at known
    generalize regex? (trimLeft r ++ t) = long at known
    cases known with
    | none => exact .none
    | same literal rest => exact .same _ rest .code
    | far behind =>
      refine .overrun _ ⟨fun l member => ?_, behind⟩
      by_cases gap : r.takeWhile isBlank = []
      · simp only [gap, ↓reduceIte, List.cons_append, List.nil_append, List.tail_cons,
          List.mem_singleton] at member
        rw [member]
        rfl
      · simp only [gap, ↓reduceIte, List.cons_append, List.nil_append, List.tail_cons,
          List.mem_cons, List.not_mem_nil, or_false] at member
        rcases member with rfl | rfl <;> rfl

/-- A literal behind one of the signs `heads`. -/
theorem readsBefore_regex {α : Type} {heads : List α} (kind : TokenKind) (head : α → Text)
    (known : ∀ a ∈ heads, head a ≠ [] ∧ ∀ d ∈ (head a).tail, isBreak d = false) :
    Rule.ReadsBefore (fun _ u => heads.findSome? fun a =>
      (after? (head a) u).bind (beforeRegex? kind (head a))) b t v before c r := by
  refine readsBefore_findSome? fun a member => ?_
  obtain ⟨nonempty, free⟩ := known a member
  rw [after?_cons_of_break tail.head nonempty free, apart.after?_cons nonempty free]
  cases after? (head a) (c :: r) with
  | none => exact .none
  | some rest => exact readsBefore_beforeRegex? tail apart kind (head a) rest

/-- A rule of the code reads the same before a brace, as long as the text ends in no blank. -/
theorem readsBefore_code (solid : ∃ d ∈ c :: r, isBlank d = false)
    {rule : Rule} (member : rule ∈ rules .code) : rule.ReadsBefore b t v before c r := by
  simp only [rules, List.mem_cons, List.not_mem_nil, or_false] at member
  rcases member with rfl | rfl | rfl | rfl | rfl | rfl | rfl | rfl | rfl | rfl | rfl | rfl |
    rfl | rfl | rfl | rfl
  · exact readsBefore_blockComment tail apart
  · exact readsBefore_lineComment tail apart
  · exact readsBefore_quoted tail apart (by decide)
  · exact readsBefore_quoted tail apart (by decide)
  · exact (settled_sign (by simp) (by simp)).readsBefore tail apart
  · exact readsBefore_regex tail apart .bracket (fun c => [c]) (by decide)
  · exact readsBefore_regex tail apart .operator id (by decide)
  · have words : Rule.ReadsBefore (fun _ u => operandWords.findSome? fun word =>
        (after? word u).bind (beforeRegex? .name word)) b t v before c r :=
      readsBefore_regex tail apart .name id (by decide)
    unfold Rule.ReadsBefore wordRegex
    split
    · exact words
    · exact .none
  · exact settled_one.readsBefore tail apart
  · refine readsBefore_findSome? fun mark known => ?_
    obtain ⟨nonempty, free⟩ := longOperators_free mark known
    exact (settled_sign nonempty free).readsBefore tail apart
  · exact settled_one.readsBefore tail apart
  · exact settled_keyword.readsBefore tail apart
  · exact (settled_run fun _ => isNameChar_of_isBreak).readsBefore tail apart
  · exact (settled_run fun _ => inNumber_of_isBreak).readsBefore tail apart
  · -- A run of blanks ends in the text.
    refine readsBefore_run tail fun first inside => ?_
    obtain ⟨d, member, other⟩ := solid
    rcases List.mem_cons.1 member with rfl | later
    · rw [first] at other
      cases other
    · rw [inside d later] at other
      cases other
  · exact settled_one.readsBefore tail apart

/-- **A step before a brace reads the same whatever stands behind the brace**, or it runs over the
brace. A backslash at the end of a template literal is left out: it takes what follows. -/
theorem step_upto_brace (other : v.head? ≠ some '{') (mode : Mode) (before : Option Char)
    (solid : ∃ d ∈ c :: r, isBlank d = false)
    (more : mode = .template → ¬(c = '\\' ∧ r = [])) :
    (∃ ls rest next, step mode before c (r ++ t) = ⟨ls, rest ++ t, next⟩ ∧
      step mode before c (r ++ v) = ⟨ls, rest ++ v, next⟩) ∨
    (step mode before c (r ++ t)).Overruns b := by
  have known : ∀ rule ∈ rules mode, rule.ReadsBefore b t v before c r := by
    intro rule member
    cases mode with
    | code => exact readsBefore_code tail apart solid member
    | interpolation =>
      simp only [rules, List.mem_cons, List.not_mem_nil, or_false] at member
      rcases member with rfl | rfl
      · exact (settled_sign (by simp) (by simp)).readsBefore tail apart
      · exact readsBefore_run tail fun _ _ =>
          ⟨fun d blank _ => by simpa using ne_of_class (d := '}') blank (by decide), by decide⟩
    | template =>
      simp only [rules, List.mem_cons, List.not_mem_nil, or_false] at member
      rcases member with rfl | rfl | rfl | rfl | rfl
      · exact (settled_sign (by simp) (by simp)).readsBefore tail apart
      · exact (settled_escape (more rfl)).readsBefore tail apart
      · exact readsBefore_dollar tail other
      · refine readsBefore_run tail fun _ _ => ⟨fun d blank _ => ?_, by decide⟩
        have other {e : Char} (sign : isBlank e = false) : d ≠ e := ne_of_class blank sign
        simp [other (e := '`') (by decide), other (e := '\\') (by decide),
          other (e := '$') (by decide)]
      · exact (settled_sign (by simp) (by simp)).readsBefore tail apart
  have read := readsBefore_findSome? known
  unfold step
  generalize (rules mode).findSome? (fun rule => rule before (c :: (r ++ t))) = long at read
  generalize (rules mode).findSome? (fun rule => rule before (c :: (r ++ v))) = short at read
  cases read with
  | none => exact .inl ⟨[⟨.stray, [c]⟩], r, mode, rfl, rfl⟩
  | same ls rest next => exact .inl ⟨ls, rest, next, rfl, rfl⟩
  | overrun short overruns => exact .inr overruns

end

/-! ### Lexemes before a brace -/

/-- No token that carries structure starts `n` characters into the lexemes. -/
def Lexeme.Buries (n : Nat) (ls : List Lexeme) : Prop :=
  ∀ ks l ms, ls = ks ++ l :: ms → (spell ks).length = n → l.kind.isInert = true

/-- What goes on behind the offset decides what starts there. -/
theorem Lexeme.Buries.append {n : Nat} {ls : List Lexeme} (h : Buries n ls)
    (long : n < (spell ls).length) (more : List Lexeme) : Buries n (ls ++ more) := by
  intro ks l ms split offset
  rcases List.append_eq_append_iff.1 split with ⟨later, front, -⟩ | ⟨here, front, rest⟩
  · rw [front, spell_append, List.length_append] at offset
    omega
  · cases here with
    | nil =>
      rw [front, List.append_nil, offset] at long
      exact absurd long (Nat.lt_irrefl n)
    | cons k here =>
      obtain ⟨rfl, -⟩ := List.cons.inj rest
      exact h ks l here front offset

theorem Lexeme.Buries.cons {n : Nat} {ls : List Lexeme} (h : Buries n ls) {l : Lexeme}
    (inert : l.kind.isInert = true) : Buries (l.text.length + n) (l :: ls) := by
  intro ks k ms split offset
  cases ks with
  | nil =>
    obtain ⟨rfl, -⟩ := List.cons.inj split
    exact inert
  | cons j ks =>
    obtain ⟨rfl, rest⟩ := List.cons.inj split
    refine h ks k ms rest ?_
    simp only [spell, List.flatMap_cons, List.length_append] at offset ⊢
    omega

theorem Lexeme.buries_of_inert {ls : List Lexeme} (inert : ∀ l ∈ ls, l.kind.isInert = true)
    (n : Nat) : Buries n ls := by
  rintro ks l ms rfl -
  exact inert l (List.mem_append_right ks List.mem_cons_self)

theorem Lexeme.buries_of_tail {ls : List Lexeme} (inert : ∀ l ∈ ls.tail, l.kind.isInert = true)
    {n : Nat} (inside : 0 < n) : Buries n ls := by
  rintro ks l ms rfl offset
  cases ks with
  | nil =>
    rw [← offset] at inside
    exact absurd inside (Nat.lt_irrefl 0)
  | cons k ks => exact inert l (List.mem_append_right ks List.mem_cons_self)

section
variable {b w : Text} (blank : ∀ c ∈ w, isBlank c = true) (flat : '\n' ∉ w)
include blank flat

/-- A run that takes the blanks and the brace leaves no token at the brace. -/
theorem buries_of_run {mode next : Mode} {before : Option Char} {kind : TokenKind}
    (inert : kind.isInert = true) {p : Char → Bool} {c : Char} {r : Text}
    (split : w ++ '{' :: b = c :: r)
    (read : step mode before c r = .single kind next (c :: r.takeWhile p, r.dropWhile p))
    (first : p c = true) (blanks : ∀ d, isBlank d = true → p d = true) (brace : p '{' = true) :
    Lexeme.Buries w.length (lex mode before (w ++ '{' :: b)) := by
  have tail := beforeBrace_append (b := b) blank flat
  have longer : w.length < (c :: r.takeWhile p).length := by
    have behind := tail.dropWhile_le (fun d space _ => blanks d space) brace
    have whole := congrArg List.length
      (List.takeWhile_append_dropWhile (p := p) (l := w ++ '{' :: b))
    rw [← List.takeWhile_cons_of_pos first, ← split]
    simp only [List.length_append, List.length_cons] at whole
    omega
  have alone : Lexeme.Buries w.length [⟨kind, c :: r.takeWhile p⟩] :=
    Lexeme.buries_of_inert (by simpa using inert) w.length
  rw [split, lex_of_step read]
  exact alone.append (by simpa [Lexeme.spell] using longer) _

/-- Outside code a brace behind blanks belongs to the literal that is open before it. -/
theorem buries_outside_code {mode : Mode} (outside : mode ≠ .code) (before : Option Char) :
    Lexeme.Buries w.length (lex mode before (w ++ '{' :: b)) := by
  obtain ⟨c, r, split⟩ := List.exists_cons_of_ne_nil
    (show w ++ '{' :: b ≠ [] from List.append_ne_nil_of_right_ne_nil _ (List.cons_ne_nil _ _))
  have breaks : isBreak c = true :=
    (beforeBrace_append (b := b) blank flat).head c (by rw [split]; rfl)
  have other {d : Char} (sign : isBreak d = false) : c ≠ d := ne_of_class breaks sign
  cases mode with
  | code => exact absurd rfl outside
  | template =>
    have plain : ∀ d, isBlank d = true → isTemplateText d = true := by
      intro d space
      have other {e : Char} (sign : isBlank e = false) : d ≠ e := ne_of_class space sign
      simp [isTemplateText, other (e := '`') (by decide), other (e := '\\') (by decide),
        other (e := '$') (by decide)]
    have signs : c ≠ '`' ∧ c ≠ '\\' ∧ c ≠ '$' :=
      ⟨other (by decide), other (by decide), other (by decide)⟩
    have first : isTemplateText c = true := by simp [isTemplateText, signs]
    have read : step .template before c r = .single .template .template
        (c :: r.takeWhile isTemplateText, r.dropWhile isTemplateText) := by
      simp [step, rules, sign, after?_cons, escape, templateText_eq, run, Ne.symm signs.1,
        signs.2.1, Ne.symm signs.2.2, first]
    exact buries_of_run blank flat rfl split read first plain (by decide)
  | interpolation =>
    have close : c ≠ '}' := other (by decide)
    have read : step .interpolation before c r = .single .interpolation .interpolation
        (c :: r.takeWhile (· != '}'), r.dropWhile (· != '}')) := by
      simp [step, rules, sign, after?_cons, substitution, run, close, Ne.symm close]
    have plain : ∀ d, isBlank d = true → (d != '}') = true := fun d space => by
      simpa using ne_of_class (d := '}') space (by decide)
    exact buries_of_run blank flat rfl split read (by simpa using close) plain (by decide)

omit blank flat in
/-- A step that runs over the brace leaves no token at the brace. -/
theorem buries_of_overruns {mode : Mode} {before : Option Char} {c : Char} {r : Text}
    (overruns : (step mode before c (r ++ (w ++ '{' :: b))).Overruns b) :
    Lexeme.Buries (c :: r ++ w).length (lex mode before (c :: (r ++ (w ++ '{' :: b)))) := by
  have count := congrArg List.length (step_tiles mode before c (r ++ (w ++ '{' :: b))).spell
  have behind := overruns.behind
  have inside : 0 < (c :: r ++ w).length := by simp
  rw [lex_cons]
  refine (Lexeme.buries_of_tail overruns.inert inside).append ?_ _
  simp only [List.length_append, List.length_cons] at count ⊢
  omega

/-- A backslash that ends the text inside a template literal takes the next character with it. -/
theorem buries_escaped (before : Option Char) :
    Lexeme.Buries (w.length + 1) (lex .template before ('\\' :: (w ++ '{' :: b))) := by
  have escaped (d : Char) (r : Text) : lex .template before ('\\' :: d :: r) =
      ⟨.escape, ['\\', d]⟩ :: lex .template (some d) r := lex_of_step (step_templateEscape before d r)
  cases w with
  | nil =>
    rw [List.nil_append, escaped]
    have alone : Lexeme.Buries 1 [⟨.escape, ['\\', '{']⟩] :=
      Lexeme.buries_of_inert (fun l member => by rw [List.mem_singleton.1 member]; rfl) 1
    exact alone.append (by decide) _
  | cons d w =>
    obtain ⟨-, later⟩ := not_or.1 (mt List.mem_cons.2 flat)
    have outside : Mode.template ≠ .code := nofun
    have behind := buries_outside_code (b := b)
      (fun c member => blank c (List.mem_cons_of_mem d member)) later outside (some d)
    have both := behind.cons (l := ⟨.escape, ['\\', d]⟩) rfl
    rw [List.cons_append, escaped, List.length_cons, Nat.add_assoc, Nat.add_comm]
    exact both

/-- The text before a brace that is a token of its own is read apart from the blanks before the
brace: with another tail the lexemes of the text are the same. -/
theorem lex_before_brace {v : Text} (apart : Apart v) (other : v.head? ≠ some '{') (mode : Mode)
    (before : Option Char) (u : Text) (solid : ∀ c ∈ u.getLast?, isBlank c = false)
    {ls ms : List Lexeme} {l : Lexeme} (structural : l.kind.isInert = false)
    (split : lex mode before (u ++ (w ++ '{' :: b)) = ls ++ l :: ms)
    (spelled : Lexeme.spell ls = u ++ w) :
    ∃ ks gap last, ls = ks ++ gap ∧ Lexeme.spell ks = u ∧
      lex .code last (w ++ '{' :: b) = gap ++ l :: ms ∧
      lex mode before (u ++ v) = ks ++ lex .code last v := by
  have seen {n : Nat} {xs ls : List Lexeme} (buries : Lexeme.Buries n xs) (same : xs = ls ++ l :: ms)
      (offset : (Lexeme.spell ls).length = n) : False := by
    rw [buries ls l ms same offset] at structural
    cases structural
  generalize size : u.length = n
  induction n using Nat.strongRecOn generalizing u mode before ls with
  | ind n ih =>
    cases u with
    | nil =>
      have code : mode = .code := by
        by_contra outside
        exact seen (buries_outside_code blank flat outside before) split (by rw [spelled]; rfl)
      subst code
      exact ⟨[], ls, before, rfl, rfl, split, rfl⟩
    | cons c r =>
      have tail := beforeBrace_append (b := b) blank flat
      have whole := step_tiles mode before c (r ++ (w ++ '{' :: b))
      have reads := step_upto_brace tail apart (c := c) (r := r) other mode before
      have ended : ∃ d ∈ c :: r, isBlank d = false := by
        have last := List.getLast?_eq_some_getLast (List.cons_ne_nil c r)
        exact ⟨_, List.mem_of_getLast? last, solid _ last⟩
      have more : mode = .template → ¬(c = '\\' ∧ r = []) := by
        rintro rfl ⟨rfl, rfl⟩
        exact seen (buries_escaped blank flat before) split (by rw [spelled]; rfl)
      rw [List.cons_append] at split
      rcases reads ended more with ⟨ks, rest, next, long, short⟩ | overruns
      · rw [lex_cons, long] at split
        rw [long] at whole
        obtain ⟨text, shorter⟩ := whole.inside (u := c :: r)
        obtain ⟨later, rfl, behind, left⟩ := exists_append_of_spell whole.lexeme_text split
          (by rw [spelled, text, List.append_assoc])
        have stillSolid : ∀ d ∈ rest.getLast?, isBlank d = false := by
          intro d last
          refine solid d ?_
          rw [text, List.getLast?_append, Option.mem_def.1 last]
          rfl
        obtain ⟨ks', gap, last, rfl, spell, found, read⟩ := ih rest.length (size ▸ shorter) next
          (Lexeme.spell ks).getLast? rest stillSolid behind left rfl
        refine ⟨ks ++ ks', gap, last, (List.append_assoc ..).symm, ?_, found, ?_⟩
        · rw [Lexeme.spell_append, spell, text]
        · rw [List.cons_append, lex_cons, short, read, List.append_assoc]
      · exact (seen (buries_of_overruns overruns) split (by rw [spelled])).elim

end

/-! ### Searches -/

namespace Nesting

/-- The search passes over the lexemes and stands at depth `d'` behind them. -/
inductive PassesOver (angles : Bool) (target : Text) : Int → List Lexeme → Int → Prop
  | nil (d : Int) : PassesOver angles target d [] d
  | cons {d d' : Int} {l : Lexeme} {ls : List Lexeme} :
      Token.isTop target d ⟨0, l.kind, l.text⟩ = false →
      PassesOver angles target (Token.depthAfter angles d ⟨0, l.kind, l.text⟩) ls d' →
      PassesOver angles target d (l :: ls) d'

variable {angles : Bool} {target : Text} {d d' : Int} {ks ls : List Lexeme}

theorem PassesOver.findFrom_place (h : PassesOver angles target d ks d') (start : Nat)
    (ls : List Lexeme) : findFrom angles target 0 d (Lexeme.place start (ks ++ ls)) =
      findFrom angles target 0 d' (Lexeme.place (start + (Lexeme.spell ks).length) ls) := by
  induction h generalizing start with
  | nil d => rfl
  | @cons d d' l ks top _ ih =>
    have here : Token.isTop target d ⟨start, l.kind, l.text⟩ = false := top
    have next : Token.depthAfter angles d ⟨start, l.kind, l.text⟩ =
        Token.depthAfter angles d ⟨0, l.kind, l.text⟩ := rfl
    rw [List.cons_append, Lexeme.place, findFrom, here, Bool.false_and, if_neg (by decide), next, ih,
      Nat.add_assoc, ← List.length_append]
    rfl

theorem exists_passesOver_of_findFrom {start n : Nat}
    (found : findFrom angles target 0 d (Lexeme.place start ls) = some n) :
    ∃ ks l ms, ls = ks ++ l :: ms ∧ n = start + (Lexeme.spell ks).length ∧
      PassesOver angles target d ks 0 ∧ l.kind.isInert = false ∧ l.text = target := by
  induction ls generalizing start d with
  | nil => cases found
  | cons l ls ih =>
    rw [Lexeme.place, findFrom] at found
    cases top : Token.isTop target d ⟨start, l.kind, l.text⟩ with
    | true =>
      rw [top, if_pos (by simp)] at found
      obtain ⟨⟨structural, rfl⟩, text⟩ : ((!l.kind.isInert) = true ∧ d = 0) ∧ l.text = target := by
        simpa only [Token.isTop, Bool.and_eq_true, beq_iff_eq] using top
      exact ⟨[], l, ls, rfl, (Option.some.inj found).symm, .nil 0, by simpa using structural, text⟩
    | false =>
      rw [top, Bool.false_and, if_neg (by decide)] at found
      obtain ⟨ks, k, ms, rfl, rfl, passes, known⟩ := ih found
      exact ⟨l :: ks, k, ms, rfl, by simp [Lexeme.spell, Nat.add_assoc], .cons top passes, known⟩

theorem PassesOver.exists_of_append (h : PassesOver angles target d (ks ++ ls) d') :
    ∃ between, PassesOver angles target d ks between ∧ PassesOver angles target between ls d' := by
  induction ks generalizing d with
  | nil => exact ⟨d, .nil d, h⟩
  | cons k ks ih =>
    cases h with
    | cons top later =>
      obtain ⟨between, first, second⟩ := ih later
      exact ⟨between, .cons top first, second⟩

theorem PassesOver.depth_of_blank (h : PassesOver angles target d ls d')
    (blank : ∀ l ∈ ls, l.kind = .blank) : d' = d := by
  induction h with
  | nil d => rfl
  | @cons d d' l ls _ _ ih =>
    have kind : l.kind = .blank := blank l List.mem_cons_self
    have same : Token.depthAfter angles d ⟨0, l.kind, l.text⟩ = d := by
      simp [kind, Token.depthAfter, Token.is, Token.shift, Token.isOpener, Token.isCloser]
    rw [ih fun m member => blank m (List.mem_cons_of_mem l member), same]

/-- Blanks before a brace are one lexeme, if there are any. -/
theorem lex_blanks_brace {b w : Text} (blank : ∀ c ∈ w, isBlank c = true) (before : Option Char) :
    ∃ gap ms, lex .code before (w ++ '{' :: b) = gap ++ ⟨.bracket, ['{']⟩ :: ms ∧
      Lexeme.spell gap = w ∧ ∀ l ∈ gap, l.kind = .blank := by
  cases w with
  | nil =>
    obtain ⟨ms, read⟩ := exists_lex_brace before b
    exact ⟨[], ms, read, rfl, List.forall_mem_nil _⟩
  | cons c w =>
    obtain ⟨ms, read⟩ := exists_lex_brace none b
    have stop : ∀ d ∈ ('{' :: b).head?, isBlank d = false := by
      intro d first
      obtain rfl := Option.some.inj first
      decide
    obtain ⟨taken, left⟩ := span_of_stop
      (fun d member => blank d (List.mem_cons_of_mem c member)) stop
    refine ⟨[⟨.blank, c :: w⟩], ms, ?_, by simp [Lexeme.spell], by simp⟩
    rw [List.cons_append, lex_blanks (blank c List.mem_cons_self), taken, left, read]
    rfl

/-- **A brace is found again when its line ends behind it** and the blanks before it are one space. -/
theorem find?_cut {u w b : Text} (solid : ∀ c ∈ u.getLast?, isBlank c = false)
    (blank : ∀ c ∈ w, isBlank c = true) (flat : '\n' ∉ w)
    (found : find? angles ['{'] 0 (u ++ (w ++ '{' :: b)) = some (u ++ w).length) :
    find? angles ['{'] 0 (u ++ [' ', '{']) = some (u.length + 1) := by
  have apart : Apart [' ', '{'] := (apart_brace (.inl rfl)).cons (by decide)
  obtain ⟨ls, l, ms, split, length, passes, structural, text⟩ := exists_passesOver_of_findFrom found
  have spelled : Lexeme.spell ls = u ++ w := by
    have whole := spell_lex .code none (u ++ (w ++ '{' :: b))
    rw [split, Lexeme.spell_append, ← List.append_assoc] at whole
    exact (List.append_inj whole (by omega)).1
  obtain ⟨ks, gap, last, rfl, spell, behind, read⟩ := lex_before_brace blank flat apart (by decide)
    .code none u solid structural split spelled
  obtain ⟨blanks, more, known, blankText, kinds⟩ := lex_blanks_brace (b := b) blank last
  have gapText : Lexeme.spell gap = w := by
    rw [Lexeme.spell_append, spell] at spelled
    exact List.append_cancel_left spelled
  have nonempty := lex_text_ne_nil .code last (w ++ '{' :: b)
  have sameText : Lexeme.spell gap = Lexeme.spell blanks ++ [] := by
    rw [gapText, blankText, List.append_nil]
  obtain ⟨later, rfl, -, left⟩ := exists_append_of_spell
    (fun k member => nonempty k (by rw [known]; exact List.mem_append_left _ member))
    (known.symm.trans behind) sameText
  obtain rfl : later = [] := eq_nil_of_spell
    (fun k member => nonempty k (by rw [behind]; simp [member])) left
  rw [List.append_nil] at passes
  obtain ⟨depth, front, between⟩ := passes.exists_of_append
  obtain rfl : 0 = depth := between.depth_of_blank kinds
  have brace : lex .code none ['{'] = [⟨.bracket, ['{']⟩] := by decide +kernel
  have short : lex .code last [' ', '{'] = [⟨.blank, [' ']⟩, ⟨.bracket, ['{']⟩] :=
    (lex_blanks (by decide) last ['{']).trans (congrArg _ brace)
  have next (n : Nat) : findFrom angles ['{'] 0 0
      (Lexeme.place n [⟨.blank, [' ']⟩, ⟨.bracket, ['{']⟩]) = some (n + 1) := by
    cases angles <;> rfl
  rw [find?, tokens, read, front.findFrom_place, short, spell, Nat.zero_add, next]

end Nesting

end Ambient
