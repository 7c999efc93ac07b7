import Ambient.Proofs.Step

/-!
Gathering a statement. After every line an open statement knows the balance of its text and waits
for a reason: its brackets are open, or it is an alias that may go on (`Waiting`). A statement that
is no alias ends exactly with the first line that balances it, with a default export, or with the
source, and until then nothing is emitted.
-/

namespace Ambient.Scan

/-- What holds of a statement that is open after a line. -/
structure Waiting (o : Options) (st : Statement) : Prop where
  some_line : st.lines ≠ []
  bracket_balance : ∀ kind, st.target = .declaration kind → kind ≠ .constant →
    st.balance = bracketBalance st.text
  brace_balance : (∀ kind, st.target = .declaration kind → kind = .constant) →
    st.balance = braceBalance st.text
  settled : st.settled = true → st.target = .declaration .typeAlias ∧ o.multiline = true ∧
    st.balance = 0 ∧ endsWithAny Statement.trailingSigns st.text = false
  unsettled : st.settled = false → st.balance ≠ 0 ∨ st.target = .declaration .typeAlias ∧
    o.multiline = true ∧ endsWithAny Statement.trailingSigns st.text = true

theorem balance_of_brackets {kind : DeclarationKind} (h : kind ≠ .constant) (t : Text) :
    (Target.declaration kind).balance t = bracketBalance t := by
  cases kind <;> first | rfl | exact absurd rfl h

theorem balance_of_braces {target : Target}
    (h : ∀ kind, target = .declaration kind → kind = .constant) (t : Text) :
    target.balance t = braceBalance t := by
  cases target with
  | importing | reexport => rfl
  | declaration kind =>
    obtain rfl := h kind rfl
    rfl

/-- A statement that is not complete with its new line waits for the next one. -/
theorem waiting_awaiting {o : Options} {st : Statement} {line : Text}
    (h : (st.push line).complete o.multiline = false) : Waiting o (st.push line).awaiting := by
  have balance : (st.push line).awaiting.balance = st.target.balance (st.push line).awaiting.text :=
    Statement.push_balance st line
  have reason : (st.push line).balance ≠ 0 ∨
      st.target = .declaration .typeAlias ∧ o.multiline = true := by
    by_cases zero : (st.push line).balance = 0
    · exact .inr (by simpa [Statement.complete, zero, Statement.push_target] using h)
    · exact .inl zero
  refine ⟨?_, ?_, ?_, ?_, ?_⟩
  · simp [Statement.awaiting, Statement.push_lines]
  · intro kind same notConstant
    rw [balance, show st.target = .declaration kind from same, balance_of_brackets notConstant]
  · intro constant
    exact balance.trans (balance_of_braces constant _)
  · intro settled
    obtain ⟨zero, ends⟩ : (st.push line).balance = 0 ∧
        endsWithAny Statement.trailingSigns (st.push line).text = false := by
      simpa [Statement.awaiting] using settled
    obtain ⟨isAlias, multiline⟩ := reason.resolve_left fun nonzero => nonzero zero
    exact ⟨isAlias, multiline, zero, ends⟩
  · intro unsettled
    have open' : (st.push line).balance = 0 →
        endsWithAny Statement.trailingSigns (st.push line).text = true := by
      simpa [Statement.awaiting] using unsettled
    by_cases zero : (st.push line).balance = 0
    · obtain ⟨isAlias, multiline⟩ := reason.resolve_left fun nonzero => nonzero zero
      exact .inr ⟨isAlias, multiline, open' zero⟩
    · exact .inl zero

/-- Any open statement of the state is waiting. -/
def Gathers (o : Options) (s : State) : Prop := ∀ st, s.statement = some st → Waiting o st

theorem gathers_settle {o : Options} {s : State} (h : Gathers o s) (t : Text) :
    Gathers o (settle o s t) := by
  rcases settle_cases o s t with same | ⟨st, -, same⟩ <;> rw [same]
  · exact h
  · intro st' open'
    simp at open'

theorem gathers_route {o : Options} {s s' : State} {line : SourceLine} (h : Gathers o s)
    (r : Route o s line s') : Gathers o s' := by
  cases r with
  | ignored => exact h
  | comment => rw [addComment_value]; exact h
  | default => rw [setDefault_value]; exact h
  | kept _ open' =>
    intro st same
    obtain rfl := Option.some.inj same
    exact waiting_awaiting open'
  | closed => intro st same; simp at same

theorem gathers_step {o : Options} {s : State} (h : Gathers o s) (line : SourceLine) :
    Gathers o (step o s line).value := by
  rw [step_value]
  exact gathers_route (gathers_settle h _) (route_cases o _ line)

theorem gathers_states {o : Options} {s : State} (h : Gathers o s) (ls : List SourceLine) :
    ∀ s' ∈ states o s ls, Gathers o s' := by
  induction ls generalizing s with
  | nil => simp [states]
  | cons l ls ih =>
    intro s' member
    rcases List.mem_cons.1 member with rfl | member
    · exact gathers_step h l
    · exact ih (gathers_step h l) s' member

theorem gathers_run {o : Options} {s : State} (h : Gathers o s) (ls : List SourceLine) :
    Gathers o (run o s ls).value :=
  run_of_step (p := Gathers o) (fun _ line held => gathers_step held line) h ls

/-! ### The end of a statement -/

/-- The statement that a line starts to gather when it is met with none open. -/
def gathersAt (o : Options) (t : Text) : Option Target :=
  match LineKind.classify t with
  | .importing => if o.multiline ∧ 0 < braceBalance t then some .importing else none
  | .reexport => if o.multiline ∧ 0 < braceBalance t then some .reexport else none
  | .constant => some (.declaration (.detect t))
  | .declaration => if o.multiline then some (.declaration (.detect t)) else none
  | .comment | .defaultExport | .other => none

theorem opened?_of_gathersAt {o : Options} {t : Text} {target : Target}
    (h : gathersAt o t = some target) : Target.opened? t = some target := by
  unfold gathersAt at h
  unfold Target.opened?
  cases kind : LineKind.classify t <;> simp_all

theorem idle_of_gathersAt {o : Options} {s : State} {line : SourceLine} {target : Target}
    (h : gathersAt o (trim line.text) = some target) :
    (idle o s (trim line.text) line).value = (extend o s (.fresh target line) line).value := by
  unfold gathersAt at h
  unfold idle
  cases kind : LineKind.classify (trim line.text) with
  | comment | defaultExport | other => simp [kind] at h
  | importing | reexport =>
    obtain ⟨positive, rfl⟩ : (o.multiline = true ∧ 0 < braceBalance (trim line.text)) ∧ _ = target := by
      simpa [kind] using h
    simp only [takeStatement, positive, and_self, ↓reduceIte]
    rfl
  | constant =>
    obtain rfl : _ = target := by simpa [kind] using h
    rfl
  | declaration =>
    obtain ⟨multiline, rfl⟩ : o.multiline = true ∧ _ = target := by simpa [kind] using h
    simp only [multiline, ↓reduceIte]
    rfl

theorem classify_of_slash (r : Text) :
    LineKind.classify ('/' :: r) = .comment ∨ LineKind.classify ('/' :: r) = .other := by
  unfold LineKind.classify
  by_cases doc : LineKind.opensDoc ('/' :: r) = true
  · exact .inl (if_pos doc)
  · rw [if_neg doc]
    exact .inr rfl

/-- A line that opens a statement is no comment line. -/
theorem diverts_of_opened? {t : Text} {target : Target} (h : Target.opened? t = some target) :
    target.diverts t = false := by
  have notDoc : (LineKind.classify t == .comment) = false := by
    cases doc : LineKind.classify t <;> simp_all [Target.opened?]
  have notBlock : startsWith "/*".toList t = false := by
    cases block : startsWith "/*".toList t with
    | false => rfl
    | true =>
      obtain ⟨r, rfl⟩ := List.isPrefixOf_iff_prefix.1 block
      unfold Target.opened? at h
      rcases classify_of_slash ('*' :: r) with kind | kind
      · rw [show "/*".toList ++ r = '/' :: '*' :: r from rfl, kind] at h
        cases h
      · rw [show "/*".toList ++ r = '/' :: '*' :: r from rfl, kind] at h
        cases h
  rw [Target.diverts, notDoc, notBlock]
  exact Bool.and_false _

/-- The lines that a statement keeps, of those since its opening one. -/
def gatheredLines (target : Target) (ls : List SourceLine) : List Text :=
  (ls.filter fun l => !target.diverts (trim l.text)).map fun l => trimRight l.text

/-- The statement gathered from its opening line and the lines after it. -/
def gathered (target : Target) (first : SourceLine) (more : List SourceLine) : Statement where
  target := target
  start := first.index
  lines := gatheredLines target (first :: more)
  balance := target.balance (trim (joinLines (gatheredLines target (first :: more))))
  settled := false

/-- The last of the lines after the opening one ends the statement, or the opening line does when
there are none: the text is balanced, or the line is a default export. -/
def Closes (target : Target) (first : SourceLine) (more : List SourceLine) : Prop :=
  (gathered target first more).balance = 0 ∨
    ∃ l, more.getLast? = some l ∧ LineKind.classify (trim l.text) = .defaultExport

theorem fresh_push {target : Target} {first : SourceLine}
    (h : target.diverts (trim first.text) = false) :
    (Statement.fresh target first).push first.text = gathered target first [] := by
  simp [gathered, gatheredLines, h, Statement.push, Statement.fresh, Statement.text]

theorem gathered_push {target : Target} {first line : SourceLine} {more : List SourceLine}
    (h : target.diverts (trim line.text) = false) :
    (gathered target first more).push line.text = gathered target first (more ++ [line]) := by
  have lines : gatheredLines target (first :: (more ++ [line])) =
      gatheredLines target (first :: more) ++ [trimRight line.text] := by
    rw [gatheredLines, gatheredLines, ← List.cons_append, List.filter_append, List.map_append]
    simp [h]
  simp only [gathered, Statement.push, Statement.text, lines]

theorem gathered_skip {target : Target} {first line : SourceLine} {more : List SourceLine}
    (h : target.diverts (trim line.text) = true) :
    gathered target first (more ++ [line]) = gathered target first more := by
  have lines : gatheredLines target (first :: (more ++ [line])) =
      gatheredLines target (first :: more) := by
    rw [gatheredLines, gatheredLines, ← List.cons_append, List.filter_append, List.map_append]
    simp [h]
  simp only [gathered, lines]

/-- A statement that is no alias ends with the line that balances it. -/
theorem extend_of_notAlias {o : Options} {s : State} {st : Statement}
    (h : st.target ≠ .declaration .typeAlias) (line : SourceLine) :
    (extend o s st line).value =
      if (st.push line.text).balance = 0 then (flush o s (st.push line.text)).value
      else { s with statement := some (st.push line.text) } := by
  have other : (st.push line.text).target ≠ .declaration .typeAlias := h
  have fresh : (st.push line.text).settled = false := rfl
  rw [extend_value]
  generalize st.push line.text = p at other fresh
  by_cases zero : p.balance = 0
  · simp [Statement.complete, zero, other]
  · obtain ⟨target, start, lines, balance, settled⟩ := p
    simp only at zero fresh
    simp [Statement.complete, Statement.awaiting, zero, fresh]

section
variable {o : Options} {s : State} {target : Target} {first : SourceLine}

/-- A line met while the statement is open. -/
theorem step_of_open {more : List SourceLine} (notAlias : target ≠ .declaration .typeAlias)
    (h : s.statement = some (gathered target first more)) (line : SourceLine) :
    (step o s line).value =
      if LineKind.classify (trim line.text) = .defaultExport then
        (setDefault o (flush o s (gathered target first more)).value (trim line.text) line).value
      else if target.diverts (trim line.text) then (addComment s (trim line.text) line).value
      else if (gathered target first (more ++ [line])).balance = 0 then
        (flush o s (gathered target first (more ++ [line]))).value
      else { s with statement := some (gathered target first (more ++ [line])) } := by
  have takes : (gathered target first more).takes (trim line.text) = true := rfl
  rw [step_value, settle, h]
  by_cases interrupts : LineKind.classify (trim line.text) = .defaultExport
  · simp [interrupts, route, idle]
  · simp only [takes, interrupts, bne_iff_ne, ne_eq, not_false_eq_true, Bool.true_and, ↓reduceIte,
      route, h, show (gathered target first more).target = target from rfl]
    by_cases diverts : target.diverts (trim line.text) = true
    · simp only [diverts, ↓reduceIte]
    · have goesOn : target.diverts (trim line.text) = false := by simpa using diverts
      simp only [goesOn, Bool.false_eq_true, ↓reduceIte]
      rw [extend_of_notAlias notAlias, gathered_push goesOn]

theorem run_of_open {more ms : List SourceLine} (notAlias : target ≠ .declaration .typeAlias)
    (h : s.statement = some (gathered target first more))
    (open' : ∀ p, p <+: ms → p ≠ [] → ¬ Closes target first (more ++ p)) :
    (run o s ms).value.statement = some (gathered target first (more ++ ms)) ∧
      (run o s ms).value.surface = s.surface := by
  induction ms generalizing s more with
  | nil => simpa [run] using h
  | cons l ms ih =>
    have here : ¬ Closes target first (more ++ [l]) := open' [l] ⟨ms, rfl⟩ (by simp)
    have quiet : LineKind.classify (trim l.text) ≠ .defaultExport :=
      fun interrupts => here (.inr ⟨l, by simp, interrupts⟩)
    have unbalanced : (gathered target first (more ++ [l])).balance ≠ 0 :=
      fun zero => here (.inl zero)
    have value := step_of_open (o := o) notAlias h l
    simp only [quiet, unbalanced, ↓reduceIte] at value
    have next : (step o s l).value.statement = some (gathered target first (more ++ [l])) ∧
        (step o s l).value.surface = s.surface := by
      rw [value]
      by_cases diverts : target.diverts (trim l.text) = true
      · simp [diverts, addComment_value, h, gathered_skip diverts]
      · simp [diverts]
    have later := ih next.1 fun p isPrefix nonempty => by
      have := open' (l :: p) ((List.prefix_cons_inj l).2 isPrefix) (by simp)
      simpa using this
    rw [List.append_assoc, List.singleton_append] at later
    exact ⟨later.1, later.2.trans next.2⟩

/-- With the scanner at rest, the line starts to gather a statement for `target`. -/
structure Opens (o : Options) (s : State) (line : SourceLine) (target : Target) : Prop where
  rest : (settle o s (trim line.text)).statement = none
  gathers : gathersAt o (trim line.text) = some target

theorem step_of_opens (notAlias : target ≠ .declaration .typeAlias) (h : Opens o s first target) :
    (step o s first).value =
      if (gathered target first []).balance = 0 then
        (flush o (settle o s (trim first.text)) (gathered target first [])).value
      else { settle o s (trim first.text) with statement := some (gathered target first []) } := by
  have goesOn := diverts_of_opened? (opened?_of_gathersAt h.gathers)
  rw [step_value, route, h.rest]
  simp only
  rw [idle_of_gathersAt h.gathers, extend_of_notAlias notAlias, fresh_push goesOn]

/-- Until a line closes it, an opened statement holds the lines since its opening and nothing is
emitted. -/
theorem run_of_opens (notAlias : target ≠ .declaration .typeAlias) (h : Opens o s first target)
    {more : List SourceLine} (open' : ∀ p, p <+: more → ¬ Closes target first p) :
    (run o s (first :: more)).value.statement = some (gathered target first more) ∧
      (run o s (first :: more)).value.surface = (settle o s (trim first.text)).surface := by
  have unbalanced : (gathered target first []).balance ≠ 0 :=
    fun zero => open' [] List.nil_prefix (.inl zero)
  have value := step_of_opens notAlias h
  rw [if_neg unbalanced] at value
  have start : (step o s first).value.statement = some (gathered target first []) := by rw [value]
  have later : (run o (step o s first).value more).value.statement =
        some (gathered target first ([] ++ more)) ∧
      (run o (step o s first).value more).value.surface = (step o s first).value.surface :=
    run_of_open notAlias start fun p isPrefix _ => open' p isPrefix
  exact ⟨later.1, later.2.trans (by rw [value])⟩

end

/-- **A statement is open exactly as long as it has to be.** After every line an open statement is
`Waiting`. An opened statement that is no alias holds the lines since its opening, with nothing
emitted, until a line closes it or the source ends; it is flushed with that line, without it when
the line is a default export, or at the end of the source. -/
theorem gathered_until_closed (o : Options) (source : Text) :
    (∀ s ∈ states o .start (SourceLine.ofText source), ∀ st, s.statement = some st →
      Waiting o st) ∧
    ∀ (before : List SourceLine) (first : SourceLine) (more rest : List SourceLine)
      (target : Target),
      SourceLine.ofText source = before ++ first :: (more ++ rest) →
      Opens o (run o .start before).value first target → target ≠ .declaration .typeAlias →
      let after (ls : List SourceLine) : State := (run o .start (before ++ first :: ls)).value
      let idle : State := settle o (run o .start before).value (trim first.text)
      ((∀ p, p <+: more → ¬ Closes target first p) →
        (after more).statement = some (gathered target first more) ∧
        (after more).surface = idle.surface ∧
        (rest = [] → (scan o source).value =
          (flush o (after more) (gathered target first more)).value.surface)) ∧
      (more = [] → Closes target first [] →
        after [] = (flush o idle (gathered target first [])).value) ∧
      ∀ q l, more = q ++ [l] → (∀ p, p <+: q → ¬ Closes target first p) →
        Closes target first more →
        after more =
          if LineKind.classify (trim l.text) = .defaultExport then
            (setDefault o (flush o (after q) (gathered target first q)).value (trim l.text) l).value
          else (flush o (after q) (gathered target first more)).value := by
  refine ⟨gathers_states (fun st same => by cases same) _, ?_⟩
  intro before first more rest target lines opens notAlias after idle
  have held (ms : List SourceLine) (open' : ∀ p, p <+: ms → ¬ Closes target first p) :
      (after ms).statement = some (gathered target first ms) ∧ (after ms).surface = idle.surface := by
    simp only [after, run_append]
    exact run_of_opens notAlias opens open'
  refine ⟨fun open' => ⟨(held more open').1, (held more open').2, fun last => ?_⟩, ?_, ?_⟩
  · have statement := (held more open').1
    simp only [after] at statement
    rw [scan_value, lines, last, List.append_nil, finish_surface, statement]
  · rintro - (balanced | ⟨l, none, -⟩)
    · simp only [after, run_snoc, step_of_opens notAlias opens, balanced, ↓reduceIte, idle]
    · simp at none
  · rintro q l rfl open' closes
    have held := (held q open').1
    have value : after (q ++ [l]) = (step o (after q) l).value := by
      simp only [after, ← List.cons_append, ← List.append_assoc, run_snoc]
    rw [value, step_of_open notAlias held]
    split
    · rfl
    · next quiet =>
      have balanced : (gathered target first (q ++ [l])).balance = 0 := by
        rcases closes with balanced | ⟨l', last, interrupts⟩
        · exact balanced
        · obtain rfl : l = l' := by simpa using last
          exact absurd interrupts quiet
      have goesOn : target.diverts (trim l.text) ≠ true := by
        intro diverts
        rw [gathered_skip diverts] at balanced
        exact open' q (List.prefix_refl q) (.inl balanced)
      rw [if_neg goesOn, if_pos balanced]

/-- A constant over three lines is emitted with its closing brace and not before. -/
theorem constant_flushed_with_brace :
    let o : Options := ⟨true, true, .plain "  ".toList⟩
    let first : SourceLine := ⟨0, "export const a = \x7b".toList⟩
    let inner : SourceLine := ⟨1, "  b: 1".toList⟩
    let last : SourceLine := ⟨2, "\x7d".toList⟩
    (run o .start [first, inner]).value.statement =
      some (gathered (.declaration .constant) first [inner]) ∧
    (run o .start [first, inner, last]).value =
      (flush o (run o .start [first, inner]).value
        (gathered (.declaration .constant) first [inner, last])).value := by
  intro o first inner last
  have open' : ∀ p, p <+: [inner] → ¬ Closes (.declaration .constant) first p := by
    intro p isPrefix
    have short : p = [] ∨ p = [inner] := by
      rcases List.prefix_cons_iff.1 isPrefix with rfl | ⟨t, rfl, empty⟩
      · exact .inl rfl
      · exact .inr (by rw [List.prefix_nil.1 empty])
    rintro (balanced | ⟨l, isLast, interrupts⟩)
    · rcases short with rfl | rfl <;> revert balanced <;> decide +kernel
    · rcases short with rfl | rfl
      · cases isLast
      · cases isLast
        revert interrupts
        decide +kernel
  have opens : Opens o State.start first (.declaration .constant) := ⟨rfl, by decide +kernel⟩
  have whole := gathered_until_closed o "export const a = \x7b\n  b: 1\n\x7d".toList
  exact ⟨((whole.2 [] first [inner] [last] _ (by decide +kernel) opens (by decide)).1 open').1,
    ((whole.2 [] first [inner, last] [] _ (by decide +kernel) opens (by decide)).2.2 [inner] last rfl
      open' (.inl (by decide +kernel))).trans (if_neg (by decide +kernel))⟩

end Ambient.Scan
