import Ambient.Proofs.Resting
import Mathlib.Data.List.Chain
import Mathlib.Tactic.MkIffOfInductiveProp

/-!
The two modes of the scanner on sources whose statements, constants apart, are complete on one line.
Gathering over lines then only delays an alias by one line: the gathering run either waits with a
complete alias that the other run has already stored, or holds the same constant open (`Lags`).
Nothing happens in between, so both emit the same declarations with the same comments.
-/

namespace Ambient

/-- Only constants count as constants. -/
theorem DeclarationKind.detect_ne_constant {t : Text} (h : LineKind.classify (trim t) = .declaration) :
    detect (trim t) ≠ .constant := by
  have head : trimLeft (trim t) = trim t := trimLeft_trim t
  have notConstant : opensConstant (trim t) = false := by
    cases opens : opensConstant (trim t) with
    | false => rfl
    | true =>
      simp only [LineKind.classify, opens, ↓reduceIte] at h
      repeat' split at h
      all_goals cases h
  simp only [detect, head, notConstant, Bool.false_eq_true, ↓reduceIte]
  repeat' split
  all_goals decide

/-- No constant counts as an alias. -/
theorem DeclarationKind.detect_ne_alias {t : Text} (h : LineKind.classify (trim t) = .constant) :
    detect (trim t) ≠ .typeAlias := by
  have head : trimLeft (trim t) = trim t := trimLeft_trim t
  have constant : opensConstant (trim t) = true := by
    simp only [LineKind.classify] at h
    repeat' split at h
    all_goals first | assumption | cases h
  simp only [detect, head, constant, ↓reduceIte]
  repeat' split
  all_goals decide

namespace Scan

/-- The line is a declaration and reads as a type alias. -/
def isAliasLine (t : Text) : Bool :=
  LineKind.classify (trim t) == .declaration && DeclarationKind.detect (trim t) == .typeAlias

/-- Every statement of the source that is no constant is complete on its line: imports and
re-exports leave no brace open, declarations are balanced, and nothing carries an alias on. -/
@[mk_iff]
structure OnOneLine (ls : List Text) : Prop where
  statement : ∀ t ∈ ls, LineKind.classify (trim t) = .importing ∨
    LineKind.classify (trim t) = .reexport → braceBalance (trim t) ≤ 0
  declaration : ∀ t ∈ ls, LineKind.classify (trim t) = .declaration → bracketBalance (trim t) = 0
  ends : ∀ t ∈ ls, isAliasLine t = true →
    endsWithAny Statement.trailingSigns (trim t) = false
  follows : ls.IsChain fun t u => isAliasLine t = true →
    startsWithAny Statement.leadingSigns (trim u) = false

instance (ls : List Text) : Decidable (OnOneLine ls) := decidable_of_iff' _ (onOneLine_iff ls)

theorem OnOneLine.of_infix {ts us : List Text} (h : OnOneLine ts) (part : us <:+: ts) :
    OnOneLine us :=
  ⟨fun u member => h.statement u (part.subset member),
    fun u member => h.declaration u (part.subset member),
    fun u member => h.ends u (part.subset member), h.follows.infix part⟩

/-- The options with gathering over lines on or off. -/
def Options.gathering (o : Options) (on : Bool) : Options := { o with multiline := on }

/-- The state `s` of the gathering run lags behind the state `s'` of the other run: a complete alias
still waits in it, or it is the same and holds at most a constant open. -/
inductive Lags (o : Options) (s : State) : State → Prop
  | rests : Rests s → Lags o s (stored o s)
  | gathers {st : Statement} : s.statement = some st → st.settled = false →
      st.target ≠ .declaration .typeAlias → Lags o s s

theorem lags_of_none {s : State} (h : s.statement = none) (o : Options) : Lags o s s := by
  have same := Lags.rests (o := o) (rests_of_none h)
  rwa [stored_of_none h] at same

section
variable {o : Options} {s s' : State} {line : SourceLine}

theorem store_gathering (on : Bool) (target : Target) (t : Text) (index : Nat) :
    (store (o.gathering on) s target t index).value = (store o s target t index).value := by
  cases target <;> rfl

theorem flush_gathering (on : Bool) (st : Statement) :
    (flush (o.gathering on) s st).value = (flush o s st).value :=
  store_gathering on st.target st.text st.start

theorem stored_gathering (on : Bool) (s : State) : stored (o.gathering on) s = stored o s := by
  unfold stored
  cases s.statement with
  | none => rfl
  | some st => exact flush_gathering on st

/-- A statement that is no alias is extended alike in both modes. -/
theorem extend_lags {st : Statement} (notAlias : st.target ≠ .declaration .typeAlias) :
    Lags o (extend (o.gathering true) s st line).value
      (extend (o.gathering false) s st line).value := by
  rw [extend_of_notAlias notAlias, extend_of_notAlias notAlias]
  split
  · rw [flush_gathering, flush_gathering]
    exact lags_of_none (flush_statement o s _) o
  · exact .gathers rfl rfl notAlias

/-- A declaration that is complete on its line is emitted at once in one mode, and in the other at
once or, if it is an alias, when the next line is seen. -/
theorem declaration_lags (idle : s.statement = none)
    (kind : LineKind.classify (trim line.text) = .declaration)
    (balanced : bracketBalance (trim line.text) = 0)
    (ends : isAliasLine line.text = true →
      endsWithAny Statement.trailingSigns (trim line.text) = false) :
    Lags o (step (o.gathering true) s line).value (step (o.gathering false) s line).value := by
  have gathers : gathersAt (o.gathering true) (trim line.text) =
      some (.declaration (.detect (trim line.text))) := by simp [gathersAt, kind, Options.gathering]
  have takes : Takes (o.gathering true) [line.text] (.detect (trim line.text)) (trim line.text) := by
    by_cases isAlias : DeclarationKind.detect (trim line.text) = .typeAlias
    · rw [isAlias] at gathers ⊢
      exact takes_alias rfl gathers balanced (ends (by simp [isAliasLine, kind, isAlias]))
    · refine takes_line gathers isAlias ?_
      rwa [balance_of_brackets (DeclarationKind.detect_ne_constant kind)]
  obtain ⟨rests, later⟩ := takes line.index s (rests_of_none idle)
  have now : (step (o.gathering false) s line).value =
      (store (o.gathering false) s (.declaration (.detect (trim line.text))) (trim line.text)
        line.index).value := by
    rw [step_value, settle, idle]
    simp only [route, idle, Scan.idle, kind, Options.gathering, Bool.false_eq_true, ↓reduceIte]
    rfl
  rw [stored_of_none idle, stored_gathering, store_gathering] at later
  rw [now, store_gathering, ← later]
  exact .rests rests

/-- A line met with nothing open. -/
theorem idle_lags (idle : s.statement = none) (whole : OnOneLine [line.text]) :
    Lags o (step (o.gathering true) s line).value (step (o.gathering false) s line).value := by
  have met (on : Bool) : (step (o.gathering on) s line).value =
      (Scan.idle (o.gathering on) s (trim line.text) line).value := by
    rw [step_value, settle, idle]
    simp only [route, idle]
  cases kind : LineKind.classify (trim line.text) with
  | declaration =>
    exact declaration_lags idle kind (whole.declaration _ (by simp) kind) (whole.ends _ (by simp))
  | constant =>
    rw [met, met]
    simp only [Scan.idle, kind]
    have notAlias : (Statement.fresh (.declaration (.detect (trim line.text))) line).target ≠
        .declaration .typeAlias := by
      simpa [Statement.fresh] using DeclarationKind.detect_ne_alias kind
    exact extend_lags notAlias
  | importing | reexport =>
    have closed : ¬ 0 < braceBalance (trim line.text) :=
      Int.not_lt.2 (whole.statement _ (by simp) (by simp [kind]))
    rw [met, met]
    simp only [Scan.idle, kind, takeStatement, closed, and_false, ↓reduceIte, store_gathering]
    exact lags_of_none (by simp [idle]) o
  | comment =>
    rw [met, met]
    simp only [Scan.idle, kind, addComment_value]
    exact lags_of_none (by exact idle) o
  | defaultExport =>
    rw [met, met]
    simp only [Scan.idle, kind, setDefault_value]
    exact lags_of_none (by exact idle) o
  | other =>
    rw [met, met]
    simp only [Scan.idle, kind]
    exact lags_of_none idle o

/-- A line met inside a constant does the same in both modes. -/
theorem gather_lags {st : Statement} (open' : s.statement = some st) (waits : st.settled = false)
    (notAlias : st.target ≠ .declaration .typeAlias) :
    Lags o (step (o.gathering true) s line).value (step (o.gathering false) s line).value := by
  have met (on : Bool) : (step (o.gathering on) s line).value =
      if LineKind.classify (trim line.text) = .defaultExport then
        (setDefault (o.gathering on) (flush (o.gathering on) s st).value (trim line.text) line).value
      else if st.target.diverts (trim line.text) then (addComment s (trim line.text) line).value
      else (extend (o.gathering on) s st line).value := by
    have gathering : (step (o.gathering on) s line).value =
        (gather (o.gathering on) s st (trim line.text) line).value := by
      simp [step, open', waits]
    rw [gathering, gather_value]
  rw [met, met]
  split
  · rw [flush_gathering, flush_gathering, setDefault_value, setDefault_value]
    exact lags_of_none (by exact flush_statement o s st) o
  · split
    · rw [addComment_value]
      exact .gathers open' waits notAlias
    · exact extend_lags notAlias

/-- One line in both modes; a waiting alias must not be carried on by it. -/
theorem lags_step (h : Lags o s s') (whole : OnOneLine [line.text])
    (follows : (∃ st, s.statement = some st ∧ st.settled = true) →
      startsWithAny Statement.leadingSigns (trim line.text) = false) :
    Lags o (step (o.gathering true) s line).value (step (o.gathering false) s' line).value := by
  cases h with
  | gathers open' waits notAlias => exact gather_lags open' waits notAlias
  | rests rests =>
    cases gathered : s.statement with
    | none =>
      rw [stored_of_none gathered]
      exact idle_lags gathered whole
    | some st =>
      have goesOn := follows ⟨st, gathered, rests st gathered⟩
      have same : (step (o.gathering true) s line).value =
          (step (o.gathering true) (stored o s) line).value := by
        rw [step_of_rests rests goesOn, stored_gathering,
          step_of_rests (rests_of_none (stored_statement o s)) goesOn,
          stored_of_none (stored_statement o s)]
      rw [same]
      exact idle_lags (stored_statement o s) whole

/-- What stays open when a line is met is a constant. -/
theorem settle_lags (h : Lags o s s') {t : Text}
    (follows : (∃ st, s.statement = some st ∧ st.settled = true) →
      startsWithAny Statement.leadingSigns t = false) {st : Statement}
    (open' : (settle (o.gathering true) s t).statement = some st) :
    st.settled = false ∧ st.target ≠ .declaration .typeAlias := by
  cases h with
  | gathers same waits notAlias =>
    rw [settle, same] at open'
    simp only at open'
    split at open'
    · obtain rfl := Option.some.inj (same.symm.trans open')
      exact ⟨waits, notAlias⟩
    · simp at open'
  | rests rests =>
    cases gathered : s.statement with
    | none => simp [settle, gathered] at open'
    | some st' =>
      rw [settle_of_rests rests (follows ⟨st', gathered, rests st' gathered⟩)] at open'
      simp at open'

theorem isAliasLine_of_opened? {t : Text}
    (h : Target.opened? (trim t) = some (.declaration .typeAlias)) : isAliasLine t = true := by
  unfold Target.opened? at h
  cases kind : LineKind.classify (trim t) with
  | declaration =>
    simp only [kind, Option.some.injEq, Target.declaration.injEq] at h
    simp [isAliasLine, kind, h]
  | constant =>
    simp only [kind, Option.some.injEq, Target.declaration.injEq] at h
    exact absurd h (DeclarationKind.detect_ne_alias kind)
  | comment | importing | defaultExport | reexport | other => simp [kind] at h

/-- An alias waits after the line that opens it, and no longer. -/
theorem aliasLine_of_settled (h : Lags o s s')
    (follows : (∃ st, s.statement = some st ∧ st.settled = true) →
      startsWithAny Statement.leadingSigns (trim line.text) = false) {st : Statement}
    (waits : (step (o.gathering true) s line).value.statement = some st)
    (settled : st.settled = true) : isAliasLine line.text = true := by
  rw [step_value] at waits
  have before {st' : Statement}
      (same : (settle (o.gathering true) s (trim line.text)).statement = some st') :=
    settle_lags h follows same
  generalize settle (o.gathering true) s (trim line.text) = met at waits before
  have stays (same : met.statement = some st) : isAliasLine line.text = true := by
    simp [(before same).1] at settled
  generalize next : route (o.gathering true) met line = s'' at waits
  have r : Route (o.gathering true) met line s'' := next ▸ route_cases _ met line
  cases r with
  | ignored => exact stays waits
  | comment =>
    rw [addComment_value] at waits
    exact stays waits
  | default =>
    rw [setDefault_value] at waits
    exact stays waits
  | closed => simp at waits
  | kept joins open' =>
    obtain rfl := Option.some.inj waits
    have target := ((waiting_awaiting open').settled settled).1
    cases joins with
    | opened _ opens =>
      refine isAliasLine_of_opened? (opens.trans ?_)
      exact congrArg some target
    | extended same => exact absurd target (before same).2

theorem lags_run {ls : List SourceLine} (h : Lags o s s') (whole : OnOneLine (ls.map SourceLine.text))
    (follows : ∀ l ∈ ls.head?, (∃ st, s.statement = some st ∧ st.settled = true) →
      startsWithAny Statement.leadingSigns (trim l.text) = false) :
    Lags o (run (o.gathering true) s ls).value (run (o.gathering false) s' ls).value := by
  induction ls generalizing s s' with
  | nil => exact h
  | cons l ls ih =>
    have here := follows l rfl
    have alone : OnOneLine [l.text] := whole.of_infix (List.prefix_append _ _).isInfix
    have tail : OnOneLine (ls.map SourceLine.text) := whole.of_infix (List.suffix_cons _ _).isInfix
    refine ih (lags_step h alone here) tail fun m next ⟨st, waits, settled⟩ => ?_
    have isAlias := aliasLine_of_settled h here waits settled
    obtain ⟨ms, rfl⟩ := List.head?_eq_some_iff.1 next
    exact (List.isChain_cons_cons.1 whole.follows).1 isAlias

theorem stored_of_lags (h : Lags o s s') : stored o s = stored o s' := by
  cases h with
  | rests => rw [stored_of_none (stored_statement o s)]
  | gathers => rfl

end

/-- **The two modes agree on one-line statements.** A source in which every statement that is no
constant is complete on its line has the same surface, comments and line numbers included, with
statements gathered over lines and without. -/
theorem modes_agree (o : Options) (source : Text) (whole : OnOneLine (lines source)) :
    (scan { o with multiline := true } source).value =
      (scan { o with multiline := false } source).value := by
  have texts : (SourceLine.ofText source).map SourceLine.text = lines source := numbered_text 0 _
  have lags : Lags o (run (o.gathering true) .start (SourceLine.ofText source)).value
      (run (o.gathering false) .start (SourceLine.ofText source)).value :=
    lags_run (lags_of_none rfl o) (texts.symm ▸ whole) fun _ _ ⟨_, opened, _⟩ => nomatch opened
  change (scan (o.gathering true) source).value = (scan (o.gathering false) source).value
  rw [scan_value, scan_value, finish_stored, finish_stored, stored_gathering, stored_gathering,
    stored_of_lags lags]

/-- A constant over three lines, and an alias with its block before another one. -/
theorem modes_agree_on_module :
    let o : Options := ⟨true, true, .plain "  ".toList⟩
    let source : Text := ("export const b = \x7b\n  c: 1,\n\x7d\n" ++
      "/** Id. */\nexport type Id = B\nexport type Key = Id").toList
    OnOneLine (lines source) ∧
      (scan { o with multiline := true } source).value =
        (scan { o with multiline := false } source).value := by
  intro o source
  have whole : OnOneLine (lines source) := by decide +kernel
  exact ⟨whole, modes_agree o source whole⟩

end Scan

end Ambient
