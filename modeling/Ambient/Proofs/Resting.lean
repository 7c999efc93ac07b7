import Ambient.Output
import Ambient.Proofs.Gathering
import Ambient.Settings

/-!
The scanner on whole statements. Between two statements the scanner *rests*: no statement is open,
or only an alias that is complete and waits to see that the next line does not carry it on. What
counts then is the state with that alias stored (`stored`), and a statement whose lines are known
to close it adds exactly its record to that state.
-/

namespace Ambient.Scan

/-- The state in which nothing is open any more. -/
def stored (o : Options) (s : State) : State :=
  match s.statement with
  | none => s
  | some st => (flush o s st).value

@[simp] theorem stored_statement (o : Options) (s : State) : (stored o s).statement = none := by
  unfold stored
  cases h : s.statement with
  | none => exact h
  | some st => exact flush_statement o s st

theorem stored_of_none {s : State} (h : s.statement = none) (o : Options) : stored o s = s := by
  rw [stored, h]

theorem finish_stored (o : Options) (s : State) :
    (finish o s).value.surface = (stored o s).surface := by
  rw [finish_surface, stored]
  cases s.statement <;> rfl

/-- Nothing is open but an alias that is complete. -/
def Rests (s : State) : Prop := ∀ st, s.statement = some st → st.settled = true

theorem rests_of_none {s : State} (h : s.statement = none) : Rests s := by
  intro st same
  rw [h] at same
  cases same

theorem settle_of_rests {s : State} (rests : Rests s) {t : Text}
    (goesOn : startsWithAny Statement.leadingSigns t = false) (o : Options) :
    settle o s t = stored o s := by
  unfold settle stored
  cases gathered : s.statement with
  | none => rfl
  | some st =>
    have ends : st.takes t = false := by simp [Statement.takes, rests st gathered, goesOn]
    simp [ends]

/-- A line met at rest is routed as if nothing had been open. -/
theorem step_of_rests {s : State} (rests : Rests s) {line : SourceLine}
    (goesOn : startsWithAny Statement.leadingSigns (trim line.text) = false) (o : Options) :
    (step o s line).value = (idle o (stored o s) (trim line.text) line).value := by
  rw [step_value, settle_of_rests rests goesOn, route, stored_statement]

/-! ### Declarations -/

/-- The lines make up one declaration of the given kind and text. -/
def Takes (o : Options) (ts : List Text) (kind : DeclarationKind) (t : Text) : Prop :=
  ∀ n s, Rests s → Rests (run o s (SourceLine.numbered n ts)).value ∧
    stored o (run o s (SourceLine.numbered n ts)).value =
      (store o (stored o s) (.declaration kind) t n).value

theorem flush_of_none {o : Options} {s : State} (h : s.statement = none) (st : Statement) :
    flush o s st = store o s st.target st.text st.start := by
  rw [flush, ← h]

/-- A line that opens a statement carries no alias on. -/
theorem leadingSigns_of_opened? {t : Text} {target : Target} (h : Target.opened? t = some target) :
    startsWithAny Statement.leadingSigns t = false := by
  cases leads : startsWithAny Statement.leadingSigns t with
  | false => rfl
  | true =>
    rw [Target.opened?, (classify_of_leadingSign leads).1] at h
    cases h

section
variable {o : Options} {kind : DeclarationKind} {t : Text}

theorem opens_of_rests {s : State} (rests : Rests s) {line : SourceLine} {target : Target}
    (h : gathersAt o (trim line.text) = some target) : Opens o s line target := by
  have goesOn := leadingSigns_of_opened? (opened?_of_gathersAt h)
  refine ⟨?_, h⟩
  rw [settle_of_rests rests goesOn]
  exact stored_statement o s

theorem gathered_text {target : Target} {first : SourceLine}
    (h : target.diverts (trim first.text) = false) :
    (gathered target first []).text = trim first.text := by
  rw [← fresh_push h, Statement.fresh_push_text]

/-- A declaration that is balanced on its line, and no alias. -/
theorem takes_line (h : gathersAt o (trim t) = some (.declaration kind)) (notAlias : kind ≠ .typeAlias)
    (balanced : (Target.declaration kind).balance (trim t) = 0) : Takes o [t] kind (trim t) := by
  intro n s rests
  let line : SourceLine := ⟨n, t⟩
  have opens : Opens o s line (.declaration kind) := opens_of_rests rests h
  have goesOn := diverts_of_opened? (opened?_of_gathersAt h)
  have text : (gathered (.declaration kind) line []).text = trim t := gathered_text goesOn
  have zero : (gathered (.declaration kind) line []).balance = 0 := by
    rw [← balanced, ← text]
    rfl
  have value : (run o s [line]).value = (store o (stored o s) (.declaration kind) (trim t) n).value := by
    have step := step_of_opens (by simpa using notAlias) opens
    rw [if_pos zero, settle_of_rests rests (leadingSigns_of_opened? (opened?_of_gathersAt h)),
      flush_of_none (stored_statement o s), text] at step
    exact step
  have none : (run o s [line]).value.statement = none := by rw [value]; simp
  exact ⟨rests_of_none none, (stored_of_none none o).trans value⟩

theorem numbered_text (n : Nat) (ts : List Text) :
    (SourceLine.numbered n ts).map SourceLine.text = ts := by
  induction ts generalizing n with
  | nil => rfl
  | cons t ts ih => rw [SourceLine.numbered, List.map_cons, ih]

theorem numbered_append (n : Nat) (ts us : List Text) :
    SourceLine.numbered n (ts ++ us) =
      SourceLine.numbered n ts ++ SourceLine.numbered (n + ts.length) us := by
  induction ts generalizing n with
  | nil => rfl
  | cons t ts ih => simp [SourceLine.numbered, ih, Nat.add_assoc, Nat.add_comm 1]

/-- The text of lines that are gathered, without blanks at their ends. -/
def gatheredText (ts : List Text) : Text := trim (joinLines (ts.map trimRight))

theorem gatheredText_singleton (t : Text) : gatheredText [t] = trim t := by
  rw [gatheredText, List.map_singleton, joinLines_singleton, trim_trimRight]

/-- Where no line is put aside, the statement holds them all. -/
theorem gathered_of_kept {target : Target} {first : SourceLine} {more : List SourceLine}
    (kept : ∀ l ∈ first :: more, target.diverts (trim l.text) = false) :
    (gathered target first more).text = gatheredText ((first :: more).map SourceLine.text) ∧
      (gathered target first more).balance =
        target.balance (gatheredText ((first :: more).map SourceLine.text)) := by
  have lines : gatheredLines target (first :: more) =
      ((first :: more).map SourceLine.text).map trimRight := by
    rw [gatheredLines, List.filter_eq_self.2 fun l member => by rw [kept l member]; rfl, List.map_map]
    rfl
  have text : (gathered target first more).text =
      gatheredText ((first :: more).map SourceLine.text) := by
    rw [gatheredText, ← lines]
    rfl
  exact ⟨text, congrArg target.balance text⟩

/-- Only a constant puts lines aside. -/
theorem diverts_of_not_constant (other : kind ≠ .constant) (t : Text) :
    (Target.declaration kind).diverts t = false := by
  simp [Target.diverts, Target.kind, other]

/-- While a statement is open that puts no line aside, nothing else changes. -/
theorem run_of_kept {target : Target} (notAlias : target ≠ .declaration .typeAlias) {s : State}
    {first : SourceLine} {more ms : List SourceLine}
    (h : s.statement = some (gathered target first more))
    (kept : ∀ l ∈ ms, target.diverts (trim l.text) = false)
    (open' : ∀ p, p <+: ms → p ≠ [] → ¬ Closes target first (more ++ p)) :
    (run o s ms).value = { s with statement := some (gathered target first (more ++ ms)) } := by
  induction ms generalizing s more with
  | nil =>
    rw [List.append_nil, ← h]
    rfl
  | cons l ms ih =>
    have here : ¬ Closes target first (more ++ [l]) := open' [l] ⟨ms, rfl⟩ (by simp)
    have quiet : LineKind.classify (trim l.text) ≠ .defaultExport :=
      fun interrupts => here (.inr ⟨l, by simp, interrupts⟩)
    have unbalanced : (gathered target first (more ++ [l])).balance ≠ 0 :=
      fun zero => here (.inl zero)
    have value := step_of_open (o := o) notAlias h l
    simp only [quiet, kept l List.mem_cons_self, unbalanced, ↓reduceIte, Bool.false_eq_true] at value
    have later := ih (s := (step o s l).value) (by rw [value])
      (fun m member => kept m (List.mem_cons_of_mem l member)) fun p isPrefix nonempty => by
        have := open' (l :: p) ((List.prefix_cons_inj l).2 isPrefix) (by simp)
        simpa using this
    rw [List.append_assoc, List.singleton_append] at later
    refine later.trans ?_
    rw [value]

/-- An opened statement that puts no line aside gathers them all until one closes it. -/
theorem run_of_opens_kept {target : Target} (notAlias : target ≠ .declaration .typeAlias) {s : State}
    {first : SourceLine} {more : List SourceLine} (opens : Opens o s first target)
    (settled : settle o s (trim first.text) = stored o s)
    (kept : ∀ l ∈ more, target.diverts (trim l.text) = false)
    (open' : ∀ p, p <+: more → ¬ Closes target first p) :
    (run o s (first :: more)).value =
      { stored o s with statement := some (gathered target first more) } := by
  have start : (step o s first).value =
      { stored o s with statement := some (gathered target first []) } := by
    have step := step_of_opens notAlias opens
    rwa [if_neg fun zero => open' [] List.nil_prefix (.inl zero), settled] at step
  have later : (run o (step o s first).value more).value =
      { (step o s first).value with statement := some (gathered target first ([] ++ more)) } :=
    run_of_kept notAlias (by rw [start]) kept fun p isPrefix _ => open' p isPrefix
  refine later.trans ?_
  rw [start]
  rfl

/-- A declaration over several lines, balanced with the last one and not before. -/
theorem takes_lines {first last : Text} {more : List Text}
    (h : gathersAt o (trim first) = some (.declaration kind)) (notAlias : kind ≠ .typeAlias)
    (kept : ∀ t ∈ more ++ [last], (Target.declaration kind).diverts (trim t) = false)
    (quiet : ∀ t ∈ more ++ [last], LineKind.classify (trim t) ≠ .defaultExport)
    (open' : ∀ ts, ts <+: more → (Target.declaration kind).balance (gatheredText (first :: ts)) ≠ 0)
    (balanced : (Target.declaration kind).balance (gatheredText (first :: more ++ [last])) = 0) :
    Takes o (first :: more ++ [last]) kind (gatheredText (first :: more ++ [last])) := by
  intro n s rests
  let line : SourceLine := ⟨n, first⟩
  let inner := SourceLine.numbered (n + 1) more
  let final : SourceLine := ⟨n + 1 + more.length, last⟩
  have numbered : SourceLine.numbered n (first :: more ++ [last]) = line :: inner ++ [final] := by
    rw [List.cons_append, SourceLine.numbered, numbered_append]
    rfl
  have innerText : inner.map SourceLine.text = more := numbered_text _ _
  have opens : Opens o s line (.declaration kind) := opens_of_rests rests h
  have otherTarget : Target.declaration kind ≠ .declaration .typeAlias := by simpa using notAlias
  have opening := diverts_of_opened? (opened?_of_gathersAt h)
  have texts : (inner ++ [final]).map SourceLine.text = more ++ [last] := by simp [innerText, final]
  have whole : ∀ l ∈ line :: (inner ++ [final]),
      (Target.declaration kind).diverts (trim l.text) = false := by
    intro l member
    rcases List.mem_cons.1 member with rfl | member
    · exact opening
    · exact kept l.text (texts ▸ List.mem_map_of_mem member)
  have notClosed (p : List SourceLine) (isPrefix : p <+: inner) :
      ¬ Closes (.declaration kind) line p := by
    have texts : p.map SourceLine.text <+: more := innerText ▸ isPrefix.map SourceLine.text
    rintro (zero | ⟨l, isLast, interrupts⟩)
    · have inside := List.cons_subset_cons line (isPrefix.trans (List.prefix_append inner [final])).subset
      rw [(gathered_of_kept fun l member => whole l (inside member)).2] at zero
      exact open' _ texts zero
    · have member : l.text ∈ more :=
        texts.subset (List.mem_map_of_mem (List.mem_of_getLast? isLast))
      exact quiet l.text (by simp [member]) interrupts
  have settled := settle_of_rests rests (leadingSigns_of_opened? (opened?_of_gathersAt h))
  have held := run_of_opens_kept otherTarget opens (settled o) (fun l member => whole l (by simp [member]))
    notClosed
  obtain ⟨text, balance⟩ := gathered_of_kept whole
  rw [List.map_cons, texts] at text balance
  have value : (run o s (line :: inner ++ [final])).value =
      (store o (stored o s) (.declaration kind) (gatheredText (first :: more ++ [last])) n).value := by
    have notDefault : LineKind.classify (trim final.text) ≠ .defaultExport := quiet last (by simp)
    have finalKept := whole final (by simp)
    have step := step_of_open (o := o) (s := (run o s (line :: inner)).value) otherTarget
      (by rw [held]) final
    simp only [notDefault, finalKept, ↓reduceIte, Bool.false_eq_true, balance.trans balanced] at step
    rw [run_snoc, step, held]
    have again : flush o { stored o s with statement := some (gathered (.declaration kind) line inner) }
        (gathered (.declaration kind) line (inner ++ [final])) =
        flush o (stored o s) (gathered (.declaration kind) line (inner ++ [final])) := rfl
    rw [again, flush_of_none (stored_statement o s), text]
    rfl
  rw [numbered]
  have none : (run o s (line :: inner ++ [final])).value.statement = none := by rw [value]; simp
  exact ⟨rests_of_none none, (stored_of_none none o).trans value⟩

end

/-! ### Aliases -/

/-- An alias of the given lines takes the next line. -/
def GoesOn (ts : List Text) (next : Text) : Prop :=
  bracketBalance (gatheredText ts) ≠ 0 ∨
    endsWithAny Statement.trailingSigns (gatheredText ts) = true ∨
    startsWithAny Statement.leadingSigns (trim next) = true

/-- The alias that waits for the line behind the given ones. -/
def waitingAlias (first : SourceLine) (more : List SourceLine) : Statement :=
  (gathered (.declaration .typeAlias) first more).awaiting

section
variable {o : Options} {s : State} {first : SourceLine}

theorem waitingAlias_text (first : SourceLine) (more : List SourceLine) :
    (waitingAlias first more).text = gatheredText ((first :: more).map SourceLine.text) ∧
      (waitingAlias first more).balance =
        bracketBalance (gatheredText ((first :: more).map SourceLine.text)) :=
  gathered_of_kept fun l _ => diverts_of_not_constant (by decide) (trim l.text)

theorem waitingAlias_takes {more : List SourceLine} {t : Text}
    (h : GoesOn ((first :: more).map SourceLine.text) t) :
    (waitingAlias first more).takes (trim t) = true := by
  obtain ⟨text, balance⟩ := waitingAlias_text first more
  have settled : (waitingAlias first more).settled =
      ((waitingAlias first more).balance == 0 &&
        !endsWithAny Statement.trailingSigns (waitingAlias first more).text) := rfl
  rw [Statement.takes, settled, balance, text]
  rw [GoesOn] at h
  generalize gatheredText _ = u at h ⊢
  rcases h with unbalanced | ends | leads
  · simp [unbalanced]
  · simp [ends]
  · simp [leads]

/-- A line that an alias takes leaves it waiting again. -/
theorem step_of_alias (multiline : o.multiline = true) {more : List SourceLine}
    (h : s.statement = some (waitingAlias first more)) {line : SourceLine}
    (goesOn : GoesOn ((first :: more).map SourceLine.text) line.text)
    (quiet : LineKind.classify (trim line.text) ≠ .defaultExport) :
    (step o s line).value = { s with statement := some (waitingAlias first (more ++ [line])) } := by
  have kept : (Target.declaration .typeAlias).diverts (trim line.text) = false :=
    diverts_of_not_constant (by decide) _
  have target : (waitingAlias first more).target = .declaration .typeAlias := rfl
  have pushed : ((waitingAlias first more).push line.text).awaiting =
      waitingAlias first (more ++ [line]) :=
    congrArg Statement.awaiting (gathered_push kept)
  have waits : ((waitingAlias first more).push line.text).complete o.multiline = false := by
    have target' : ((waitingAlias first more).push line.text).target = .declaration .typeAlias := rfl
    simp [Statement.complete, target', multiline]
  rw [step_value, settle, h]
  simp only [waitingAlias_takes goesOn, quiet, bne_iff_ne, ne_eq, not_false_eq_true, Bool.true_and,
    ↓reduceIte, route, h, target, kept, Bool.false_eq_true]
  rw [extend_value, waits, pushed]
  rfl

theorem run_of_alias (multiline : o.multiline = true) {more ms : List SourceLine}
    (h : s.statement = some (waitingAlias first more))
    (goesOn : ∀ p l, p ++ [l] <+: ms → GoesOn ((first :: (more ++ p)).map SourceLine.text) l.text)
    (quiet : ∀ l ∈ ms, LineKind.classify (trim l.text) ≠ .defaultExport) :
    (run o s ms).value = { s with statement := some (waitingAlias first (more ++ ms)) } := by
  induction ms generalizing s more with
  | nil =>
    rw [List.append_nil, ← h]
    rfl
  | cons l ms ih =>
    have here : GoesOn ((first :: more).map SourceLine.text) l.text := by
      simpa using goesOn [] l (by simp)
    have value := step_of_alias multiline h here (quiet l List.mem_cons_self)
    have next : (step o s l).value.statement = some (waitingAlias first (more ++ [l])) := by rw [value]
    have later := ih next
      (fun p k isPrefix => by
        simpa using goesOn (l :: p) k ((List.prefix_cons_inj l).2 isPrefix))
      fun k member => quiet k (List.mem_cons_of_mem l member)
    rw [List.append_assoc, List.singleton_append] at later
    refine later.trans ?_
    rw [value]

end

/-- The lines of an alias, each of which it goes on with. -/
theorem run_alias_lines {o : Options} (multiline : o.multiline = true) {first : Text}
    {more : List Text} (h : gathersAt o (trim first) = some (.declaration .typeAlias))
    (goesOn : ∀ p l, p ++ [l] <+: more → GoesOn (first :: p) l)
    (quiet : ∀ l ∈ more, LineKind.classify (trim l) ≠ .defaultExport) {s : State} (rests : Rests s)
    (n : Nat) :
    (run o s (SourceLine.numbered n (first :: more))).value = { stored o s with
      statement := some (waitingAlias ⟨n, first⟩ (SourceLine.numbered (n + 1) more)) } := by
  let line : SourceLine := ⟨n, first⟩
  let inner := SourceLine.numbered (n + 1) more
  have innerText : inner.map SourceLine.text = more := numbered_text _ _
  have opened : (step o s line).value =
      { stored o s with statement := some (waitingAlias line []) } := by
    have leads := leadingSigns_of_opened? (opened?_of_gathersAt h)
    have kept : (Target.declaration .typeAlias).diverts (trim line.text) = false :=
      diverts_of_opened? (opened?_of_gathersAt h)
    have step : (step o s line).value = _ := step_of_rests rests leads o
    have waits : ((Statement.fresh (.declaration .typeAlias) line).push line.text).complete
        o.multiline = false := by
      rw [fresh_push kept]
      simp [Statement.complete, gathered, multiline]
    rw [idle_of_gathersAt h, extend_value, waits, fresh_push kept] at step
    exact step
  have start : (step o s line).value.statement = some (waitingAlias line []) := by rw [opened]
  have later : (run o (step o s line).value inner).value =
      { (step o s line).value with statement := some (waitingAlias line ([] ++ inner)) } := by
    refine run_of_alias multiline start (fun p l isPrefix => ?_) fun l member => ?_
    · have texts : p.map SourceLine.text ++ [l.text] <+: more := by
        simpa [innerText] using isPrefix.map SourceLine.text
      simpa [line] using goesOn _ _ texts
    · exact quiet l.text (innerText ▸ List.mem_map_of_mem member)
  refine later.trans ?_
  rw [opened]
  rfl

/-- An alias over several lines is complete with the last one. -/
theorem takes_alias_lines {o : Options} (multiline : o.multiline = true) {first : Text}
    {more : List Text} (h : gathersAt o (trim first) = some (.declaration .typeAlias))
    (goesOn : ∀ p l, p ++ [l] <+: more → GoesOn (first :: p) l)
    (quiet : ∀ l ∈ more, LineKind.classify (trim l) ≠ .defaultExport)
    (balanced : bracketBalance (gatheredText (first :: more)) = 0)
    (ends : endsWithAny Statement.trailingSigns (gatheredText (first :: more)) = false) :
    Takes o (first :: more) .typeAlias (gatheredText (first :: more)) := by
  intro n s rests
  let waiting := waitingAlias ⟨n, first⟩ (SourceLine.numbered (n + 1) more)
  obtain ⟨text, balance⟩ := waitingAlias_text ⟨n, first⟩ (SourceLine.numbered (n + 1) more)
  rw [List.map_cons, numbered_text] at text balance
  have settled : waiting.settled = true := by
    have value : waiting.settled =
        (waiting.balance == 0 && !endsWithAny Statement.trailingSigns waiting.text) := rfl
    rw [value, balance, balanced, text, ends]
    rfl
  rw [run_alias_lines multiline h goesOn quiet rests n]
  refine ⟨?_, ?_⟩
  · intro st same
    obtain rfl := Option.some.inj same
    exact settled
  · have again : stored o { stored o s with statement := some waiting } =
        (flush o (stored o s) waiting).value := rfl
    rw [again, flush_of_none (stored_statement o s), text]
    rfl

/-- An alias that is balanced on its line and does not end with a sign that carries it on. -/
theorem takes_alias {o : Options} (multiline : o.multiline = true) {t : Text}
    (h : gathersAt o (trim t) = some (.declaration .typeAlias)) (balanced : bracketBalance (trim t) = 0)
    (ends : endsWithAny Statement.trailingSigns (trim t) = false) :
    Takes o [t] .typeAlias (trim t) := by
  have text := gatheredText_singleton t
  have takes : Takes o [t] .typeAlias (gatheredText [t]) :=
    takes_alias_lines multiline h (fun p l isPrefix => by simp at isPrefix) nofun (text ▸ balanced)
      (text ▸ ends)
  rwa [text] at takes

/-! ### Blank lines -/

/-- Blank lines end what may end, and change nothing else. -/
theorem run_blanks {o : Options} {ls : List Text} (blank : ∀ l ∈ ls, trim l = []) {s : State}
    (rests : Rests s) (n : Nat) : Rests (run o s (SourceLine.numbered n ls)).value ∧
      stored o (run o s (SourceLine.numbered n ls)).value = stored o s := by
  induction ls generalizing s n with
  | nil => exact ⟨rests, rfl⟩
  | cons l ls ih =>
    have empty : trim l = [] := blank l List.mem_cons_self
    have goesOn : startsWithAny Statement.leadingSigns (trim l) = false := by rw [empty]; rfl
    have value : (step o s ⟨n, l⟩).value = stored o s := by
      rw [step_of_rests rests goesOn, empty]
      rfl
    have none := stored_statement o s
    obtain ⟨later, same⟩ := ih (fun k member => blank k (List.mem_cons_of_mem l member))
      (rests_of_none (value ▸ none)) (n + 1)
    refine ⟨later, same.trans ?_⟩
    rw [value, stored_of_none none]

/-- A source of one declaration between blank lines has one record. -/
theorem scan_of_takes {o : Options} {source : Text} {front ls back : List Text} {kind : DeclarationKind}
    {t : Text} (split : lines source = front ++ ls ++ back) (before : ∀ l ∈ front, trim l = [])
    (behind : ∀ l ∈ back, trim l = []) (takes : Takes o ls kind t) :
    (scan o source).value = ⟨[], [record o .start kind t front.length], [], none⟩ := by
  obtain ⟨rests, start⟩ := run_blanks (o := o) before (s := .start) nofun 0
  obtain ⟨rests', value⟩ := takes (0 + front.length) _ rests
  obtain ⟨-, ended⟩ := run_blanks (o := o) behind rests' (0 + (front ++ ls).length)
  have final : stored o (run o .start (SourceLine.ofText source)).value =
      (store o .start (.declaration kind) t front.length).value := by
    rw [SourceLine.ofText, split, numbered_append, numbered_append, run_append, run_append, ended, value,
      start, Nat.zero_add]
    rfl
  rw [scan_value, finish_stored, final]
  rfl

/-- The record of a declaration with no comment block before it. -/
theorem record_start (multiline keep : Bool) (unit : Text) (kind : DeclarationKind) (t : Text) (n : Nat) :
    record ⟨multiline, keep, .plain unit⟩ .start kind t n =
      ⟨kind, (kind.form unit t).value, none, n + 1⟩ := by
  cases keep <;> rfl

/-! ### What a source adds to the output -/

/-- What the output shows of a surface. -/
structure Shown where
  imports : List Text
  declarations : List Text
  reexports : List Text
  default : Option Text

def shown (f : Surface) : Shown :=
  ⟨f.imports, f.declarations.flatMap (Surface.declarationLines true), f.reexports,
    f.default.map Declaration.text⟩

namespace Shown

def addImports (ts : List Text) (v : Shown) : Shown := { v with imports := v.imports ++ ts }

def addDeclarations (ts : List Text) (v : Shown) : Shown :=
  { v with declarations := v.declarations ++ ts }

def addReexports (ts : List Text) (v : Shown) : Shown := { v with reexports := v.reexports ++ ts }

/-- Texts are added one after the other. -/
structure Adds (add : List Text → Shown → Shown) : Prop where
  nil : add [] = id
  append : ∀ ts us, add (ts ++ us) = add us ∘ add ts

theorem adds_imports : Adds addImports :=
  ⟨by funext v; simp [addImports], fun ts us => by funext v; simp [addImports]⟩

theorem adds_declarations : Adds addDeclarations :=
  ⟨by funext v; simp [addDeclarations], fun ts us => by funext v; simp [addDeclarations]⟩

theorem adds_reexports : Adds addReexports :=
  ⟨by funext v; simp [addReexports], fun ts us => by funext v; simp [addReexports]⟩

end Shown

/-- The groups of the output that are not empty. -/
def Shown.groups (v : Shown) : List (List Text) :=
  [v.imports, v.declarations, v.reexports ++ v.default.toList].filter (· != [])

theorem groups_shown (f : Surface) : f.groups true = (shown f).groups := rfl

/-- Read at rest with the comment block `c` pending, the lines add `f` to the output and leave the
scanner at rest with the block `c'` pending. -/
def Reads (o : Options) (c : CommentBlock) (ts : List Text) (c' : CommentBlock)
    (f : Shown → Shown) : Prop :=
  ∀ n s, Rests s → (stored o s).comment = c →
    Rests (run o s (SourceLine.numbered n ts)).value ∧
    (stored o (run o s (SourceLine.numbered n ts)).value).comment = c' ∧
    shown (stored o (run o s (SourceLine.numbered n ts)).value).surface =
      f (shown (stored o s).surface)

section
variable {o : Options} {c c' c'' : CommentBlock} {t : Text} {ts us : List Text}

theorem Reads.nil : Reads o c [] c id := fun _ _ rests comment => ⟨rests, comment, rfl⟩

theorem Reads.append {f g : Shown → Shown} (h : Reads o c ts c' f) (k : Reads o c' us c'' g) :
    Reads o c (ts ++ us) c'' (g ∘ f) := by
  intro n s rests comment
  obtain ⟨rests', comment', added⟩ := h n s rests comment
  obtain ⟨rests'', comment'', added'⟩ := k (n + ts.length) _ rests' comment'
  rw [numbered_append, run_append]
  exact ⟨rests'', comment'', added'.trans (congrArg g added)⟩

/-- Statements of one sort, one after the other. -/
theorem Reads.flatMap {α : Type} {lines texts : α → List Text}
    {add : List Text → Shown → Shown} (adds : Shown.Adds add) (xs : List α)
    (h : ∀ x, Reads o c (lines x) c (add (texts x))) :
    Reads o c (xs.flatMap lines) c (add (xs.flatMap texts)) := by
  induction xs with
  | nil =>
    rw [List.flatMap_nil, List.flatMap_nil, adds.nil]
    exact .nil
  | cons x xs ih =>
    rw [List.flatMap_cons, List.flatMap_cons, adds.append]
    exact (h x).append ih

/-- A line that leaves no statement open. -/
theorem reads_of_idle {f : Shown → Shown}
    (goesOn : startsWithAny Statement.leadingSigns (trim t) = false)
    (h : ∀ n s, s.statement = none → s.comment = c →
      (idle o s (trim t) ⟨n, t⟩).value.statement = none ∧
      (idle o s (trim t) ⟨n, t⟩).value.comment = c' ∧
      shown (idle o s (trim t) ⟨n, t⟩).value.surface = f (shown s.surface)) :
    Reads o c [t] c' f := by
  intro n s rests comment
  have value : (run o s (SourceLine.numbered n [t])).value =
      (idle o (stored o s) (trim t) ⟨n, t⟩).value :=
    step_of_rests rests goesOn o
  obtain ⟨none, comment', added⟩ := h n (stored o s) (stored_statement o s) comment
  rw [value, stored_of_none none]
  exact ⟨rests_of_none none, comment', added⟩

theorem leadingSigns_of_classify (h : LineKind.classify t ≠ .other) :
    startsWithAny Statement.leadingSigns t = false := by
  cases leads : startsWithAny Statement.leadingSigns t with
  | false => rfl
  | true => exact absurd (classify_of_leadingSign leads).1 h

theorem reads_other (kind : LineKind.classify (trim t) = .other)
    (goesOn : startsWithAny Statement.leadingSigns (trim t) = false) : Reads o c [t] c id := by
  refine reads_of_idle goesOn fun n s none comment => ?_
  simp only [idle, kind]
  exact ⟨none, comment, rfl⟩

theorem reads_comment (kind : LineKind.classify (trim t) = .comment) :
    Reads o c [t] (.push (if startsWith "/*".toList (trim t) then .empty else c) (trimRight t))
      id := by
  refine reads_of_idle (leadingSigns_of_classify (by simp [kind])) fun n s none comment => ?_
  simp only [idle, kind, addComment_value]
  exact ⟨none, by rw [comment], rfl⟩

theorem reads_import (kind : LineKind.classify (trim t) = .importing)
    (balanced : braceBalance (trim t) = 0) :
    Reads o c [t] c (Shown.addImports [Import.normalize (trim t)]) := by
  refine reads_of_idle (leadingSigns_of_classify (by simp [kind])) fun n s none comment => ?_
  simp only [idle, kind, takeStatement, balanced, Int.lt_irrefl, and_false, ↓reduceIte,
    store_importing]
  exact ⟨none, comment, rfl⟩

theorem reads_reexport (kind : LineKind.classify (trim t) = .reexport)
    (balanced : braceBalance (trim t) = 0) :
    Reads o c [t] c (Shown.addReexports [trim t]) := by
  refine reads_of_idle (leadingSigns_of_classify (by simp [kind])) fun n s none comment => ?_
  simp only [idle, kind, takeStatement, balanced, Int.lt_irrefl, and_false, ↓reduceIte,
    store_reexport]
  exact ⟨none, comment, rfl⟩

theorem reads_default (kind : LineKind.classify (trim t) = .defaultExport) :
    Reads o c [t] c fun v => ⟨v.imports, v.declarations, v.reexports,
      some ((o.style.formOf .default).form o.style.indentUnit (trim t)).value⟩ := by
  refine reads_of_idle (leadingSigns_of_classify (by simp [kind])) fun n s none comment => ?_
  simp only [idle, kind, setDefault_value]
  exact ⟨none, comment, rfl⟩

/-- Groups of lines with a blank line between them. -/
theorem Reads.groups {gs : List (List Text × (Shown → Shown))}
    (h : ∀ g ∈ gs, Reads o c g.1 c g.2) (empty : ∀ g ∈ gs, g.1 = [] → g.2 = id) :
    Reads o c ([[]].intercalate ((gs.map Prod.fst).filter (· != []))) c
      (gs.foldr (fun g f => f ∘ g.2) id) := by
  induction gs with
  | nil => exact .nil
  | cons g gs ih =>
    have later := ih (fun g member => h g (by simp [member]))
      fun g member => empty g (by simp [member])
    have here := h g (by simp)
    rw [List.map_cons, List.foldr_cons]
    by_cases none : g.1 = []
    · rw [List.filter_cons_of_neg (by simp [none]), empty g (by simp) none]
      exact later
    · rw [List.filter_cons_of_pos (by simp [none])]
      cases rest : (gs.map Prod.fst).filter (· != []) with
      | nil =>
        rw [rest] at later
        have whole := here.append later
        simpa [List.intercalate] using whole
      | cons r rs =>
        rw [rest] at later
        have blank : Reads o c [[]] c id := reads_other rfl rfl
        have whole := here.append (blank.append later)
        simpa [List.intercalate] using whole

/-- A declaration is shown with the pending comment block, and takes it. -/
theorem reads_declaration {kind : DeclarationKind} (keep : o.keepComments = true)
    (h : Takes o ts kind t) :
    Reads o c ts .empty (Shown.addDeclarations
      (c.take?.toList ++ [((o.style.formOf kind).form o.style.indentUnit t).value])) := by
  intro n s rests comment
  obtain ⟨rests', value⟩ := h n s rests
  refine ⟨rests', ?_, ?_⟩
  · rw [value, store_declaration]
  · have lines : Surface.declarationLines true (record o (stored o s) kind t n) =
        c.take?.toList ++ [((o.style.formOf kind).form o.style.indentUnit t).value] := by
      simp only [Surface.declarationLines, record, keep, comment, ↓reduceIte, CommentBlock.take?]
      by_cases empty : c.text = [] <;> simp [empty]
    rw [value, store_declaration]
    simp only [shown, Shown.addDeclarations, List.flatMap_append, List.flatMap_singleton, lines]

end

end Ambient.Scan
