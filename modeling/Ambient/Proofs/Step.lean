import Ambient.Proofs.Trim
import Ambient.Scan

/-!
What a step of the scanner does, without the notes it makes. A line first ends what it does not
continue (`settle`): a complete type alias that goes no further, or any statement when the line is
a default export. Then it is routed, and one of five things happens (`Route`): it is ignored, joins
the comment block, becomes the default export, or extends a statement that stays open or is
complete with it.
-/

namespace Ambient

/-- The statement that a line opens when it is met with none open. -/
def Target.opened? (t : Text) : Option Target :=
  match LineKind.classify t with
  | .importing => some .importing
  | .reexport => some .reexport
  | .constant | .declaration => some (.declaration (.detect t))
  | .comment | .defaultExport | .other => none

/-- The line goes to the comment block although a statement is open: only a constant does that. -/
def Target.diverts (target : Target) (t : Text) : Bool :=
  target.kind == .constant && (LineKind.classify t == .comment || startsWith "/*".toList t)

namespace Statement

/-- A statement opened at a line, before it has taken that line. -/
def fresh (target : Target) (line : SourceLine) : Statement := ⟨target, line.index, [], 0, false⟩

/-- The line belongs to the statement: it is not complete yet, or the line carries it on. -/
def takes (st : Statement) (t : Text) : Bool := !st.settled || startsWithAny leadingSigns t

/-- Balanced, and no alias that waits for its next line. -/
def complete (multiline : Bool) (st : Statement) : Bool :=
  st.balance == 0 && !(st.target == .declaration .typeAlias && multiline)

/-- The statement while it waits for its next line; a balanced one may be an alias that is done. -/
def awaiting (st : Statement) : Statement :=
  { st with settled := st.balance == 0 && !endsWithAny trailingSigns st.text }

theorem push_lines (st : Statement) (line : Text) :
    (st.push line).lines = st.lines ++ [trimRight line] := rfl

theorem push_target (st : Statement) (line : Text) : (st.push line).target = st.target := rfl

theorem push_balance (st : Statement) (line : Text) :
    (st.push line).balance = st.target.balance (st.push line).text := rfl

theorem fresh_push_text (target : Target) (line : SourceLine) :
    ((fresh target line).push line.text).text = trim line.text := by
  rw [text, push_lines]
  exact (congrArg trim (joinLines_singleton _)).trans (trim_trimRight line.text)

end Statement

namespace Scan

/-- A sign that carries an alias on starts neither a comment nor a default export. -/
theorem classify_of_leadingSign {t : Text} (h : startsWithAny Statement.leadingSigns t = true) :
    LineKind.classify t = .other ∧ ∀ target : Target, target.diverts t = false := by
  have plain : LineKind.classify t = .other ∧ startsWith "/*".toList t = false := ?_
  · refine ⟨plain.1, fun target => ?_⟩
    rw [Target.diverts, plain.1, plain.2]
    exact Bool.and_false _
  cases t with
  | nil => simp [startsWithAny, startsWith, Statement.leadingSigns] at h
  | cons c r =>
    simp only [startsWithAny, startsWith, Statement.leadingSigns, List.any_cons, List.any_nil,
      List.isPrefixOf_cons_cons, List.isPrefixOf_nil_left, Bool.and_true, Bool.or_false,
      Bool.or_eq_true, beq_iff_eq] at h
    rcases h with rfl | rfl | rfl | rfl <;> exact ⟨rfl, rfl⟩

/-! ### Values of the operations -/

/-- The record that a complete declaration becomes. -/
def record (o : Options) (s : State) (kind : DeclarationKind) (t : Text) (index : Nat) :
    Declaration :=
  ⟨kind, ((o.style.formOf kind).form o.style.indentUnit t).value,
    if o.keepComments then s.comment.take? else none, index + 1⟩

theorem store_importing (o : Options) (s : State) (t : Text) (index : Nat) :
    (store o s .importing t index).value = { s with
      surface := { s.surface with imports := s.surface.imports ++ [Import.normalize t] } } := rfl

theorem store_reexport (o : Options) (s : State) (t : Text) (index : Nat) :
    (store o s .reexport t index).value = { s with
      surface := { s.surface with reexports := s.surface.reexports ++ [t] } } := rfl

theorem store_declaration (o : Options) (s : State) (kind : DeclarationKind) (t : Text)
    (index : Nat) :
    (store o s (.declaration kind) t index).value = { s with
      comment := .empty
      surface := { s.surface with
        declarations := s.surface.declarations ++ [record o s kind t index] } } := rfl

@[simp] theorem store_statement (o : Options) (s : State) (target : Target) (t : Text)
    (index : Nat) : (store o s target t index).value.statement = s.statement := by
  cases target <;> rfl

@[simp] theorem flush_statement (o : Options) (s : State) (st : Statement) :
    (flush o s st).value.statement = none := by
  simp [flush]

theorem store_default (o : Options) (s : State) (target : Target) (t : Text) (index : Nat) :
    (store o s target t index).value.surface.default = s.surface.default := by
  cases target <;> rfl

theorem flush_default (o : Options) (s : State) (st : Statement) :
    (flush o s st).value.surface.default = s.surface.default :=
  store_default o { s with statement := none } st.target st.text st.start

theorem addComment_value (s : State) (t : Text) (line : SourceLine) :
    (addComment s t line).value = { s with
      comment := CommentBlock.push (if startsWith "/*".toList t then .empty else s.comment)
        (trimRight line.text) } := by
  unfold addComment
  split
  · split <;> rfl
  · rfl

/-- The default export that a line becomes. -/
def defaultRecord (o : Options) (t : Text) (line : SourceLine) : Declaration :=
  ⟨.default, ((o.style.formOf .default).form o.style.indentUnit t).value, none, line.number⟩

theorem setDefault_value (o : Options) (s : State) (t : Text) (line : SourceLine) :
    (setDefault o s t line).value =
      { s with surface := { s.surface with default := some (defaultRecord o t line) } } := by
  unfold setDefault
  cases s.surface.default <;> rfl

theorem extend_value (o : Options) (s : State) (st : Statement) (line : SourceLine) :
    (extend o s st line).value =
      if (st.push line.text).complete o.multiline then (flush o s (st.push line.text)).value
      else { s with statement := some (st.push line.text).awaiting } := by
  have fresh : (st.push line.text).settled = false := rfl
  unfold extend
  generalize st.push line.text = p at fresh
  by_cases balanced : p.balance = 0
  · by_cases isAlias : p.target = .declaration .typeAlias ∧ o.multiline = true
    · simp [balanced, isAlias, Statement.complete, Statement.awaiting]
    · have done : p.complete o.multiline = true := by
        simpa [Statement.complete, balanced, Classical.or_iff_not_imp_left] using isAlias
      simp only [balanced, ne_eq, not_true_eq_false, ↓reduceIte, isAlias, done]
  · obtain ⟨target, start, lines, balance, settled⟩ := p
    simp only at balanced fresh
    simp [balanced, fresh, Statement.complete, Statement.awaiting]

theorem gather_value (o : Options) (s : State) (st : Statement) (t : Text) (line : SourceLine) :
    (gather o s st t line).value =
      if LineKind.classify t = .defaultExport then (setDefault o (flush o s st).value t line).value
      else if st.target.diverts t then (addComment s t line).value
      else (extend o s st line).value := by
  have diverts : st.target.diverts t = true ↔ st.target.kind = .constant ∧
      (LineKind.classify t = .comment ∨ startsWith "/*".toList t = true) := by
    simp [Target.diverts]
  simp only [gather, diverts]
  split
  · rfl
  · split <;> rfl

/-! ### One step -/

/-- The state in which a line is met: a statement that does not take the line is complete. -/
def settle (o : Options) (s : State) (t : Text) : State :=
  match s.statement with
  | none => s
  | some st =>
    if st.takes t && LineKind.classify t != .defaultExport then s else (flush o s st).value

/-- Settling a state keeps it, or stores the statement that is open. -/
theorem settle_cases (o : Options) (s : State) (t : Text) : settle o s t = s ∨
    ∃ st, s.statement = some st ∧ settle o s t = (flush o s st).value := by
  unfold settle
  cases s.statement with
  | none => exact .inl rfl
  | some st =>
    simp only
    split
    · exact .inl rfl
    · exact .inr ⟨st, rfl, rfl⟩

theorem settle_default (o : Options) (s : State) (t : Text) :
    (settle o s t).surface.default = s.surface.default := by
  rcases settle_cases o s t with same | ⟨st, -, same⟩ <;> rw [same]
  exact flush_default o s st

/-- What becomes of a line that is met in a settled state. -/
def route (o : Options) (s : State) (line : SourceLine) : State :=
  match s.statement with
  | none => (idle o s (trim line.text) line).value
  | some st =>
    if st.target.diverts (trim line.text) then (addComment s (trim line.text) line).value
    else (extend o s st line).value

theorem step_value (o : Options) (s : State) (line : SourceLine) :
    (step o s line).value = route o (settle o s (trim line.text)) line := by
  generalize same : trim line.text = t
  have value : (step o s line).value = (match s.statement with
      | none => idle o s t line
      | some st =>
        if !st.settled then gather o s st t line
        else if startsWithAny Statement.leadingSigns t then extend o s st line
        else do idle o (← flush o s st) t line).value := by
    subst same
    rfl
  rw [value, settle]
  cases gathered : s.statement with
  | none => simp [route, gathered, same]
  | some st =>
    by_cases settled : st.settled = true
    · by_cases leads : startsWithAny Statement.leadingSigns t = true
      · obtain ⟨other, goesOn⟩ := classify_of_leadingSign leads
        simp [route, gathered, same, settled, leads, other, goesOn, Statement.takes]
      · simp [route, same, settled, leads, Statement.takes]
    · by_cases interrupts : LineKind.classify t = .defaultExport
      · simp [route, same, settled, interrupts, gather_value, idle]
      · simp [route, gathered, same, settled, interrupts, gather_value, Statement.takes]

/-- A statement that a settled state lets the line join: the open one, or a new one. -/
inductive Joins (s : State) (line : SourceLine) : Statement → Prop
  | opened {target : Target} : s.statement = none →
      Target.opened? (trim line.text) = some target → Joins s line (.fresh target line)
  | extended {st : Statement} : s.statement = some st → st.target.diverts (trim line.text) = false →
      Joins s line st

/-- Everything that can become of a line in a settled state. -/
inductive Route (o : Options) (s : State) (line : SourceLine) : State → Prop
  | ignored : s.statement = none → LineKind.classify (trim line.text) = .other → Route o s line s
  | comment : (s.statement = none ∧ LineKind.classify (trim line.text) = .comment ∨
        ∃ st, s.statement = some st ∧ st.target.diverts (trim line.text) = true) →
      Route o s line (addComment s (trim line.text) line).value
  | default : s.statement = none → LineKind.classify (trim line.text) = .defaultExport →
      Route o s line (setDefault o s (trim line.text) line).value
  | kept {st : Statement} : Joins s line st → (st.push line.text).complete o.multiline = false →
      Route o s line { s with statement := some (st.push line.text).awaiting }
  | closed {st : Statement} : Joins s line st → Route o s line (flush o s (st.push line.text)).value

theorem extend_route {o : Options} {s : State} {st : Statement} {line : SourceLine}
    (joins : Joins s line st) : Route o s line (extend o s st line).value := by
  rw [extend_value]
  split
  · exact .closed joins
  · next open' => exact .kept joins (by simpa using open')

/-- Storing a statement at once is closing a new one. -/
theorem store_route {o : Options} {s : State} {line : SourceLine} {target : Target}
    (idle : s.statement = none) (opens : Target.opened? (trim line.text) = some target) :
    Route o s line (store o s target (trim line.text) line.index).value := by
  have same : (store o s target (trim line.text) line.index).value =
      (flush o s ((Statement.fresh target line).push line.text)).value := by
    rw [flush, Statement.fresh_push_text, ← idle]
    rfl
  rw [same]
  exact .closed (.opened idle opens)

theorem route_cases (o : Options) (s : State) (line : SourceLine) :
    Route o s line (route o s line) := by
  unfold route
  cases gathered : s.statement with
  | some st =>
    by_cases diverts : st.target.diverts (trim line.text) = true
    · simpa only [diverts, ↓reduceIte] using Route.comment (.inr ⟨st, gathered, diverts⟩)
    · have goesOn : st.target.diverts (trim line.text) = false := by simpa using diverts
      simpa only [goesOn, Bool.false_eq_true, ↓reduceIte] using
        extend_route (.extended gathered goesOn)
  | none =>
    have opens (target : Target) (known : Target.opened? (trim line.text) = some target) :
        Joins s line (.fresh target line) := .opened gathered known
    simp only [idle]
    cases kind : LineKind.classify (trim line.text) with
    | comment => exact .comment (.inl ⟨gathered, kind⟩)
    | defaultExport => exact .default gathered kind
    | other => exact .ignored gathered kind
    | importing =>
      have known : Target.opened? (trim line.text) = some .importing := by simp [Target.opened?, kind]
      simp only [takeStatement]
      split
      · exact extend_route (opens _ known)
      · exact store_route gathered known
    | reexport =>
      have known : Target.opened? (trim line.text) = some .reexport := by simp [Target.opened?, kind]
      simp only [takeStatement]
      split
      · exact extend_route (opens _ known)
      · exact store_route gathered known
    | constant =>
      exact extend_route (opens _ (by simp [Target.opened?, kind]))
    | declaration =>
      have known : Target.opened? (trim line.text) =
          some (.declaration (.detect (trim line.text))) := by simp [Target.opened?, kind]
      simp only
      split
      · exact extend_route (opens _ known)
      · exact store_route gathered known

end Scan

/-- What `f` holds comes first in `g`, default exports apart. -/
structure Surface.Grows (f g : Surface) : Prop where
  imports : f.imports <+: g.imports
  declarations : f.declarations <+: g.declarations
  reexports : f.reexports <+: g.reexports

theorem Surface.Grows.refl (f : Surface) : f.Grows f :=
  ⟨List.prefix_rfl, List.prefix_rfl, List.prefix_rfl⟩

theorem Surface.Grows.trans {f g h : Surface} (first : f.Grows g) (second : g.Grows h) : f.Grows h :=
  ⟨first.imports.trans second.imports, first.declarations.trans second.declarations,
    first.reexports.trans second.reexports⟩

namespace Scan

/-! ### The surface grows -/

theorem store_grows (o : Options) (s : State) (target : Target) (t : Text) (index : Nat) :
    s.surface.Grows (store o s target t index).value.surface := by
  cases target with
  | importing => exact ⟨List.prefix_append _ _, List.prefix_rfl, List.prefix_rfl⟩
  | reexport => exact ⟨List.prefix_rfl, List.prefix_rfl, List.prefix_append _ _⟩
  | declaration kind => exact ⟨List.prefix_rfl, List.prefix_append _ _, List.prefix_rfl⟩

theorem flush_grows (o : Options) (s : State) (st : Statement) :
    s.surface.Grows (flush o s st).value.surface :=
  store_grows o { s with statement := none } st.target st.text st.start

theorem settle_grows (o : Options) (s : State) (t : Text) :
    s.surface.Grows (settle o s t).surface := by
  rcases settle_cases o s t with same | ⟨st, -, same⟩ <;> rw [same]
  · exact .refl _
  · exact flush_grows o s st

theorem route_grows {o : Options} {s s' : State} {line : SourceLine} (r : Route o s line s') :
    s.surface.Grows s'.surface := by
  cases r with
  | ignored => exact .refl _
  | comment =>
    rw [addComment_value]
    exact .refl _
  | default =>
    rw [setDefault_value]
    exact ⟨List.prefix_rfl, List.prefix_rfl, List.prefix_rfl⟩
  | kept => exact .refl _
  | closed => exact flush_grows o s _

theorem step_grows (o : Options) (s : State) (line : SourceLine) :
    s.surface.Grows (step o s line).value.surface := by
  rw [step_value]
  exact (settle_grows o s _).trans (route_grows (route_cases o _ line))

/-! ### Runs -/

/-- What every step keeps, a run keeps. -/
theorem run_of_step {o : Options} {p : State → Prop}
    (keeps : ∀ s line, p s → p (step o s line).value) {s : State} (h : p s) (ls : List SourceLine) :
    p (run o s ls).value := by
  induction ls generalizing s with
  | nil => exact h
  | cons l ls ih => exact ih (keeps s l h)

theorem run_grows (o : Options) (s : State) (ls : List SourceLine) :
    s.surface.Grows (run o s ls).value.surface :=
  run_of_step (p := fun s' => s.surface.Grows s'.surface)
    (fun s' line grown => grown.trans (step_grows o s' line)) (.refl _) ls

theorem run_append (o : Options) (s : State) (ls ms : List SourceLine) :
    (run o s (ls ++ ms)).value = (run o (run o s ls).value ms).value := by
  induction ls generalizing s with
  | nil => rfl
  | cons l ls ih => exact ih (step o s l).value

theorem run_snoc (o : Options) (s : State) (ls : List SourceLine) (line : SourceLine) :
    (run o s (ls ++ [line])).value = (step o (run o s ls).value line).value :=
  run_append o s ls [line]

theorem finish_surface (o : Options) (s : State) :
    (finish o s).value.surface = match s.statement with
      | none => s.surface
      | some st => (flush o s st).value.surface := by
  unfold finish
  cases s.statement <;> simp only [Noted.value_bind, Noted.value_pure] <;> split <;> rfl

theorem scan_value (o : Options) (source : Text) :
    (scan o source).value =
      (finish o (run o .start (SourceLine.ofText source)).value).value.surface := rfl

end Scan

end Ambient
