import Ambient.Proofs.Accounting
import Ambient.Proofs.Resting

/-!
The default export. Whatever is open when the line comes, it is stored first, and the line takes the
place of any earlier default export; no other line touches it. So the default export of a source is
its last such line, and each of them ends the statement before it.
-/

namespace Ambient.Scan

def isDefaultLine (l : SourceLine) : Bool := LineKind.classify (trim l.text) == .defaultExport

/-- The last default export among the lines. -/
def lastDefault? (ls : List SourceLine) : Option SourceLine := (ls.filter isDefaultLine).getLast?

theorem lastDefault?_cons (l : SourceLine) (ls : List SourceLine) :
    lastDefault? (l :: ls) = (lastDefault? ls).or (if isDefaultLine l then some l else none) := by
  unfold lastDefault?
  by_cases here : isDefaultLine l = true
  · rw [List.filter_cons_of_pos here, List.getLast?_cons, if_pos here]
    cases (ls.filter isDefaultLine).getLast? <;> rfl
  · rw [List.filter_cons_of_neg here, if_neg here, Option.or_none]

theorem lastDefault?_eq_none {ls : List SourceLine} :
    lastDefault? ls = none ↔ ∀ l ∈ ls, LineKind.classify (trim l.text) ≠ .defaultExport := by
  simp [lastDefault?, isDefaultLine]

section
variable {o : Options} {s : State} {line : SourceLine}

/-! ### The line itself -/

theorem step_of_default (h : LineKind.classify (trim line.text) = .defaultExport) :
    (step o s line).value = (setDefault o (stored o s) (trim line.text) line).value := by
  have settled : settle o s (trim line.text) = stored o s := by
    unfold settle stored
    cases s.statement with
    | none => rfl
    | some st => simp [h]
  rw [step_value, settled, route, stored_statement]
  simp only [idle, h]

/-! ### Every other line -/

theorem default_stored : (stored o s).surface.default = s.surface.default := by
  unfold stored
  cases s.statement with
  | none => rfl
  | some st => exact flush_default o s st

theorem default_route {s' : State} (other : LineKind.classify (trim line.text) ≠ .defaultExport)
    (r : Route o s line s') : s'.surface.default = s.surface.default := by
  cases r with
  | ignored | kept => rfl
  | comment => rw [addComment_value]
  | default _ kind => exact absurd kind other
  | closed => exact flush_default o s _

theorem default_step (line : SourceLine) :
    (step o s line).value.surface.default =
      if isDefaultLine line then some (defaultRecord o (trim line.text) line)
      else s.surface.default := by
  split
  · next here =>
    rw [step_of_default (beq_iff_eq.1 here), setDefault_value]
  · next other =>
    rw [step_value, default_route (fun kind => other (beq_iff_eq.2 kind)) (route_cases o _ line),
      settle_default]

theorem default_run (ls : List SourceLine) :
    (run o s ls).value.surface.default =
      ((lastDefault? ls).map fun l => defaultRecord o (trim l.text) l).or s.surface.default := by
  induction ls generalizing s with
  | nil => rfl
  | cons l ls ih =>
    change (run o (step o s l).value ls).value.surface.default = _
    rw [ih, default_step, lastDefault?_cons]
    cases lastDefault? ls with
    | some last => rfl
    | none => cases isDefaultLine l <;> rfl

theorem default_scan (o : Options) (source : Text) : (scan o source).value.default =
    (lastDefault? (SourceLine.ofText source)).map fun l => defaultRecord o (trim l.text) l := by
  rw [scan_value, finish_stored, default_stored, default_run]
  exact Option.or_none

/-! ### What is open before it -/

/-- What is open in the state was opened by a line of `ls` and carried on by later ones. -/
def HeldFrom (ls : List SourceLine) (s : State) : Prop :=
  ∀ st, s.statement = some st → ∃ e : Entry, Holds st e ∧ e.lines.Sublist ls ∧
    Target.opened? (trim e.first.text) = some e.target

variable {ls : List SourceLine}

theorem heldFrom_of_none (h : s.statement = none) : HeldFrom ls s := by
  intro st same
  rw [h] at same
  cases same

theorem heldFrom_settle (h : HeldFrom ls s) (t : Text) : HeldFrom ls (settle o s t) := by
  rcases settle_cases o s t with same | ⟨st, -, same⟩ <;> rw [same]
  · exact h
  · exact heldFrom_of_none (flush_statement o s st)

theorem heldFrom_route {s' : State} (h : HeldFrom ls s) (r : Route o s line s') :
    HeldFrom (ls ++ [line]) s' := by
  have unchanged {s' : State} (same : s'.statement = s.statement) : HeldFrom (ls ++ [line]) s' := by
    intro st open'
    obtain ⟨e, holds, lines, opens⟩ := h st (same ▸ open')
    exact ⟨e, holds, lines.trans (List.sublist_append_left ls [line]), opens⟩
  cases r with
  | ignored => exact unchanged rfl
  | comment => exact unchanged (by rw [addComment_value])
  | default => exact unchanged (by rw [setDefault_value])
  | closed => exact heldFrom_of_none (flush_statement o s _)
  | kept joins =>
    intro st same
    obtain rfl := Option.some.inj same
    cases joins with
    | opened _ opens =>
      obtain ⟨target, start, lines⟩ := holds_fresh _ line
      exact ⟨_, ⟨target, start, lines⟩, List.sublist_append_right ls [line], opens⟩
    | extended open' =>
      obtain ⟨e, holds, inside, opens⟩ := h _ open'
      obtain ⟨target, start, lines⟩ := holds_push holds line
      exact ⟨e.add line, ⟨target, start, lines⟩, inside.append_right [line], opens⟩

theorem heldFrom_step (h : HeldFrom ls s) (line : SourceLine) :
    HeldFrom (ls ++ [line]) (step o s line).value := by
  rw [step_value]
  exact heldFrom_route (heldFrom_settle h _) (route_cases o _ line)

theorem heldFrom_run (h : HeldFrom ls s) (ms : List SourceLine) :
    HeldFrom (ls ++ ms) (run o s ms).value := by
  induction ms generalizing ls s with
  | nil => rwa [List.append_nil]
  | cons m ms ih =>
    have rest := ih (heldFrom_step (o := o) h m)
    rwa [List.append_assoc] at rest

theorem flush_of_holds {st : Statement} {e : Entry} (h : Holds st e) :
    (flush o s st).value =
      (store o { s with statement := none } e.target e.text e.first.index).value := by
  have text : st.text = e.text := by rw [Statement.text, Entry.text, h.lines]
  rw [flush, h.target, h.start, text]

/-- From `s` to `s'` the default export `line` ends what is open. A statement that was open is
stored as it stands, from lines of `before` alone, and the default export is set behind it. -/
structure Interrupts (o : Options) (before : List SourceLine) (line : SourceLine) (s s' : State) :
    Prop where
  closed : s'.statement = none
  idle : s.statement = none → s' = (setDefault o s (trim line.text) line).value
  stored : ∀ st, s.statement = some st → ∃ e : Entry, Holds st e ∧ e.lines.Sublist before ∧
    Target.opened? (trim e.first.text) = some e.target ∧
    s' = (setDefault o (store o { s with statement := none } e.target e.text e.first.index).value
      (trim line.text) line).value

theorem interrupts_step (held : HeldFrom ls s)
    (h : LineKind.classify (trim line.text) = .defaultExport) :
    Interrupts o ls line s (step o s line).value := by
  rw [step_of_default h]
  refine ⟨?_, fun idle => ?_, fun st open' => ?_⟩
  · rw [setDefault_value]
    exact stored_statement o s
  · rw [stored_of_none idle]
  · obtain ⟨e, holds, inside, opens⟩ := held st open'
    refine ⟨e, holds, inside, opens, ?_⟩
    rw [Scan.stored, open', ← flush_of_holds holds]

end

theorem finish_grows (o : Options) (s : State) : s.surface.Grows (finish o s).value.surface := by
  rw [finish_surface]
  cases s.statement with
  | none => exact .refl _
  | some st => exact flush_grows o s st

/-- **The default export is the last one, and it always ends a statement.** It depends on the last
such line alone, and there is none exactly when no line is one. After each of these lines nothing is
open; the statement that was open is stored from lines before it, and everything stored by then
comes first in the surface. -/
theorem default_is_last (o : Options) (source : Text) :
    (scan o source).value.default =
      (lastDefault? (SourceLine.ofText source)).map (fun l => defaultRecord o (trim l.text) l) ∧
    ((scan o source).value.default = none ↔
      ∀ l ∈ SourceLine.ofText source, LineKind.classify (trim l.text) ≠ .defaultExport) ∧
    (o.style.formOf .default = .default → ∀ l : SourceLine,
      defaultRecord o (trim l.text) l = ⟨.default, ambientDefault (trim l.text), none, l.number⟩) ∧
    ∀ before line after, SourceLine.ofText source = before ++ line :: after →
      LineKind.classify (trim line.text) = .defaultExport →
      Interrupts o before line (run o .start before).value (run o .start (before ++ [line])).value ∧
      (run o .start (before ++ [line])).value.surface.Grows (scan o source).value := by
  have last := default_scan o source
  refine ⟨last, ?_, fun own l => ?_, fun before line after split kind => ⟨?_, ?_⟩⟩
  · rw [last, Option.map_eq_none_iff, lastDefault?_eq_none]
  · rw [defaultRecord, own]
    rfl
  · have held : HeldFrom ([] ++ before) (run o .start before).value :=
      heldFrom_run (heldFrom_of_none rfl) before
    rw [run_snoc]
    exact interrupts_step held kind
  · have whole : (run o .start (SourceLine.ofText source)).value =
        (run o (run o .start (before ++ [line])).value after).value := by
      rw [split, ← run_append, List.append_assoc]
      rfl
    rw [scan_value, whole]
    exact (run_grows o _ after).trans (finish_grows o _)

/-- A default export inside an interface, and one before it. -/
theorem default_is_last_inside :
    let o : Options := ⟨true, true, .plain "  ".toList⟩
    let source : Text :=
      "export default a\nexport interface P \x7b\nexport default b\nexport const c = 1".toList
    let before : List SourceLine := (SourceLine.ofText source).take 2
    (run o .start before).value.statement.isSome = true ∧
      (scan o source).value.default = some ⟨.default, "export default b;".toList, none, 3⟩ ∧
      (run o .start (before ++ [⟨2, "export default b".toList⟩])).value.surface.Grows
        (scan o source).value := by
  intro o source before
  obtain ⟨last, -, own, ends⟩ := default_is_last o source
  have line : lastDefault? (SourceLine.ofText source) = some ⟨2, "export default b".toList⟩ := by
    decide +kernel
  refine ⟨by decide +kernel, ?_, ?_⟩
  · rw [last, line, Option.map_some, own rfl]
    decide +kernel
  · exact (ends before ⟨2, "export default b".toList⟩ ((SourceLine.ofText source).drop 3)
      (by decide +kernel) (by decide +kernel)).2

end Ambient.Scan
