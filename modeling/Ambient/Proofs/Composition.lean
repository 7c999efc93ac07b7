import Ambient.Proofs.Resting

/-!
Scanning in parts. Nothing the scanner does depends on what it has collected, and line numbers only
pass through it: a run on later lines that starts from a state of rest is the run on those lines
alone, moved down and put behind what was there (`run_onto`). So the surface of two sources, one
behind the other, is the surface of the first with that of the second behind it, wherever the first
ends at rest.
-/

namespace Ambient

/-- The line `n` lines further down. -/
def SourceLine.shift (n : Nat) (l : SourceLine) : SourceLine := { l with index := l.index + n }

def Declaration.shift (n : Nat) (d : Declaration) : Declaration := { d with line := d.line + n }

def Statement.shift (n : Nat) (st : Statement) : Statement := { st with start := st.start + n }

/-- What `f` and, `n` lines further down, `g` export together; the later default export counts. -/
def Surface.join (f : Surface) (n : Nat) (g : Surface) : Surface where
  imports := f.imports ++ g.imports
  declarations := f.declarations ++ g.declarations.map (Declaration.shift n)
  reexports := f.reexports ++ g.reexports
  default := (g.default.map (Declaration.shift n)).or f.default

theorem Surface.join_empty (f : Surface) (n : Nat) : f.join n .empty = f := by
  simp [Surface.join, Surface.empty]

theorem pieces_join (mark : Char) (t r : Text) :
    pieces mark (t ++ mark :: r) = pieces mark t ++ pieces mark r := by
  induction t with
  | nil => simp [pieces]
  | cons c t ih =>
    obtain ⟨p, ps, first⟩ := List.exists_cons_of_ne_nil (pieces_ne_nil mark t)
    rw [first, List.cons_append] at ih
    by_cases here : c = mark
    · simp [pieces, here, ih, first]
    · simp [pieces, here, ih, first]

theorem SourceLine.numbered_shift (n m : Nat) (ts : List Text) :
    numbered (m + n) ts = (numbered m ts).map (shift n) := by
  induction ts generalizing m with
  | nil => rfl
  | cons t ts ih =>
    rw [numbered, numbered, List.map_cons, ← ih, Nat.add_right_comm]
    rfl

namespace Scan

/-- The lines of a source behind another one. -/
theorem ofText_join (a b : Text) :
    SourceLine.ofText (a ++ '\n' :: b) =
      SourceLine.ofText a ++ (SourceLine.ofText b).map (.shift (lines a).length) := by
  rw [SourceLine.ofText, lines, pieces_join, numbered_append, SourceLine.numbered_shift]
  rfl

/-- The state with everything moved `n` lines down and put behind the surface `f`. -/
def State.onto (f : Surface) (n : Nat) (s : State) : State :=
  ⟨s.statement.map (Statement.shift n), s.comment, f.join n s.surface⟩

section
variable (o : Options) (f : Surface) (n : Nat) (s : State)

theorem onto_statement : (s.onto f n).statement = s.statement.map (Statement.shift n) := rfl

theorem store_onto (target : Target) (t : Text) (index : Nat) :
    (store o (s.onto f n) target t (index + n)).value =
      (store o s target t index).value.onto f n := by
  cases target with
  | importing => simp [store_importing, State.onto, Surface.join]
  | reexport => simp [store_reexport, State.onto, Surface.join]
  | declaration kind =>
    have moved : record o (s.onto f n) kind t (index + n) = (record o s kind t index).shift n := by
      simp only [record, Declaration.shift, State.onto, Declaration.mk.injEq, true_and]
      omega
    rw [store_declaration, store_declaration, moved]
    simp [State.onto, Surface.join]

theorem flush_onto (st : Statement) :
    (flush o (s.onto f n) (st.shift n)).value = (flush o s st).value.onto f n :=
  store_onto o f n { s with statement := none } st.target st.text st.start

theorem extend_onto (st : Statement) (line : SourceLine) :
    (extend o (s.onto f n) (st.shift n) (line.shift n)).value =
      (extend o s st line).value.onto f n := by
  have pushed : (st.shift n).push (line.shift n).text = (st.push line.text).shift n := rfl
  have complete : ((st.push line.text).shift n).complete o.multiline =
      (st.push line.text).complete o.multiline := rfl
  rw [extend_value, extend_value, pushed, complete]
  split
  · exact flush_onto o f n s _
  · rfl

theorem addComment_onto (t : Text) (line : SourceLine) :
    (addComment (s.onto f n) t (line.shift n)).value = (addComment s t line).value.onto f n := by
  rw [addComment_value, addComment_value]
  rfl

theorem setDefault_onto (t : Text) (line : SourceLine) :
    (setDefault o (s.onto f n) t (line.shift n)).value =
      (setDefault o s t line).value.onto f n := by
  have moved : defaultRecord o t (line.shift n) = (defaultRecord o t line).shift n := by
    simp only [defaultRecord, Declaration.shift, SourceLine.number, SourceLine.shift,
      Declaration.mk.injEq, true_and]
    omega
  rw [setDefault_value, setDefault_value, moved]
  rfl

theorem openStatement_onto (target : Target) (line : SourceLine) :
    (openStatement o (s.onto f n) target (line.shift n)).value =
      (openStatement o s target line).value.onto f n :=
  extend_onto o f n s (.fresh target line) line

theorem takeStatement_onto (target : Target) (t : Text) (line : SourceLine) :
    (takeStatement o (s.onto f n) target t (line.shift n)).value =
      (takeStatement o s target t line).value.onto f n := by
  unfold takeStatement
  split
  · exact openStatement_onto o f n s target line
  · exact store_onto o f n s target t line.index

theorem idle_onto (t : Text) (line : SourceLine) :
    (idle o (s.onto f n) t (line.shift n)).value = (idle o s t line).value.onto f n := by
  unfold idle
  cases LineKind.classify t with
  | comment => exact addComment_onto f n s t line
  | importing => exact takeStatement_onto o f n s .importing t line
  | defaultExport => exact setDefault_onto o f n s t line
  | reexport => exact takeStatement_onto o f n s .reexport t line
  | constant => exact openStatement_onto o f n s _ line
  | declaration =>
    simp only
    split
    · exact openStatement_onto o f n s _ line
    · exact store_onto o f n s (.declaration (.detect t)) t line.index
  | other => rfl

theorem settle_onto (t : Text) : settle o (s.onto f n) t = (settle o s t).onto f n := by
  unfold settle
  rw [onto_statement]
  cases s.statement with
  | none => rfl
  | some st =>
    have takes : (st.shift n).takes t = st.takes t := rfl
    simp only [Option.map_some, takes]
    split
    · rfl
    · exact flush_onto o f n s st

theorem route_onto (line : SourceLine) :
    route o (s.onto f n) (line.shift n) = (route o s line).onto f n := by
  unfold route
  rw [onto_statement]
  cases s.statement with
  | none => exact idle_onto o f n s (trim line.text) line
  | some st =>
    have target : (st.shift n).target = st.target := rfl
    have text : (line.shift n).text = line.text := rfl
    simp only [Option.map_some, target, text]
    split
    · exact addComment_onto f n s (trim line.text) line
    · exact extend_onto o f n s st line

/-- What a line does, it does behind any surface and anywhere in the source. -/
theorem step_onto (line : SourceLine) :
    (step o (s.onto f n) (line.shift n)).value = (step o s line).value.onto f n := by
  rw [step_value, step_value, show (line.shift n).text = line.text from rfl, settle_onto, route_onto]

theorem run_onto (ls : List SourceLine) :
    (run o (s.onto f n) (ls.map (.shift n))).value = (run o s ls).value.onto f n := by
  induction ls generalizing s with
  | nil => rfl
  | cons l ls ih =>
    rw [List.map_cons]
    change (run o (step o (s.onto f n) (l.shift n)).value (ls.map (.shift n))).value = _
    rw [step_onto]
    exact ih (step o s l).value

theorem stored_onto : stored o (s.onto f n) = (stored o s).onto f n := by
  unfold stored
  rw [onto_statement]
  cases s.statement with
  | none => rfl
  | some st => exact flush_onto o f n s st

end

/-- With nothing pending, all that a state holds is what it has collected. -/
theorem eq_start_onto {s : State} (statement : s.statement = none) (comment : s.comment = .empty)
    (n : Nat) : s = State.start.onto s.surface n := by
  cases s with
  | mk =>
    subst statement comment
    simp [State.start, State.onto, Surface.join_empty]

/-- A complete alias takes the pending block with it. -/
theorem stored_comment {o : Options} {s : State} {st : Statement} (waiting : Gathers o s)
    (open' : s.statement = some st) (settled : st.settled = true) :
    (stored o s).comment = .empty := by
  obtain ⟨target, -⟩ := (waiting st open').settled settled
  rw [stored, open']
  simp only [flush, target, store_declaration]

/-- Where a waiting alias is not carried on, the lines behind it find it stored. -/
theorem run_stored {o : Options} {s : State} (rests : Rests s) {l : SourceLine}
    (goesOn : startsWithAny Statement.leadingSigns (trim l.text) = false) (ls : List SourceLine) :
    (run o s (l :: ls)).value = (run o (stored o s) (l :: ls)).value := by
  have same : (step o s l).value = (step o (stored o s) l).value := by
    rw [step_of_rests rests goesOn, step_of_rests (rests_of_none (stored_statement o s)) goesOn,
      stored_of_none (stored_statement o s)]
  exact congrArg (fun s => (run o s ls).value) same

/-- The state after the lines of a source, before the work at its end. -/
def ended (o : Options) (source : Text) : State := (run o .start (SourceLine.ofText source)).value

/-- The source `a` ends at rest with `b` behind it: nothing is pending, or only a complete alias
that the first line of `b` does not carry on. -/
inductive RestsBefore (o : Options) (a b : Text) : Prop
  | idle : (ended o a).statement = none → (ended o a).comment = .empty → RestsBefore o a b
  | complete {st : Statement} : (ended o a).statement = some st → st.settled = true →
      (∀ t ∈ (lines b).head?, startsWithAny Statement.leadingSigns (trim t) = false) →
      RestsBefore o a b

/-- At a rest point the lines of `b` run as if nothing were open, with an empty comment block. -/
theorem RestsBefore.run_eq {o : Options} {a b : Text} (h : RestsBefore o a b) (n : Nat) :
    (stored o (ended o a)).comment = .empty ∧
      (run o (ended o a) ((SourceLine.ofText b).map (.shift n))).value =
        (run o (stored o (ended o a)) ((SourceLine.ofText b).map (.shift n))).value := by
  cases h with
  | idle statement comment => rw [stored_of_none statement]; exact ⟨comment, rfl⟩
  | complete open' settled goesOn =>
    have rests : Rests (ended o a) := by
      intro st' same
      obtain rfl := Option.some.inj (open'.symm.trans same)
      exact settled
    have waiting : Gathers o (ended o a) := gathers_run (fun st same => by cases same) _
    refine ⟨stored_comment waiting open' settled, ?_⟩
    obtain ⟨t, ts, first⟩ := List.exists_cons_of_ne_nil (pieces_ne_nil '\n' b)
    have head : startsWithAny Statement.leadingSigns (trim t) = false :=
      goesOn t (by rw [lines, first]; rfl)
    rw [SourceLine.ofText, lines, first]
    exact run_stored rests head _

/-- **Scanning is compositional at rest points.** Where the source `a` ends at rest before `b`, the
surface of the two joined by a line feed is that of `a` with that of `b` behind it: imports,
declarations and re-exports are appended, the lines of `b` count on from those of `a`, and the
default export of `b` counts, or that of `a` where `b` has none. -/
theorem scan_join (o : Options) (a b : Text) (rest : RestsBefore o a b) :
    (scan o (a ++ '\n' :: b)).value = (scan o a).value.join (lines a).length (scan o b).value := by
  obtain ⟨comment, ran⟩ := rest.run_eq (lines a).length
  rw [scan_value, finish_stored, ofText_join, run_append]
  change (stored o (run o (ended o a) _).value).surface = _
  rw [ran, eq_start_onto (stored_statement o _) comment (lines a).length, run_onto, stored_onto,
    scan_value o a, scan_value o b, finish_stored, finish_stored]
  rfl

/-- Both kinds of rest: a finished constant, and an alias with its block that waits for one more
line. -/
theorem scan_join_at_rest :
    let o : Options := ⟨true, true, .plain "  ".toList⟩
    let a : Text := "export const a = 1\nexport default a".toList
    let b : Text := "/** Id. */\nexport type Id = string".toList
    let c : Text := "export default b".toList
    (scan o (a ++ '\n' :: b)).value = (scan o a).value.join 2 (scan o b).value ∧
      (scan o (b ++ '\n' :: c)).value = (scan o b).value.join 2 (scan o c).value := by
  intro o a b c
  have waits : (ended o b).statement =
      some ⟨.declaration .typeAlias, 1, ["export type Id = string".toList], 0, true⟩ := by
    decide +kernel
  exact ⟨scan_join o a b (.idle (by decide +kernel) (by decide +kernel)),
    scan_join o b c (.complete waits rfl (by decide +kernel))⟩

/-! ### The lines behind a declaration -/

theorem stored_grows (o : Options) (s : State) : s.surface.Grows (stored o s).surface := by
  unfold stored
  cases s.statement with
  | none => exact .refl _
  | some st => exact flush_grows o s st

section
variable {o : Options} {source t : Text} {kind : DeclarationKind} {front rest : List Text}

/-- Only an alias waits behind its last line. -/
theorem statement_of_takes (other : kind ≠ .typeAlias) (takes : Takes o front kind t) :
    (run o .start (SourceLine.numbered 0 front)).value.statement = none := by
  obtain ⟨rests, value⟩ := takes 0 .start nofun
  cases waits : (run o .start (SourceLine.numbered 0 front)).value.statement with
  | none => rfl
  | some st =>
    have waiting := gathers_run (o := o) (s := .start) nofun (SourceLine.numbered 0 front) st waits
    have isAlias := (waiting.settled (rests st waits)).1
    rw [stored, waits] at value
    simp only [flush, isAlias, store_declaration] at value
    have last := congrArg (fun s : State => s.surface.declarations.getLast?.map Declaration.kind) value
    simp only [List.getLast?_concat, Option.map_some, Option.some.injEq, record] at last
    exact absurd last.symm other

/-- The first declaration of a source has its record first. -/
theorem declarations_of_takes (split : lines source = front ++ rest) (takes : Takes o front kind t)
    (goesOn : kind = .typeAlias →
      ∀ l ∈ rest.head?, startsWithAny Statement.leadingSigns (trim l) = false) :
    ∃ later, (scan o source).value.declarations = record o .start kind t 0 :: later := by
  obtain ⟨rests, value⟩ := takes 0 .start nofun
  have first : [record o .start kind t 0] <+:
      (stored o (run o .start (SourceLine.numbered 0 front)).value).surface.declarations := by
    rw [value]
    exact List.prefix_rfl
  let behind := SourceLine.numbered (0 + front.length) rest
  have ran : (stored o (run o (run o .start (SourceLine.numbered 0 front)).value behind).value) =
      stored o (run o (stored o (run o .start (SourceLine.numbered 0 front)).value) behind).value := by
    by_cases waits : kind = .typeAlias
    · cases rest with
      | nil => exact (stored_of_none (stored_statement o _) o).symm
      | cons l ls => exact congrArg (stored o) (run_stored rests (goesOn waits l rfl) _)
    · rw [stored_of_none (statement_of_takes waits takes)]
  have grows : (stored o (run o .start (SourceLine.numbered 0 front)).value).surface.Grows
      (scan o source).value := by
    rw [scan_value, finish_stored, SourceLine.ofText, split, numbered_append, run_append, ran]
    exact (run_grows o _ _).trans (stored_grows o _)
  obtain ⟨later, whole⟩ := first.trans grows.declarations
  exact ⟨later, whole.symm⟩

/-- A source that starts with a declaration is that declaration and the source behind it. -/
theorem scan_behind_takes {a b : Text} (takes : Takes o (lines a) kind t)
    (goesOn : ∀ l ∈ (lines b).head?, startsWithAny Statement.leadingSigns (trim l) = false) :
    (scan o (a ++ '\n' :: b)).value =
      (⟨[], [record o .start kind t 0], [], none⟩ : Surface).join (lines a).length
        (scan o b).value := by
  obtain ⟨rests, value⟩ := takes 0 .start nofun
  obtain ⟨l, ls, first⟩ := List.exists_cons_of_ne_nil (pieces_ne_nil '\n' b)
  have ran : (run o (ended o a) ((SourceLine.ofText b).map (.shift (lines a).length))).value =
      (run o (stored o (ended o a)) ((SourceLine.ofText b).map (.shift (lines a).length))).value := by
    have same : lines b = l :: ls := first
    rw [SourceLine.ofText, same]
    exact run_stored rests (goesOn l (by rw [same]; rfl)) _
  have comment : (stored o (ended o a)).comment = .empty := by
    rw [ended, SourceLine.ofText, value]
    rfl
  have surface : (stored o (ended o a)).surface = ⟨[], [record o .start kind t 0], [], none⟩ := by
    rw [ended, SourceLine.ofText, value]
    rfl
  rw [scan_value, finish_stored, ofText_join, run_append]
  change (stored o (run o (ended o a) _).value).surface = _
  rw [ran, eq_start_onto (stored_statement o _) comment (lines a).length, run_onto, stored_onto, surface,
    scan_value o b, finish_stored]
  rfl

end

end Scan

end Ambient
