import Ambient.Proofs.Resting

/-!
Dropping comments. The scanner collects and empties the pending block in the same way whether or not
it keeps comments; only the comment of an emitted declaration differs. So the run without comments
is the other run with the comments of its surface erased (`run_uncommented`), and erasing them in
the scanner or leaving them out of the output gives the same text.
-/

namespace Ambient

def Declaration.uncommented (d : Declaration) : Declaration := { d with comment := none }

/-- The surface with no comment on any of its declarations. -/
def Surface.uncommented (f : Surface) : Surface :=
  { f with
    declarations := f.declarations.map Declaration.uncommented
    default := f.default.map Declaration.uncommented }

/-- Output without comments does not see them. -/
theorem Surface.groups_uncommented (f : Surface) : f.uncommented.groups false = f.groups false := by
  have lines (d : Declaration) :
      declarationLines false d.uncommented = declarationLines false d := by
    cases comment : d.comment <;> simp [declarationLines, Declaration.uncommented, comment]
  have default : (f.default.map Declaration.uncommented).map Declaration.text =
      f.default.map Declaration.text := by
    cases f.default <;> rfl
  simp only [groups, uncommented, List.flatMap_map, lines, default]

namespace Scan

/-- The options with comments kept or dropped. -/
def Options.keeping (o : Options) (on : Bool) : Options := { o with keepComments := on }

/-- The state with no comment on what it has collected; the pending block stays. -/
def State.uncommented (s : State) : State := { s with surface := s.surface.uncommented }

section
variable (o : Options) (s : State)

theorem uncommented_statement : s.uncommented.statement = s.statement := rfl

theorem store_uncommented (target : Target) (t : Text) (index : Nat) :
    (store (o.keeping false) s.uncommented target t index).value =
      (store (o.keeping true) s target t index).value.uncommented := by
  cases target with
  | importing => rfl
  | reexport => rfl
  | declaration kind =>
    have erased : record (o.keeping false) s.uncommented kind t index =
        (record (o.keeping true) s kind t index).uncommented := rfl
    rw [store_declaration, store_declaration, erased]
    simp [State.uncommented, Surface.uncommented]

theorem flush_uncommented (st : Statement) :
    (flush (o.keeping false) s.uncommented st).value =
      (flush (o.keeping true) s st).value.uncommented :=
  store_uncommented o { s with statement := none } st.target st.text st.start

theorem extend_uncommented (st : Statement) (line : SourceLine) :
    (extend (o.keeping false) s.uncommented st line).value =
      (extend (o.keeping true) s st line).value.uncommented := by
  have mode : (o.keeping false).multiline = (o.keeping true).multiline := rfl
  rw [extend_value, extend_value, mode]
  split
  · exact flush_uncommented o s _
  · rfl

theorem addComment_uncommented (t : Text) (line : SourceLine) :
    (addComment s.uncommented t line).value = (addComment s t line).value.uncommented := by
  rw [addComment_value, addComment_value]
  rfl

theorem setDefault_uncommented (t : Text) (line : SourceLine) :
    (setDefault (o.keeping false) s.uncommented t line).value =
      (setDefault (o.keeping true) s t line).value.uncommented := by
  rw [setDefault_value, setDefault_value]
  rfl

theorem takeStatement_uncommented (target : Target) (t : Text) (line : SourceLine) :
    (takeStatement (o.keeping false) s.uncommented target t line).value =
      (takeStatement (o.keeping true) s target t line).value.uncommented := by
  have mode : (o.keeping false).multiline = (o.keeping true).multiline := rfl
  rw [takeStatement, takeStatement, mode]
  split
  · exact extend_uncommented o s (.fresh target line) line
  · exact store_uncommented o s target t line.index

theorem idle_uncommented (t : Text) (line : SourceLine) :
    (idle (o.keeping false) s.uncommented t line).value =
      (idle (o.keeping true) s t line).value.uncommented := by
  have mode : (o.keeping false).multiline = (o.keeping true).multiline := rfl
  unfold idle
  cases LineKind.classify t with
  | comment => exact addComment_uncommented s t line
  | importing => exact takeStatement_uncommented o s .importing t line
  | defaultExport => exact setDefault_uncommented o s t line
  | reexport => exact takeStatement_uncommented o s .reexport t line
  | constant => exact extend_uncommented o s (.fresh _ line) line
  | declaration =>
    simp only [mode]
    split
    · exact extend_uncommented o s (.fresh _ line) line
    · exact store_uncommented o s (.declaration (.detect t)) t line.index
  | other => rfl

theorem settle_uncommented (t : Text) :
    settle (o.keeping false) s.uncommented t = (settle (o.keeping true) s t).uncommented := by
  unfold settle
  rw [uncommented_statement]
  cases s.statement with
  | none => rfl
  | some st =>
    simp only
    split
    · rfl
    · exact flush_uncommented o s st

theorem route_uncommented (line : SourceLine) :
    route (o.keeping false) s.uncommented line =
      (route (o.keeping true) s line).uncommented := by
  unfold route
  rw [uncommented_statement]
  cases s.statement with
  | none => exact idle_uncommented o s (trim line.text) line
  | some st =>
    simp only
    split
    · exact addComment_uncommented s (trim line.text) line
    · exact extend_uncommented o s st line

/-- A line does the same with and without comments, up to the comments of what it emits. -/
theorem step_uncommented (line : SourceLine) :
    (step (o.keeping false) s.uncommented line).value =
      (step (o.keeping true) s line).value.uncommented := by
  rw [step_value, step_value, settle_uncommented, route_uncommented]

theorem run_uncommented (ls : List SourceLine) :
    (run (o.keeping false) s.uncommented ls).value =
      (run (o.keeping true) s ls).value.uncommented := by
  induction ls generalizing s with
  | nil => rfl
  | cons l ls ih =>
    change (run (o.keeping false) (step (o.keeping false) s.uncommented l).value ls).value = _
    rw [step_uncommented]
    exact ih (step (o.keeping true) s l).value

theorem stored_uncommented :
    stored (o.keeping false) s.uncommented = (stored (o.keeping true) s).uncommented := by
  unfold stored
  rw [uncommented_statement]
  cases s.statement with
  | none => rfl
  | some st => exact flush_uncommented o s st

end

theorem scan_uncommented (o : Options) (source : Text) :
    (scan (o.keeping false) source).value = (scan (o.keeping true) source).value.uncommented := by
  have ran := run_uncommented o .start (SourceLine.ofText source)
  rw [scan_value, scan_value, finish_stored, finish_stored]
  change (stored _ (run _ State.start.uncommented _).value).surface = _
  rw [ran, stored_uncommented]
  rfl

/-- **Dropping comments changes nothing else.** The surface without comments is the surface with
them, each declaration's comment erased; and a surface with comments, written without them, gives
the declaration text of the run that drops them. -/
theorem comments_dropped_alike (o : Options) (source : Text) :
    (scan { o with keepComments := false } source).value =
      (scan { o with keepComments := true } source).value.uncommented ∧
    ((scan { o with keepComments := true } source).value.render false).value =
      (declarationText { o with keepComments := false } source).value := by
  have erased := scan_uncommented o source
  refine ⟨erased, ?_⟩
  change Cleanup.clean (Surface.joinGroups ((scan (o.keeping true) source).value.groups false)) =
    Cleanup.clean (Surface.joinGroups ((scan (o.keeping false) source).value.groups false))
  rw [erased, Surface.groups_uncommented]

end Scan

end Ambient
