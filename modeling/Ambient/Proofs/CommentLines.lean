import Ambient.Proofs.Resting

/-!
Comment lines inside a constant. While no other statement is open, a line that starts with a mark of a
comment changes nothing but the pending block, so the texts of all declarations are those of the
source without it. Only the line's own start counts: a line of a comment that starts otherwise is
read as code.
-/

namespace Ambient

/-- A line that starts with `/*` or a star. -/
def isMarked (line : Text) : Bool := startsWithAny ["/*".toList, ['*']] (trim line)

/-- The declaration without its comment and its place. -/
def Declaration.unplaced (d : Declaration) : Declaration := { d with comment := none, line := 0 }

/-- What a surface exports, without comments and places. -/
def Surface.unplaced (f : Surface) : Surface :=
  { f with
    declarations := f.declarations.map Declaration.unplaced
    default := f.default.map Declaration.unplaced }

def Statement.unplaced (st : Statement) : Statement := { st with start := 0 }

def SourceLine.unplaced (l : SourceLine) : SourceLine := { l with index := 0 }

@[simp] theorem Declaration.unplaced_unplaced (d : Declaration) : d.unplaced.unplaced = d.unplaced := rfl

@[simp] theorem Statement.unplaced_unplaced (st : Statement) : st.unplaced.unplaced = st.unplaced := rfl

@[simp] theorem Surface.unplaced_unplaced (f : Surface) : f.unplaced.unplaced = f.unplaced := by
  simp [unplaced, Function.comp_def]

/-- Without their places lines are alike wherever the numbers start. -/
theorem SourceLine.unplaced_numbered (n m : Nat) (ts : List Text) :
    (numbered n ts).map unplaced = (numbered m ts).map unplaced := by
  induction ts generalizing n m with
  | nil => rfl
  | cons t ts ih => exact congrArg (⟨0, t⟩ :: ·) (ih (n + 1) (m + 1))

namespace Scan

/-- The state without comments and places. -/
def State.unplaced (s : State) : State :=
  ⟨s.statement.map Statement.unplaced, .empty, s.surface.unplaced⟩

@[simp] theorem State.unplaced_unplaced (s : State) : s.unplaced.unplaced = s.unplaced := by
  simp [unplaced, Function.comp_def]

/-! ### What a line does, apart from comments and places -/

section
variable (o : Options) (s : State)

theorem unplaced_statement : s.unplaced.statement = s.statement.map Statement.unplaced := rfl

theorem store_unplaced (target : Target) (t : Text) (index : Nat) :
    (store o s.unplaced target t 0).value.unplaced = (store o s target t index).value.unplaced := by
  cases target with
  | importing | reexport =>
    simp [store_importing, store_reexport, State.unplaced, Surface.unplaced, Function.comp_def]
  | declaration kind =>
    simp [store_declaration, State.unplaced, Surface.unplaced, Function.comp_def]
    rfl

theorem flush_unplaced (st : Statement) :
    (flush o s.unplaced st.unplaced).value.unplaced = (flush o s st).value.unplaced :=
  store_unplaced o { s with statement := none } st.target st.text st.start

theorem extend_unplaced (st : Statement) (line : SourceLine) :
    (extend o s.unplaced st.unplaced line.unplaced).value.unplaced =
      (extend o s st line).value.unplaced := by
  have pushed : st.unplaced.push line.unplaced.text = (st.push line.text).unplaced := rfl
  have complete : (st.push line.text).unplaced.complete o.multiline =
      (st.push line.text).complete o.multiline := rfl
  rw [extend_value, extend_value, pushed, complete]
  split
  · exact flush_unplaced o s _
  · exact State.unplaced_unplaced { s with statement := some (st.push line.text).awaiting }

theorem addComment_unplaced (t : Text) (line : SourceLine) :
    (addComment s t line).value.unplaced = s.unplaced := by
  rw [addComment_value]
  rfl

theorem setDefault_unplaced (t : Text) (line : SourceLine) :
    (setDefault o s.unplaced t line.unplaced).value.unplaced =
      (setDefault o s t line).value.unplaced := by
  rw [setDefault_value, setDefault_value]
  simp [State.unplaced, Surface.unplaced, Function.comp_def, defaultRecord, Declaration.unplaced]

theorem takeStatement_unplaced (target : Target) (t : Text) (line : SourceLine) :
    (takeStatement o s.unplaced target t line.unplaced).value.unplaced =
      (takeStatement o s target t line).value.unplaced := by
  unfold takeStatement
  split
  · exact extend_unplaced o s (.fresh target line) line
  · exact store_unplaced o s target t line.index

theorem idle_unplaced (t : Text) (line : SourceLine) :
    (idle o s.unplaced t line.unplaced).value.unplaced = (idle o s t line).value.unplaced := by
  unfold idle
  cases LineKind.classify t with
  | comment => rw [addComment_unplaced, addComment_unplaced, State.unplaced_unplaced]
  | importing => exact takeStatement_unplaced o s .importing t line
  | defaultExport => exact setDefault_unplaced o s t line
  | reexport => exact takeStatement_unplaced o s .reexport t line
  | constant => exact extend_unplaced o s (.fresh _ line) line
  | declaration =>
    simp only
    split
    · exact extend_unplaced o s (.fresh _ line) line
    · exact store_unplaced o s (.declaration (.detect t)) t line.index
  | other => exact s.unplaced_unplaced

theorem settle_unplaced (t : Text) :
    (settle o s.unplaced t).unplaced = (settle o s t).unplaced := by
  unfold settle
  rw [unplaced_statement]
  cases s.statement with
  | none => exact s.unplaced_unplaced
  | some st =>
    have takes : st.unplaced.takes t = st.takes t := rfl
    simp only [Option.map_some, takes]
    split
    · exact s.unplaced_unplaced
    · exact flush_unplaced o s st

theorem route_unplaced (line : SourceLine) :
    (route o s.unplaced line.unplaced).unplaced = (route o s line).unplaced := by
  unfold route
  rw [unplaced_statement]
  cases s.statement with
  | none => exact idle_unplaced o s (trim line.text) line
  | some st =>
    have target : st.unplaced.target = st.target := rfl
    have text : line.unplaced.text = line.text := rfl
    simp only [Option.map_some, target, text]
    split
    · rw [addComment_unplaced, addComment_unplaced, State.unplaced_unplaced]
    · exact extend_unplaced o s st line

theorem stored_unplaced : (stored o s.unplaced).unplaced = (stored o s).unplaced := by
  unfold stored
  rw [unplaced_statement]
  cases s.statement with
  | none => exact s.unplaced_unplaced
  | some st => exact flush_unplaced o s st

end

section
variable {o : Options} {s s' : State}

/-- States that agree apart from comments and places do so behind a line. -/
theorem step_agrees (same : s.unplaced = s'.unplaced) {l l' : SourceLine}
    (line : l.unplaced = l'.unplaced) :
    (step o s l).value.unplaced = (step o s' l').value.unplaced := by
  have text : l.text = l'.text := by
    change l.unplaced.text = l'.unplaced.text
    rw [line]
  have settled : (settle o s (trim l.text)).unplaced = (settle o s' (trim l'.text)).unplaced := by
    rw [← settle_unplaced o s, same, text, settle_unplaced]
  rw [step_value, step_value, ← route_unplaced, settled, line, route_unplaced]

theorem run_agrees (same : s.unplaced = s'.unplaced) {ls ls' : List SourceLine}
    (lines : ls.map SourceLine.unplaced = ls'.map SourceLine.unplaced) :
    (run o s ls).value.unplaced = (run o s' ls').value.unplaced := by
  induction ls generalizing s s' ls' with
  | nil =>
    obtain rfl := List.map_eq_nil_iff.1 lines.symm
    exact same
  | cons l ls ih =>
    obtain ⟨l', ls', rfl, line, rest⟩ := List.map_eq_cons_iff.1 lines.symm
    exact ih (step_agrees same line.symm) rest.symm

/-- What is exported depends on the texts of the lines only. -/
theorem stored_agrees (same : s.unplaced = s'.unplaced) :
    (stored o s).surface.unplaced = (stored o s').surface.unplaced := by
  have stored : (stored o s).unplaced = (stored o s').unplaced := by
    rw [← stored_unplaced, same, stored_unplaced]
  exact congrArg State.surface stored

/-! ### Marked lines -/

/-- No statement but a constant is open. -/
def OnlyConstant (s : State) : Prop :=
  ∀ st, s.statement = some st → st.target = .declaration .constant

theorem OnlyConstant.of_agrees (h : OnlyConstant s) (same : s.unplaced = s'.unplaced) :
    OnlyConstant s' := by
  intro st' open'
  have statement : s.statement.map Statement.unplaced = s'.statement.map Statement.unplaced :=
    congrArg State.statement same
  rw [open', Option.map_some, Option.map_eq_some_iff] at statement
  obtain ⟨st, found, agrees⟩ := statement
  have target : st.unplaced.target = st'.unplaced.target := by rw [agrees]
  exact target.symm.trans (h st found)

/-- A marked line is a comment or opens nothing, and a constant does not take it. -/
theorem classify_of_isMarked {t : Text} (marked : isMarked t = true) :
    (LineKind.classify (trim t) = .comment ∨ LineKind.classify (trim t) = .other) ∧
      (Target.declaration .constant).diverts (trim t) = true := by
  have starts : startsWith "/*".toList (trim t) = true ∨ startsWith ['*'] (trim t) = true := by
    simpa [isMarked, startsWithAny] using marked
  rcases starts with slash | star
  · obtain ⟨r, spelled⟩ := List.isPrefixOf_iff_prefix.1 slash
    refine ⟨spelled ▸ classify_of_slash ('*' :: r), ?_⟩
    rw [Target.diverts, slash, Bool.or_true]
    rfl
  · have doc : LineKind.opensDoc (trim t) = true := by simp [LineKind.opensDoc, startsWithAny, star]
    have comment : LineKind.classify (trim t) = .comment := by rw [LineKind.classify, if_pos doc]
    refine ⟨.inl comment, ?_⟩
    rw [Target.diverts, comment]
    rfl

/-- A marked line changes the pending block at most. -/
theorem step_marked (gathers : Gathers o s) (only : OnlyConstant s) {l : SourceLine}
    (marked : isMarked l.text = true) : (step o s l).value.unplaced = s.unplaced := by
  obtain ⟨kind, diverts⟩ := classify_of_isMarked marked
  have quiet : LineKind.classify (trim l.text) ≠ .defaultExport := by
    rcases kind with kind | kind <;> simp [kind]
  cases gathered : s.statement with
  | none =>
    have settled : settle o s (trim l.text) = s := by rw [settle, gathered]
    rw [step_value, settled, route, gathered]
    rcases kind with kind | kind
    · simp only [idle, kind]
      exact addComment_unplaced s (trim l.text) l
    · simp only [idle, kind]
      rfl
  | some st =>
    have target := only st gathered
    have unsettled : st.settled = false := by
      refine Bool.eq_false_iff.2 fun settled => ?_
      have isAlias := ((gathers st gathered).settled settled).1
      rw [target] at isAlias
      cases isAlias
    have settled : settle o s (trim l.text) = s := by
      rw [settle, gathered]
      simp [Statement.takes, unsettled, quiet]
    rw [step_value, settled, route, gathered]
    simp only [target, diverts, ↓reduceIte]
    exact addComment_unplaced s (trim l.text) l

/-- Marked lines may be left out while only a constant is open. -/
theorem run_marked (gathers : Gathers o s) {ts : List Text} (n m : Nat)
    (only : ∀ p, p <+: ts.filter (!isMarked ·) →
      OnlyConstant (run o s (SourceLine.numbered m p)).value) :
    (run o s (SourceLine.numbered n ts)).value.unplaced =
      (run o s (SourceLine.numbered m (ts.filter (!isMarked ·)))).value.unplaced := by
  induction ts generalizing s n m with
  | nil => rfl
  | cons t ts ih =>
    let next := (step o s ⟨n, t⟩).value
    have gathersNext : Gathers o next := gathers_step gathers ⟨n, t⟩
    cases marked : isMarked t with
    | true =>
      have kept : (t :: ts).filter (!isMarked ·) = ts.filter (!isMarked ·) := by simp [marked]
      rw [kept] at only ⊢
      have same : next.unplaced = s.unplaced :=
        step_marked gathers (only [] List.nil_prefix) (l := ⟨n, t⟩) marked
      have later := ih gathersNext (n + 1) m fun p front =>
        (only p front).of_agrees (run_agrees same.symm rfl)
      exact later.trans (run_agrees same rfl)
    | false =>
      have kept : (t :: ts).filter (!isMarked ·) = t :: ts.filter (!isMarked ·) := by simp [marked]
      rw [kept] at only ⊢
      have same : next.unplaced = (step o s ⟨m, t⟩).value.unplaced := step_agrees rfl rfl
      have later := ih gathersNext (n + 1) (m + 1) fun p front =>
        (only (t :: p) ((List.prefix_cons_inj t).2 front)).of_agrees (run_agrees same.symm rfl)
      exact later.trans (run_agrees same rfl)

/-- **Only the lines of a comment that start with a mark are inert.** Lines are inserted where nothing
or a constant is open, and no other statement is opened by them: then the source exports what it
exports with only those of them that start with neither `/*` nor a star. -/
theorem marked_lines_inert {source kept : Text} {front inserted back : List Text}
    (whole : lines source = front ++ inserted ++ back)
    (rest : lines kept = front ++ inserted.filter (!isMarked ·) ++ back)
    (only : ∀ p, p <+: inserted.filter (!isMarked ·) →
      OnlyConstant (run o .start (SourceLine.numbered 0 (front ++ p))).value) :
    (scan o source).value.unplaced = (scan o kept).value.unplaced := by
  let before := (run o .start (SourceLine.numbered 0 front)).value
  have gathers : Gathers o before := gathers_run (fun st same => by cases same) _
  have behind (ts : List Text) : (run o .start (SourceLine.numbered 0 (front ++ ts))).value =
      (run o before (SourceLine.numbered (0 + front.length) ts)).value := by
    rw [numbered_append, run_append]
  have inside : (run o .start (SourceLine.numbered 0 (front ++ inserted))).value.unplaced =
      (run o .start
        (SourceLine.numbered 0 (front ++ inserted.filter (!isMarked ·)))).value.unplaced := by
    rw [behind, behind]
    exact run_marked gathers _ _ fun p start => behind p ▸ only p start
  rw [scan_value, scan_value, finish_stored, finish_stored, SourceLine.ofText, SourceLine.ofText,
    whole, rest, numbered_append, numbered_append 0 (front ++ _), run_append, run_append]
  exact stored_agrees (run_agrees inside (SourceLine.unplaced_numbered _ _ back))

end

/-- Brackets and quotes on marked lines are not read; the property between them is. -/
theorem marked_lines_left_out :
    let o : Options := ⟨true, true, .plain "  ".toList⟩
    let front := ["export const a = \x7b".toList]
    let inserted := ["  /* open \x7b (".toList, "  e: 5,".toList, "   * 'quote".toList,
      "   */".toList]
    let back := ["\x7d".toList, "export const d = 3".toList]
    let source := joinLines (front ++ inserted ++ back)
    let kept := joinLines (front ++ ["  e: 5,".toList] ++ back)
    (lines source = front ++ inserted ++ back ∧
      lines kept = front ++ inserted.filter (!isMarked ·) ++ back ∧
      ∀ p, p <+: inserted.filter (!isMarked ·) →
        OnlyConstant (run o .start (SourceLine.numbered 0 (front ++ p))).value) ∧
      (scan o source).value.unplaced = (scan o kept).value.unplaced := by
  intro o front inserted back source kept
  have whole : lines source = front ++ inserted ++ back := by decide +kernel
  have rest : lines kept = front ++ inserted.filter (!isMarked ·) ++ back := by decide +kernel
  have left : inserted.filter (!isMarked ·) = ["  e: 5,".toList] := by decide +kernel
  have constant (p : List Text) (opened : (run o .start
      (SourceLine.numbered 0 (front ++ p))).value.statement.map Statement.target =
        some (.declaration .constant)) :
      OnlyConstant (run o .start (SourceLine.numbered 0 (front ++ p))).value := by
    intro st found
    rw [found] at opened
    exact Option.some.inj opened
  have only : ∀ p, p <+: inserted.filter (!isMarked ·) →
      OnlyConstant (run o .start (SourceLine.numbered 0 (front ++ p))).value := by
    intro p start
    rw [left] at start
    rcases List.prefix_cons_iff.1 start with rfl | ⟨q, rfl, empty⟩
    · exact constant [] (by decide +kernel)
    · obtain rfl := List.prefix_nil.1 empty
      exact constant ["  e: 5,".toList] (by decide +kernel)
  exact ⟨⟨whole, rest, only⟩, marked_lines_inert whole rest only⟩

/-- A brace on another line of a comment keeps the constant open over the export behind it. -/
theorem unmarked_lines_read :
    let declarations (source : String) : List Declaration :=
      (scan ⟨true, false, .plain "  ".toList⟩ source.toList).value.declarations
    (declarations "export const a = \x7b\nb: 1,\nc: 2,\n\x7d\nexport const d = 3").length = 2 ∧
      (declarations
        "export const a = \x7b\nb: 1,\n/*\n\x7b\n*/\nc: 2,\n\x7d\nexport const d = 3").length = 1 := by
  decide +kernel

end Scan

end Ambient
