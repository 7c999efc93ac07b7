import Ambient.Proofs.Accounting
import Ambient.Proofs.Gathering
import Ambient.Proofs.Opening
import Ambient.Proofs.Tiling

/-!
Kinds along a run. A statement gets its kind from its opening line. It stays open only when the line
leaves a bracket open or shows an alias, and either makes the kind firm: the text shows it however
it goes on (`Firm`). So every declaration has the kind that its complete text shows, and none is a
default export.
-/

namespace Ambient

/-! ### Balances and brackets -/

theorem exists_of_balanceOf {shift : Token → Int} {ks : List Token} (h : balanceOf shift ks ≠ 0) :
    ∃ k ∈ ks, shift k ≠ 0 := by
  by_contra none
  have zero : ∀ k ∈ ks, shift k = 0 := by simpa using none
  apply h
  clear h none
  induction ks with
  | nil => rfl
  | cons k ks ih =>
    have later : balanceOf shift ks = 0 := ih fun j member => zero j (List.mem_cons_of_mem k member)
    rw [balanceOf, zero k List.mem_cons_self, later]
    rfl

/-- A token that counts in a balance is a bracket. -/
theorem bracket_of_shift {k : Token} (h : k.shift ≠ 0 ∨ k.braceShift ≠ 0) :
    ∃ c ∈ openers ++ closers, k.text = [c] := by
  rcases h with shift | shift
  · unfold Token.shift at shift
    split at shift
    · next opener =>
      obtain ⟨c, member, text⟩ : ∃ c ∈ openers, k.text = [c] := by
        simpa [Token.isOpener] using (Bool.and_eq_true_iff.1 opener).2
      exact ⟨c, List.mem_append_left closers member, text⟩
    · split at shift
      · next closer =>
        obtain ⟨c, member, text⟩ : ∃ c ∈ closers, k.text = [c] := by
          simpa [Token.isCloser] using (Bool.and_eq_true_iff.1 closer).2
        exact ⟨c, List.mem_append_right openers member, text⟩
      · exact absurd rfl shift
  · unfold Token.braceShift at shift
    split at shift
    · next opener =>
      have text : k.text = ['{'] := by simpa using (Bool.and_eq_true_iff.1 opener).2
      exact ⟨'{', by decide, text⟩
    · split at shift
      · next closer =>
        have text : k.text = ['}'] := by simpa using (Bool.and_eq_true_iff.1 closer).2
        exact ⟨'}', by decide, text⟩
      · exact absurd rfl shift

theorem bracketed_of_balance {target : Target} {t : Text} (h : target.balance t ≠ 0) :
    Bracketed t := by
  have counted : ∃ k ∈ tokens t, k.shift ≠ 0 ∨ k.braceShift ≠ 0 := by
    have braces (odd : braceBalance t ≠ 0) : ∃ k ∈ tokens t, k.shift ≠ 0 ∨ k.braceShift ≠ 0 := by
      obtain ⟨k, member, counts⟩ := exists_of_balanceOf odd
      exact ⟨k, member, .inr counts⟩
    cases target with
    | importing | reexport => exact braces h
    | declaration kind =>
      by_cases constant : kind = .constant
      · subst constant
        exact braces h
      · rw [Scan.balance_of_brackets constant] at h
        obtain ⟨k, member, counts⟩ := exists_of_balanceOf h
        exact ⟨k, member, .inl counts⟩
  obtain ⟨k, member, counts⟩ := counted
  obtain ⟨c, sign, text⟩ := bracket_of_shift counts
  refine ⟨c, ?_, sign⟩
  rw [← text_tokens t]
  exact List.mem_flatMap.2 ⟨k, member, by simp [text]⟩

/-! ### The text of a statement grows -/

theorem trim_append_grows (t r : Text) : trim t <+: trim (t ++ r) := by
  by_cases empty : trim t = []
  · rw [empty]
    exact List.nil_prefix
  · obtain ⟨w, -, split⟩ := exists_trimRight_append t
    obtain ⟨c, last, solid⟩ := getLast?_trimRight (t := trimLeft t) empty
    have head : trimLeft (t ++ r) = trim t ++ (w ++ r) := by
      conv => lhs; rw [split, List.append_assoc]
      exact trimLeft_trimRight_append empty (w ++ r)
    have whole : trim (t ++ r) = trim t ++ trimRight (w ++ r) := by
      rw [trim, head]
      exact trimRight_append_of_getLast last solid (w ++ r)
    rw [whole]
    exact List.prefix_append _ _

theorem Statement.text_prefix_push (st : Statement) (line : Text) :
    st.text <+: (st.push line).text := by
  rw [text, text, push_lines]
  by_cases empty : st.lines = []
  · rw [empty]
    exact List.nil_prefix
  · rw [joinLines, joinLines, joinPieces_concat '\n' empty, List.append_assoc]
    exact trim_append_grows _ _

namespace Scan

/-- The statement is no default export and has the kind that its text shows. -/
def Kinded (st : Statement) : Prop :=
  ∀ kind, st.target = .declaration kind → kind ≠ .default ∧ DeclarationKind.detect st.text = kind

/-- The statement has the kind that its text shows, however that goes on. -/
def Firm (st : Statement) : Prop :=
  ∀ kind, st.target = .declaration kind →
    kind ≠ .default ∧ ∀ u, DeclarationKind.detect (st.text ++ u) = kind

theorem Firm.push {st : Statement} (h : Firm st) (line : Text) : Kinded (st.push line) := by
  intro kind same
  obtain ⟨other, shows'⟩ := h kind same
  obtain ⟨u, text⟩ := st.text_prefix_push line
  exact ⟨other, text ▸ shows' u⟩

theorem detect_of_opened? {t : Text} {kind : DeclarationKind}
    (h : Target.opened? t = some (.declaration kind)) :
    DeclarationKind.detect t = kind ∧ LineKind.classify t ≠ .defaultExport := by
  unfold Target.opened? at h
  cases line : LineKind.classify t <;> simp_all

section
variable {o : Options} {s s' : State} {line : SourceLine} {st : Statement}

theorem kinded_opened {target : Target} (opens : Target.opened? (trim line.text) = some target) :
    Kinded ((Statement.fresh target line).push line.text) := by
  intro kind same
  obtain rfl : target = .declaration kind := same
  obtain ⟨detected, notDefault⟩ := detect_of_opened? opens
  rw [Statement.fresh_push_text]
  refine ⟨?_, detected⟩
  rintro rfl
  apply notDefault
  rw [DeclarationKind.classify_eq_default_iff,
    ← DeclarationKind.detect_eq_default_iff (trimLeft_trim line.text)]
  exact detected

/-- A statement that stays open has its kind for good: a bracket is open, or it is an alias. -/
theorem Kinded.firm (h : Kinded st) (balance : st.balance = st.target.balance st.text)
    (open' : st.complete o.multiline = false) : Firm st := by
  intro kind same
  obtain ⟨other, detected⟩ := h kind same
  refine ⟨other, fun u => ?_⟩
  by_cases zero : st.balance = 0
  · obtain ⟨isAlias, -⟩ : st.target = .declaration .typeAlias ∧ o.multiline = true := by
      simpa [Statement.complete, zero] using open'
    obtain rfl : kind = .typeAlias := by simpa [same] using isAlias
    exact DeclarationKind.detect_append_of_alias (trimLeft_trim _) detected u
  · rw [balance] at zero
    rw [DeclarationKind.detect_append_of_bracketed (bracketed_of_balance zero), detected]

/-- The open statement of the state, if any, is firm. -/
def HoldsFirm (s : State) : Prop := ∀ st, s.statement = some st → Firm st

theorem kinded_of_joins (h : HoldsFirm s) (joins : Joins s line st) :
    Kinded (st.push line.text) := by
  cases joins with
  | opened _ opens => exact kinded_opened opens
  | extended open' _ => exact (h st open').push line.text

theorem holdsFirm_of_none (h : s.statement = none) : HoldsFirm s := by
  intro st open'
  rw [h] at open'
  cases open'

theorem holdsFirm_settle (h : HoldsFirm s) (t : Text) : HoldsFirm (settle o s t) := by
  rcases settle_cases o s t with same | ⟨st, -, same⟩ <;> rw [same]
  · exact h
  · exact holdsFirm_of_none (flush_statement o s st)

theorem holdsFirm_route (h : HoldsFirm s) (r : Route o s line s') : HoldsFirm s' := by
  cases r with
  | ignored => exact h
  | comment =>
    rw [addComment_value]
    exact h
  | default =>
    rw [setDefault_value]
    exact h
  | closed => exact holdsFirm_of_none (flush_statement o s _)
  | @kept st joins open' =>
    intro st' same
    obtain rfl := Option.some.inj same
    exact (kinded_of_joins h joins).firm (Statement.push_balance st line.text) open'

theorem holdsFirm_step (h : HoldsFirm s) (line : SourceLine) : HoldsFirm (step o s line).value := by
  rw [step_value]
  exact holdsFirm_route (holdsFirm_settle h _) (route_cases o _ line)

theorem holdsFirm_run (h : HoldsFirm s) (ls : List SourceLine) : HoldsFirm (run o s ls).value :=
  run_of_step (p := HoldsFirm) (fun _ line held => holdsFirm_step held line) h ls

end

/-- What is gathered has the kind of its complete text. -/
theorem detect_of_gathered {o : Options} {ls : List SourceLine} {e : Entry}
    {kind : DeclarationKind} (h : e.Gathered o ls) (target : e.target = .declaration kind) :
    kind ≠ .default ∧ DeclarationKind.detect e.text = kind := by
  obtain ⟨before, line, after, st, -, joins, holds⟩ := h
  have firm : HoldsFirm (settle o (run o .start before).value (trim line.text)) :=
    holdsFirm_settle (holdsFirm_run (holdsFirm_of_none rfl) before) _
  have text : (st.push line.text).text = e.text := by rw [Statement.text, Entry.text, holds.lines]
  have kinded := kinded_of_joins firm joins kind (holds.target.trans target)
  rwa [text] at kinded

/-- **Kinds agree over whole runs.** On every stripped line the two tables agree: exactly the
default exports show the kind of one, a constant opens as one, what opens as a constant is one or
kept as it is written, and interfaces, aliases and functions open declarations. In every source a
declaration has the kind that the complete text of its statement shows, and it is no default
export. -/
theorem kinds_agree :
    (∀ t : Text,
      (LineKind.classify (trim t) = .defaultExport ↔
        DeclarationKind.detect (trim t) = .default) ∧
      (DeclarationKind.detect (trim t) = .constant → LineKind.classify (trim t) = .constant) ∧
      (LineKind.classify (trim t) = .constant →
        DeclarationKind.detect (trim t) = .constant ∨
          DeclarationKind.detect (trim t) = .verbatim) ∧
      (DeclarationKind.detect (trim t) = .interface ∨
          DeclarationKind.detect (trim t) = .typeAlias ∨
          DeclarationKind.detect (trim t) = .function →
        LineKind.classify (trim t) = .declaration)) ∧
    ∀ (o : Options) (source : Text), ∃ a : Account,
      a.Explains o (SourceLine.ofText source) ∧ Emits o (scan o source).value a.entries ∧
      ∀ d ∈ (scan o source).value.declarations, d.kind ≠ .default ∧
        ∃ e ∈ a.entries, e.Gathered o (SourceLine.ofText source) ∧
          e.declaration? o.style = some (d.kind, d.text, d.line) ∧
          DeclarationKind.detect e.text = d.kind := by
  refine ⟨fun t => ⟨?_, fun kind => ?_, ?_, ?_⟩, fun o source => ?_⟩
  · rw [DeclarationKind.classify_eq_default_iff,
      DeclarationKind.detect_eq_default_iff (trimLeft_trim t)]
  · have shows' := DeclarationKind.shows_detect (trimLeft_trim t)
    rw [kind] at shows'
    exact DeclarationKind.classify_of_constant shows'.1 shows'.2
  · exact DeclarationKind.detect_of_classify_constant (trimLeft_trim t)
  · exact DeclarationKind.classify_of_detect (trimLeft_trim t)
  · obtain ⟨a, accounts, gathered⟩ := exists_accounts o source
    refine ⟨a, accounts.explains, accounts.emits, fun d member => ?_⟩
    obtain ⟨e, entry, shown⟩ : ∃ e ∈ a.entries,
        e.declaration? o.style = some (d.kind, d.text, d.line) := by
      rw [← List.mem_filterMap, ← accounts.emits.declarations]
      exact List.mem_map_of_mem (f := fun d : Declaration => (d.kind, d.text, d.line)) member
    have target : e.target = .declaration d.kind := by
      cases kind : e.target with
      | importing | reexport => simp [Entry.declaration?, kind] at shown
      | declaration k =>
        simp only [Entry.declaration?, kind, Option.some.injEq, Prod.mk.injEq] at shown
        rw [shown.1]
    obtain ⟨other, detected⟩ := detect_of_gathered (gathered e entry) target
    exact ⟨other, e, entry, gathered e entry, shown, detected⟩

/-- Without a bracket or a name the kind may still change; such a line is complete at once. -/
example : DeclarationKind.detect "export const".toList = .constant ∧
    DeclarationKind.detect "export const\nenum E".toList = .verbatim := by decide

end Scan

end Ambient
