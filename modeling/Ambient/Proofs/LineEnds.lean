import Ambient.Output
import Ambient.Proofs.Trim
import Mathlib.Data.List.Forall2

/-!
Blanks at the ends of lines. Every handler of the scanner takes a line without the blanks around it
or without those at its end, so a line does what it does without them (`step_trimmed`), notes
included. Two sources whose lines differ in nothing else have the same surface and the same output,
and a carriage return before each line feed changes nothing.
-/

namespace Ambient

/-- The line without blanks at its end. -/
def SourceLine.trimmed (l : SourceLine) : SourceLine := { l with text := trimRight l.text }

theorem SourceLine.numbered_trimmed (n : Nat) (ts : List Text) :
    (numbered n ts).map trimmed = numbered n (ts.map trimRight) := by
  induction ts generalizing n with
  | nil => rfl
  | cons t ts ih =>
    rw [numbered, List.map_cons, List.map_cons, numbered, ih]
    rfl

theorem Statement.push_trimRight (st : Statement) (line : Text) :
    st.push (trimRight line) = st.push line := by
  rw [push, push, trimRight_trimRight]

namespace Scan

section
variable (o : Options) (s : State) (line : SourceLine)

theorem extend_trimmed (st : Statement) : extend o s st line.trimmed = extend o s st line := by
  rw [extend, extend, SourceLine.trimmed, Statement.push_trimRight]

theorem addComment_trimmed (t : Text) : addComment s t line.trimmed = addComment s t line := by
  have text : trimRight line.trimmed.text = trimRight line.text := trimRight_trimRight line.text
  rw [addComment, addComment, text]
  rfl

theorem openStatement_trimmed (target : Target) :
    openStatement o s target line.trimmed = openStatement o s target line := by
  have same (st : Statement) : extend o s st line.trimmed = extend o s st line :=
    extend_trimmed o s line st
  simp only [openStatement, same]
  rfl

theorem takeStatement_trimmed (target : Target) (t : Text) :
    takeStatement o s target t line.trimmed = takeStatement o s target t line := by
  rw [takeStatement, takeStatement, openStatement_trimmed]
  rfl

theorem idle_trimmed (t : Text) : idle o s t line.trimmed = idle o s t line := by
  unfold idle
  cases LineKind.classify t with
  | comment => exact addComment_trimmed s line t
  | importing | reexport => exact takeStatement_trimmed o s line _ t
  | constant => exact openStatement_trimmed o s line _
  | declaration =>
    simp only [openStatement_trimmed]
    rfl
  | defaultExport | other => rfl

theorem gather_trimmed (st : Statement) (t : Text) :
    gather o s st t line.trimmed = gather o s st t line := by
  simp only [gather, extend_trimmed, addComment_trimmed]
  rfl

/-- A line does what it does without the blanks at its end. -/
theorem step_trimmed : step o s line.trimmed = step o s line := by
  have text : trim line.trimmed.text = trim line.text := trim_trimRight line.text
  have idle (s : State) (t : Text) : Scan.idle o s t line.trimmed = Scan.idle o s t line :=
    idle_trimmed o s line t
  simp only [step, text, gather_trimmed, extend_trimmed, idle]
  rfl

theorem run_trimmed (ls : List SourceLine) : run o s (ls.map SourceLine.trimmed) = run o s ls := by
  induction ls generalizing s with
  | nil => rfl
  | cons l ls ih =>
    rw [List.map_cons, run, run, step_trimmed]
    congr 1
    funext next
    exact ih next

end

/-- Lines that are the same without the blanks at their ends scan alike. -/
theorem scan_of_trimmed {o : Options} {a b : Text}
    (h : (lines a).map trimRight = (lines b).map trimRight) : scan o a = scan o b := by
  have trimmed : (SourceLine.ofText a).map SourceLine.trimmed =
      (SourceLine.ofText b).map SourceLine.trimmed := by
    rw [SourceLine.ofText, SourceLine.ofText, SourceLine.numbered_trimmed,
      SourceLine.numbered_trimmed, h]
  have length : (SourceLine.ofText a).length = (SourceLine.ofText b).length := by
    simpa using congrArg List.length trimmed
  have ran : run o .start (SourceLine.ofText a) = run o .start (SourceLine.ofText b) := by
    rw [← run_trimmed, trimmed, run_trimmed]
  simp only [scan, ran, length]

end Scan

/-! ### Line ends -/

/-- The lines differ at most in blanks at their ends. -/
def SameLine (l m : Text) : Prop :=
  ∃ t v w, l = t ++ v ∧ m = t ++ w ∧ (∀ c ∈ v, isBlank c = true) ∧ ∀ c ∈ w, isBlank c = true

theorem SameLine.trimRight_eq {l m : Text} (h : SameLine l m) : trimRight l = trimRight m := by
  obtain ⟨t, v, w, rfl, rfl, blankV, blankW⟩ := h
  rw [trimRight_append_blank blankV, trimRight_append_blank blankW]

theorem SameLine.refl (l : Text) : SameLine l l :=
  ⟨l, [], [], (List.append_nil l).symm, (List.append_nil l).symm, by simp, by simp⟩

theorem SameLine.cons (c : Char) {l m : Text} (h : SameLine l m) : SameLine (c :: l) (c :: m) := by
  obtain ⟨t, v, w, rfl, rfl, blankV, blankW⟩ := h
  exact ⟨c :: t, v, w, rfl, rfl, blankV, blankW⟩

theorem map_trimRight_of_sameLine {ls ms : List Text} (h : List.Forall₂ SameLine ls ms) :
    ls.map trimRight = ms.map trimRight := by
  induction h with
  | nil => rfl
  | cons here _ ih => rw [List.map_cons, List.map_cons, here.trimRight_eq, ih]

/-- The text with a carriage return before each line feed. -/
def withReturns (t : Text) : Text := t.flatMap fun c => if c = '\n' then ['\r', '\n'] else [c]

theorem lines_withReturns (t : Text) :
    List.Forall₂ SameLine (lines (withReturns t)) (lines t) := by
  induction t with
  | nil => exact .cons (.refl []) .nil
  | cons c t ih =>
    by_cases feed : c = '\n'
    · have ends : SameLine ['\r'] [] := ⟨[], ['\r'], [], rfl, rfl, by decide, by simp⟩
      subst feed
      exact .cons ends ih
    · have spelled : withReturns (c :: t) = c :: withReturns t := by
        simp [withReturns, feed]
      obtain ⟨p, ps, first⟩ := List.exists_cons_of_ne_nil (pieces_ne_nil '\n' t)
      obtain ⟨q, qs, second⟩ := List.exists_cons_of_ne_nil (pieces_ne_nil '\n' (withReturns t))
      rw [lines, lines, first, second] at ih
      obtain ⟨here, later⟩ := List.forall₂_cons.1 ih
      simp only [spelled, lines, pieces, feed, ↓reduceIte, first, second]
      exact .cons (here.cons c) later

theorem declarationText_of_scan {o : Scan.Options} {a b : Text}
    (h : Scan.scan o a = Scan.scan o b) : declarationText o a = declarationText o b := by
  rw [declarationText, declarationText, h]

/-- **Blanks at the ends of lines are invisible.** Two sources whose lines differ in nothing else
have the same surface and the same declaration text, and so has a source with a carriage return
before each line feed. -/
theorem line_ends_invisible (o : Scan.Options) :
    (∀ a b : Text, List.Forall₂ SameLine (lines a) (lines b) →
      Scan.scan o a = Scan.scan o b ∧ declarationText o a = declarationText o b) ∧
    ∀ a : Text, Scan.scan o (withReturns a) = Scan.scan o a ∧
      declarationText o (withReturns a) = declarationText o a := by
  have alike (a b : Text) (h : List.Forall₂ SameLine (lines a) (lines b)) :
      Scan.scan o a = Scan.scan o b ∧ declarationText o a = declarationText o b := by
    have same : Scan.scan o a = Scan.scan o b := Scan.scan_of_trimmed (map_trimRight_of_sameLine h)
    exact ⟨same, declarationText_of_scan same⟩
  exact ⟨alike, fun a => alike _ a (lines_withReturns a)⟩

/-- Blanks behind the lines of a template literal, some added and some removed. -/
theorem line_ends_invisible_in_literal :
    let o : Scan.Options := ⟨true, true, .plain "  ".toList⟩
    let a : Text := "/** Text. */\r\nexport const a = `b \t\nc`\u2028".toList
    let b : Text := "/** Text. */\nexport const a = `b\nc`  \r".toList
    a ≠ b ∧ Scan.scan o a = Scan.scan o b ∧ declarationText o a = declarationText o b := by
  intro o a b
  have ends : List.Forall₂ SameLine (lines a) (lines b) := by
    refine .cons ⟨"/** Text. */".toList, ['\r'], [], ?_⟩ (.cons ⟨"export const a = `b".toList,
      " \t".toList, [], ?_⟩ (.cons ⟨"c`".toList, ['\u2028'], "  \r".toList, ?_⟩ .nil))
    all_goals decide +kernel
  exact ⟨by decide +kernel, (line_ends_invisible o).1 a b ends⟩

end Ambient
