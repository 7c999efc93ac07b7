import Ambient.Proofs.Reindenting

/-!
True depths. Levels are counted in one pass, line after line, each from the tokens between its start
and the start of the next. A line's level is nevertheless a matter of the joined text and the offset
of the line alone: it is the depth that the tokens before this offset leave (`levels_are_depths`).
-/

namespace Ambient.Nesting

open Lexer

/-! ### Lines by offset -/

/-- The offset at which line `i` of joined lines starts: the lines before it stand there, each with
its line feed. -/
def lineStart (ls : List Text) (i : Nat) : Nat := ((ls.take i).flatMap (· ++ ['\n'])).length

@[simp] theorem lineStart_zero (ls : List Text) : lineStart ls 0 = 0 := rfl

theorem lineStart_succ (l : Text) (ls : List Text) (i : Nat) :
    lineStart (l :: ls) (i + 1) = l.length + 1 + lineStart ls i := by
  simp only [lineStart, List.take_succ_cons, List.flatMap_cons, List.length_append,
    List.length_singleton]

/-- A line stands at its offset, with the lines behind it. -/
theorem drop_lineStart {ls : List Text} {i : Nat} (inside : i < ls.length) :
    (joinLines ls).drop (lineStart ls i) = joinLines (ls.drop i) := by
  induction ls generalizing i with
  | nil => cases inside
  | cons l ls ih =>
    cases i with
    | zero => rfl
    | succ i =>
      have later : i < ls.length := Nat.lt_of_succ_lt_succ inside
      have more : ls ≠ [] := List.ne_nil_of_length_pos (Nat.zero_lt_of_lt later)
      have joined : joinLines (l :: ls) = (l ++ ['\n']) ++ joinLines ls :=
        joinPieces_cons_of_ne_nil '\n' l more
      have front : l.length + 1 = (l ++ ['\n']).length := by rw [List.length_append]; rfl
      rw [lineStart_succ, joined, front, List.drop_length_add_append, ih later, List.drop_succ_cons]

/-! ### Tokens by offset -/

/-- The depth at offset `n`: the opening brackets less the closing ones among the tokens before. -/
def depthAt (ts : List Token) (n : Nat) : Int :=
  let before := ts.filter (·.start < n)
  before.countP Token.isOpener - before.countP Token.isCloser

/-- A closing bracket stands at offset `n`. -/
def closesAt (ts : List Token) (n : Nat) : Bool := ts.any fun k => k.start == n && k.isCloser

/-- The level of a line that starts at offset `n`, where the text starts at `level`: the depth there,
one less for a closing bracket at the head of the line, and never below zero. -/
def levelAt (level : Int) (ts : List Token) (n : Nat) : Nat :=
  (level + depthAt ts n - if closesAt ts n then 1 else 0).toNat

theorem not_isCloser_of_isOpener {k : Token} (h : k.isOpener = true) : k.isCloser = false := by
  have apart : ∀ c ∈ openers, ∀ d ∈ closers, c ≠ d := by decide
  obtain ⟨c, opener, text⟩ := List.any_eq_true.1 (Bool.and_eq_true_iff.1 h).2
  refine Bool.and_eq_false_iff.2 (.inr (List.any_eq_false.2 fun d closer same => ?_))
  have signs : [c] = [d] := (beq_iff_eq.1 text).symm.trans (beq_iff_eq.1 same)
  exact apart c opener d closer (List.cons.inj signs).1

theorem balanceOf_shift (ts : List Token) :
    balanceOf Token.shift ts = ts.countP Token.isOpener - ts.countP Token.isCloser := by
  induction ts with
  | nil => rfl
  | cons k ts ih =>
    rw [balanceOf, ih, List.countP_cons, List.countP_cons, Token.shift]
    by_cases opener : k.isOpener = true
    · simp only [opener, not_isCloser_of_isOpener opener, ↓reduceIte, Bool.false_eq_true]
      omega
    · by_cases closer : k.isCloser = true
      · simp only [opener, closer, ↓reduceIte, Bool.false_eq_true]
        omega
      · simp only [opener, closer, ↓reduceIte, Bool.false_eq_true]
        omega

theorem depthAt_eq (ts : List Token) (n : Nat) :
    depthAt ts n = balanceOf Token.shift (ts.filter (·.start < n)) := (balanceOf_shift _).symm

variable {ks ts : List Token} {n : Nat}

theorem depthAt_append (before : ∀ k ∈ ks, k.start < n) :
    depthAt (ks ++ ts) n = balanceOf Token.shift ks + depthAt ts n := by
  have all : ks.filter (·.start < n) = ks :=
    List.filter_eq_self.2 fun k member => decide_eq_true (before k member)
  rw [depthAt_eq, depthAt_eq, List.filter_append, all, balanceOf_append]

theorem depthAt_of_le (behind : ∀ k ∈ ts, n ≤ k.start) : depthAt ts n = 0 := by
  have none : ts.filter (·.start < n) = [] :=
    List.filter_eq_nil_iff.2 fun k member => by simpa using behind k member
  rw [depthAt_eq, none]
  rfl

theorem not_closesAt (apart : ∀ k ∈ ks, k.start ≠ n) : closesAt ks n = false :=
  List.any_eq_false.2 fun k member same =>
    apart k member (beq_iff_eq.1 (Bool.and_eq_true_iff.1 same).1)

theorem closesAt_append (ks ts : List Token) (n : Nat) :
    closesAt (ks ++ ts) n = (closesAt ks n || closesAt ts n) := List.any_append

theorem ascending_place (start : Nat) (ls : List Lexeme) :
    (Lexeme.place start ls).Pairwise (·.start ≤ ·.start) := by
  induction ls generalizing start with
  | nil => exact .nil
  | cons l ls ih =>
    refine .cons (fun k member => ?_) (ih _)
    have := (Lexeme.start_of_mem_place member).1
    show start ≤ k.start
    omega

theorem le_of_mem_dropWhile (ascending : ts.Pairwise (·.start ≤ ·.start)) :
    ∀ k ∈ ts.dropWhile (·.start < n), n ≤ k.start := by
  induction ts with
  | nil => exact List.forall_mem_nil _
  | cons j ts ih =>
    obtain ⟨first, later⟩ := List.pairwise_cons.1 ascending
    intro k member
    by_cases before : j.start < n
    · rw [List.dropWhile_cons_of_pos (by simpa using before)] at member
      exact ih later k member
    · rw [List.dropWhile_cons_of_neg (by simpa using before)] at member
      rcases List.mem_cons.1 member with rfl | behind
      · exact Nat.not_lt.1 before
      · have := first k behind
        omega

/-! ### Levels -/

/-- Where nothing stands before the line only its own first bracket counts. -/
theorem levelAt_of_le (level : Int) (behind : ∀ k ∈ ts, n ≤ k.start) :
    levelAt level ts n = (if closesAt ts n then level - 1 else level).toNat := by
  rw [levelAt, depthAt_of_le behind]
  split <;> simp

/-- Tokens before the line only count for the depth. -/
theorem levelAt_append (level : Int) (before : ∀ k ∈ ks, k.start < n) :
    levelAt level (ks ++ ts) n = levelAt (level + balanceOf Token.shift ks) ts n := by
  have closing : closesAt (ks ++ ts) n = closesAt ts n := by
    rw [closesAt_append, not_closesAt fun k member => Nat.ne_of_lt (before k member), Bool.false_or]
  rw [levelAt, levelAt, closing, depthAt_append before, Int.add_assoc]

/-- A line takes the tokens before the next one and leaves those behind. -/
theorem levelsFrom_cons (ascending : ts.Pairwise (·.start ≤ ·.start)) (depth : Int) (start : Nat)
    (l : Text) (ls : List Text) :
    ∃ here rest, ts = here ++ rest ∧ (∀ k ∈ here, k.start < start + l.length + 1) ∧
      (∀ k ∈ rest, start + l.length + 1 ≤ k.start) ∧
      levelsFrom depth start ts (l :: ls) =
        ((if closesAt here start then depth - 1 else depth).toNat, l) ::
          levelsFrom (depth + balanceOf Token.shift here) (start + l.length + 1) rest ls := by
  refine ⟨ts.takeWhile (·.start < start + l.length + 1), ts.dropWhile (·.start < start + l.length + 1),
    List.takeWhile_append_dropWhile.symm, fun k member => ?_, le_of_mem_dropWhile ascending, rfl⟩
  simpa using List.all_eq_true.1 List.all_takeWhile k member

/-- **Levels from a line on.** The tokens before the line have left `depth`. -/
theorem levelsFrom_eq {start : Nat} (ascending : ts.Pairwise (·.start ≤ ·.start))
    (behind : ∀ k ∈ ts, start ≤ k.start) (depth : Int) (ls : List Text) :
    levelsFrom depth start ts ls =
      ls.mapIdx fun i l => (levelAt depth ts (start + lineStart ls i), l) := by
  induction ls generalizing depth start ts with
  | nil => rfl
  | cons l ls ih =>
    obtain ⟨here, rest, rfl, before, later, cons⟩ := levelsFrom_cons ascending depth start l ls
    have first : levelAt depth (here ++ rest) start =
        (if closesAt here start then depth - 1 else depth).toNat := by
      have none : closesAt rest start = false := not_closesAt fun k member => by
        have := later k member
        omega
      rw [levelAt_of_le depth behind, closesAt_append, none, Bool.or_false]
    have others (i : Nat) : levelAt depth (here ++ rest) (start + lineStart (l :: ls) (i + 1)) =
        levelAt (depth + balanceOf Token.shift here) rest
          (start + l.length + 1 + lineStart ls i) := by
      have offset : start + lineStart (l :: ls) (i + 1) = start + l.length + 1 + lineStart ls i := by
        rw [lineStart_succ]
        omega
      rw [offset, levelAt_append depth fun k member => Nat.lt_add_right _ (before k member)]
    rw [cons, ih (List.pairwise_append.1 ascending).2.1 later, List.mapIdx_cons]
    simp only [lineStart_zero, Nat.add_zero, first, others]

/-- **Levels are true depths.** The lines that are not blank are kept in their order, trimmed. Each
stands at the depth that the brackets before it in the joined text leave, one level above it when
it starts with a closing bracket; brackets of literals and comments are no tokens of their own, on
whatever line they stand. -/
theorem levels_are_depths (level : Int) (ls : List Text) :
    let body := solidLines ls
    let ts := tokens (joinLines body)
    levels level ls = (body.mapIdx fun i l => (levelAt level ts (lineStart body i), l)) ∧
      ∀ i < body.length, (joinLines body).drop (lineStart body i) = joinLines (body.drop i) := by
  intro body ts
  have ascending : ts.Pairwise (·.start ≤ ·.start) := ascending_place 0 _
  have counted := levelsFrom_eq ascending (fun k _ => Nat.zero_le k.start) level body
  simp only [Nat.zero_add] at counted
  exact ⟨counted, fun i inside => drop_lineStart inside⟩

/-- A comment over two lines hides a brace on each; the line that ends it does not start with the
brace behind it. -/
example : levels 1 (["a: \x7b", " /* \x7d", " \x7b */ \x7d", "", "b"].map String.toList) =
    [(1, "a: \x7b".toList), (2, "/* \x7d".toList), (2, "\x7b */ \x7d".toList), (1, ['b'])] := by
  decide +kernel

end Ambient.Nesting
