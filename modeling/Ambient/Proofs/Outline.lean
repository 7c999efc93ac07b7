import Ambient.Nesting
import Ambient.Proofs.Lexing

/-!
Outlines. The outline of a text has one place for each character: the brackets and separators that
carry structure stand at their places, and `none` stands for every other character. Balances and
the search for a separator depend on the outline alone, when every lexeme is *sharp*: inert, without
marks, or a single mark of the right class.
-/

namespace Ambient

/-- Brackets and separators: the characters that carry structure where they stand bare. -/
def isMark (c : Char) : Bool := (openers ++ closers ++ Lexer.separators).contains c

def mark? (c : Char) : Option Char := if isMark c then some c else none

abbrev Outline := List (Option Char)

namespace Outline

/-- Opening brackets less closing ones. -/
def depth (o : Outline) : Int :=
  o.countP (·.any (openers.contains ·)) - o.countP (·.any (closers.contains ·))

/-- Opening braces less closing ones. -/
def braceDepth (o : Outline) : Int := o.count (some '{') - o.count (some '}')

/-- The mark `target` stands at offset `n`, and the brackets before it are balanced. -/
def TopAt (target : Char) (o : Outline) (n : Nat) : Prop :=
  o[n]? = some (some target) ∧ depth (o.take n) = 0

@[simp] theorem depth_nil : depth [] = 0 := rfl

@[simp] theorem braceDepth_nil : braceDepth [] = 0 := rfl

theorem depth_append (o p : Outline) : depth (o ++ p) = depth o + depth p := by
  simp only [depth, List.countP_append]
  omega

theorem braceDepth_append (o p : Outline) : braceDepth (o ++ p) = braceDepth o + braceDepth p := by
  simp only [braceDepth, List.count_append]
  omega

theorem depth_of_unmarked {o : Outline} (h : ∀ x ∈ o, x = none) : depth o = 0 := by
  have opening : o.countP (·.any (openers.contains ·)) = 0 :=
    List.countP_eq_zero.2 fun x member => by simp [h x member]
  have closing : o.countP (·.any (closers.contains ·)) = 0 :=
    List.countP_eq_zero.2 fun x member => by simp [h x member]
  simp only [depth, opening, closing]
  rfl

theorem braceDepth_of_unmarked {o : Outline} (h : ∀ x ∈ o, x = none) : braceDepth o = 0 := by
  have absent (c : Char) : o.count (some c) = 0 :=
    List.count_eq_zero.2 fun member => by simpa using h _ member
  simp [braceDepth, absent]

/-- The first place of `target` at depth zero, when the outline starts at depth `d`. -/
def firstTop (target : Char) (d : Int) : Outline → Option Nat
  | [] => none
  | x :: o =>
    if x = some target ∧ d = 0 then some 0
    else (firstTop target (d + depth [x]) o).map (· + 1)

theorem firstTop_append (target : Char) (d : Int) (o p : Outline) :
    firstTop target d (o ++ p) =
      (firstTop target d o).or ((firstTop target (d + depth o) p).map (· + o.length)) := by
  induction o generalizing d with
  | nil => simp [firstTop]
  | cons x o ih =>
    simp only [List.cons_append, firstTop]
    split
    · rfl
    · have shift : d + depth [x] + depth o = d + depth (x :: o) := by
        have := depth_append [x] o
        simp only [List.singleton_append] at this
        omega
      rw [ih, shift, Option.map_or, Option.map_map]
      rfl

theorem firstTop_of_unmarked (target : Char) (d : Int) {o : Outline} (h : ∀ x ∈ o, x = none) :
    firstTop target d o = none := by
  induction o generalizing d with
  | nil => rfl
  | cons x o ih =>
    have head : x = none := h x (by simp)
    simp [firstTop, head, ih _ fun y member => h y (by simp [member])]

theorem firstTop_eq_some_iff (target : Char) (d : Int) (o : Outline) (n : Nat) :
    firstTop target d o = some n ↔
      (o[n]? = some (some target) ∧ d + depth (o.take n) = 0) ∧
        ∀ m < n, ¬(o[m]? = some (some target) ∧ d + depth (o.take m) = 0) := by
  induction o generalizing d n with
  | nil => simp [firstTop]
  | cons x o ih =>
    have shift (k : Nat) : d + depth [x] + depth (o.take k) = d + depth ((x :: o).take (k + 1)) := by
      have := depth_append [x] (o.take k)
      simp only [List.singleton_append] at this
      simp only [List.take_succ_cons]
      omega
    rw [firstTop]
    by_cases here : x = some target ∧ d = 0
    · rw [if_pos here]
      cases n with
      | zero => simp [here]
      | succ n =>
        simp only [Option.some.injEq, Nat.right_eq_add, Nat.add_eq_zero_iff,
          Nat.succ_ne_self, and_false, false_iff]
        rintro ⟨-, first⟩
        exact first 0 (by omega) (by simp [here])
    · rw [if_neg here]
      cases n with
      | zero =>
        simp only [Option.map_eq_some_iff, Nat.add_eq_zero_iff, Nat.succ_ne_self, and_false,
          exists_const, false_iff]
        rintro ⟨⟨head, zero⟩, -⟩
        exact here (by simpa using And.intro head zero)
      | succ n =>
        simp only [Option.map_eq_some_iff, Nat.add_right_cancel_iff, exists_eq_right, ih, shift,
          List.getElem?_cons_succ]
        constructor
        · rintro ⟨top, first⟩
          refine ⟨top, fun m below found => ?_⟩
          cases m with
          | zero => exact here (by simpa using found)
          | succ m => exact first m (by omega) (by simpa using found)
        · rintro ⟨top, first⟩
          exact ⟨top, fun m below found => first (m + 1) (by omega) (by simpa using found)⟩

theorem firstTop_zero_iff (target : Char) (o : Outline) (n : Nat) :
    firstTop target 0 o = some n ↔ TopAt target o n ∧ ∀ m < n, ¬ TopAt target o m := by
  simpa [TopAt] using firstTop_eq_some_iff target 0 o n

theorem firstTop_eq_none_iff (target : Char) (o : Outline) :
    firstTop target 0 o = none ↔ ∀ n, ¬ TopAt target o n := by
  constructor
  · intro missing n top
    induction n using Nat.strongRecOn with
    | ind n ih =>
      -- The first place before `n` would be found; so `n` is the first place itself.
      by_cases first : ∀ m < n, ¬ TopAt target o m
      · simp [(firstTop_zero_iff target o n).2 ⟨top, first⟩] at missing
      · obtain ⟨m, below, earlier⟩ : ∃ m < n, TopAt target o m := by
          simpa only [Classical.not_forall, Classical.not_not, exists_prop] using first
        exact ih m below earlier
  · intro never
    cases found : firstTop target 0 o with
    | none => rfl
    | some n => exact absurd ((firstTop_zero_iff target o n).1 found).1 (never n)

end Outline

namespace Lexeme

/-- The marks of a lexeme at their places; an inert one shows none. -/
def outline (l : Lexeme) : Outline := l.text.map fun c => if l.kind.isInert then none else mark? c

@[simp] theorem length_outline (l : Lexeme) : l.outline.length = l.text.length :=
  List.length_map _

/-- Inert, without marks, or a single mark that is of class bracket when it is a bracket. -/
def Sharp (l : Lexeme) : Prop :=
  l.kind.isInert = true ∨ (∀ c ∈ l.text, isMark c = false) ∨
    ∃ c, l.text = [c] ∧ l.kind.isInert = false ∧ (c ∈ openers ++ closers → l.kind = .bracket)

theorem outline_of_inert {l : Lexeme} (h : l.kind.isInert = true) :
    l.outline = List.replicate l.text.length none := by
  simp [outline, h, List.map_const']

theorem outline_of_unmarked {l : Lexeme} (h : ∀ c ∈ l.text, isMark c = false) :
    ∀ x ∈ l.outline, x = none := by
  simp only [outline, List.mem_map, forall_exists_index, and_imp, forall_apply_eq_imp_iff₂]
  intro c member
  simp [mark?, h c member]

theorem isMark_of_bracket {c : Char} (h : c ∈ openers ++ closers) : isMark c = true := by
  simp only [isMark, List.contains_eq_mem, decide_eq_true_eq, List.mem_append]
  exact Or.inl (List.mem_append.1 h)

/-- What a token adds to a balance is what its outline shows. -/
theorem shift_of_sharp {l : Lexeme} (h : l.Sharp) (start : Nat) :
    (Token.mk start l.kind l.text).shift = l.outline.depth ∧
      (Token.mk start l.kind l.text).braceShift = l.outline.braceDepth := by
  obtain ⟨kind, text⟩ := l
  rcases h with inert | unmarked | ⟨c, single, notInert, bracket⟩
  · have unmarked : ∀ x ∈ outline ⟨kind, text⟩, x = none := by
      rw [outline_of_inert inert]
      exact fun x member => List.eq_of_mem_replicate member
    have other : (kind == .bracket) = false := by cases kind <;> simp_all [TokenKind.isInert,
      TokenKind.isString, TokenKind.isGap, TokenKind.isComment]
    rw [Outline.depth_of_unmarked unmarked, Outline.braceDepth_of_unmarked unmarked]
    simp [Token.shift, Token.braceShift, Token.isOpener, Token.isCloser, Token.is, other]
  · have absent (c : Char) (member : c ∈ openers ++ closers) : (text == [c]) = false := by
      simp only [beq_eq_false_iff_ne, ne_eq]
      rintro rfl
      have := isMark_of_bracket member
      simp [unmarked c (by simp)] at this
    rw [Outline.depth_of_unmarked (outline_of_unmarked unmarked),
      Outline.braceDepth_of_unmarked (outline_of_unmarked unmarked)]
    simp only [openers, closers, List.cons_append, List.nil_append, List.mem_cons,
      List.not_mem_nil, or_false, forall_eq_or_imp, forall_eq] at absent
    simp [Token.shift, Token.braceShift, Token.isOpener, Token.isCloser, Token.is, openers, closers,
      absent]
  · simp only at single
    subst single
    by_cases member : c ∈ openers ++ closers
    · obtain rfl := bracket member
      simp only [openers, closers, List.cons_append, List.nil_append, List.mem_cons,
        List.not_mem_nil, or_false] at member
      rcases member with rfl | rfl | rfl | rfl | rfl | rfl <;> exact ⟨rfl, rfl⟩
    · simp only [openers, closers, List.cons_append, List.nil_append, List.mem_cons,
        List.not_mem_nil, or_false, not_or] at member
      by_cases mark : isMark c <;>
        simp [Token.shift, Token.braceShift, Token.isOpener, Token.isCloser, Token.is, openers,
          closers, outline, notInert, mark?, Outline.depth, Outline.braceDepth, member, mark]

/-- The marks of a run of lexemes, at their places in the text it spells. -/
def outlines (ls : List Lexeme) : Outline := ls.flatMap outline

theorem outlines_cons (l : Lexeme) (ls : List Lexeme) :
    outlines (l :: ls) = l.outline ++ outlines ls :=
  List.flatMap_cons

theorem outlines_append (ls ms : List Lexeme) : outlines (ls ++ ms) = outlines ls ++ outlines ms :=
  List.flatMap_append

theorem balance_place {ls : List Lexeme} (h : ∀ l ∈ ls, l.Sharp) (start : Nat) :
    balanceOf Token.shift (place start ls) = (outlines ls).depth ∧
      balanceOf Token.braceShift (place start ls) = (outlines ls).braceDepth := by
  induction ls generalizing start with
  | nil => exact ⟨rfl, rfl⟩
  | cons l ls ih =>
    obtain ⟨here, hereBrace⟩ := shift_of_sharp (h l (by simp)) start
    obtain ⟨later, laterBrace⟩ := ih (fun m member => h m (by simp [member]))
      (start + l.text.length)
    constructor
    · rw [place, balanceOf, here, later, outlines_cons, Outline.depth_append]
    · rw [place, balanceOf, hereBrace, laterBrace, outlines_cons, Outline.braceDepth_append]

/-- A token is the separator that a search at depth `d` looks for exactly when its outline shows it
there. -/
theorem isTop_of_sharp {l : Lexeme} (h : l.Sharp) {target : Char} (mark : isMark target = true)
    (d : Int) (start : Nat) :
    (if (Token.mk start l.kind l.text).isTop [target] d then some 0 else none) =
      l.outline.firstTop target d := by
  obtain ⟨kind, text⟩ := l
  rcases h with inert | unmarked | ⟨c, single, notInert, -⟩
  · have unmarked : ∀ x ∈ outline ⟨kind, text⟩, x = none := by
      rw [outline_of_inert inert]
      exact fun x member => List.eq_of_mem_replicate member
    rw [Outline.firstTop_of_unmarked target d unmarked]
    simp only at inert
    simp [Token.isTop, inert]
  · have other : (text == [target]) = false := by
      simp only [beq_eq_false_iff_ne, ne_eq]
      rintro rfl
      simp [unmarked target (by simp)] at mark
    rw [Outline.firstTop_of_unmarked target d (outline_of_unmarked unmarked)]
    simp [Token.isTop, other]
  · simp only at single notInert
    subst single
    by_cases same : c = target
    · subst same
      by_cases zero : d = 0 <;>
        simp [Token.isTop, outline, notInert, mark?, mark, Outline.firstTop, zero]
    · by_cases shown : isMark c <;>
        simp [Token.isTop, outline, notInert, mark?, shown, Outline.firstTop, same]

theorem findFrom_place {ls : List Lexeme} (h : ∀ l ∈ ls, l.Sharp) {target : Char}
    (mark : isMark target = true) (d : Int) (start : Nat) :
    Nesting.findFrom false [target] 0 d (place start ls) =
      ((outlines ls).firstTop target d).map (start + ·) := by
  induction ls generalizing d start with
  | nil => rfl
  | cons l ls ih =>
    have sharp := h l (by simp)
    have here := isTop_of_sharp sharp mark d start
    have later := ih (fun m member => h m (by simp [member])) (d + l.outline.depth)
      (start + l.text.length)
    rw [place, Nesting.findFrom, outlines_cons, Outline.firstTop_append, ← here]
    by_cases top : (Token.mk start l.kind l.text).isTop [target] d
    · simp [top]
    · have deeper : (Token.mk start l.kind l.text).depthAfter false d = d + l.outline.depth := by
        simp [Token.depthAfter, (shift_of_sharp sharp start).1]
      simp only [top, Bool.false_and, Bool.false_eq_true, ↓reduceIte, deeper, later, Option.none_or,
        Option.map_map, length_outline]
      congr 1
      funext n
      simp only [Function.comp_apply]
      omega

end Lexeme

end Ambient
