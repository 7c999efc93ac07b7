import Ambient.Proofs.Tiling

/-!
Cutting is iterated search. A search starts at the head of the text wherever it may look for hits
from, so it comes to its starting point with the depth of the whole text before it; behind a
separator that is the depth at which the cutting goes on (`find?_behind`). The separators at which a
text is cut are therefore the hits of the search, taken up again behind each of them
(`split_at_hits`).
-/

namespace Ambient.Nesting

open Lexer

/-! ### One search -/

/-- The depth behind a run of tokens. -/
def depthBehind (angles : Bool) (depth : Int) (ks : List Token) : Int :=
  ks.foldl (Token.depthAfter angles) depth

variable {angles : Bool} {sep t : Text} {start n : Nat} {depth : Int} {ks ts : List Token}

/-- Tokens before the starting point only count for the depth. -/
theorem findFrom_append (before : ∀ k ∈ ks, k.start < start) (depth : Int) (ts : List Token) :
    findFrom angles sep start depth (ks ++ ts) =
      findFrom angles sep start (depthBehind angles depth ks) ts := by
  induction ks generalizing depth with
  | nil => rfl
  | cons k ks ih =>
    have skipped : ¬ start ≤ k.start := Nat.not_le.2 (before k List.mem_cons_self)
    rw [List.cons_append, findFrom, if_neg (by simp [skipped]),
      ih fun j member => before j (List.mem_cons_of_mem k member)]
    rfl

theorem exists_hit (found : findFrom angles sep start depth ts = some n) :
    start ≤ n ∧ ∃ k ∈ ts, k.start = n ∧ k.text = sep := by
  induction ts generalizing depth with
  | nil => cases found
  | cons k ts ih =>
    rw [findFrom] at found
    split at found
    · next hit =>
      obtain ⟨top, behind⟩ := Bool.and_eq_true_iff.1 hit
      obtain rfl : k.start = n := Option.some.inj found
      exact ⟨by simpa using behind, k, List.mem_cons_self, rfl,
        by simpa using (Bool.and_eq_true_iff.1 top).2⟩
    · obtain ⟨behind, j, member, place⟩ := ih found
      exact ⟨behind, j, List.mem_cons_of_mem k member, place⟩

/-- A token with what stands around it in the text. -/
theorem token_in_text {k : Token} (split : tokens t = ks ++ k :: ts) :
    k.text ≠ [] ∧ k.start = (ks.flatMap Token.text).length ∧
      t = ks.flatMap Token.text ++ (k.text ++ ts.flatMap Token.text) := by
  have member : k.lexeme ∈ lex .code none t := by
    rw [← lexemes_tokens, split]
    exact List.mem_map_of_mem (List.mem_append_right ks List.mem_cons_self)
  have place : k.start = 0 + (ks.flatMap Token.text).length := Lexeme.start_of_place split
  have spelled := text_tokens t
  rw [split, List.flatMap_append, List.flatMap_cons] at spelled
  exact ⟨lex_text_ne_nil .code none t _ member, by omega, spelled.symm⟩

/-- A hit is a separator of the text. It stands at the starting point or behind it. -/
theorem find?_hit (found : find? angles sep start t = some n) :
    start ≤ n ∧ sep ≠ [] ∧ n + sep.length ≤ t.length ∧ (t.drop n).take sep.length = sep := by
  obtain ⟨behind, k, member, rfl, rfl⟩ := exists_hit found
  obtain ⟨ks, ts, split⟩ := List.append_of_mem member
  obtain ⟨solid, place, text⟩ := token_in_text split
  refine ⟨behind, solid, ?_, ?_⟩
  · rw [text, place, List.length_append, List.length_append]
    omega
  · rw [text, place, List.drop_left, List.take_left]

theorem start_lt_of_split (split : tokens t = ks ++ ts) :
    ∀ k ∈ ks, k.start < (ks.flatMap Token.text).length := by
  intro k member
  obtain ⟨front, back, rfl⟩ := List.append_of_mem member
  rw [List.append_assoc, List.cons_append] at split
  obtain ⟨solid, place, -⟩ := token_in_text split
  have := List.length_pos_iff.2 solid
  rw [List.flatMap_append, List.flatMap_cons, List.length_append, List.length_append]
  omega

/-- A search that starts behind some tokens goes on with the depth that they leave. -/
theorem find?_behind (split : tokens t = ks ++ ts) :
    find? angles sep (ks.flatMap Token.text).length t =
      findFrom angles sep (ks.flatMap Token.text).length (depthBehind angles 0 ks) ts := by
  rw [find?, split, findFrom_append (start_lt_of_split split)]

/-! ### Searches in a row -/

/-- The hits of a search from `start` on that is taken up again behind each of them. -/
def hits (angles : Bool) (sep t : Text) (start : Nat) : List Nat :=
  match _found : find? angles sep start t with
  | none => []
  | some n => n :: hits angles sep t (n + sep.length)
termination_by t.length - start
decreasing_by
  obtain ⟨behind, solid, inside, -⟩ := find?_hit _found
  have := List.length_pos_iff.2 solid
  omega

theorem hits_of_none (missed : find? angles sep start t = none) :
    hits angles sep t start = [] := by
  rw [hits]
  split
  · rfl
  · next found => cases missed.symm.trans found

theorem hits_of_some (found : find? angles sep start t = some n) :
    hits angles sep t start = n :: hits angles sep t (n + sep.length) := by
  rw [hits]
  split
  · next missed => cases missed.symm.trans found
  · next m same =>
    obtain rfl : m = n := Option.some.inj (same.symm.trans found)
    rfl

/-- What a text holds between signs of one width at the given offsets, from `start` on. -/
def between (width : Nat) (t : Text) (start : Nat) : List Nat → List Text
  | [] => [t.drop start]
  | n :: ns => (t.take n).drop start :: between width t (n + width) ns

theorem between_ne_nil (width : Nat) (t : Text) (start : Nat) (ns : List Nat) :
    between width t start ns ≠ [] := by
  cases ns <;> exact List.cons_ne_nil _ _

theorem le_of_mem_hits (angles : Bool) (sep t : Text) (start : Nat) :
    ∀ n ∈ hits angles sep t start, start ≤ n := by
  fun_induction hits angles sep t start with
  | case1 => exact List.forall_mem_nil _
  | case2 start n found ih =>
    have behind := (find?_hit found).1
    intro m member
    rcases List.mem_cons.1 member with rfl | later
    · exact behind
    · have := ih m later
      omega

theorem ascending_hits (angles : Bool) (sep t : Text) (start : Nat) :
    (hits angles sep t start).Pairwise (· < ·) := by
  fun_induction hits angles sep t start with
  | case1 => exact .nil
  | case2 start n found ih =>
    have solid := List.length_pos_iff.2 (find?_hit found).2.1
    refine .cons (fun m member => ?_) ih
    have := le_of_mem_hits angles sep t _ m member
    omega

/-- Only separators stand between the parts. -/
theorem intercalate_between (angles : Bool) (sep t : Text) (start : Nat) :
    sep.intercalate (between sep.length t start (hits angles sep t start)) = t.drop start := by
  fun_induction hits angles sep t start with
  | case1 => simp [between, List.intercalate]
  | case2 start n found ih =>
    obtain ⟨behind, -, inside, here⟩ := find?_hit found
    obtain ⟨p, ps, parts⟩ := List.exists_cons_of_ne_nil
      (between_ne_nil sep.length t (n + sep.length) (hits angles sep t (n + sep.length)))
    have rest : sep ++ t.drop (n + sep.length) = t.drop n := by
      rw [← List.drop_drop]
      nth_rewrite 1 [← here]
      exact List.take_append_drop sep.length (t.drop n)
    calc
      sep.intercalate ((t.take n).drop start :: between sep.length t (n + sep.length)
          (hits angles sep t (n + sep.length)))
        = (t.take n).drop start ++ (sep ++ t.drop (n + sep.length)) := by
          rw [parts, List.intercalate_cons_cons, ← parts, ih, List.append_assoc]
      _ = (t.take n ++ t.drop n).drop start := by
          rw [rest, List.drop_append_of_le_length (by rw [List.length_take]; omega)]
      _ = t.drop start := by rw [List.take_append_drop]

/-! ### Cutting -/

/-- The signs that change the depth where they stand alone. -/
def nestingSigns (angles : Bool) : List Char :=
  openers ++ closers ++ if angles then ['<', '>'] else []

theorem depthAfter_of_apart (apart : ∀ c ∈ nestingSigns angles, sep ≠ [c]) {k : Token}
    (text : k.text = sep) (depth : Int) : k.depthAfter angles depth = depth := by
  have other (cs : List Char) (known : cs ⊆ nestingSigns angles) :
      (cs.any fun c => k.text == [c]) = false :=
    List.any_eq_false.2 fun c member => by simpa [text] using apart c (known member)
  have opener := other openers (by simp [nestingSigns])
  have closer := other closers (by simp [nestingSigns])
  have flat : k.shift = 0 := by simp [Token.shift, Token.isOpener, Token.isCloser, opener, closer]
  cases angles with
  | false => simp [Token.depthAfter, flat]
  | true =>
    have less : sep ≠ ['<'] := apart '<' (by decide)
    have greater : sep ≠ ['>'] := apart '>' (by decide)
    simp [Token.depthAfter, Token.is, flat, text, less, greater]

/-- **The parts from any token on.** `start` is where the current part begins; no separator stands
between it and the token. -/
theorem partsFrom_eq_between (apart : ∀ c ∈ nestingSigns angles, sep ≠ [c])
    (split : tokens t = ks ++ ts) (behind : start ≤ (ks.flatMap Token.text).length)
    (same : find? angles sep start t = findFrom angles sep start (depthBehind angles 0 ks) ts) :
    partsFrom angles sep (depthBehind angles 0 ks) ((ks.flatMap Token.text).drop start) ts =
      between sep.length t start (hits angles sep t start) := by
  induction ts generalizing ks start with
  | nil =>
    have whole := text_tokens t
    rw [split, List.append_nil] at whole
    rw [hits_of_none same, partsFrom, between, whole]
  | cons k ts ih =>
    obtain ⟨solid, place, text⟩ := token_in_text split
    have next : tokens t = (ks ++ [k]) ++ ts := by rw [split, List.append_assoc]; rfl
    have front : (ks ++ [k]).flatMap Token.text = ks.flatMap Token.text ++ k.text := by
      rw [List.flatMap_append, List.flatMap_singleton]
    have deeper : depthBehind angles 0 (ks ++ [k]) =
        k.depthAfter angles (depthBehind angles 0 ks) := List.foldl_concat _ _ _ _
    rw [findFrom] at same
    rw [partsFrom]
    by_cases top : k.isTop sep (depthBehind angles 0 ks) = true
    · -- The search hits the token and is taken up again behind it.
      have sign : k.text = sep := by simpa using (Bool.and_eq_true_iff.1 top).2
      have reached : start ≤ k.start := place ▸ behind
      rw [if_pos (by simp [top, reached])] at same
      have length : ((ks ++ [k]).flatMap Token.text).length = k.start + sep.length := by
        rw [front, List.length_append, place, sign]
      have rest := ih next (Nat.le_refl _) (find?_behind next)
      rw [deeper, depthAfter_of_apart apart sign, List.drop_length, length] at rest
      have taken : t.take k.start = ks.flatMap Token.text := by
        rw [text, place, List.take_left]
      rw [if_pos top, hits_of_some same, between, taken, rest]
    · rw [if_neg (by simp [top])] at same
      have further : start ≤ ((ks ++ [k]).flatMap Token.text).length := by
        rw [front, List.length_append]
        omega
      have rest := ih next further (deeper ▸ same)
      rw [front, List.drop_append_of_le_length behind, deeper] at rest
      rw [if_neg top, rest]

/-- **Cutting is iterated search, without loss.** A separator that nests nothing cuts a text at the
hits of the search that starts at its head and is taken up again behind each hit; the parts are the
pieces between them, trimmed and without the empty ones. The hits ascend, and the pieces with a
separator between each two are the text. -/
theorem split_at_hits (angles : Bool) (sep : Text) (apart : ∀ c ∈ nestingSigns angles, sep ≠ [c])
    (t : Text) :
    split angles sep t =
        ((between sep.length t 0 (hits angles sep t 0)).map trim).filter (· != []) ∧
      (hits angles sep t 0).Pairwise (· < ·) ∧
      sep.intercalate (between sep.length t 0 (hits angles sep t 0)) = t := by
  have whole : tokens t = [] ++ tokens t := rfl
  have parts : partsFrom angles sep 0 [] (tokens t) =
      between sep.length t 0 (hits angles sep t 0) :=
    partsFrom_eq_between apart whole (Nat.le_refl 0) rfl
  refine ⟨?_, ascending_hits angles sep t 0, intercalate_between angles sep t 0⟩
  rw [split, parts]

/-- A text whose brackets do not pair up: the comma behind the stray bracket stands below depth
zero and is no hit. -/
theorem split_at_hits_below_zero :
    let t := "a, b<c, d>, e), f(, g".toList
    (∀ c ∈ nestingSigns true, [','] ≠ [c]) ∧ hits true [','] t 0 = [1, 10, 18] ∧
      split true [','] t = ["a", "b<c, d>", "e), f(", "g"].map String.toList := by
  intro t
  have apart : ∀ c ∈ nestingSigns true, [','] ≠ [c] := by decide
  have found : hits true [','] t 0 = [1, 10, 18] := by decide +kernel
  obtain ⟨cut, -, -⟩ := split_at_hits true [','] apart t
  refine ⟨apart, found, ?_⟩
  rw [cut, found]
  decide +kernel

end Ambient.Nesting
