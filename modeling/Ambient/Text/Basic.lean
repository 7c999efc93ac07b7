import Ambient.Text.Blank

/-!
Text is a list of code points. This module trims it, cuts it at a mark and compares its ends.
Cutting loses nothing but the marks: joining the pieces gives the text back (`joinPieces_pieces`).
-/

namespace Ambient

abbrev Text := List Char

def trimLeft (t : Text) : Text := t.dropWhile isBlank

/-- Removes from the end every character that satisfies `p`. -/
def trimRightBy (p : Char → Bool) (t : Text) : Text := (t.reverse.dropWhile p).reverse

def trimRight (t : Text) : Text := trimRightBy isBlank t

def trim (t : Text) : Text := trimRight (trimLeft t)

/-- Cuts at every `mark`; a text without one is a single piece, also when it is empty. -/
def pieces (mark : Char) : Text → List Text
  | [] => [[]]
  | c :: r =>
    if c = mark then [] :: pieces mark r
    else match pieces mark r with
      | [] => [[c]]
      | p :: ps => (c :: p) :: ps

def joinPieces (mark : Char) (ps : List Text) : Text := [mark].intercalate ps

def lines (t : Text) : List Text := pieces '\n' t

def joinLines (ls : List Text) : Text := joinPieces '\n' ls

theorem pieces_ne_nil (mark : Char) (t : Text) : pieces mark t ≠ [] := by
  cases t with
  | nil => simp [pieces]
  | cons c r =>
    rw [pieces]
    split
    · simp
    · split <;> simp

theorem joinPieces_cons_cons (mark : Char) (a b : Text) (ps : List Text) :
    joinPieces mark (a :: b :: ps) = a ++ mark :: joinPieces mark (b :: ps) := by
  simp [joinPieces, List.intercalate]

theorem joinPieces_pieces (mark : Char) (t : Text) : joinPieces mark (pieces mark t) = t := by
  induction t with
  | nil => rfl
  | cons c r ih =>
    obtain ⟨p, ps, rest⟩ := List.exists_cons_of_ne_nil (pieces_ne_nil mark r)
    rw [rest] at ih
    by_cases here : c = mark
    · simp [pieces, here, rest, joinPieces_cons_cons, ih]
    · cases ps with
      | nil => simpa [pieces, here, rest, joinPieces, List.intercalate] using ih
      | cons q qs =>
        rw [joinPieces_cons_cons] at ih
        simp [pieces, here, rest, joinPieces_cons_cons, ih]

def startsWith (head t : Text) : Bool := head.isPrefixOf t

def endsWith (tail t : Text) : Bool := tail.isSuffixOf t

def startsWithAny (heads : List Text) (t : Text) : Bool := heads.any (startsWith · t)

def endsWithAny (tails : List Text) (t : Text) : Bool := tails.any (endsWith · t)

/-- The text before the last occurrence of `c`, when there is one. -/
def beforeLast? (c : Char) : Text → Option Text
  | [] => none
  | x :: r =>
    match beforeLast? c r with
    | some front => some (x :: front)
    | none => if x = c then some [] else none

end Ambient
