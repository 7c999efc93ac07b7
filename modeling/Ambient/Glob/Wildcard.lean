import Ambient.Text.Basic

/-!
Wildcard patterns for one name: `*` for any run of characters, `?` for one, and `[...]` for one of a
set, with ranges and, after `!`, the complement. A bracket that is never closed stands for itself.
-/

namespace Ambient.Wildcard

inductive Piece
  | run
  | any
  /-- A character of one of the ranges, or of none of them. -/
  | oneOf (negated : Bool) (ranges : List (Char × Char))
  deriving DecidableEq, Repr

def Piece.accepts : Piece → Char → Bool
  | run, _ => true
  | any, _ => true
  | oneOf negated ranges, c => (ranges.any fun (low, high) => low ≤ c && c ≤ high) != negated

def Piece.single (c : Char) : Piece := oneOf false [(c, c)]

/-- How many characters at the start of a set are read without looking for its end: a `!`, and a
closing bracket that comes first and so belongs to the set. -/
def setStart (t : Text) : Nat :=
  if startsWith ['!', ']'] t then 2
  else if startsWithAny [['!'], [']']] t then 1
  else 0

/-- The inside of a set whose opening bracket is read, and what follows its closing bracket. -/
def setBody? (t : Text) : Option (Text × Text) :=
  match (t.drop (setStart t)).dropWhile (· != ']') with
  | [] => none
  | _ :: rest => some (t.take (setStart t) ++ (t.drop (setStart t)).takeWhile (· != ']'), rest)

/-- The offset of the first hyphen that is not among the first `skip` characters. -/
def hyphen? (skip : Nat) (t : Text) : Option Nat :=
  let ahead := (t.drop skip).takeWhile (· != '-')
  if skip + ahead.length < t.length then some (skip + ahead.length) else none

theorem hyphen?_lt {skip k : Nat} {t : Text} (h : hyphen? skip t = some k) : k < t.length := by
  simp only [hyphen?] at h
  split at h
  · next lt => cases h; exact lt
  · cases h

/-- Cuts the inside of a set at the hyphens of its ranges. A hyphen right after the start, or after
the end of a range, stands for itself. -/
def chunks (skip : Nat) (t : Text) : List Text :=
  match _found : hyphen? skip t with
  | none => [t]
  | some k =>
    match chunks 2 (t.drop (k + 1)) with
    | [[]] => [t.take k ++ ['-']]
    | rest => t.take k :: rest
termination_by t.length
decreasing_by
  have := hyphen?_lt _found
  simp only [List.length_drop]
  omega

/-- Puts a chunk before others; a range that runs backwards is dropped with both its ends. -/
def joinChunk (chunk : Text) : List Text → List Text
  | [] => [chunk]
  | next :: rest =>
    match chunk.getLast?, next.head? with
    | some low, some high =>
      if high < low then (chunk.dropLast ++ next.tail) :: rest else chunk :: next :: rest
    | _, _ => chunk :: next :: rest

/-- The ranges of a set; between two chunks lies a range from the last character of the one to the
first of the other. -/
def rangesOf : List Text → List (Char × Char)
  | [] => []
  | [chunk] => chunk.map fun c => (c, c)
  | chunk :: next :: rest =>
    match chunk.getLast?, next.head? with
    | some low, some high =>
      chunk.dropLast.map (fun c => (c, c)) ++ (low, high) :: rangesOf (next.tail :: rest)
    | _, _ => chunk.map (fun c => (c, c)) ++ rangesOf (next :: rest)
termination_by parts => parts.length

def setOf (inside : Text) : Piece :=
  let skip := if startsWith ['!'] inside then 2 else 1
  match (chunks skip inside).foldr joinChunk [] with
  | ('!' :: first) :: rest => .oneOf true (rangesOf (first :: rest))
  | parts => .oneOf false (rangesOf parts)

theorem setBody?_rest_le {t inside rest : Text} (h : setBody? t = some (inside, rest)) :
    rest.length < t.length + 1 := by
  unfold setBody? at h
  split at h
  · cases h
  · next c r found =>
    cases h
    have tail : ((t.drop (setStart t)).dropWhile (· != ']')).length ≤ _ :=
      (List.dropWhile_sublist _).length_le
    rw [found] at tail
    simp only [List.length_cons, List.length_drop] at tail
    omega

def parse : Text → List Piece
  | [] => []
  | c :: r =>
    if c = '*' then .run :: parse r
    else if c = '?' then .any :: parse r
    else if c = '[' then
      match _found : setBody? r with
      | none => .single '[' :: parse r
      | some (inside, rest) => setOf inside :: parse rest
    else .single c :: parse r
termination_by t => t.length
decreasing_by
  all_goals simp only [List.length_cons]
  · omega
  · omega
  · omega
  · exact setBody?_rest_le _found
  · omega

def accepts : List Piece → Text → Bool
  | [], t => t == []
  | .run :: ps, [] => accepts ps []
  | .run :: ps, c :: r => accepts ps (c :: r) || accepts (.run :: ps) r
  | _ :: _, [] => false
  | p :: ps, c :: r => p.accepts c && accepts ps r
termination_by ps t => ps.length + t.length

end Ambient.Wildcard
