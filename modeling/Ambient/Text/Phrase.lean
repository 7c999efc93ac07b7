import Ambient.Text.Basic
import Ambient.Text.Word

/-!
Fixed words at the head of a text. Each reader answers with what follows the words it reads, so
readers chain; `wordEnd` then asks that no longer word was meant.
-/

namespace Ambient

/-- What follows `word` at the head of a text. -/
def after? : Text → Text → Option Text
  | [], t => some t
  | _ :: _, [] => none
  | w :: ws, c :: r => if w = c then after? ws r else none

/-- What follows a run of at least one blank. -/
def afterBlanks? : Text → Option Text
  | [] => none
  | c :: r => if isBlank c then some (trimLeft r) else none

/-- What follows `word` and at least one blank. -/
def afterSpaced? (word t : Text) : Option Text := (after? word t).bind afterBlanks?

/-- Skips `word` and the blanks after it when both are there. -/
def skipSpaced (word t : Text) : Text := (afterSpaced? word t).getD t

/-- No word character follows: the word just read ends here. -/
def wordEnd : Text → Bool
  | [] => true
  | c :: _ => !isWord c

/-- The name at the head of a text, and what follows it. -/
def name? : Text → Option (Text × Text)
  | [] => none
  | c :: r =>
    if isNameStart c then some (c :: r.takeWhile isNameChar, r.dropWhile isNameChar) else none

theorem after?_eq_some_iff {word t r : Text} : after? word t = some r ↔ t = word ++ r := by
  induction word generalizing t with
  | nil => simp [after?, eq_comm]
  | cons w ws ih =>
    cases t with
    | nil => simp [after?]
    | cons c t =>
      by_cases same : w = c
      · simp [after?, same, ih]
      · simp [after?, same, Ne.symm same]

end Ambient
