import Ambient.Text.Basic

/-!
Tidying the white space of a finished text: five passes, each made once and in order, and a final
trim. A pass works from left to right and does not look again at what it wrote.
-/

namespace Ambient.Cleanup

theorem length_dropWhile_le (p : Char → Bool) (t : Text) : (t.dropWhile p).length ≤ t.length :=
  (List.dropWhile_sublist p).length_le

/-- Two braces with nothing but blanks between them are drawn together. -/
def joinBraces : Text → Text
  | [] => []
  | c :: r =>
    if c = '{' then
      match _found : trimLeft r with
      | '}' :: rest => '{' :: '}' :: joinBraces rest
      | _ => '{' :: joinBraces r
    else c :: joinBraces r
termination_by t => t.length
decreasing_by
  all_goals simp only [List.length_cons]
  · have := length_dropWhile_le isBlank r
    rw [show r.dropWhile isBlank = '}' :: rest from _found] at this
    simp only [List.length_cons] at this
    omega
  all_goals omega

/-- A space or a tab. -/
def isPad (c : Char) : Bool := c == ' ' || c == '\t'

/-- After padding, the line ends or a brace closes. -/
def endsMember (t : Text) : Bool :=
  match t.dropWhile isPad with
  | [] => true
  | c :: _ => c == '\n' || c == '}'

/-- Padding before a semicolon that ends a line or a body is dropped. -/
def tightenEnds : Text → Text
  | [] => []
  | c :: r =>
    if isPad c then
      match _found : r.dropWhile isPad with
      | ';' :: rest => if endsMember rest then ';' :: tightenEnds rest else c :: tightenEnds r
      | _ => c :: tightenEnds r
    else c :: tightenEnds r
termination_by t => t.length
decreasing_by
  all_goals simp only [List.length_cons]
  · have := length_dropWhile_le isPad r
    rw [_found] at this
    simp only [List.length_cons] at this
    omega
  all_goals omega

/-- At most two line feeds stay in a row; `kept` of them stand right before the text. -/
def capFeeds (kept : Nat) : Text → Text
  | [] => []
  | c :: r =>
    if c = '\n' then if kept < 2 then c :: capFeeds (kept + 1) r else capFeeds kept r
    else c :: capFeeds 0 r

/-- A closing brace right after a semicolon goes to a line of its own. -/
def breakBraces : Text → Text
  | [] => []
  | c :: r =>
    if c = ';' ∧ r.head? = some '}' then ';' :: '\n' :: breakBraces r else c :: breakBraces r

/-- One semicolon right after an opening brace is dropped. -/
def dropEmpty : Text → Text
  | [] => []
  | [c] => [c]
  | c :: d :: r => if c = '{' ∧ d = ';' then '{' :: dropEmpty r else c :: dropEmpty (d :: r)

def clean (t : Text) : Text :=
  trim (dropEmpty (breakBraces (capFeeds 0 (tightenEnds (joinBraces t)))))

end Ambient.Cleanup
