import Ambient.Text.Basic

/-!
Text in files: UTF-8, read strictly, with every line end read as a line feed.
-/

namespace Ambient

/-- A carriage return, with a line feed after it or not, becomes a line feed. -/
def unifyFeeds : Text → Text
  | [] => []
  | c :: r =>
    if c = '\r' then
      match r with
      | [] => ['\n']
      | d :: r => if d = '\n' then '\n' :: unifyFeeds r else '\n' :: unifyFeeds (d :: r)
    else c :: unifyFeeds r

/-- The text that bytes encode; none when they are not well-formed UTF-8. A byte order mark is a
character like any other. -/
def decode? (bytes : ByteArray) : Option Text :=
  (String.fromUTF8? bytes).map fun s => unifyFeeds s.toList

def encode (t : Text) : ByteArray := (String.ofList t).toUTF8

end Ambient
