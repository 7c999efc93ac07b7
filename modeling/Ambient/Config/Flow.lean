import Ambient.Config.Scalar

/-!
Flow collections: lists in square brackets and mappings in braces, nested to any depth.
-/

namespace Ambient.Config

/-- Characters that no plain word starts with. -/
def indicators : Text := ",[]{}#&*!|>'\"%@\x60".toList

def flowMarks : Text := ",?[]{}".toList

def isSpace (c : Char) : Bool := c == ' ' || c == '\n'

/-- Drops the spaces and line ends around a plain word. -/
def trimSpaces (t : Text) : Text := trimRightBy isSpace (t.dropWhile isSpace)

/-- A blank, or the end of the text. -/
def atGap : Text → Bool
  | [] => true
  | c :: _ => c == ' ' || c == '\t' || c == '\n'

/-- A plain word may start here: a dash, a question mark or a colon only where more follows. -/
def startsPlain (inFlow : Bool) : Text → Bool
  | [] => false
  | c :: r =>
    if c = '-' then !atGap r
    else if c = '?' ∨ c = ':' then !inFlow && !atGap r
    else !indicators.contains c && !atGap [c]

/-- The end of a plain word inside a flow collection: a mark of the collection, or a colon before a
gap or such a mark. -/
def endsFlowWord : Text → Bool
  | [] => true
  | c :: r =>
    flowMarks.contains c || (c == ':' && (atGap r || r.head?.any (",[]{}".toList.contains ·)))

/-- A plain word inside a flow collection, with its spaces, and what follows it. A tab ends it. -/
def flowWord : Text → Text × Text
  | [] => ([], [])
  | c :: r =>
    if endsFlowWord (c :: r) || c == '\t' || (atGap [c] && r.head? == some '#') then ([], c :: r)
    else
      let (word, rest) := flowWord r
      (c :: word, rest)

/-- Skips spaces, line ends and comments; a tab stands between no two words. -/
def skipGap (inComment : Bool) : Text → Text
  | [] => []
  | c :: r =>
    if inComment then skipGap (c != '\n') r
    else if isSpace c then skipGap false r
    else if c = '#' then skipGap true r
    else c :: r

def skipBlanks (t : Text) : Text := skipGap false t

mutual

/-- A value inside a flow collection. -/
def flowValue? (fuel : Nat) (t : Text) : Option (ConfigValue × Text) :=
  match fuel with
  | 0 => none
  | fuel + 1 =>
    match t with
    | '[' :: r => (flowItems? fuel (skipBlanks r)).map fun (items, rest) => (.list items, rest)
    | '{' :: r => (flowEntries? fuel [] (skipBlanks r)).map fun (es, rest) => (.mapping es, rest)
    | t =>
      if startsQuoted t then (quoted? t).map fun (text, rest) => (.text text, rest)
      else if startsPlain true t then
        let (word, rest) := flowWord t
        some (ofPlain (trimSpaces word), rest)
      else none

/-- The items up to a closing bracket; a comma may stand after the last one. -/
def flowItems? (fuel : Nat) (t : Text) : Option (List ConfigValue × Text) :=
  match fuel with
  | 0 => none
  | fuel + 1 =>
    match t with
    | ']' :: r => some ([], r)
    | t => do
      let (item, rest) ← flowValue? fuel t
      match skipBlanks rest with
      | ',' :: r =>
        let (items, rest) ← flowItems? fuel (skipBlanks r)
        return (item :: items, rest)
      | ']' :: r => return ([item], r)
      | _ => none

/-- The entries up to a closing brace, after those found before; a key alone has no value. -/
def flowEntries? (fuel : Nat) (found : List (ConfigValue × ConfigValue)) (t : Text) :
    Option (List (ConfigValue × ConfigValue) × Text) :=
  match fuel with
  | 0 => none
  | fuel + 1 =>
    match t with
    | '}' :: r => some (found, r)
    | t => do
      let (key, rest) ← flowValue? fuel t
      let (value, rest) ← match skipBlanks rest with
        | ':' :: r =>
          match skipBlanks r with
          | ',' :: r => some (.null, ',' :: r)
          | '}' :: r => some (.null, '}' :: r)
          | r => flowValue? fuel r
        | r => some (.null, r)
      let found := ConfigValue.insert found key value
      match skipBlanks rest with
      | ',' :: r => flowEntries? fuel found (skipBlanks r)
      | '}' :: r => return (found, r)
      | _ => none

end

/-- A flow collection at the head of a text, and what follows it. -/
def flow? (t : Text) : Option (ConfigValue × Text) := flowValue? (2 * t.length + 2) t

def startsFlow (t : Text) : Bool := startsWithAny [['['], ['{']] t

end Ambient.Config
