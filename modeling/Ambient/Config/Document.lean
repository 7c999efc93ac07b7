import Ambient.Config.Flow

/-!
Configuration documents: block mappings and lists by indentation, with flow collections and scalars
inside. A document that is not well formed has no value.
-/

namespace Ambient.Config

/-- A line with its indentation and what follows it. -/
structure Line where
  indent : Nat
  text : Text
  deriving DecidableEq, Repr

/-- Nothing but a comment follows. -/
def endsLine (t : Text) : Bool := skipBlanks t == []

/-- A plain text without the comment after it. -/
def withoutComment : Text → Text
  | [] => []
  | c :: r => if c == ' ' && r.head? == some '#' then [] else c :: withoutComment r

/-- The text up to the first colon before a gap, and the text after it. -/
def splitKey? : Text → Option (Text × Text)
  | [] => none
  | c :: r =>
    if c = ':' ∧ atGap r then some ([], r)
    else (splitKey? r).map fun (key, rest) => (c :: key, rest)

/-- A scalar or a flow collection that fills the rest of a line. A plain text without a comment goes
on over the lines of `more`, and holds no tab. -/
def inlineValue? (t : Text) (more : List Line) : Option ConfigValue :=
  if startsQuoted t then
    (quoted? t).bind fun (text, rest) =>
      if endsLine rest ∧ more = [] then some (.text text) else none
  else if startsFlow t then
    (flow? t).bind fun (value, rest) => if endsLine rest ∧ more = [] then some value else none
  else
    let whole := [' '].intercalate ((t :: more.map Line.text).map trimSpaces)
    let plain := withoutComment whole
    if startsPlain false t ∧ (splitKey? plain).isNone ∧ '\t' ∉ plain ∧
        (plain = whole ∨ more = []) then
      some (ofPlain (trimSpaces plain))
    else none

/-- The key that opens a line of a mapping, and what follows its colon. -/
def key? (t : Text) : Option (ConfigValue × Text) :=
  if startsQuoted t then
    (quoted? t).bind fun (text, rest) =>
      match rest.dropWhile (· == ' ') with
      | ':' :: r => if atGap r then some (.text text, r) else none
      | _ => none
  else if startsPlain false t then
    (splitKey? (withoutComment t)).bind fun (key, rest) =>
      if '\t' ∈ key then none else some (ofPlain (trimSpaces key), rest)
  else none

/-- A line that opens an item of a list. -/
def opensItem (t : Text) : Bool :=
  match t with
  | '-' :: r => atGap r
  | _ => false

mutual

/-- The value that starts on the first line. Its lines stand at `least` or further in. -/
def block? (fuel least : Nat) (ls : List Line) : Option (ConfigValue × List Line) :=
  match fuel, ls with
  | 0, _ => none
  | _, [] => some (.null, [])
  | fuel + 1, l :: rest =>
    if opensItem l.text then
      (items? fuel l.indent (l :: rest)).map fun (items, rest) => (.list items, rest)
    else if (key? l.text).isSome then
      (entries? fuel l.indent [] (l :: rest)).map fun (es, rest) => (.mapping es, rest)
    else
      let (more, rest) := rest.span fun next => least ≤ next.indent
      (inlineValue? l.text more).map fun value => (value, rest)

/-- The items of a list that stands at `indent`. -/
def items? (fuel indent : Nat) (ls : List Line) : Option (List ConfigValue × List Line) :=
  match fuel, ls with
  | 0, _ => none
  | _, [] => some ([], [])
  | fuel + 1, l :: rest =>
    if l.indent < indent ∨ (l.indent = indent ∧ !opensItem l.text) then some ([], l :: rest)
    else if indent < l.indent then none
    else do
      let inside := (l.text.drop 1).dropWhile (· == ' ')
      let (item, rest) ←
        if endsLine (l.text.drop 1) then nested? fuel (indent + 1) rest
        else
          block? fuel (indent + 1)
            (⟨indent + (l.text.length - inside.length), inside⟩ :: rest)
      let (items, rest) ← items? fuel indent rest
      return (item :: items, rest)

/-- The entries of a mapping that stands at `indent`; of two equal keys the later one counts. -/
def entries? (fuel indent : Nat) (found : List (ConfigValue × ConfigValue)) (ls : List Line) :
    Option (List (ConfigValue × ConfigValue) × List Line) :=
  match fuel, ls with
  | 0, _ => none
  | _, [] => some (found, [])
  | fuel + 1, l :: rest =>
    if l.indent < indent then some (found, l :: rest)
    else if indent < l.indent then none
    else do
      let (key, after) ← key? l.text
      let inside := after.dropWhile (· == ' ')
      let (value, rest) ←
        if endsLine after then
          if rest.head?.any (fun next => next.indent = indent ∧ opensItem next.text) then
            nested? fuel indent rest
          else nested? fuel (indent + 1) rest
        else
          let (more, rest) := rest.span fun next => indent < next.indent
          (inlineValue? inside more).map fun value => (value, rest)
      entries? fuel indent (ConfigValue.insert found key value) rest

/-- The value on the lines that stand at `least` or further in; nothing where there are none. -/
def nested? (fuel least : Nat) (ls : List Line) : Option (ConfigValue × List Line) :=
  match fuel, ls with
  | 0, _ => none
  | _, [] => some (.null, [])
  | fuel + 1, l :: rest =>
    if l.indent < least then some (.null, l :: rest) else block? fuel least (l :: rest)

end

/-- Characters that a document may hold. -/
def isAllowed (c : Char) : Bool :=
  c == '\t' || c == '\n' || c == '\r' || ('\x20' ≤ c && c ≤ '\x7e') || c == '\x85' ||
    ('\xa0' ≤ c && c != '\ufffe' && c != '\uffff')

/-- The lines that are neither blank nor comments; none where a tab indents one. -/
def contentLines? (ls : List Text) : Option (List Line) :=
  (ls.mapM fun l =>
    let text := l.dropWhile (· == ' ')
    if startsWith ['\t'] text then none
    else some (⟨l.length - text.length, text⟩ : Line)).map
      (·.filter fun l => !startsWith ['#'] l.text && !endsLine l.text)

/-- The mark that opens a document. -/
def isOpening (l : Text) : Bool := startsWith "---".toList l && atGap (l.drop 3)

/-- The value of a document; none where it is malformed. -/
def read? (t : Text) : Option ConfigValue := do
  if !t.all isAllowed then none
  else
    let body := if startsWith ['\ufeff'] t then t.drop 1 else t
    let all := lines body
    let blank := all.takeWhile fun l => startsWith ['#'] l || endsLine l
    let rest := all.drop blank.length
    let ls := match rest with
      | [] => []
      | l :: more => if isOpening l then l.drop 3 :: more else l :: more
    if startsFlow (skipBlanks (joinLines ls)) then
      let (value, rest) ← flow? (skipBlanks (joinLines ls))
      if endsLine rest then some value else none
    else
      let content ← contentLines? ls
      if content.any fun l => l.indent == 0 && isOpening l.text then none
      else
        let (value, rest) ← block? (4 * t.length + 4) 0 content
        if rest.isEmpty then some value else none

end Ambient.Config
