import Ambient.Decimal.Shortest
import Ambient.Text.Quoted

/-!
Values of a configuration, with the truth, the name of the type and the text of each.
-/

namespace Ambient

inductive ConfigValue
  | null
  | bool (b : Bool)
  | int (n : Int)
  | decimal (d : Decimal)
  | text (t : Text)
  | list (items : List ConfigValue)
  | mapping (entries : List (ConfigValue × ConfigValue))

namespace ConfigValue

/-- Nothing, zero and whatever is empty count as false. -/
def truth : ConfigValue → Bool
  | null => false
  | bool b => b
  | int n => n != 0
  | decimal d => !d.isZero
  | text t => t != []
  | list items => !items.isEmpty
  | mapping entries => !entries.isEmpty

def typeName : ConfigValue → String
  | null => "NoneType"
  | bool _ => "bool"
  | int _ => "int"
  | decimal _ => "float"
  | text _ => "str"
  | list _ => "list"
  | mapping _ => "dict"

def isNull : ConfigValue → Bool
  | null => true
  | _ => false

/-- The text of a number. -/
def intText (n : Int) : Text :=
  if n < 0 then '-' :: Nat.toDigits 10 n.natAbs else Nat.toDigits 10 n.natAbs

mutual

/-- The text of a value inside a list or a mapping, where texts are quoted. -/
def inner : ConfigValue → Text
  | null => "None".toList
  | bool true => "True".toList
  | bool false => "False".toList
  | int n => intText n
  | decimal d => d.toText
  | text t => Quoted.quote t
  | list items => '[' :: ", ".toList.intercalate (innerItems items) ++ [']']
  | mapping entries => '{' :: ", ".toList.intercalate (innerEntries entries) ++ ['}']

def innerItems : List ConfigValue → List Text
  | [] => []
  | v :: vs => inner v :: innerItems vs

def innerEntries : List (ConfigValue × ConfigValue) → List Text
  | [] => []
  | (k, v) :: es => (inner k ++ ": ".toList ++ inner v) :: innerEntries es

end

/-- The text of a value by itself. -/
def toText : ConfigValue → Text
  | text t => t
  | v => inner v

/-- Two keys of a mapping are one where their texts are. -/
def sameKey : ConfigValue → ConfigValue → Bool
  | text s, text t => s == t
  | null, null => true
  | bool a, bool b => a == b
  | int a, int b => a == b
  | _, _ => false

/-- Sets a key; a later value takes the place of an earlier one. -/
def insert (entries : List (ConfigValue × ConfigValue)) (key value : ConfigValue) :
    List (ConfigValue × ConfigValue) :=
  if entries.any fun e => sameKey e.1 key then
    entries.map fun e => if sameKey e.1 key then (e.1, value) else e
  else entries ++ [(key, value)]

end ConfigValue

end Ambient
