import LoxLang.Decimal.Shortest

/-!
# Values

The values that expressions have, and the text that printing gives them.
-/

namespace LoxLang

inductive ValueType where
  | nil
  | boolean
  | number
  | string
deriving DecidableEq

def ValueType.name : ValueType → String
  | nil => "nil"
  | boolean => "boolean"
  | number => "number"
  | string => "string"

inductive Value where
  | nil
  | bool (b : Bool)
  | number (x : Float)
  | string (s : String)

namespace Value

def type : Value → ValueType
  | nil => .nil
  | bool _ => .boolean
  | number _ => .number
  | string _ => .string

/-- Only `nil` and `false` count as false. -/
def truthy : Value → Bool
  | nil => false
  | bool b => b
  | _ => true

/-- Values of different types are never equal; numbers compare as doubles, so a NaN differs
from itself and the two zeros are equal. -/
def equal : Value → Value → Bool
  | nil, nil => true
  | bool a, bool b => a == b
  | number x, number y => x == y
  | string s, string t => s == t
  | _, _ => false

/-- What `print` writes for a value. -/
def text : Value → String
  | nil => "nil"
  | bool true => "true"
  | bool false => "false"
  | number x => Decimal.text "Infinity" x
  | string s => s

end Value

end LoxLang
