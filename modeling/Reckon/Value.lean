import Reckon.Number.Layout

/-!
# Values

What an expression comes to. Values are equal when they are of one sort and have equal contents; numbers are compared
as IEEE 754 says, so a NaN differs from itself and the two zeros are equal.
-/

namespace Reckon

inductive Value where
  | number (x : Float)
  | string (s : String)
  | boolean (b : Bool)
  | nil
deriving BEq, Repr

namespace Value

instance : Inhabited Value := ⟨.nil⟩

def isNil : Value → Bool
  | .nil => true
  | _ => false

/-- Only `false` itself: `nil` is not false. -/
def isFalse : Value → Bool
  | .boolean b => !b
  | _ => false

/-- `nil` and `false` count as false, everything else as true. -/
def isFalsey (v : Value) : Bool :=
  v.isNil || v.isFalse

def asNumber? : Value → Option Float
  | .number x => some x
  | _ => none

def text : Value → String
  | .number x => Layout.result.write x
  | .string s => s
  | .boolean true => "true"
  | .boolean false => "false"
  | .nil => "nil"

/-- The text of a literal inside a printed expression, where numbers are written out in full. -/
def literalText : Value → String
  | .number x => Layout.literal.write x
  | v => v.text

end Value
end Reckon
