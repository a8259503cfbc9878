import Lox.Token

set_option autoImplicit false

/-!
# Values

What an expression evaluates to.

## Main definitions

* `Lox.Value` — numbers, strings, booleans and `nil`, with the language's `==`.
* `Lox.Value.isTruthy` — how a value counts as a condition.
* `Lox.Value.display` — the text of a value.
-/

namespace Lox

/-- A value of the language. -/
inductive Value
  /-- A number. -/
  | number (x : Number)
  /-- A text. -/
  | string (s : String)
  /-- A truth value. -/
  | boolean (b : Bool)
  /-- The value that stands for none. -/
  | nil
deriving Repr, Inhabited

namespace Value

/-- Values of different types are never equal. Numbers are compared as numbers, so that the two
zeros are equal and what is not a number differs from itself. -/
instance : BEq Value where
  beq
    | number x, number y => x == y
    | string s, string t => s == t
    | boolean a, boolean b => a == b
    | nil, nil => true
    | _, _ => false

/-- Only `nil` and `false` count as false. -/
def isTruthy : Value → Bool
  | nil => false
  | boolean b => b
  | _ => true

/-- The name of the type of a value. -/
def typeName : Value → String
  | number _ => "number"
  | string _ => "string"
  | boolean _ => "boolean"
  | nil => "nil"

/-- The text of a value. A string is its own text. -/
def display : Value → String
  | number x => Number.display x
  | string s => s
  | boolean true => "true"
  | boolean false => "false"
  | nil => "nil"

/-- The value that a literal stands for. -/
def ofLiteral : Literal → Value
  | .number x => number x
  | .string s => string s

end Value

end Lox
