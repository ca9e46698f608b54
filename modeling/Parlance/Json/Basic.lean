/-!
# JSON values

Objects keep the order of their fields and may repeat a name. Integers are exact; a number
that is written as anything else keeps its spelling.
-/

namespace Parlance

inductive Json where
  | null
  | bool (b : Bool)
  | int (n : Int)
  /-- A number with a fraction or an exponent, or a negative zero, as it is written. -/
  | real (text : String)
  | str (s : String)
  /-- A well-formed text whose escapes do not denote Unicode characters, or an object with
  such a name. -/
  | broken
  | array (items : List Json)
  | object (fields : List (String × Json))
  deriving Inhabited

namespace Json

/-- The number of fields called `name`. -/
def count (name : String) (fields : List (String × Json)) : Nat :=
  (fields.filter fun f => f.1 == name).length

/-- The first field called `name`. -/
def field? (name : String) : Json → Option Json
  | .object fields => fields.lookup name
  | _ => none

def ofNat (n : Nat) : Json :=
  .int (Int.ofNat n)

/-- A value or `null`. -/
def ofOption {α : Type} (f : α → Json) : Option α → Json
  | none => .null
  | some a => f a

/-- The array of the items' values. -/
def ofList {α : Type} (f : α → Json) (items : List α) : Json :=
  .array (items.map f)

end Json

end Parlance
