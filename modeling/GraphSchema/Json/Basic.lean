import GraphSchema.Members

/-!
JSON values. Objects are lists of members in written order; a list that repeats a key is a value as it
stands in a text, and `Json.collapse` is the value that its reader keeps.

- `Json.alike` is equality without regard to the order of members.
-/

namespace GraphSchema

/-- a number: an integer of 64 bits, or a float -/
inductive Number where
  | int (value : Int)
  | real (value : Float)
  deriving Repr, Inhabited

/-- Equality of numbers: an integer never equals a float, and floats compare by value. -/
def Number.alike : Number → Number → Bool
  | .int a, .int b => a == b
  | .real a, .real b => a == b
  | _, _ => false

inductive Json where
  | null
  | bool (value : Bool)
  | num (value : Number)
  | str (value : String)
  | arr (items : List Json)
  | obj (members : List (String × Json))
  deriving Repr, Inhabited

namespace Json

/-- the integer `n` as a value -/
def int (n : Int) : Json := .num (.int n)

/-- the natural number `n` as a value -/
def nat (n : Nat) : Json := .int n

/-- the float `x` as a value -/
def real (x : Float) : Json := .num (.real x)

/-- the text, if the value is one -/
def text? : Json → Option String
  | .str s => some s
  | _ => none

/-- the members, if the value is an object -/
def members? : Json → Option (Members Json)
  | .obj members => some members
  | _ => none

/-- the value under a key, if the value is an object that has it -/
def get? (value : Json) (key : String) : Option Json :=
  value.members?.bind (Members.get? · key)

mutual

/-- Keeps of a repeated key the first position and the last value, at every depth. -/
def collapse : Json → Json
  | .arr items => .arr (collapseItems items)
  | .obj members => .obj (Members.ofList (collapseMembers members))
  | value => value

def collapseItems : List Json → List Json
  | [] => []
  | item :: rest => collapse item :: collapseItems rest

def collapseMembers : List (String × Json) → List (String × Json)
  | [] => []
  | (key, value) :: rest => (key, collapse value) :: collapseMembers rest

end

mutual

/-- Equality of values that ignores the order of members. -/
def alike : Json → Json → Bool
  | .null, .null => true
  | .bool a, .bool b => a == b
  | .num a, .num b => a.alike b
  | .str a, .str b => a == b
  | .arr as, .arr bs => alikeItems as bs
  | .obj as, .obj bs => as.length == bs.length && alikeMembers as bs
  | _, _ => false

def alikeItems : List Json → List Json → Bool
  | [], [] => true
  | a :: as, b :: bs => alike a b && alikeItems as bs
  | _, _ => false

/-- Each of the first members has its counterpart among the second ones. -/
def alikeMembers : List (String × Json) → List (String × Json) → Bool
  | [], _ => true
  | (key, a) :: rest, bs =>
    (match Members.get? bs key with
      | some b => alike a b
      | none => false) && alikeMembers rest bs

end

end Json

end GraphSchema
