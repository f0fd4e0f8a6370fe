import Stencil.Decimal.Shortest
import Stencil.Text.Quoted

/-! JSON values with their fields in order, their compact text, and how templates
read them: following a path, showing a value as text, and telling whether there
is something to render. -/
namespace Stencil

/-- A number is kept as an integer when it is written as one. -/
inductive Number where
  | int (n : Int)
  | double (d : Double)
  deriving DecidableEq, Repr

inductive Json where
  | null
  | bool (b : Bool)
  | num (n : Number)
  | str (s : String)
  | arr (items : List Json)
  | obj (fields : List (String × Json))
  deriving Inhabited, Repr

namespace Number

/-- Exponents from -5 to 15 are written positionally. -/
def layout : Decimal.Layout := ⟨-5, 15⟩

def text : Number → String
  | .int n => if n < 0 then "-" ++ toString n.natAbs else toString n.natAbs
  | .double d =>
    String.ofList ((if d.isNegative then ['-'] else []) ++
      (if d.isZero then ['0', '.', '0'] else layout.write (Decimal.shortest d)))

def isZero : Number → Bool
  | .int n => n == 0
  | .double d => d.isZero

end Number

namespace Json

mutual

/-- The value without any spaces. -/
def compact : Json → String
  | .null => "null"
  | .bool true => "true"
  | .bool false => "false"
  | .num n => n.text
  | .str s => Text.quote s
  | .arr items => "[" ++ ",".intercalate (compactItems items) ++ "]"
  | .obj fields => "\x7b" ++ ",".intercalate (compactFields fields) ++ "\x7d"

def compactItems : List Json → List String
  | [] => []
  | v :: vs => compact v :: compactItems vs

def compactFields : List (String × Json) → List String
  | [] => []
  | (k, v) :: fs => (Text.quote k ++ ":" ++ compact v) :: compactFields fs

end

/-- The field called `k` of an object. -/
def field? (k : String) : Json → Option Json
  | .obj fields => (fields.find? (·.1 == k)).map (·.2)
  | _ => none

/-- Goes down through fields; a step that is missing gives null. -/
def follow : List String → Json → Json
  | [], v => v
  | k :: ks, v =>
    match field? k v with
    | some w => follow ks w
    | none => .null

/-- The value as text: strings as they are, null as nothing, the rest compact. -/
def shown : Json → String
  | .str s => s
  | .null => ""
  | v => compact v

/-- All but null, false, zero and the empty string. -/
def isTruthy : Json → Bool
  | .null => false
  | .bool b => b
  | .num n => !n.isZero
  | .str s => s != ""
  | .arr _ => true
  | .obj _ => true

/-- Truthy, and not an empty array or object. -/
def isPresent : Json → Bool
  | .arr items => !items.isEmpty
  | .obj fields => !fields.isEmpty
  | v => v.isTruthy

/-- The items to go through: those of an array, none for null. -/
def items? : Json → Option (List Json)
  | .arr items => some items
  | .null => some []
  | _ => none

/-- Exactly the value false. -/
def isFalse : Json → Bool
  | .bool false => true
  | _ => false

end Json
end Stencil
