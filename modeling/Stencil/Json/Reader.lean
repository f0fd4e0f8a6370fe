import Stencil.Json.Basic

/-! Reading JSON text. Fields keep their order. A number without fraction and
exponent that fits 64 bits, signed or unsigned, is an integer; any other one is
a double: its leading digits, as many as fit 64 bits, times a power of ten. A
reader returns what it read with what is left. -/
namespace Stencil.Json.Reader

def isSpace (c : Char) : Bool := c == ' ' || c == '\n' || c == '\r' || c == '\t'

def skip (cs : List Char) : List Char := cs.dropWhile isSpace

def hexValue? (c : Char) : Option Nat :=
  if c.isDigit then some (c.toNat - '0'.toNat)
  else if 'a' ≤ c ∧ c ≤ 'f' then some (c.toNat - 'a'.toNat + 10)
  else if 'A' ≤ c ∧ c ≤ 'F' then some (c.toNat - 'A'.toNat + 10)
  else none

def hexFour : List Char → Option (Nat × List Char)
  | a :: b :: c :: d :: r => do
    let a ← hexValue? a
    let b ← hexValue? b
    let c ← hexValue? c
    let d ← hexValue? d
    some (((a * 16 + b) * 16 + c) * 16 + d, r)
  | _ => none

def ofCode? (n : Nat) : Option Char := if h : n.isValidChar then some (Char.ofNatAux n h) else none

/-- The character after `\u`; two surrogates make one character. -/
def unicode (cs : List Char) : Option (Char × List Char) := do
  let (n, r) ← hexFour cs
  if 0xD800 ≤ n ∧ n < 0xDC00 then
    match r with
    | '\\' :: 'u' :: r => do
      let (m, r) ← hexFour r
      if 0xDC00 ≤ m ∧ m < 0xE000 then
        let c ← ofCode? (0x10000 + (n - 0xD800) * 0x400 + (m - 0xDC00))
        some (c, r)
      else none
    | _ => none
  else
    let c ← ofCode? n
    some (c, r)

/-- The character that a backslash begins. -/
def escaped : List Char → Option (Char × List Char)
  | '"' :: r => some ('"', r)
  | '\\' :: r => some ('\\', r)
  | '/' :: r => some ('/', r)
  | 'b' :: r => some ('\x08', r)
  | 'f' :: r => some ('\x0c', r)
  | 'n' :: r => some ('\n', r)
  | 'r' :: r => some ('\r', r)
  | 't' :: r => some ('\t', r)
  | 'u' :: r => unicode r
  | _ => none

/-- The rest of a string after its opening quote; `acc` holds what was read, last
character first. -/
def stringRest : Nat → List Char → List Char → Option (String × List Char)
  | 0, _, _ => none
  | fuel + 1, acc, cs =>
    match cs with
    | '"' :: r => some (String.ofList acc.reverse, r)
    | '\\' :: r =>
      match escaped r with
      | some (c, r) => stringRest fuel (c :: acc) r
      | none => none
    | c :: r => if c.toNat < 0x20 then none else stringRest fuel (c :: acc) r
    | [] => none

def digitValue (c : Char) : Nat := c.toNat - '0'.toNat

def digitsValue (ds : List Char) : Nat := ds.foldl (fun n c => n * 10 + digitValue c) 0

/-- The leading digits whose value fits 64 bits, and how many are left over. -/
def leading (n : Nat) : List Char → Nat × Nat
  | [] => (n, 0)
  | c :: ds =>
    if n * 10 + digitValue c < 0x10000000000000000 then leading (n * 10 + digitValue c) ds
    else (n, ds.length + 1)

def tenTo (k : Nat) : Float := Float.ofScientific 1 false k

/-- `n * 10 ^ e`, by one multiplication or by divisions. -/
def scale (n : Nat) (e : Int) : Float :=
  let x := n.toUInt64.toFloat
  if n = 0 then x
  else if 0 ≤ e then x * tenTo e.toNat
  else if e < -308 then x / tenTo 308 / tenTo (min 308 (-e - 308).toNat)
  else x / tenTo (-e).toNat

/-- A double from its sign, the digits before and after the point, and the
written exponent. -/
def double (negative : Bool) (whole fraction : List Char) (e : Int) : Double :=
  let (n, spare) := leading 0 (whole ++ fraction)
  let kept := whole.length + fraction.length - spare
  let x := scale n (e + whole.length - kept)
  Double.ofFloat (if negative then -x else x)

def exponent (cs : List Char) : Option (Int × List Char) :=
  let (negative, r) :=
    match cs with
    | '-' :: r => (true, r)
    | '+' :: r => (false, r)
    | _ => (false, cs)
  let ds := r.takeWhile Char.isDigit
  if ds = [] then none
  else
    let n : Int := digitsValue ds
    some (if negative then -n else n, r.dropWhile Char.isDigit)

def integer (negative : Bool) (whole : List Char) : Number :=
  let n := digitsValue whole
  if negative then
    if n ≠ 0 ∧ n ≤ 0x8000000000000000 then .int (-n) else .double (double true whole [] 0)
  else if n < 0x10000000000000000 then .int n
  else .double (double false whole [] 0)

/-- A number after its sign. -/
def unsigned (negative : Bool) (cs : List Char) : Option (Number × List Char) := do
  let whole := cs.takeWhile Char.isDigit
  let r := cs.dropWhile Char.isDigit
  if whole = [] ∨ (whole.head? = some '0' ∧ 1 < whole.length) then none
  else
    let (fraction, r) ←
      match r with
      | '.' :: r =>
        if r.takeWhile Char.isDigit = [] then none
        else some (r.takeWhile Char.isDigit, r.dropWhile Char.isDigit)
      | _ => some ([], r)
    match r with
    | 'e' :: r => do
      let (e, r) ← exponent r
      some (.double (double negative whole fraction e), r)
    | 'E' :: r => do
      let (e, r) ← exponent r
      some (.double (double negative whole fraction e), r)
    | _ =>
      if fraction = [] then some (integer negative whole, r)
      else some (.double (double negative whole fraction 0), r)

def number (cs : List Char) : Option (Json × List Char) :=
  match cs with
  | '-' :: r => (unsigned true r).map fun x => (.num x.1, x.2)
  | _ => (unsigned false cs).map fun x => (.num x.1, x.2)

def word (w : List Char) (v : Json) (cs : List Char) : Option (Json × List Char) :=
  if w.isPrefixOf cs then some (v, cs.drop w.length) else none

mutual

def value : Nat → List Char → Option (Json × List Char)
  | 0, _ => none
  | fuel + 1, cs =>
    match skip cs with
    | '"' :: r => (stringRest (r.length + 1) [] r).map fun x => (.str x.1, x.2)
    | '[' :: r =>
      match skip r with
      | ']' :: r => some (.arr [], r)
      | _ => (items fuel r).map fun x => (.arr x.1, x.2)
    | '\x7b' :: r =>
      match skip r with
      | '\x7d' :: r => some (.obj [], r)
      | _ => (fields fuel r).map fun x => (.obj x.1, x.2)
    | 't' :: r => word ['r', 'u', 'e'] (.bool true) r
    | 'f' :: r => word ['a', 'l', 's', 'e'] (.bool false) r
    | 'n' :: r => word ['u', 'l', 'l'] .null r
    | r => number r

def items : Nat → List Char → Option (List Json × List Char)
  | 0, _ => none
  | fuel + 1, cs =>
    match value fuel cs with
    | none => none
    | some (v, r) =>
      match skip r with
      | ',' :: r => (items fuel r).map fun x => (v :: x.1, x.2)
      | ']' :: r => some ([v], r)
      | _ => none

def fields : Nat → List Char → Option (List (String × Json) × List Char)
  | 0, _ => none
  | fuel + 1, cs =>
    match skip cs with
    | '"' :: r =>
      match stringRest (r.length + 1) [] r with
      | none => none
      | some (k, r) =>
        match skip r with
        | ':' :: r =>
          match value fuel r with
          | none => none
          | some (v, r) =>
            match skip r with
            | ',' :: r => (fields fuel r).map fun x => ((k, v) :: x.1, x.2)
            | '\x7d' :: r => some ([(k, v)], r)
            | _ => none
        | _ => none
    | _ => none

end

end Reader

/-- The value that a whole text denotes. -/
def read? (text : String) : Option Json :=
  let cs := text.toList
  match Reader.value (cs.length + 1) cs with
  | some (v, r) => if Reader.skip r = [] then some v else none
  | none => none

end Stencil.Json
