import Stencil.Decimal.Double

/-! The shortest decimal that reads back as a given double: of the decimals with
the fewest digits in the interval of numbers that round to it, the nearest one. -/
namespace Stencil.Decimal

/-- `digits * 10 ^ exponent`. -/
structure Scaled where
  digits : Nat
  exponent : Int
  deriving DecidableEq, Repr

namespace Shortest

/-- A double and the interval around it, measured in quarters of its last place:
`value` is four times the mantissa, and the unit is `2 ^ unit`. -/
structure Span where
  low : Nat
  value : Nat
  high : Nat
  unit : Int
  closed : Bool

def span (d : Double) : Span where
  low := 4 * d.mantissa - (if d.isNarrowBelow then 1 else 2)
  value := 4 * d.mantissa
  high := 4 * d.mantissa + 2
  unit := d.exponent - 2
  closed := d.mantissa % 2 == 0

/-- `10 ^ k / 2 ^ unit` as a fraction. -/
def ratio (unit k : Int) : Nat × Nat :=
  (Nat.pow 10 k.toNat * Nat.pow 2 (-unit).toNat, Nat.pow 10 (-k).toNat * Nat.pow 2 unit.toNat)

/-- Whether `n * 10 ^ k` lies in the interval. -/
def contains (s : Span) (k : Int) (n : Nat) : Bool :=
  let (p, q) := ratio s.unit k
  if s.closed then s.low * q ≤ n * p && n * p ≤ s.high * q
  else s.low * q < n * p && n * p < s.high * q

/-- The multiples of `10 ^ k` next to the value that lie in the interval; of two
the nearer one, and the even one when both are equally near. -/
def nearest? (s : Span) (k : Int) : Option Nat :=
  let (p, q) := ratio s.unit k
  let below := s.value * q / p
  let down := s.value * q - below * p
  let up := (below + 1) * p - s.value * q
  match contains s k below, contains s k (below + 1) with
  | true, true =>
    if down < up || (down == up && below % 2 == 0) then some below else some (below + 1)
  | true, false => some below
  | false, true => some (below + 1)
  | false, false => none

/-- The exponent of the first digit of `value * 2 ^ unit`. -/
def leading (s : Span) : Int :=
  let (p, q) := ratio s.unit (-400)
  (Nat.toDigits 10 (s.value * q / p)).length - 1 - 400

/-- Tries ever finer grids, at most `fuel` of them. -/
def search (s : Span) : Nat → Int → Scaled
  | 0, k => ⟨s.value * (ratio s.unit k).2 / (ratio s.unit k).1, k⟩
  | fuel + 1, k =>
    match nearest? s k with
    | some n => ⟨n, k⟩
    | none => search s fuel (k - 1)

/-- Moves trailing zeros into the exponent. -/
def strip : Nat → Scaled → Scaled
  | 0, x => x
  | fuel + 1, x =>
    if x.digits ≠ 0 ∧ x.digits % 10 = 0 then strip fuel ⟨x.digits / 10, x.exponent + 1⟩ else x

end Shortest

/-- The shortest decimal of a double, without its sign. Seventeen digits always
suffice. -/
def shortest (d : Double) : Scaled :=
  let s := Shortest.span d
  Shortest.strip 20 (Shortest.search s 17 (Shortest.leading s))

/-- How a decimal is laid out: the exponents of the first digit that are written
without an exponent mark. -/
structure Layout where
  lowest : Int
  highest : Int

/-- Positional between the two exponents, always with a fraction; otherwise one
digit before the point, and an exponent with its sign. -/
def Layout.write (l : Layout) (x : Scaled) : List Char :=
  let ds := Nat.toDigits 10 x.digits
  let e := x.exponent + (ds.length - 1 : Nat)
  if l.lowest ≤ e ∧ e ≤ l.highest then
    if e < 0 then '0' :: '.' :: List.replicate (-e - 1).toNat '0' ++ ds
    else
      let whole := ds.take (e.toNat + 1)
      let fraction := ds.drop (e.toNat + 1)
      whole ++ List.replicate (e.toNat + 1 - ds.length) '0' ++
        '.' :: (if fraction = [] then ['0'] else fraction)
  else
    ds.take 1 ++ (if ds.length ≤ 1 then [] else '.' :: ds.drop 1) ++
      'e' :: (if e < 0 then '-' else '+') :: Nat.toDigits 10 e.natAbs

end Stencil.Decimal
