/-! Double-precision numbers, kept as their 64 bits. A finite one stands for
`± mantissa * 2 ^ exponent`. -/
namespace Stencil

structure Double where
  bits : UInt64
  deriving DecidableEq, Repr

namespace Double

def ofFloat (x : Float) : Double := ⟨x.toBits⟩

/-- The bit that a number of full precision has before its fraction of 52 bits. -/
def implicitBit : Nat := 0x10000000000000

def isNegative (d : Double) : Bool := 0x8000000000000000 ≤ d.bits.toNat

def fraction (d : Double) : Nat := d.bits.toNat % implicitBit

def biased (d : Double) : Nat := d.bits.toNat / implicitBit % 0x800

def mantissa (d : Double) : Nat := if d.biased = 0 then d.fraction else d.fraction + implicitBit

def exponent (d : Double) : Int := (max d.biased 1 : Nat) - 1075

/-- Either of the two zeros. -/
def isZero (d : Double) : Bool := d.mantissa == 0

/-- Whether the next number below lies half as far away as the one above. -/
def isNarrowBelow (d : Double) : Bool := d.fraction == 0 && 1 < d.biased

end Double
end Stencil
