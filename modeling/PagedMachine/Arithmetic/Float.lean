import PagedMachine.Flags

/-!
# Single-precision floats

Words read as floats in the 32-bit interchange format. Operations round to
nearest, ties to even.
-/

namespace PagedMachine.Word

def toFloat (w : Word) : Float32 := Float32.ofBits w

/-- Every NaN becomes 0x7FC00000. A processor keeps the sign and the payload of the NaN
that it made, and both are unspecified: only that it is a NaN is meant here. -/
def ofFloat (x : Float32) : Word := x.toBits

def isNaN (w : Word) : Bool := w.field 23 8 == 255 && w.field 0 23 != 0

def floatOfSigned (w : Word) : Word := ofFloat w.toInt32.toFloat32

/-- The float toward zero as a signed number. What is too large or too small
gives the end of the range, and what is no number gives zero. -/
def signedOfFloat (w : Word) : Word := w.toFloat.toInt32.toUInt32

/-- Z and C when equal, N when less, C when greater, C and V when unordered. -/
def compareFloats (a b : Word) : Flags :=
  let x := a.toFloat
  let y := b.toFloat
  if x == y then ⟨false, true, true, false⟩
  else if x < y then ⟨true, false, false, false⟩
  else if y < x then ⟨false, false, true, false⟩
  else ⟨false, false, true, true⟩

end PagedMachine.Word
