/-!
# Number text

Decimal and hexadecimal digits, lower case, with the `0x` mark of assembly
text and fault messages.
-/

namespace PagedMachine.Text

def decimal (n : Nat) : String := String.ofList (Nat.toDigits 10 n)

def signedDecimal (n : Int) : String :=
  if n < 0 then "-" ++ decimal n.natAbs else decimal n.natAbs

def hex (n : Nat) : String := "0x" ++ String.ofList (Nat.toDigits 16 n)

/-- At least eight digits, filled with zeros on the left. -/
def paddedHex (n : Nat) : String :=
  "0x" ++ String.ofList ((Nat.toDigits 16 n).leftpad 8 '0')

end PagedMachine.Text
