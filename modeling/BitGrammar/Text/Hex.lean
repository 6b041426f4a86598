/-!
# Hexadecimal text

Numbers and bytes to base sixteen, as lists of characters. A number has no leading zeros, a byte
has always two digits.
-/

namespace BitGrammar.Hex

/-- A number to base sixteen in lower case, with as few digits as it needs. -/
def digits (n : Nat) : List Char :=
  Nat.toDigits 16 n

/-- A byte as two digits in lower case. -/
def pair (b : UInt8) : List Char :=
  [Nat.digitChar (b.toNat / 16), Nat.digitChar (b.toNat % 16)]

/-- A byte as two digits in upper case. -/
def upperPair (b : UInt8) : List Char :=
  (pair b).map Char.toUpper

/-- Bytes as text, two digits in lower case for each and nothing between them. -/
def ofBytes (bytes : List UInt8) : String :=
  String.ofList (bytes.flatMap pair)

@[simp] theorem length_pair (b : UInt8) : (pair b).length = 2 := rfl

@[simp] theorem length_upperPair (b : UInt8) : (upperPair b).length = 2 := rfl

end BitGrammar.Hex
