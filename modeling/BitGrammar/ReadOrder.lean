/-!
# The order of bytes and bits

A number that crosses byte boundaries can be put together in two ways, and the bits of each byte
can be taken from either end. `ReadOrder` fixes both choices, independently of each other.
-/

namespace BitGrammar

/-- Which end of a whole is met first when its parts are read one after another. -/
inductive Significance where
  | mostFirst
  | leastFirst
  deriving DecidableEq, Repr, Inhabited

/-- How a number is taken out of a stream of bytes: the significance of an earlier byte, and the
end of a byte from which its bits are taken. The default is the order of network protocols. -/
structure ReadOrder where
  bytes : Significance := .mostFirst
  bits : Significance := .mostFirst
  deriving DecidableEq, Repr, Inhabited

namespace ReadOrder

/-- The most significant part comes first, in bytes and in bits. -/
def big : ReadOrder := ⟨.mostFirst, .mostFirst⟩

/-- The least significant part comes first, in bytes and in bits. -/
def little : ReadOrder := ⟨.leastFirst, .leastFirst⟩

/-- The order with its two parts named, for diagnostics. -/
def dump (order : ReadOrder) : String :=
  let bytes := match order.bytes with
    | .mostFirst => "BigEndian"
    | .leastFirst => "LittleEndian"
  let bits := match order.bits with
    | .mostFirst => "MsbFirst"
    | .leastFirst => "LsbFirst"
  "Endianness \x7b byte: " ++ bytes ++ ", bit: " ++ bits ++ " \x7d"

end ReadOrder

end BitGrammar
