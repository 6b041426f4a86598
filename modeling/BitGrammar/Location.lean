import BitGrammar.Text.Hex

/-!
# Locations in the input

A `Location` is a bit position together with the input it belongs to. Its text shows the bytes
around it, with the byte at the position in square brackets. The position may lie past the end of
the input; then the end itself is bracketed.
-/

namespace BitGrammar

/-- A bit position in an input, which may lie past its end. -/
structure Location where
  input : Array UInt8
  position : Nat
  deriving DecidableEq, Inhabited

namespace Location

/-- The byte that the position lies in. -/
def byteOffset (l : Location) : Nat :=
  l.position / 8

/-- The bits of that byte that lie before the position. -/
def bitOffset (l : Location) : Nat :=
  l.position % 8

/-- The end of the stretch of bytes shown: three bytes after the location, or the input's end. -/
def shownEnd (l : Location) : Nat :=
  min (l.byteOffset + 4) l.input.size

/-- The start of the stretch of bytes shown: four bytes before the location. -/
def shownStart (l : Location) : Nat :=
  min (l.byteOffset - 4) l.shownEnd

/-- One byte of the stretch shown, in brackets when the location lies in it. -/
def shownByte (l : Location) (index : Nat) : String :=
  let digits := String.ofList (Hex.upperPair (l.input.getD index 0))
  if index = l.byteOffset then "[" ++ digits ++ "]" else digits

/-- The bytes around the location, and the end of the input when the location lies there or
beyond. -/
def contextItems (l : Location) : List String :=
  (List.range' l.shownStart (l.shownEnd - l.shownStart)).map l.shownByte ++
    if l.input.size ≤ l.byteOffset then ["[<end>]"] else []

/-- The bytes around the location as one text. -/
def context (l : Location) : String :=
  " ".intercalate l.contextItems

/-- The location as messages show it. -/
def text (l : Location) : String :=
  "byte offset " ++ toString l.byteOffset ++ ", bit " ++ toString l.bitOffset ++
    " (" ++ l.context ++ ")"

/-- The location with its parts named, for diagnostics. -/
def dump (l : Location) : String :=
  "CodeLoc \x7b byte_offset: " ++ toString l.byteOffset ++ ", bit_offset: " ++
    toString l.bitOffset ++ ", input_len: " ++ toString l.input.size ++ " \x7d"

theorem shownStart_le_shownEnd (l : Location) : l.shownStart ≤ l.shownEnd :=
  Nat.min_le_right _ _

theorem shownEnd_le_size (l : Location) : l.shownEnd ≤ l.input.size :=
  Nat.min_le_right _ _

end Location

end BitGrammar
