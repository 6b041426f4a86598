/-!
# Misuse of a grammar

A `Misuse` is a mistake in the grammar itself, never a property of the input. A constructor that
can meet one returns it; one met while parsing ends the whole parse, and no alternative or
optional part absorbs it.

A counted repetition for which there cannot be room is met while parsing only, as its count can be
read from the input. No constructor looks at it.
-/

namespace BitGrammar

/-- What can be wrong with a grammar. -/
inductive Misuse where
  | unbound
  | alreadyBound
  | bitWidth (width : Nat)
  | emptyRange (lower upper : Int64)
  | lengthNotCount
  | rangeNotInteger
  | capacityOverflow
  deriving DecidableEq, Inhabited

namespace Misuse

/-- What is wrong, in words. -/
def message : Misuse → String
  | .unbound => "indirect parser used before being bound"
  | .alreadyBound => "indirect parser is already bound"
  | .bitWidth width => "bit width " ++ toString width ++ " is out of range, expected 0..=64"
  | .emptyRange lower upper =>
    "integer range " ++ toString lower.toInt ++ "..=" ++ toString upper.toInt ++ " is empty"
  | .lengthNotCount => "length parser must produce an unsigned integer"
  | .rangeNotInteger => "range check applied to a parser that does not produce an integer"
  | .capacityOverflow => "capacity overflow"

/-- The kind of misuse with its data named, for diagnostics. -/
def dump : Misuse → String
  | .unbound => "Unbound"
  | .alreadyBound => "AlreadyBound"
  | .bitWidth width => "InvalidBitWidth(" ++ toString width ++ ")"
  | .emptyRange lower upper =>
    "EmptyRange \x7b lower: " ++ toString lower.toInt ++ ", upper: " ++ toString upper.toInt ++
      " \x7d"
  | .lengthNotCount => "NonIntegerLength"
  | .rangeNotInteger => "NonIntegerRange"
  | .capacityOverflow => "CapacityOverflow"

end Misuse

end BitGrammar
