import BitGrammar.Location
import BitGrammar.Value.Text
import BitGrammar.Text.Quoted
import BitGrammar.Text.Utf8

/-!
# Failures

A `Failure` is an ordinary outcome of a parse: the input at some location is not what the grammar
asks for. Alternatives, optional parts and repetitions absorb failures. The cause is data;
`Mismatch.message` and `Rejection.message` give the wording.

When several attempts fail, `Failure.furthest` keeps the one that got furthest into the input; of
two that got equally far it keeps the first.
-/

namespace BitGrammar

/-- Where an offset is counted from. -/
inductive Anchor where
  | start
  | current
  | finish
  deriving DecidableEq, Repr, Inhabited

/-- The name of an anchor in messages. -/
def Anchor.text : Anchor → String
  | .start => "Start"
  | .current => "Current"
  | .finish => "End"

/-- Input that differs from what a grammar spells out. -/
inductive Mismatch where
  | byte (expected found : UInt8)
  | byteOutside (lower upper found : UInt8)
  | byteNotInSet (found : UInt8)
  | literalByte (expected found : UInt8) (index : Nat) (literal : List UInt8)
  | inputLeft (bits : Nat)
  | other (message : String)
  deriving DecidableEq, Inhabited

/-- A condition of a grammar that does not hold. -/
inductive Rejection where
  | neverMatches
  | noAlternatives
  | seekLeavesInput (offset : Int64) (anchor : Anchor)
  | unexpectedMatch
  | excluded (matched expected : Nat)
  | bothMatched
  | unplaceable
  | noContinuation (v : Value)
  | predicateFailed (v : Value)
  | outOfRange (n : Int) (lower upper : Int64)
  | other (message : String)
  deriving Inhabited

/-- Why a parse failed. -/
inductive Cause where
  | endOfInput
  | mismatch (m : Mismatch)
  | rejection (r : Rejection)
  deriving Inhabited

/-- A failed attempt: why, and where in the input. -/
structure Failure where
  cause : Cause
  location : Location
  deriving Inhabited

namespace Mismatch

/-- A byte in hexadecimal behind its usual mark. -/
def hexByte (b : UInt8) : String :=
  "0x" ++ String.ofList (Hex.upperPair b)

/-- A printable ASCII character as itself, any other byte as a point. -/
def visibleByte (b : UInt8) : String :=
  if 0x20 ≤ b ∧ b ≤ 0x7e then String.singleton (Char.ofNat b.toNat) else "."

/-- A byte in both forms. -/
def shownByte (b : UInt8) : String :=
  hexByte b ++ " ('" ++ visibleByte b ++ "')"

/-- What was expected and what was found. -/
def message : Mismatch → String
  | .byte expected found =>
    "expected byte " ++ shownByte expected ++ ", found " ++ shownByte found
  | .byteOutside lower upper found =>
    "expected byte in range " ++ hexByte lower ++ "-" ++ hexByte upper ++ " ('" ++
      visibleByte lower ++ "'-'" ++ visibleByte upper ++ "'), found " ++ shownByte found
  | .byteNotInSet found => "byte " ++ shownByte found ++ " not in set"
  | .literalByte expected found index literal =>
    "expected " ++ hexByte expected ++ ", found " ++ hexByte found ++ " at index " ++
      toString index ++ " of " ++ Quoted.encode (Utf8.decode literal)
  | .inputLeft bits => "expected end of input, " ++ toString bits ++ " bits remain"
  | .other message => message

end Mismatch

/-- Which condition does not hold. -/
def Rejection.message : Rejection → String
  | .neverMatches => "nothing_p never matches"
  | .noAlternatives => "choice has no alternatives"
  | .seekLeavesInput offset anchor =>
    "seek by " ++ toString offset.toInt ++ " bits from " ++ anchor.text ++ " leaves the input"
  | .unexpectedMatch => "negative lookahead failed: unexpected match"
  | .excluded matched expected =>
    "excluded alternative matched " ++ toString matched ++ " bits where " ++ toString expected ++
      " were expected"
  | .bothMatched => "both alternatives of xor matched"
  | .unplaceable => "permutation member could not be placed"
  | .noContinuation v => "no continuation for " ++ v.text
  | .predicateFailed v => "predicate rejected " ++ v.text
  | .outOfRange n lower upper =>
    "integer " ++ toString n ++ " outside range " ++ toString lower.toInt ++ "..=" ++
      toString upper.toInt
  | .other message => message

namespace Failure

/-- The bit position of the failure. -/
def position (e : Failure) : Nat :=
  e.location.position

/-- The failure as one line of text. -/
def text (e : Failure) : String :=
  match e.cause with
  | .endOfInput => "unexpected end of input at " ++ e.location.text
  | .mismatch m => "syntax error at " ++ e.location.text ++ ": " ++ m.message
  | .rejection r => r.message ++ " at " ++ e.location.text

/-- The failure with its parts named, for diagnostics. -/
def dump (e : Failure) : String :=
  match e.cause with
  | .endOfInput => "UnexpectedEndOfInput(" ++ e.location.dump ++ ")"
  | .mismatch m => "SyntaxError" ++ fields m.message
  | .rejection r => "Unmatched" ++ fields r.message
where
  /-- A message and the location as named fields. -/
  fields (message : String) : String :=
    " \x7b message: " ++ Quoted.encode message ++ ", loc: " ++ e.location.dump ++ " \x7d"

/-- The failure that got further; the first of two that got equally far. -/
def furthest (first second : Failure) : Failure :=
  if first.position < second.position then second else first

/-- One more failure on top of those seen so far. -/
def keepFurthest : Option Failure → Failure → Failure
  | none, e => e
  | some seen, e => seen.furthest e

theorem position_furthest (a b : Failure) :
    (a.furthest b).position = max a.position b.position := by
  unfold furthest
  split <;> omega

theorem furthest_assoc (a b c : Failure) :
    (a.furthest b).furthest c = a.furthest (b.furthest c) := by
  simp only [furthest]
  grind

end Failure

end BitGrammar
