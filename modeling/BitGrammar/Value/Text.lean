import BitGrammar.Value
import BitGrammar.Text.Hex

/-!
# Values as text

`Value.text` is the short form of a value that messages and records use: raw bytes in angle
brackets, numbers in hexadecimal behind a letter for their sign, sequences in round brackets.
`Value.dump` names every constructor and writes numbers in decimal.
-/

namespace BitGrammar

namespace Value

/-- Bytes as pairs of digits with a point between them. -/
def dottedBytes : List UInt8 → List Char
  | [] => []
  | [b] => Hex.pair b
  | b :: bs => Hex.pair b ++ '.' :: dottedBytes bs

/-- A signed number in hexadecimal, its sign written before the digits. -/
def signedDigits (n : Int) : List Char :=
  if n < 0 then "s-0x".toList ++ Hex.digits n.natAbs else "s0x".toList ++ Hex.digits n.natAbs

mutual

/-- The characters of a value's short form. -/
def chars : Value → List Char
  | .bytes data => '<' :: dottedBytes data ++ ['>']
  | .char c => "u0x".toList ++ Hex.pair c
  | .int n => signedDigits n.toInt
  | .uint n => "u0x".toList ++ Hex.digits n.toNat
  | .sequence items => '(' :: itemChars items ++ [')']
  | .unit => "unit".toList
  | .absent => "null".toList
  | .user _ _ => "<user>".toList
  termination_by structural v => v

/-- The short forms of the items of a sequence, with a space between them. -/
def itemChars : List Value → List Char
  | [] => []
  | v :: vs => match vs with
    | [] => chars v
    | _ => chars v ++ ' ' :: itemChars vs
  termination_by structural vs => vs

end

theorem chars_char (c : UInt8) : (char c).chars = "u0x".toList ++ Hex.pair c := rfl

theorem chars_int (n : Int64) : (int n).chars = signedDigits n.toInt := rfl

theorem chars_uint (n : UInt64) : (uint n).chars = "u0x".toList ++ Hex.digits n.toNat := rfl

theorem chars_sequence (items : List Value) :
    (sequence items).chars = '(' :: itemChars items ++ [')'] := rfl

theorem itemChars_cons_cons (v w : Value) (items : List Value) :
    itemChars (v :: w :: items) = v.chars ++ ' ' :: itemChars (w :: items) := rfl

/-- The short form of a value. -/
def text (v : Value) : String :=
  String.ofList v.chars

/-- Texts in square brackets with a comma between them. -/
def bracketed (items : List String) : String :=
  "[" ++ ", ".intercalate items ++ "]"

mutual

/-- The long form of a value, with its constructors named. -/
def dump : Value → String
  | .bytes data => "Bytes(" ++ bracketed (data.map fun b => toString b.toNat) ++ ")"
  | .char c => "Char(" ++ toString c.toNat ++ ")"
  | .int n => "SignedInt(" ++ toString n.toInt ++ ")"
  | .uint n => "UnsignedInt(" ++ toString n.toNat ++ ")"
  | .sequence items => "Sequence(" ++ bracketed (itemDumps items) ++ ")"
  | .unit => "Unit"
  | .absent => "Absent"
  | .user _ _ => "User(UserValue(..))"
  termination_by structural v => v

/-- The long forms of the items of a sequence. -/
def itemDumps : List Value → List String
  | [] => []
  | v :: vs => dump v :: itemDumps vs
  termination_by structural vs => vs

end

end Value

end BitGrammar
