import BitGrammar.Text.Printable

/-!
# Quoted text

Text in double quotes, with everything escaped that could not be told apart otherwise: the quote
and the backslash, a few control characters by a letter, and every other character that is not
printable by its code point.
-/

namespace BitGrammar.Quoted

/-- One character as it stands between quotes. -/
def escape (c : Char) : List Char :=
  match c with
  | '\x00' => ['\\', '0']
  | '\t' => ['\\', 't']
  | '\r' => ['\\', 'r']
  | '\n' => ['\\', 'n']
  | '\\' => ['\\', '\\']
  | '"' => ['\\', '"']
  | _ =>
    if Printable.isPrintable c then [c]
    else ['\\', 'u', '\x7b'] ++ Nat.toDigits 16 c.toNat ++ ['\x7d']

/-- A text in quotes. -/
def encode (s : String) : String :=
  String.ofList ('"' :: s.toList.flatMap escape ++ ['"'])

end BitGrammar.Quoted
