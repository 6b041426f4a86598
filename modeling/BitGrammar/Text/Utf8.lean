/-!
# Decoding UTF-8

`decode` turns any bytes into text. A well-formed sequence gives its character. Where the bytes
are not well formed, each longest run that starts a well-formed sequence without completing it
gives one replacement character, and so does every byte that can start none.
-/

namespace BitGrammar.Utf8

/-- What stands for bytes that are no character. -/
def replacement : Char := '\ufffd'

/-- A sequence of which some bytes have been read: the bits collected, how many bytes are missing,
and the range that the next of them must lie in. -/
structure Pending where
  code : Nat
  missing : Nat
  lower : Nat
  upper : Nat

/-- The sequence that a byte starts, when it can start one of several bytes. The range of the
second byte excludes overlong forms, surrogates and numbers above the last code point. -/
def lead? (b : Nat) : Option Pending :=
  if 0xc2 ≤ b ∧ b ≤ 0xdf then some ⟨b % 0x20, 1, 0x80, 0xbf⟩
  else if b = 0xe0 then some ⟨b % 0x10, 2, 0xa0, 0xbf⟩
  else if b = 0xed then some ⟨b % 0x10, 2, 0x80, 0x9f⟩
  else if 0xe1 ≤ b ∧ b ≤ 0xef then some ⟨b % 0x10, 2, 0x80, 0xbf⟩
  else if b = 0xf0 then some ⟨b % 0x08, 3, 0x90, 0xbf⟩
  else if 0xf1 ≤ b ∧ b ≤ 0xf3 then some ⟨b % 0x08, 3, 0x80, 0xbf⟩
  else if b = 0xf4 then some ⟨b % 0x08, 3, 0x80, 0x8f⟩
  else none

/-- Reads a byte where no sequence is pending. -/
def start (b : Nat) : List Char × Option Pending :=
  if b < 0x80 then ([Char.ofNat b], none)
  else match lead? b with
    | some p => ([], some p)
    | none => ([replacement], none)

/-- Reads a byte. One that does not continue the pending sequence ends it and starts anew. -/
def step (pending : Option Pending) (b : Nat) : List Char × Option Pending :=
  match pending with
  | none => start b
  | some p =>
    if p.lower ≤ b ∧ b ≤ p.upper then
      let code := p.code * 0x40 + b % 0x40
      if p.missing ≤ 1 then ([Char.ofNat code], none)
      else ([], some ⟨code, p.missing - 1, 0x80, 0xbf⟩)
    else
      let (chars, next) := start b
      (replacement :: chars, next)

/-- Reads the bytes that follow a pending sequence. -/
def decodeFrom : Option Pending → List UInt8 → List Char
  | none, [] => []
  | some _, [] => [replacement]
  | pending, b :: bs =>
    let (chars, next) := step pending b.toNat
    chars ++ decodeFrom next bs

/-- The text that bytes stand for. -/
def decode (bytes : List UInt8) : String :=
  String.ofList (decodeFrom none bytes)

end BitGrammar.Utf8
