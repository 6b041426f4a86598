import BitGrammar.Cursor

/-!
# Reading from a cursor

A read takes a range of bits. The range is cut at the byte boundaries into `Piece`s; each piece is
the number its bits spell in the bit order, and the pieces are joined in the byte order. Every
read either fails at the cursor because the input is too short, or ends exactly behind the range.
-/

namespace BitGrammar

/-- A run of bits within one byte of the input, from one offset in the byte up to another. -/
structure Piece where
  byte : Nat
  first : Nat
  last : Nat
  deriving DecidableEq, Repr, Inhabited

namespace Piece

/-- The number of bits. -/
def width (p : Piece) : Nat :=
  p.last - p.first

/-- The pieces of a range of bits, one for each byte that it touches. -/
def ofRange (position count : Nat) : List Piece :=
  (List.range' (position / 8) ((position % 8 + count + 7) / 8)).map fun i =>
    { byte := i
      first := max position (8 * i) - 8 * i
      last := min (position + count) (8 * i + 8) - 8 * i }

/-- The number that the bits of a piece spell, given the byte that they belong to. Offsets in a
byte count from its most or from its least significant bit, as the order says. -/
def value (p : Piece) (order : Significance) (byte : Nat) : Nat :=
  match order with
  | .mostFirst => (byte >>> (8 - p.last)) % (1 <<< p.width)
  | .leastFirst => (byte >>> p.first) % (1 <<< p.width)

end Piece

/-- Numbers of given widths joined into one, the first of them at the end that the order says. -/
def Significance.join (order : Significance) (parts : List (Nat × Nat)) : Nat :=
  match order with
  | .mostFirst => parts.foldl (fun joined (width, n) => joined <<< width + n) 0
  | .leastFirst => parts.foldr (fun (width, n) joined => joined <<< width + n) 0

/-- The number in two's complement that has a given value when read without a sign. -/
def signExtend (width raw : Nat) : Int :=
  if raw < 1 <<< (width - 1) then raw else (raw : Int) - (1 <<< width : Nat)

namespace Cursor

/-- The number that the next bits spell. -/
def peekNat (c : Cursor) (count : Nat) : Nat :=
  c.order.bytes.join <| (Piece.ofRange c.position count).map fun p =>
    (p.width, p.value c.order.bits (c.input.getD p.byte 0).toNat)

/-- Goes over the next bits. -/
def skip (c : Cursor) (count : Nat) : Except Failure Cursor :=
  if c.remaining < count then .error c.endOfInput else .ok (c.advance count)

/-- Reads bits as a number without a sign. -/
def readNat (c : Cursor) (count : Nat) : Except Failure (Nat × Cursor) :=
  if c.remaining < count then .error c.endOfInput else .ok (c.peekNat count, c.advance count)

/-- Reads bits as an integer of up to 64 bits, in two's complement when signed. -/
def readInteger (c : Cursor) (count : Nat) (signed : Bool) : Except Failure (Value × Cursor) :=
  match c.readNat count with
  | .ok (raw, next) =>
    .ok (if signed then .int (.ofInt (signExtend count raw)) else .uint (.ofNat raw), next)
  | .error e => .error e

/-- Reads eight bits as a byte. -/
def readByte (c : Cursor) : Except Failure (UInt8 × Cursor) :=
  match c.readNat 8 with
  | .ok (raw, next) => .ok (.ofNat raw, next)
  | .error e => .error e

/-- Reads bytes one after another. -/
def readBytesSlowly (c : Cursor) : Nat → Except Failure (List UInt8 × Cursor)
  | 0 => .ok ([], c)
  | count + 1 =>
    match c.readByte with
    | .ok (b, next) =>
      match next.readBytesSlowly count with
      | .ok (bs, finish) => .ok (b :: bs, finish)
      | .error e => .error e
    | .error e => .error e

/-- Reads whole bytes. Where the bytes to read are bytes of the input they are taken at once. -/
def readBytes (c : Cursor) (count : Nat) : Except Failure (List UInt8 × Cursor) :=
  if c.remaining < 8 * count then .error c.endOfInput
  else if c.bitOffset = 0 ∧ c.order.bits = .mostFirst then
    .ok ((c.input.extract c.byteOffset (c.byteOffset + count)).toList, c.advance (8 * count))
  else c.readBytesSlowly count

/-- Moves to a position counted from the start of the input. -/
def seek (c : Cursor) (position : Nat) : Except Failure Cursor :=
  if c.size < position then .error ⟨.endOfInput, ⟨c.input, c.size⟩⟩
  else .ok { c with position }

/-- Moves to a position counted from an anchor, backwards when the offset is negative. -/
def seekFrom (c : Cursor) (offset : Int64) (anchor : Anchor) : Except Failure Cursor :=
  let base := match anchor with
    | .start => 0
    | .current => c.position
    | .finish => c.size
  let target := (base : Int) + offset.toInt
  if target < 0 then .error (c.rejection (.seekLeavesInput offset anchor))
  else c.seek target.toNat

/-! ### What a read does -/

theorem skip_of_le {c : Cursor} {n : Nat} (h : n ≤ c.remaining) : c.skip n = .ok (c.advance n) :=
  if_neg (Nat.not_lt.mpr h)

theorem skip_of_lt {c : Cursor} {n : Nat} (h : c.remaining < n) :
    c.skip n = .error c.endOfInput :=
  if_pos h

theorem readNat_of_le {c : Cursor} {n : Nat} (h : n ≤ c.remaining) :
    c.readNat n = .ok (c.peekNat n, c.advance n) :=
  if_neg (Nat.not_lt.mpr h)

theorem readNat_of_lt {c : Cursor} {n : Nat} (h : c.remaining < n) :
    c.readNat n = .error c.endOfInput :=
  if_pos h

theorem readByte_of_le {c : Cursor} (h : 8 ≤ c.remaining) :
    c.readByte = .ok (.ofNat (c.peekNat 8), c.advance 8) := by
  rw [readByte, readNat_of_le h]

theorem readByte_of_lt {c : Cursor} (h : c.remaining < 8) : c.readByte = .error c.endOfInput := by
  rw [readByte, readNat_of_lt h]

theorem readByte_eq_ok {c d : Cursor} {b : UInt8} (h : c.readByte = .ok (b, d)) :
    8 ≤ c.remaining ∧ b = .ofNat (c.peekNat 8) ∧ d = c.advance 8 := by
  by_cases hr : 8 ≤ c.remaining
  · rw [readByte_of_le hr] at h
    cases h
    exact ⟨hr, rfl, rfl⟩
  · rw [readByte_of_lt (Nat.lt_of_not_le hr)] at h
    cases h

theorem seek_of_le {c : Cursor} {n : Nat} (h : n ≤ c.size) :
    c.seek n = .ok { c with position := n } :=
  if_neg (Nat.not_lt.mpr h)

theorem seek_of_lt {c : Cursor} {n : Nat} (h : c.size < n) :
    c.seek n = .error ⟨.endOfInput, ⟨c.input, c.size⟩⟩ :=
  if_pos h

/-! ### Targets of moves -/

/-- The position of an anchor. -/
def base (c : Cursor) : Anchor → Nat
  | .start => 0
  | .current => c.position
  | .finish => c.size

/-- Where an offset leads from an anchor, which may lie before the input or past its end. -/
def target (c : Cursor) (offset : Int64) (anchor : Anchor) : Int :=
  c.base anchor + offset.toInt

theorem seekFrom_eq (c : Cursor) (offset : Int64) (anchor : Anchor) :
    c.seekFrom offset anchor =
      if c.target offset anchor < 0 then .error (c.rejection (.seekLeavesInput offset anchor))
      else c.seek (c.target offset anchor).toNat := by
  cases anchor <;> rfl

theorem seekFrom_of_neg {c : Cursor} {offset : Int64} {anchor : Anchor}
    (h : c.target offset anchor < 0) :
    c.seekFrom offset anchor = .error (c.rejection (.seekLeavesInput offset anchor)) := by
  rw [seekFrom_eq, if_pos h]

theorem seekFrom_of_nonneg {c : Cursor} {offset : Int64} {anchor : Anchor}
    (h : 0 ≤ c.target offset anchor) :
    c.seekFrom offset anchor = c.seek (c.target offset anchor).toNat := by
  rw [seekFrom_eq, if_neg (Int.not_lt.mpr h)]

end Cursor

end BitGrammar
