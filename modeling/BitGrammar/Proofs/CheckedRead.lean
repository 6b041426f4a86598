import BitGrammar.Proofs.BitStream
import BitGrammar.Proofs.Bounds

/-!
# Reading with checked arithmetic

The reads of `Cursor` compute with natural numbers, where differences stop at zero, and take a
byte that is not there to be zero. The reads of this module compute with machine words of a number
of bits and ask at every step whether the step can be made: a sum or product has to fit into a
word, a difference must not be negative, and every byte that is looked at has to be there.
`none` is the answer when a step cannot be made.

On well-formed cursors every step can be made, so that the checked reads are the reads of `Cursor`.

## Main definitions

* `Machine.word?`, `Machine.minus?`, `Machine.slice?`: the steps that can go wrong
* `Cursor.remaining?`, `Cursor.readNat?`, `Cursor.readBytes?`, … : the checked reads

## Main results

* `Cursor.remaining?_eq`, `Cursor.readNat?_eq`, `Cursor.readBytes?_eq`, … : each checked read is
  the read that it checks
-/

namespace BitGrammar

/-! ### Steps that can go wrong -/

namespace Machine

/-- A number that fits into a word. -/
def word? (width n : Nat) : Option Nat :=
  if n < 2 ^ width then some n else none

/-- A difference that is not negative. -/
def minus? (m n : Nat) : Option Nat :=
  if n ≤ m then some (m - n) else none

/-- The bytes from one index to another one, neither of which lies past the end. -/
def slice? (input : Array UInt8) (first last : Nat) : Option (List UInt8) :=
  if first ≤ last ∧ last ≤ input.size then some (input.extract first last).toList else none

theorem word?_of_lt {width n : Nat} (h : n < 2 ^ width) : word? width n = some n :=
  if_pos h

theorem minus?_of_le {m n : Nat} (h : n ≤ m) : minus? m n = some (m - n) :=
  if_pos h

end Machine

open Machine

/-- The number that the bits of a piece of an input spell. -/
def Piece.value? (p : Piece) (order : Significance) (input : Array UInt8) : Option Nat := do
  let byte ← input[p.byte]?
  let width ← minus? p.last p.first
  let shift ← match order with
    | .mostFirst => minus? 8 p.last
    | .leastFirst => some p.first
  return (byte.toNat >>> shift) % (1 <<< width)

theorem mapM_eq_some_map {α β : Type} {f : α → Option β} {g : α → β} {l : List α}
    (h : ∀ a ∈ l, f a = some (g a)) : l.mapM f = some (l.map g) := by
  induction l with
  | nil => rfl
  | cons a l ih =>
    rw [List.mapM_cons, h a (List.mem_cons_self ..), ih fun b hb => h b (List.mem_cons_of_mem a hb)]
    rfl

theorem Piece.value?_eq {p : Piece} {input : Array UInt8}
    (hbyte : p.byte < input.size) (hwidth : p.first ≤ p.last) (hlast : p.last ≤ 8)
    (order : Significance) :
    p.value? order input = some (p.value order (input.getD p.byte 0).toNat) := by
  rw [Piece.value?, Array.getElem?_eq_getElem hbyte, minus?_of_le hwidth, minus?_of_le hlast]
  cases order with
  | mostFirst => simp [Piece.value, Piece.width, Array.getD, hbyte]
  | leastFirst => simp [Piece.value, Piece.width, Array.getD, hbyte]

/-! ### Checked reads -/

namespace Cursor

variable (width : Nat) (c : Cursor)

/-- `Cursor.size`, checked. -/
def size? : Option Nat :=
  word? width (8 * c.input.size)

/-- `Cursor.position`, checked. It is put together from the offsets of the byte and of the bit. -/
def position? : Option Nat := do
  let bits ← word? width (8 * c.byteOffset)
  word? width (bits + c.bitOffset)

/-- `Cursor.remaining`, checked. -/
def remaining? : Option Nat := do
  minus? (← c.size? width) (← c.position? width)

/-- `Cursor.advance`, checked. -/
def advance? (count : Nat) : Option Cursor := do
  let position ← word? width ((← c.position? width) + count)
  return { c with position }

/-- `Cursor.skip`, checked. -/
def skip? (count : Nat) : Option (Except Failure Cursor) := do
  if (← c.remaining? width) < count then return .error c.endOfInput
  else return .ok (← c.advance? width count)

/-- `Cursor.peekNat`, checked. Reading goes on behind each piece, so that the position there has
to fit into a word as well. -/
def peekNat? (count : Nat) : Option Nat := do
  let parts ← (Piece.ofRange c.position count).mapM fun p => do
    let n ← p.value? c.order.bits c.input
    let _ ← word? width (8 * p.byte + p.last)
    return (p.width, n)
  return c.order.bytes.join parts

/-- `Cursor.readNat`, checked. -/
def readNat? (count : Nat) : Option (Except Failure (Nat × Cursor)) := do
  if (← c.remaining? width) < count then return .error c.endOfInput
  else return .ok (← c.peekNat? width count, ← c.advance? width count)

/-- `Cursor.readInteger`, checked. -/
def readInteger? (count : Nat) (signed : Bool) : Option (Except Failure (Value × Cursor)) := do
  match ← c.readNat? width count with
  | .ok (raw, next) =>
    return .ok (if signed then .int (.ofInt (signExtend count raw)) else .uint (.ofNat raw), next)
  | .error e => return .error e

/-- `Cursor.readByte`, checked. -/
def readByte? : Option (Except Failure (UInt8 × Cursor)) := do
  match ← c.readNat? width 8 with
  | .ok (raw, next) => return .ok (.ofNat raw, next)
  | .error e => return .error e

/-- `Cursor.readBytesSlowly`, checked. -/
def readBytesSlowly? (c : Cursor) : Nat → Option (Except Failure (List UInt8 × Cursor))
  | 0 => some (.ok ([], c))
  | count + 1 => do
    match ← c.readByte? width with
    | .ok (b, next) =>
      match ← next.readBytesSlowly? count with
      | .ok (bs, finish) => return .ok (b :: bs, finish)
      | .error e => return .error e
    | .error e => return .error e

/-- `Cursor.readBytes`, checked. The number of bits is capped at the largest word, which counts as
too many. -/
def readBytes? (count : Nat) : Option (Except Failure (List UInt8 × Cursor)) := do
  if (← c.remaining? width) < min (8 * count) (2 ^ width - 1) then return .error c.endOfInput
  else if c.bitOffset = 0 ∧ c.order.bits = .mostFirst then do
    let last ← word? width (c.byteOffset + count)
    let bytes ← slice? c.input c.byteOffset last
    let bits ← word? width (8 * count)
    return .ok (bytes, ← c.advance? width bits)
  else c.readBytesSlowly? width count

/-- `Cursor.seek`, checked. -/
def seek? (position : Nat) : Option (Except Failure Cursor) := do
  let size ← c.size? width
  if size < position then return .error ⟨.endOfInput, ⟨c.input, size⟩⟩
  else return .ok { c with position }

/-- `Cursor.seekFrom`, checked. The target itself is found without a check, as it is a failure when
it leaves the input. -/
def seekFrom? (offset : Int64) (anchor : Anchor) : Option (Except Failure Cursor) := do
  let base ← match anchor with
    | .start => some 0
    | .current => c.position? width
    | .finish => c.size? width
  let target := (base : Int) + offset.toInt
  if target < 0 then return .error (c.rejection (.seekLeavesInput offset anchor))
  else c.seek? width target.toNat

/-! ### Checked reads are reads -/

variable {width c} (h : c.WellFormed) (fits : c.size < 2 ^ width)

include fits in
theorem size?_eq : c.size? width = some c.size :=
  word?_of_lt fits

include h fits in
theorem position?_eq : c.position? width = some c.position := by
  have hbits : 8 * c.byteOffset + c.bitOffset = c.position := c.byteOffset_bitOffset
  have hlt : c.position < 2 ^ width := Nat.lt_of_le_of_lt h fits
  rw [position?, word?_of_lt (show 8 * c.byteOffset < 2 ^ width by omega)]
  simp only [Option.bind_eq_bind, Option.bind_some]
  rw [hbits]
  exact word?_of_lt hlt

include h fits in
theorem remaining?_eq : c.remaining? width = some c.remaining := by
  rw [remaining?, size?_eq fits, position?_eq h fits]
  exact minus?_of_le h

include h fits in
theorem advance?_eq {count : Nat} (hcount : count ≤ c.remaining) :
    c.advance? width count = some (c.advance count) := by
  have hsum := h.position_add_remaining
  rw [advance?, position?_eq h fits]
  simp only [Option.bind_eq_bind, Option.bind_some]
  rw [word?_of_lt (show c.position + count < 2 ^ width by omega)]
  rfl

include h fits in
theorem skip?_eq (count : Nat) : c.skip? width count = some (c.skip count) := by
  rw [skip?, remaining?_eq h fits, skip]
  simp only [Option.bind_eq_bind, Option.bind_some]
  split
  · rfl
  · rw [advance?_eq h fits (by omega)]
    rfl

include h fits in
theorem peekNat?_eq {count : Nat} (hcount : count ≤ c.remaining) :
    c.peekNat? width count = some (c.peekNat count) := by
  have hsum := h.position_add_remaining
  have hpiece : ∀ p ∈ Piece.ofRange c.position count,
      (do
        let n ← p.value? c.order.bits c.input
        let _ ← word? width (8 * p.byte + p.last)
        return (p.width, n)) =
        some (p.width, p.value c.order.bits (c.input.getD p.byte 0).toNat) := by
    intro p hp
    obtain ⟨hordered, hlast⟩ := Piece.ordered_of_mem_ofRange hp
    obtain ⟨hbyte, hend⟩ :=
      Piece.byte_lt_of_mem_ofRange hp (show c.position + count ≤ c.size by omega)
    rw [Piece.value?_eq hbyte hordered hlast, word?_of_lt (Nat.lt_of_le_of_lt hend fits)]
    rfl
  rw [peekNat?, mapM_eq_some_map hpiece]
  rfl

include h fits in
theorem readNat?_eq (count : Nat) : c.readNat? width count = some (c.readNat count) := by
  rw [readNat?, remaining?_eq h fits, readNat]
  simp only [Option.bind_eq_bind, Option.bind_some]
  split
  · rfl
  · rw [peekNat?_eq h fits (by omega), advance?_eq h fits (by omega)]
    rfl

include h fits in
theorem readInteger?_eq (count : Nat) (signed : Bool) :
    c.readInteger? width count signed = some (c.readInteger count signed) := by
  rw [readInteger?, readNat?_eq h fits, readInteger]
  cases c.readNat count <;> rfl

include h fits in
theorem readByte?_eq : c.readByte? width = some c.readByte := by
  rw [readByte?, readNat?_eq h fits, readByte]
  cases c.readNat 8 <;> rfl

include h fits in
theorem readBytesSlowly?_eq (count : Nat) :
    c.readBytesSlowly? width count = some (c.readBytesSlowly count) := by
  induction count generalizing c with
  | zero => rfl
  | succ count ih =>
    have hread := (h.within (Nat.zero_le _)).readByte
    rw [readBytesSlowly?, readByte?_eq h fits, readBytesSlowly]
    cases hr : c.readByte with
    | ok r =>
      rw [hr] at hread
      have hsize : r.2.size < 2 ^ width := by
        rw [size, hread.1.input_eq]
        exact fits
      simp only [Option.bind_eq_bind, Option.bind_some]
      rw [ih hread.1.wellFormed hsize]
      cases r.2.readBytesSlowly count <;> rfl
    | error e => rfl

include h fits in
theorem readBytes?_eq (positive : 0 < width) (count : Nat) :
    c.readBytes? width count = some (c.readBytes count) := by
  -- sizes are multiples of eight, so that none is the largest word
  have hcap : c.remaining < min (8 * count) (2 ^ width - 1) ↔ c.remaining < 8 * count := by
    have hodd : 2 ^ width % 2 = 0 := by
      rw [show width = width - 1 + 1 by omega, Nat.pow_succ]
      exact Nat.mul_mod_left _ _
    have hsize : c.remaining ≤ 8 * c.input.size := Nat.sub_le _ _
    have hfits : 8 * c.input.size < 2 ^ width := fits
    omega
  have hsum := h.position_add_remaining
  have hsize : c.size = 8 * c.input.size := rfl
  rw [readBytes?, remaining?_eq h fits, readBytes]
  simp only [Option.bind_eq_bind, Option.bind_some, hcap]
  split
  · rfl
  · split
    · have hoffsets := c.byteOffset_bitOffset
      rw [word?_of_lt (show c.byteOffset + count < 2 ^ width by omega),
        word?_of_lt (show 8 * count < 2 ^ width by omega)]
      simp only [Option.bind_some]
      rw [slice?, if_pos ⟨Nat.le_add_right _ _, by omega⟩, advance?_eq h fits (by omega)]
      rfl
    · exact readBytesSlowly?_eq h fits count

include fits in
theorem seek?_eq (position : Nat) : c.seek? width position = some (c.seek position) := by
  rw [seek?, size?_eq fits, seek]
  simp only [Option.bind_eq_bind, Option.bind_some]
  split <;> rfl

include h fits in
theorem seekFrom?_eq (offset : Int64) (anchor : Anchor) :
    c.seekFrom? width offset anchor = some (c.seekFrom offset anchor) := by
  have move : ∀ base : Nat,
      (if (base : Int) + offset.toInt < 0 then
          pure (.error (c.rejection (.seekLeavesInput offset anchor)))
        else c.seek? width ((base : Int) + offset.toInt).toNat) =
        some (if (base : Int) + offset.toInt < 0 then
            .error (c.rejection (.seekLeavesInput offset anchor))
          else c.seek ((base : Int) + offset.toInt).toNat) := by
    intro base
    rw [seek?_eq fits]
    split <;> rfl
  cases anchor with
  | start => exact move 0
  | current =>
    rw [seekFrom?, position?_eq h fits]
    exact move c.position
  | finish =>
    rw [seekFrom?, size?_eq fits]
    exact move c.size

end Cursor

end BitGrammar
