import BitGrammar.ReadOrder
import BitGrammar.Failure

/-!
# Cursors

A `Cursor` is a bit position in an input, together with the order in which numbers are read from
there. Cursors are values: reading gives a new cursor and leaves the old one as it was, so that
going back is using an earlier one again.

Every move of this library ends at a cursor within the input (`WellFormed`). There the position
and the number of bits that remain add up to the size (`WellFormed.position_add_remaining`).
-/

namespace BitGrammar

/-- A bit position in an input, and the order of reading. -/
structure Cursor where
  input : Array UInt8
  position : Nat := 0
  order : ReadOrder := {}
  deriving DecidableEq, Inhabited

namespace Cursor

/-- The number of bits of the input. -/
def size (c : Cursor) : Nat :=
  8 * c.input.size

/-- The position does not lie past the end of the input. -/
def WellFormed (c : Cursor) : Prop :=
  c.position ≤ c.size

/-- The byte that the position lies in. -/
def byteOffset (c : Cursor) : Nat :=
  c.position / 8

/-- The bits of that byte that lie before the position. -/
def bitOffset (c : Cursor) : Nat :=
  c.position % 8

/-- The number of bits from the position to the end of the input. -/
def remaining (c : Cursor) : Nat :=
  c.size - c.position

/-- True when no byte of the input is left. -/
def atEnd (c : Cursor) : Bool :=
  c.input.size ≤ c.byteOffset

/-- The number of positions within the input. -/
def positions (c : Cursor) : Nat :=
  c.size + 1

/-- The place of the cursor, for failures. -/
def location (c : Cursor) : Location :=
  ⟨c.input, c.position⟩

/-- The same position with another order of reading. -/
def withOrder (c : Cursor) (order : ReadOrder) : Cursor :=
  { c with order }

/-- The cursor a number of bits further. -/
def advance (c : Cursor) (count : Nat) : Cursor :=
  { c with position := c.position + count }

/-- The number of bits from an earlier cursor to this one; none when that one lies further. -/
def bitsSince (c earlier : Cursor) : Nat :=
  c.position - earlier.position

/-- The failure of running past the end of the input from here. -/
def endOfInput (c : Cursor) : Failure :=
  ⟨.endOfInput, c.location⟩

/-- The failure of finding something else than expected here. -/
def mismatch (c : Cursor) (m : Mismatch) : Failure :=
  ⟨.mismatch m, c.location⟩

/-- The failure of a condition that does not hold here. -/
def rejection (c : Cursor) (r : Rejection) : Failure :=
  ⟨.rejection r, c.location⟩

/-- The cursor with its parts named, for diagnostics. -/
def dump (c : Cursor) : String :=
  "BitCursor \x7b data: " ++ Value.bracketed (c.input.toList.map fun b => toString b.toNat) ++
    ", byte_offset: " ++ toString c.byteOffset ++ ", bit_offset: " ++ toString c.bitOffset ++
    ", endianness: " ++ c.order.dump ++ " \x7d"

/-! ### Positions -/

theorem byteOffset_bitOffset (c : Cursor) : 8 * c.byteOffset + c.bitOffset = c.position :=
  Nat.div_add_mod c.position 8

theorem bitOffset_lt (c : Cursor) : c.bitOffset < 8 :=
  Nat.mod_lt _ (by decide)

theorem atEnd_iff (c : Cursor) : c.atEnd = true ↔ c.size ≤ c.position := by
  rw [atEnd, decide_eq_true_iff]
  unfold byteOffset size
  omega

theorem WellFormed.position_add_remaining {c : Cursor} (h : c.WellFormed) :
    c.position + c.remaining = c.size := by
  unfold WellFormed at h
  unfold remaining
  omega

theorem WellFormed.advance {c : Cursor} {n : Nat} (h : c.WellFormed) (fits : n ≤ c.remaining) :
    (c.advance n).WellFormed := by
  have := h.position_add_remaining
  change c.position + n ≤ c.size
  omega

theorem WellFormed.withOrder {c : Cursor} (h : c.WellFormed) (o : ReadOrder) :
    (c.withOrder o).WellFormed := h

@[simp] theorem size_advance (c : Cursor) (n : Nat) : (c.advance n).size = c.size := rfl

@[simp] theorem size_withOrder (c : Cursor) (o : ReadOrder) : (c.withOrder o).size = c.size := rfl

@[simp] theorem position_withOrder (c : Cursor) (o : ReadOrder) :
    (c.withOrder o).position = c.position := rfl

@[simp] theorem advance_zero (c : Cursor) : c.advance 0 = c := rfl

theorem advance_advance (c : Cursor) (m n : Nat) :
    (c.advance m).advance n = c.advance (m + n) := by
  simp [advance, Nat.add_assoc]

theorem remaining_advance (c : Cursor) (n : Nat) : (c.advance n).remaining = c.remaining - n :=
  Nat.sub_add_eq _ _ _

/-! ### Moves by whole bytes -/

theorem advance_eight_advance (c : Cursor) (n : Nat) :
    (c.advance 8).advance (8 * n) = c.advance (8 * (n + 1)) := by
  rw [advance_advance, Nat.mul_succ, Nat.add_comm]

theorem bitOffset_advance_eight (c : Cursor) (n : Nat) :
    (c.advance (8 * n)).bitOffset = c.bitOffset :=
  Nat.add_mul_mod_self_left _ _ _

theorem byteOffset_advance_eight (c : Cursor) (n : Nat) :
    (c.advance (8 * n)).byteOffset = c.byteOffset + n :=
  Nat.add_mul_div_left _ _ (by decide)

end Cursor

end BitGrammar
