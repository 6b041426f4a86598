import BitGrammar.Proofs.SplitRead
import Mathlib.Data.List.SplitBy

/-!
# Reading into a word, and the bits that come out

A number is read by a loop over the bytes that it touches. What a byte contributes is cut out of it
by a shift and a mask and joined to a word of 64 bits by another shift. Here that loop is written
down with every step that can go wrong, and compared with what a read is in terms of bits: the
positions of the stream, cut at the byte boundaries into pieces, the bits of each piece taken as a
number, and the numbers of the pieces taken as one.

## What decides the design

Behind each turn of the loop, the word holds the number that a read of the bits so far gives
(`Cursor.accumulate?_eq`). A turn therefore has to show one thing, that a read of some bits more is
that number with a segment in front or behind. This is what `SplitRead` proves, and the condition
in mixed orders is no loss: a turn that is not the first one starts at a byte boundary.

No shift loses a bit, as the result of the turn is the number of a longer read, and numbers of at
most 64 bits fit into the word.

## Main definitions

* `Cursor.readWord?`: the loop, which has no answer when a shift goes wrong or a byte is not there
* `Cursor.streamNat`: the number that bits of the stream spell

## Main results

* `Cursor.accumulate?_eq`: what the word holds
* `Cursor.peekNat_eq_streamNat`: the number of a read, in terms of bits
* `Cursor.readNat_eq_streamNat`: reading, with all that can go wrong
-/

namespace BitGrammar

/-! ### Shifts that can go wrong -/

namespace Machine

/-- A word shifted to the left by less than the number of its bits, and without losing a bit. -/
def shiftLeft? (word : UInt64) (distance : Nat) : Option UInt64 :=
  if distance < 64 ∧ word.toNat * 2 ^ distance < 2 ^ 64 then some (word <<< .ofNat distance)
  else none

/-- A word shifted to the right by less than the number of its bits. -/
def shiftRight? (word : UInt64) (distance : Nat) : Option UInt64 :=
  if distance < 64 then some (word >>> .ofNat distance) else none

variable {n distance : Nat}

theorem shiftLeft?_ofNat (hd : distance < 64) (fits : n * 2 ^ distance < 2 ^ 64) :
    shiftLeft? (.ofNat n) distance = some (.ofNat (n * 2 ^ distance)) := by
  have small : n < 2 ^ 64 :=
    Nat.lt_of_le_of_lt (Nat.le_mul_of_pos_right n (Nat.two_pow_pos distance)) fits
  have word : (UInt64.ofNat n).toNat = n := UInt64.toNat_ofNat_of_lt' small
  rw [shiftLeft?, if_pos ⟨hd, by rwa [word]⟩, ← UInt64.ofNat_shiftLeft n distance hd,
    Nat.shiftLeft_eq]

theorem shiftRight?_ofNat (hd : distance < 64) (small : n < 2 ^ 64) :
    shiftRight? (.ofNat n) distance = some (.ofNat (n >>> distance)) := by
  have shifted : n >>> distance < 2 ^ 64 := Nat.lt_of_le_of_lt (Nat.shiftRight_le n distance) small
  have word : (UInt64.ofNat distance).toNat = distance :=
    UInt64.toNat_ofNat_of_lt' (Nat.lt_trans hd (by decide))
  rw [shiftRight?, if_pos hd]
  refine congrArg some (UInt64.toNat_inj.mp ?_)
  rw [UInt64.toNat_shiftRight, UInt64.toNat_ofNat_of_lt' small, UInt64.toNat_ofNat_of_lt' shifted,
    word, Nat.mod_eq_of_lt hd]

/-- A word cut down to its lowest bits. -/
theorem ofNat_and_mask (n k : Nat) :
    UInt64.ofNat n &&& (.ofNat (2 ^ k) - 1) = .ofNat (n % 2 ^ k) := by
  rw [← Nat.and_two_pow_sub_one_eq_mod, UInt64.ofNat_and, UInt64.ofNat_sub (Nat.two_pow_pos k)]
  rfl

/-- Words without a bit in common, joined. -/
theorem ofNat_or_ofNat (hn : n < 2 ^ distance) (k : Nat) :
    UInt64.ofNat (k * 2 ^ distance) ||| .ofNat n = .ofNat (k * 2 ^ distance + n) := by
  rw [← Nat.shiftLeft_eq, Nat.shiftLeft_add_eq_or_of_lt hn, UInt64.ofNat_or]

end Machine

open Machine

/-! ### The loop -/

/-- How far the byte of a segment is shifted to the right, so that the segment is what its lowest
bits are. -/
def Significance.distance (order : Significance) (bitOffset width : Nat) : Nat :=
  match order with
  | .mostFirst => 8 - bitOffset - width
  | .leastFirst => bitOffset

/-- A segment joined to the word that holds the bits before it. The segment has `width` bits, and
there are `done` bits before it. -/
def Significance.append? (order : Significance) (word segment : UInt64) (done width : Nat) :
    Option UInt64 :=
  match order with
  | .mostFirst => do return (← shiftLeft? word width) ||| segment
  | .leastFirst => do return word ||| (← shiftLeft? segment done)

namespace Cursor

/-- The next bits, which all lie in one byte, as a word. -/
def segment? (c : Cursor) (width : Nat) : Option UInt64 := do
  let byte ← c.input[c.byteOffset]?
  let shifted ← shiftRight? byte.toUInt64 (c.order.bits.distance c.bitOffset width)
  let power ← shiftLeft? 1 width
  return shifted &&& (power - 1)

/-- Takes the bits that are left, byte by byte, and joins them to a word that holds the `done` bits
before them. -/
def accumulate? (c : Cursor) (left done : Nat) (word : UInt64) : Option (UInt64 × Cursor) :=
  if left = 0 then some (word, c)
  else do
    let width := min (8 - c.bitOffset) left
    let segment ← c.segment? width
    let word ← c.order.bytes.append? word segment done width
    (c.advance width).accumulate? (left - width) (done + width) word
  termination_by left
  decreasing_by
    have := c.bitOffset_lt
    omega

/-- Reads bits as a number without a sign, into a word of 64 bits. -/
def readWord? (c : Cursor) (count : Nat) : Option (Except Failure (UInt64 × Cursor)) :=
  if c.remaining < count then some (.error c.endOfInput) else (c.accumulate? count 0 0).map .ok

/-! ### What the word holds -/

variable {c : Cursor} {width done left count : Nat}

theorem segment?_eq (pos : 0 < width) (inByte : c.bitOffset + width ≤ 8)
    (inside : c.byteOffset < c.input.size) :
    c.segment? width = some (.ofNat (c.peekNat width)) := by
  have byte : c.input.getD c.byteOffset 0 = c.input[c.byteOffset] := by
    simp [Array.getD, inside]
  have small : c.input[c.byteOffset].toNat < 2 ^ 64 :=
    Nat.lt_trans (UInt8.toNat_lt _) (by decide)
  have power : shiftLeft? 1 width = some (.ofNat (2 ^ width)) := by
    have h := shiftLeft?_ofNat (n := 1) (show width < 64 by omega)
      (by rw [Nat.one_mul]; exact Nat.pow_lt_pow_right (by decide) (by omega))
    rwa [Nat.one_mul] at h
  have near : c.order.bits.distance c.bitOffset width < 64 := by
    cases c.order.bits <;> simp only [Significance.distance] <;> omega
  rw [segment?, Array.getElem?_eq_getElem inside, power]
  simp only [Option.bind_eq_bind, Option.bind_some, ← UInt64.ofNat_uInt8ToNat]
  rw [shiftRight?_ofNat near small, Option.bind_some, ofNat_and_mask,
    peekNat_of_le_eight c pos inByte, byte]
  cases c.order.bits <;>
    simp [Significance.distance, Piece.value, Piece.width, Nat.one_shiftLeft, Nat.sub_sub]

/-- **One turn.** A segment joined to the number that was read before it is the number of a longer
read. The segment is the first one, or it starts at a byte boundary. -/
theorem append?_eq (start : done = 0 ∨ (c.advance done).bitOffset = 0) (pos : 0 < width)
    (inByte : width ≤ 8) (fits : done + width ≤ 64) :
    c.order.bytes.append? (.ofNat (c.peekNat done)) (.ofNat ((c.advance done).peekNat width))
      done width = some (.ofNat (c.peekNat (done + width))) := by
  have before := c.peekNat_lt done
  have segment := (c.advance done).peekNat_lt width
  have total : 2 ^ done * 2 ^ width ≤ 2 ^ 64 := by
    rw [← Nat.pow_add]
    exact Nat.pow_le_pow_right (by decide) fits
  cases hb : c.order.bytes with
  | mostFirst =>
    have sum : c.peekNat (done + width) =
        c.peekNat done * 2 ^ width + (c.advance done).peekNat width := by
      rcases start with rfl | start
      · simp
      · exact peekNat_add_of_mostFirst (.inr ⟨hb, start⟩) width
    have shifted : c.peekNat done * 2 ^ width < 2 ^ 64 :=
      Nat.lt_of_lt_of_le (Nat.mul_lt_mul_of_pos_right before (Nat.two_pow_pos width)) total
    rw [sum, ← ofNat_or_ofNat segment, Significance.append?, shiftLeft?_ofNat (by omega) shifted]
    rfl
  | leastFirst =>
    have sum : c.peekNat (done + width) =
        (c.advance done).peekNat width * 2 ^ done + c.peekNat done := by
      rcases start with rfl | start
      · simp
      · rw [peekNat_add_of_leastFirst (.inr ⟨hb, start⟩) width, Nat.add_comm]
    have shifted : (c.advance done).peekNat width * 2 ^ done < 2 ^ 64 :=
      Nat.lt_of_lt_of_le (Nat.mul_lt_mul_of_pos_right segment (Nat.two_pow_pos done))
        (Nat.mul_comm _ _ ▸ total)
    rw [sum, ← ofNat_or_ofNat before, UInt64.or_comm, Significance.append?,
      shiftLeft?_ofNat (by omega) shifted]
    rfl

/-- **The loop.** From a word that holds the number read so far, it comes to the number of the whole
read. -/
theorem accumulate?_eq (start : left = 0 ∨ done = 0 ∨ (c.advance done).bitOffset = 0)
    (fits : done + left ≤ 64) (enough : done + left ≤ c.remaining) :
    (c.advance done).accumulate? left done (.ofNat (c.peekNat done)) =
      some (.ofNat (c.peekNat (done + left)), c.advance (done + left)) := by
  induction left using Nat.strongRecOn generalizing done with
  | _ left ih =>
    rw [accumulate?]
    split
    next none_left =>
      subst none_left
      rfl
    next some_left =>
      generalize hwidth : min (8 - (c.advance done).bitOffset) left = width
      have hbit := (c.advance done).bitOffset_lt
      have inside : (c.advance done).byteOffset < (c.advance done).input.size := by
        have : 8 * (c.advance done).byteOffset + (c.advance done).bitOffset = c.position + done :=
          (c.advance done).byteOffset_bitOffset
        have : c.remaining = 8 * c.input.size - c.position := rfl
        show (c.advance done).byteOffset < c.input.size
        omega
      -- a turn that leaves something for the next one takes all that is left of its byte
      have next : left - width = 0 ∨ done + width = 0 ∨
          (c.advance (done + width)).bitOffset = 0 := by
        have : (c.advance done).bitOffset = (c.position + done) % 8 := rfl
        have : (c.advance (done + width)).bitOffset = (c.position + (done + width)) % 8 := rfl
        omega
      have turn : c.order.bytes.append? (.ofNat (c.peekNat done))
          (.ofNat ((c.advance done).peekNat width)) done width =
            some (.ofNat (c.peekNat (done + width))) :=
        append?_eq (start.resolve_left some_left) (by omega) (by omega) (by omega)
      have rest := ih (left - width) (by omega) next (by omega) (by omega)
      rw [show done + width + (left - width) = done + left by omega] at rest
      simp only []
      rw [segment?_eq (by omega) (by omega) inside]
      simp only [Option.bind_eq_bind, Option.bind_some]
      rw [show (c.advance done).order = c.order from rfl, turn, advance_advance]
      exact rest

/-- Reading into a word is reading. -/
theorem readWord?_eq (c : Cursor) (fits : count ≤ 64) :
    (c.readWord? count).map (Except.map fun r => (r.1.toNat, r.2)) = some (c.readNat count) := by
  rw [readWord?]
  split
  next short =>
    rw [readNat_of_lt short]
    rfl
  next enough =>
    have enough := Nat.le_of_not_lt enough
    have loop : (c.advance 0).accumulate? count 0 (.ofNat (c.peekNat 0)) =
        some (.ofNat (c.peekNat (0 + count)), c.advance (0 + count)) :=
      accumulate?_eq (.inr (.inl rfl)) (by omega) (by omega)
    simp only [peekNat_zero, advance_zero, Nat.zero_add] at loop
    have small : c.peekNat count < 2 ^ 64 :=
      Nat.lt_of_lt_of_le (c.peekNat_lt count) (Nat.pow_le_pow_right (by decide) fits)
    rw [show (0 : UInt64) = .ofNat 0 by rfl, loop, readNat_of_le enough]
    simp [Except.map, UInt64.toNat_ofNat_of_lt' small]

end Cursor

/-! ### Bits of the stream as numbers -/

/-- Numbers of given widths side by side, the first of them at the end that the order says. -/
def Significance.concat (order : Significance) : List (Nat × Nat) → Nat
  | [] => 0
  | part :: parts =>
    match order with
    | .mostFirst => part.2 * 2 ^ (parts.map Prod.fst).sum + order.concat parts
    | .leastFirst => part.2 + order.concat parts * 2 ^ part.1

/-- Positions of a stream of bits, cut at the boundaries of bytes. -/
def cutAtBytes (positions : List Nat) : List (List Nat) :=
  positions.splitBy fun i j => i / 8 == j / 8

/-- The number that the next bits of the stream spell. The bits of each byte are a number of their
own, and these numbers stand side by side. -/
def Cursor.streamNat (c : Cursor) (count : Nat) : Nat :=
  c.order.bytes.concat <| (cutAtBytes (List.range' c.position count)).map fun piece =>
    (piece.length, c.order.bits.concat <|
      piece.map fun i => (1, (streamBit c.input c.order.bits i).toNat))

theorem Significance.join_eq_concat (order : Significance) (parts : List (Nat × Nat)) :
    order.join parts = order.concat parts := by
  cases order with
  | mostFirst =>
    have front : ∀ joined : Nat,
        parts.foldl (fun joined part => joined <<< part.1 + part.2) joined =
          joined * 2 ^ (parts.map Prod.fst).sum + mostFirst.concat parts := by
      induction parts with
      | nil => simp [concat]
      | cons part parts ih =>
        intro joined
        rw [List.foldl_cons, ih, Nat.shiftLeft_eq, concat, List.map_cons, List.sum_cons,
          Nat.pow_add]
        ring
    have joined := front 0
    rw [Nat.zero_mul, Nat.zero_add] at joined
    exact joined
  | leastFirst =>
    induction parts with
    | nil => rfl
    | cons part parts ih =>
      rw [concat, ← ih, Nat.add_comm, ← Nat.shiftLeft_eq]
      rfl

/-! ### Pieces -/

theorem Piece.width_pos_of_mem_ofRange {position count : Nat} (pos : 0 < count) {p : Piece}
    (hp : p ∈ Piece.ofRange position count) : 0 < p.width := by
  obtain ⟨i, hi, rfl⟩ := List.mem_map.mp hp
  obtain ⟨lower, upper⟩ := List.mem_range'_1.mp hi
  show 0 < min (position + count) (8 * i + 8) - 8 * i - (max position (8 * i) - 8 * i)
  omega

theorem Piece.pairwise_byte_lt_ofRange (position count : Nat) :
    (Piece.ofRange position count).Pairwise fun p q => p.byte < q.byte :=
  List.pairwise_map.mpr List.pairwise_lt_range'

theorem Piece.div_eight_of_mem {p : Piece} (last : p.last ≤ 8) {i : Nat}
    (hi : i ∈ List.range' (8 * p.byte + p.first) p.width) : i / 8 = p.byte := by
  obtain ⟨lower, upper⟩ := List.mem_range'_1.mp hi
  rw [Piece.width] at upper
  omega

/-- A range of positions, cut at the boundaries of bytes, is the positions of its pieces. -/
theorem cutAtBytes_range' (position : Nat) {count : Nat} (pos : 0 < count) :
    cutAtBytes (List.range' position count) = (Piece.ofRange position count).map fun p =>
      List.range' (8 * p.byte + p.first) p.width := by
  have nonempty : ∀ p ∈ Piece.ofRange position count,
      List.range' (8 * p.byte + p.first) p.width ≠ [] := by
    intro p hp none
    have := Piece.width_pos_of_mem_ofRange pos hp
    rw [List.range'_eq_nil_iff] at none
    omega
  have byte : ∀ p ∈ Piece.ofRange position count,
      ∀ i ∈ List.range' (8 * p.byte + p.first) p.width, i / 8 = p.byte :=
    fun p hp i hi => Piece.div_eight_of_mem (Piece.ordered_of_mem_ofRange hp).2 hi
  rw [← Piece.flatMap_ofRange position count, List.flatMap_def, cutAtBytes]
  refine List.splitBy_flatten ?_ ?_ ?_
  · intro h
    obtain ⟨p, hp, none⟩ := List.mem_map.mp h
    exact nonempty p hp none
  · intro places h
    obtain ⟨p, hp, rfl⟩ := List.mem_map.mp h
    refine (List.pairwise_of_forall_mem_list fun i hi j hj => ?_).isChain
    rw [byte p hp i hi, byte p hp j hj, beq_self_eq_true]
  · rw [List.isChain_map]
    refine (List.Pairwise.imp_of_mem ?_ (Piece.pairwise_byte_lt_ofRange position count)).isChain
    intro p q hp hq h
    refine ⟨nonempty p hp, nonempty q hq, ?_⟩
    rw [byte p hp _ (List.getLast_mem _), byte q hq _ (List.head_mem _)]
    exact beq_false_of_ne (Nat.ne_of_lt h)

/-- The bits of a piece as a number. -/
theorem Piece.concat_eq_value {p : Piece} (ordered : p.first ≤ p.last) (last : p.last ≤ 8)
    (order : Significance) (input : Array UInt8) :
    order.concat ((List.range' (8 * p.byte + p.first) p.width).map fun i =>
      (1, (streamBit input order i).toNat)) = p.value order (input.getD p.byte 0).toNat := by
  have single : ∀ i, (streamBit input order i).toNat =
      bitsValue ([i].map (streamBit input order)) := fun i => by simp [bitsValue_cons]
  have places : order.arrange ((List.range' (8 * p.byte + p.first) p.width).map fun i => [i]) =
      p.places order := by
    cases order with
    | mostFirst =>
      rw [Significance.arrange, ← List.map_reverse, ← List.flatMap_def, List.flatMap_singleton']
      rfl
    | leastFirst =>
      rw [Significance.arrange, ← List.flatMap_def, List.flatMap_singleton']
      rfl
  simp only [single]
  rw [← Significance.join_eq_concat,
    Significance.join_eq_bitsValue order _ (fun _ => 1) fun i => [i],
    Piece.value_eq_bitsValue ordered last, places]
  · intro i _
    rfl

namespace Cursor

/-- **The number of a read is the bits of the stream, byte by byte.** -/
theorem peekNat_eq_streamNat (c : Cursor) (count : Nat) : c.peekNat count = c.streamNat count := by
  rcases Nat.eq_zero_or_pos count with rfl | pos
  · rw [peekNat_zero]
    rfl
  · rw [peekNat, streamNat, cutAtBytes_range' _ pos, Significance.join_eq_concat, List.map_map]
    refine congrArg _ (List.map_congr_left fun p hp => ?_)
    obtain ⟨ordered, last⟩ := Piece.ordered_of_mem_ofRange hp
    rw [Function.comp_apply, List.length_range', Piece.concat_eq_value ordered last]

/-! ### Reading -/

/-- **Reading a number, bit by bit.** A read of up to 64 bits fails when fewer bits than that are
left, at the cursor and for the end of the input. Otherwise it ends behind its bits, and the number
is what these bits of the stream spell. The loop over the bytes comes to the same: there is always
an answer, as no byte is missing, no shift is as long as the word and none loses a bit. -/
theorem readNat_eq_streamNat (c : Cursor) {count : Nat} (fits : count ≤ 64) :
    ((∃ e, c.readNat count = .error e) ↔ c.remaining < count) ∧
    (c.remaining < count → c.readNat count = .error ⟨.endOfInput, ⟨c.input, c.position⟩⟩) ∧
    (count ≤ c.remaining →
      c.readNat count = .ok (c.streamNat count, ⟨c.input, c.position + count, c.order⟩)) ∧
    (c.readWord? count).map (Except.map fun r => (r.1.toNat, r.2)) = some (c.readNat count) := by
  refine ⟨⟨?_, fun short => ⟨_, readNat_of_lt short⟩⟩, readNat_of_lt, fun enough => ?_,
    readWord?_eq c fits⟩
  · rintro ⟨e, he⟩
    by_contra enough
    rw [readNat_of_le (Nat.le_of_not_lt enough)] at he
    cases he
  · rw [readNat_of_le enough, peekNat_eq_streamNat]
    rfl

/-- Sixty-four bits from the middle of a byte on, which touch nine bytes. -/
theorem readNat_eq_streamNat_nineBytes :
    64 ≤ (⟨#[0x10, 2, 3, 4, 5, 6, 7, 8, 0x9f], 4, ⟨.leastFirst, .mostFirst⟩⟩ : Cursor).remaining ∧
      ∃ next, (⟨#[0x10, 2, 3, 4, 5, 6, 7, 8, 0x9f], 4, ⟨.leastFirst, .mostFirst⟩⟩ : Cursor).readNat
        64 = .ok (0x9080706050403020, next) ∧ next.position = 68 := by
  obtain ⟨-, -, reads, -⟩ := readNat_eq_streamNat
    ⟨#[0x10, 2, 3, 4, 5, 6, 7, 8, 0x9f], 4, ⟨.leastFirst, .mostFirst⟩⟩ (le_refl 64)
  exact ⟨by decide, _, reads (by decide), rfl⟩

end Cursor

end BitGrammar
