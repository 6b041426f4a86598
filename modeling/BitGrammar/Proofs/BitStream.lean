import BitGrammar.Cursor.Read
import Mathlib.Data.Nat.Digits.Lemmas
/-!
# The input as a stream of bits

A read is written in terms of pieces of bytes, shifts and remainders. Here it is taken apart into
single bits. The input is a stream of bits once it is fixed from which end the bits of a byte are
taken, and a number that is read is spelled by the stream bits at certain positions.

## What decides the design

Which positions a read takes, and at which power of two each of them counts, depends on the order
of reading, the position and the width, but never on the input. `ReadOrder.places` says it once:
it lists the positions, the least significant first. All that is needed of it afterwards is that
it is a rearrangement of the positions from the start of the read on (`places_perm`). Nothing below
looks at byte boundaries again.

## Main definitions

* `bitsValue`: the number that a list of bits spells, the least significant first
* `streamBit`: one bit of an input, counted over all its bytes
* `ofStream`: the input with given stream bits
* `ReadOrder.places`: the stream positions that a read takes, the least significant first

## Main results

* `Cursor.peekNat_eq_bitsValue`: what a read yields, in terms of stream bits
* `Cursor.peekNat_eq_iff`: two reads yield one number only from the same bits
* `exists_bitsValue_places`: every number that is small enough is what some bits spell
-/

namespace BitGrammar

/-! ### Numbers written in bits -/

/-- The number that a list of bits spells, the least significant first. -/
def bitsValue (bits : List Bool) : Nat :=
  Nat.ofDigits 2 (bits.map Bool.toNat)

@[simp] theorem bitsValue_nil : bitsValue [] = 0 := rfl

theorem bitsValue_cons (b : Bool) (bits : List Bool) :
    bitsValue (b :: bits) = b.toNat + 2 * bitsValue bits :=
  Nat.ofDigits_cons

theorem bitsValue_append (low high : List Bool) :
    bitsValue (low ++ high) = bitsValue low + 2 ^ low.length * bitsValue high := by
  rw [bitsValue, List.map_append, Nat.ofDigits_append, List.length_map]
  rfl

theorem lt_two_of_mem_map_toNat (bits : List Bool) : ∀ n ∈ bits.map Bool.toNat, n < 2 := by
  intro n hn
  obtain ⟨b, -, rfl⟩ := List.mem_map.mp hn
  exact b.toNat_lt

theorem bitsValue_lt (bits : List Bool) : bitsValue bits < 2 ^ bits.length := by
  have := Nat.ofDigits_lt_base_pow_length (b := 2) (by decide)
    (lt_two_of_mem_map_toNat bits)
  rwa [List.length_map] at this

/-- Bits of one number are the same bits, if there are equally many of them. -/
theorem bitsValue_inj {bits bits' : List Bool} (length : bits.length = bits'.length)
    (h : bitsValue bits = bitsValue bits') : bits = bits' := by
  have hdigits : bits.map Bool.toNat = bits'.map Bool.toNat :=
    Nat.ofDigits_inj_of_len_eq (b := 2) (by decide) (by simpa using length)
      (lt_two_of_mem_map_toNat bits) (lt_two_of_mem_map_toNat bits') h
  have hinj : Function.Injective Bool.toNat := by decide
  exact List.map_injective_iff.mpr hinj hdigits

theorem exists_bitsValue_eq : ∀ {width n : Nat}, n < 2 ^ width →
    ∃ bits : List Bool, bits.length = width ∧ bitsValue bits = n := by
  intro width
  induction width with
  | zero =>
    intro n hn
    refine ⟨[], rfl, ?_⟩
    rw [bitsValue_nil]
    omega
  | succ width ih =>
    intro n hn
    obtain ⟨bits, length, value⟩ := ih (n := n / 2) (by rw [Nat.pow_succ] at hn; omega)
    refine ⟨(n % 2 == 1) :: bits, by rw [List.length_cons, length], ?_⟩
    rw [bitsValue_cons, value]
    rcases Nat.mod_two_eq_zero_or_one n with h | h <;> simp [h] <;> omega

theorem testBit_bitsValue (bits : List Bool) (i : Nat) :
    (bitsValue bits).testBit i = bits.getD i false := by
  induction bits generalizing i with
  | nil => simp
  | cons b bits ih =>
    rw [bitsValue_cons]
    cases i with
    | zero => cases b <;> simp
    | succ i =>
      have half : (b.toNat + 2 * bitsValue bits) / 2 = bitsValue bits := by
        have := b.toNat_lt
        omega
      rw [Nat.testBit_succ, half, ih, List.getD_cons_succ]

/-- A stretch of the bits of a number, as shifting and taking the remainder give it. -/
theorem bitsValue_testBit (n k width : Nat) :
    bitsValue ((List.range' k width).map n.testBit) = n >>> k % 2 ^ width := by
  induction width generalizing k with
  | zero => simp [Nat.mod_one]
  | succ width ih =>
    have head : (n.testBit k).toNat = n >>> k % 2 := by
      rw [Nat.testBit, Nat.one_and_eq_mod_two]
      rcases Nat.mod_two_eq_zero_or_one (n >>> k) with h | h <;> simp [h]
    rw [List.range'_succ, List.map_cons, bitsValue_cons, ih, head, Nat.pow_succ,
      Nat.mul_comm (2 ^ width), Nat.mod_mul, Nat.shiftRight_succ]

/-! ### The stream -/

/-- The bit of a byte that comes at a place, when bits are taken from the end that the order says.
Bits of a byte are numbered by significance. -/
def Significance.flip (order : Significance) (k : Nat) : Nat :=
  match order with
  | .mostFirst => 7 - k
  | .leastFirst => k

/-- One bit of an input, counted over all bytes. Behind the end of the input all bits are zero. -/
def streamBit (input : Array UInt8) (order : Significance) (i : Nat) : Bool :=
  (input.getD (i / 8) 0).toNat.testBit (order.flip (i % 8))

theorem Significance.flip_flip (order : Significance) {k : Nat} (hk : k < 8) :
    order.flip (order.flip k) = k := by
  cases order with
  | mostFirst => exact Nat.sub_sub_self (by omega)
  | leastFirst => rfl

theorem Significance.flip_lt (order : Significance) {k : Nat} (hk : k < 8) : order.flip k < 8 := by
  cases order with
  | mostFirst => exact Nat.lt_of_le_of_lt (Nat.sub_le 7 k) (by decide)
  | leastFirst => exact hk

/-- An input of a number of bytes is known when its stream bits are. -/
theorem eq_of_streamBit_eq (order : Significance) {input input' : Array UInt8}
    (size : input.size = input'.size)
    (h : ∀ i < 8 * input.size, streamBit input order i = streamBit input' order i) :
    input = input' := by
  refine Array.ext size fun j hj hj' => UInt8.toNat_inj.mp (Nat.eq_of_testBit_eq fun k => ?_)
  by_cases hk : k < 8
  · have hi : (8 * j + order.flip k) / 8 = j := by have := order.flip_lt hk; omega
    have hi' : (8 * j + order.flip k) % 8 = order.flip k := by have := order.flip_lt hk; omega
    have := h (8 * j + order.flip k) (by have := order.flip_lt hk; omega)
    rw [streamBit, streamBit, hi, hi', order.flip_flip hk] at this
    simpa [Array.getD_eq_getD_getElem?, hj, hj'] using this
  · have high : ∀ b : UInt8, b.toNat.testBit k = false := fun b =>
      Nat.testBit_lt_two_pow (Nat.lt_of_lt_of_le b.toNat_lt
        (Nat.pow_le_pow_right (by decide) (Nat.le_of_not_lt hk)))
    rw [high, high]

/-- The byte at an index of the input with given stream bits. -/
def byteOfStream (order : Significance) (bits : Nat → Bool) (j : Nat) : UInt8 :=
  .ofNat (bitsValue ((List.range 8).map fun k => bits (8 * j + order.flip k)))

/-- The input of a number of bytes with given stream bits. -/
def ofStream (order : Significance) (bytes : Nat) (bits : Nat → Bool) : Array UInt8 :=
  Array.ofFn fun j : Fin bytes => byteOfStream order bits j

@[simp] theorem size_ofStream (order : Significance) (bytes : Nat) (bits : Nat → Bool) :
    (ofStream order bytes bits).size = bytes :=
  Array.size_ofFn

theorem testBit_byteOfStream (order : Significance) (bits : Nat → Bool) (j : Nat) {k : Nat}
    (hk : k < 8) : (byteOfStream order bits j).toNat.testBit k = bits (8 * j + order.flip k) := by
  have small := bitsValue_lt ((List.range 8).map fun k => bits (8 * j + order.flip k))
  rw [List.length_map, List.length_range] at small
  rw [byteOfStream, UInt8.toNat_ofNat_of_lt' small, testBit_bitsValue]
  simp [List.getD_eq_getElem?_getD, hk]

theorem streamBit_ofStream (order : Significance) {bytes : Nat} (bits : Nat → Bool) {i : Nat}
    (hi : i < 8 * bytes) : streamBit (ofStream order bytes bits) order i = bits i := by
  have hj : i / 8 < bytes := by omega
  have hk : i % 8 < 8 := Nat.mod_lt _ (by decide)
  have byte : (ofStream order bytes bits).getD (i / 8) 0 = byteOfStream order bits (i / 8) := by
    simp [ofStream, Array.getD_eq_getD_getElem?, hj]
  rw [streamBit, byte, testBit_byteOfStream order bits _ (order.flip_lt hk), order.flip_flip hk,
    Nat.div_add_mod]

/-! ### Where a read takes its bits -/

/-- The stream positions of the bits of a piece, the least significant first. -/
def Piece.places (p : Piece) (order : Significance) : List Nat :=
  match order with
  | .mostFirst => (List.range' (8 * p.byte + p.first) p.width).reverse
  | .leastFirst => List.range' (8 * p.byte + p.first) p.width

/-- Lists of positions as one, the list that the order puts last in significance first. -/
def Significance.arrange (order : Significance) (parts : List (List Nat)) : List Nat :=
  match order with
  | .mostFirst => parts.reverse.flatten
  | .leastFirst => parts.flatten

/-- The stream positions that a read takes, the least significant first. -/
def ReadOrder.places (order : ReadOrder) (position count : Nat) : List Nat :=
  order.bytes.arrange ((Piece.ofRange position count).map (·.places order.bits))

theorem Piece.places_perm (p : Piece) (order : Significance) :
    (p.places order).Perm (List.range' (8 * p.byte + p.first) p.width) := by
  cases order with
  | mostFirst => exact List.reverse_perm _
  | leastFirst => exact List.Perm.refl _

theorem Significance.arrange_perm (order : Significance) (parts : List (List Nat)) :
    (order.arrange parts).Perm parts.flatten := by
  cases order with
  | mostFirst => exact (List.reverse_perm parts).flatten
  | leastFirst => exact List.Perm.refl _

/-- A range of positions, cut at the bytes that it touches. -/
theorem flatMap_range'_bytes : ∀ (bytes first lower upper : Nat), 8 * first ≤ lower →
    upper ≤ 8 * (first + bytes) →
    ((List.range' first bytes).flatMap fun i =>
        List.range' (max lower (8 * i)) (min upper (8 * i + 8) - max lower (8 * i))) =
      List.range' lower (upper - lower) := by
  intro bytes
  induction bytes with
  | zero =>
    intro first lower upper hl hu
    rw [show upper - lower = 0 by omega]
    rfl
  | succ bytes ih =>
    intro first lower upper hl hu
    -- behind the first byte the range is the one that starts with the second byte
    have tail : ∀ i ∈ List.range' (first + 1) bytes,
        List.range' (max lower (8 * i)) (min upper (8 * i + 8) - max lower (8 * i)) =
          List.range' (max (max lower (8 * first + 8)) (8 * i))
            (min upper (8 * i + 8) - max (max lower (8 * first + 8)) (8 * i)) := by
      intro i hi
      rw [show max (max lower (8 * first + 8)) (8 * i) = max lower (8 * i) by
        have := (List.mem_range'_1.mp hi).1
        omega]
    rw [List.range'_succ, List.flatMap_cons, List.flatMap_congr tail,
      ih (first + 1) (max lower (8 * first + 8)) upper (by omega) (by omega),
      show max lower (8 * first) = lower by omega]
    rcases Nat.le_total lower (8 * first + 8) with h | h
    · rcases Nat.le_total upper (8 * first + 8) with h' | h'
      · rw [show upper - max lower (8 * first + 8) = 0 by omega, Nat.min_eq_left h']
        exact List.append_nil _
      · rw [Nat.min_eq_right h', Nat.max_eq_right h,
          show upper - lower = (8 * first + 8 - lower) + (upper - (8 * first + 8)) by omega,
          ← List.range'_append_1, show lower + (8 * first + 8 - lower) = 8 * first + 8 by omega]
    · rw [show min upper (8 * first + 8) - lower = 0 by omega, Nat.max_eq_left h]
      rfl

theorem Piece.flatMap_ofRange (position count : Nat) :
    ((Piece.ofRange position count).flatMap fun p => List.range' (8 * p.byte + p.first) p.width) =
      List.range' position count := by
  have h := flatMap_range'_bytes ((position % 8 + count + 7) / 8) (position / 8) position
    (position + count) (by omega) (by omega)
  rw [Nat.add_sub_cancel_left] at h
  rw [← h, Piece.ofRange, List.flatMap_map]
  refine List.flatMap_congr fun i _ => ?_
  rw [Piece.width, show 8 * i + (max position (8 * i) - 8 * i) = max position (8 * i) by omega,
    show min (position + count) (8 * i + 8) - 8 * i - (max position (8 * i) - 8 * i) =
      min (position + count) (8 * i + 8) - max position (8 * i) by omega]

/-- A range within one byte is one piece. -/
theorem Piece.ofRange_eq_singleton {position count : Nat} (pos : 0 < count)
    (inByte : position % 8 + count ≤ 8) :
    Piece.ofRange position count = [⟨position / 8, position % 8, position % 8 + count⟩] := by
  rw [Piece.ofRange, show (position % 8 + count + 7) / 8 = 1 by omega, List.range'_one,
    List.map_singleton,
    show max position (8 * (position / 8)) - 8 * (position / 8) = position % 8 by omega,
    show min (position + count) (8 * (position / 8) + 8) - 8 * (position / 8) =
      position % 8 + count by omega]

/-- The pieces of two ranges that meet at a byte boundary are the pieces of both together. -/
theorem Piece.ofRange_append {position count : Nat} (boundary : (position + count) % 8 = 0)
    (count' : Nat) :
    Piece.ofRange position (count + count') =
      Piece.ofRange position count ++ Piece.ofRange (position + count) count' := by
  have first : (position + count) / 8 = position / 8 + (position % 8 + count + 7) / 8 := by omega
  have bytes : (position % 8 + (count + count') + 7) / 8 =
      (position % 8 + count + 7) / 8 + ((position + count) % 8 + count' + 7) / 8 := by omega
  rw [Piece.ofRange, Piece.ofRange, Piece.ofRange, first, bytes, ← List.range'_append_1,
    List.map_append]
  congr 1
  · refine List.map_congr_left fun i hi => ?_
    have := (List.mem_range'_1.mp hi).2
    congr 1
    omega
  · refine List.map_congr_left fun i hi => ?_
    have := (List.mem_range'_1.mp hi).1
    congr 1 <;> omega

/-- **A read takes every position of its range once, and no other.** -/
theorem ReadOrder.places_perm (order : ReadOrder) (position count : Nat) :
    (order.places position count).Perm (List.range' position count) := by
  refine (order.bytes.arrange_perm _).trans ?_
  rw [← Piece.flatMap_ofRange position count, ← List.flatMap_def]
  exact List.Perm.flatMap_left _ fun p _ => p.places_perm order.bits

@[simp] theorem ReadOrder.length_places (order : ReadOrder) (position count : Nat) :
    (order.places position count).length = count := by
  rw [(order.places_perm position count).length_eq, List.length_range']

theorem ReadOrder.nodup_places (order : ReadOrder) (position count : Nat) :
    (order.places position count).Nodup :=
  (order.places_perm position count).nodup_iff.mpr List.nodup_range'

theorem ReadOrder.mem_places {order : ReadOrder} {position count i : Nat} :
    i ∈ order.places position count ↔ position ≤ i ∧ i < position + count := by
  rw [(order.places_perm position count).mem_iff, List.mem_range'_1]

/-- Every number that is small enough is what some bits at the positions of a read spell. -/
theorem exists_bitsValue_places (order : ReadOrder) (position : Nat) {count n : Nat}
    (hn : n < 2 ^ count) :
    ∃ bits : Nat → Bool, bitsValue ((order.places position count).map bits) = n := by
  obtain ⟨digits, length, value⟩ := exists_bitsValue_eq hn
  refine ⟨fun i => digits.getD ((order.places position count).idxOf i) false, ?_⟩
  have hdigits : ((order.places position count).map fun i =>
      digits.getD ((order.places position count).idxOf i) false) = digits := by
    refine List.ext_getElem (by simp [length]) fun k hk hk' => ?_
    rw [List.getElem_map, (order.nodup_places position count).idxOf_getElem]
    rw [List.getD_eq_getElem?_getD, List.getElem?_eq_getElem hk', Option.getD_some]
  rw [hdigits, value]

/-- Two streams spell one number at the positions of a read only when they agree there. -/
theorem bitsValue_places_eq_iff {order : ReadOrder} {position count : Nat}
    {bits bits' : Nat → Bool} :
    bitsValue ((order.places position count).map bits) =
        bitsValue ((order.places position count).map bits') ↔
      ∀ i, position ≤ i → i < position + count → bits i = bits' i := by
  constructor
  · intro h i hi hi'
    have hmap := bitsValue_inj (by simp) h
    exact List.map_inj_left.mp hmap i (ReadOrder.mem_places.mpr ⟨hi, hi'⟩)
  · intro h
    refine congrArg bitsValue (List.map_inj_left.mpr fun i hi => ?_)
    obtain ⟨lower, upper⟩ := ReadOrder.mem_places.mp hi
    exact h i lower upper

/-! ### Reading -/

theorem streamBit_of_lt (input : Array UInt8) (order : Significance) (j : Nat) {k : Nat}
    (hk : k < 8) :
    streamBit input order (8 * j + k) = (input.getD j 0).toNat.testBit (order.flip k) := by
  rw [streamBit, show (8 * j + k) / 8 = j by omega, show (8 * j + k) % 8 = k by omega]

/-- The stream bits of a piece are a stretch of the bits of its byte. -/
theorem Piece.map_streamBit_places {p : Piece} (ordered : p.first ≤ p.last) (last : p.last ≤ 8)
    (order : Significance) (input : Array UInt8) :
    (p.places order).map (streamBit input order) =
      (List.range' (match order with | .mostFirst => 8 - p.last | .leastFirst => p.first)
        p.width).map (input.getD p.byte 0).toNat.testBit := by
  refine List.ext_getElem (by cases order <;> simp [Piece.places]) fun k hk _ => ?_
  have hw : k < p.last - p.first := by cases order <;> simpa [Piece.places, Piece.width] using hk
  cases order with
  | mostFirst =>
    simp only [Piece.places, List.getElem_map, List.getElem_reverse, List.getElem_range',
      List.length_range', Nat.one_mul, Piece.width]
    rw [show 8 * p.byte + p.first + (p.last - p.first - 1 - k) = 8 * p.byte + (p.last - 1 - k) by
      omega, streamBit_of_lt _ _ _ (by omega)]
    exact congrArg _ (show 7 - (p.last - 1 - k) = 8 - p.last + k by omega)
  | leastFirst =>
    simp only [Piece.places, List.getElem_map, List.getElem_range', Nat.one_mul]
    rw [Nat.add_assoc, streamBit_of_lt _ _ _ (by omega)]
    rfl

theorem Piece.value_eq_bitsValue {p : Piece} (ordered : p.first ≤ p.last) (last : p.last ≤ 8)
    (order : Significance) (input : Array UInt8) :
    p.value order (input.getD p.byte 0).toNat =
      bitsValue ((p.places order).map (streamBit input order)) := by
  rw [map_streamBit_places ordered last, bitsValue_testBit]
  cases order <;> rw [Piece.value, Nat.one_shiftLeft]

theorem Piece.ordered_of_mem_ofRange {position count : Nat} {p : Piece}
    (hp : p ∈ Piece.ofRange position count) : p.first ≤ p.last ∧ p.last ≤ 8 := by
  obtain ⟨i, hi, rfl⟩ := List.mem_map.mp hp
  obtain ⟨lower, upper⟩ := List.mem_range'_1.mp hi
  exact ⟨by change max position (8 * i) - 8 * i ≤ min (position + count) (8 * i + 8) - 8 * i; omega,
    by change min (position + count) (8 * i + 8) - 8 * i ≤ 8; omega⟩

/-- The pieces of a range within an input lie in bytes of the input. -/
theorem Piece.byte_lt_of_mem_ofRange {position count size : Nat} {p : Piece}
    (hp : p ∈ Piece.ofRange position count) (hsize : position + count ≤ 8 * size) :
    p.byte < size ∧ 8 * p.byte + p.last ≤ 8 * size := by
  obtain ⟨i, hi, rfl⟩ := List.mem_map.mp hp
  obtain ⟨lower, upper⟩ := List.mem_range'_1.mp hi
  constructor
  · show i < size
    omega
  · show 8 * i + (min (position + count) (8 * i + 8) - 8 * i) ≤ 8 * size
    omega

theorem Significance.join_mostFirst (parts : List (Nat × Nat)) :
    Significance.mostFirst.join parts = Significance.leastFirst.join parts.reverse := by
  rw [join, join, List.foldr_reverse]

@[simp] theorem Significance.join_singleton (order : Significance) (width n : Nat) :
    order.join [(width, n)] = n := by
  cases order <;> simp [join]

/-- Numbers joined in an order spell the bits arranged in that order. -/
theorem Significance.join_eq_bitsValue (order : Significance) {ι : Type} (parts : List ι)
    (width : ι → Nat) (places : ι → List Nat) (bits : Nat → Bool)
    (length : ∀ p ∈ parts, (places p).length = width p) :
    order.join (parts.map fun p => (width p, bitsValue ((places p).map bits))) =
      bitsValue ((order.arrange (parts.map places)).map bits) := by
  have least : ∀ parts : List ι, (∀ p ∈ parts, (places p).length = width p) →
      Significance.leastFirst.join (parts.map fun p => (width p, bitsValue ((places p).map bits))) =
        bitsValue (((parts.map places).flatten).map bits) := by
    intro parts length
    induction parts with
    | nil => rfl
    | cons p parts ih =>
      have := ih fun q hq => length q (List.mem_cons_of_mem p hq)
      rw [List.map_cons, List.map_cons, List.flatten_cons, List.map_append, bitsValue_append,
        List.length_map, length p (List.mem_cons_self ..), ← this, Nat.add_comm,
        Nat.mul_comm, ← Nat.shiftLeft_eq]
      rfl
  cases order with
  | mostFirst =>
    rw [join_mostFirst, ← List.map_reverse, least _ fun p hp => length p (List.mem_reverse.mp hp),
      arrange, List.map_reverse]
  | leastFirst => exact least parts length

namespace Cursor

/-- **A read yields the number that the stream bits at its places spell.** -/
theorem peekNat_eq_bitsValue (c : Cursor) (count : Nat) :
    c.peekNat count =
      bitsValue ((c.order.places c.position count).map (streamBit c.input c.order.bits)) := by
  rw [ReadOrder.places, ← Significance.join_eq_bitsValue _ _ Piece.width]
  · refine congrArg _ (List.map_congr_left fun p hp => ?_)
    obtain ⟨ordered, last⟩ := Piece.ordered_of_mem_ofRange hp
    rw [Piece.value_eq_bitsValue ordered last]
  · intro p _
    rw [(p.places_perm _).length_eq, List.length_range']

theorem peekNat_lt (c : Cursor) (count : Nat) : c.peekNat count < 2 ^ count := by
  have := bitsValue_lt ((c.order.places c.position count).map (streamBit c.input c.order.bits))
  rwa [← peekNat_eq_bitsValue, List.length_map, ReadOrder.length_places] at this

@[simp] theorem peekNat_zero (c : Cursor) : c.peekNat 0 = 0 :=
  Nat.lt_one_iff.mp (c.peekNat_lt 0)

/-- A read within one byte takes one stretch of its bits. -/
theorem peekNat_of_le_eight (c : Cursor) {count : Nat} (pos : 0 < count)
    (inByte : c.bitOffset + count ≤ 8) :
    c.peekNat count =
      Piece.value ⟨c.byteOffset, c.bitOffset, c.bitOffset + count⟩ c.order.bits
        (c.input.getD c.byteOffset 0).toNat := by
  rw [peekNat, Piece.ofRange_eq_singleton pos inByte, List.map_singleton,
    Significance.join_singleton]
  rfl

/-- A byte read from a byte boundary on is a byte of the input, in every order of reading. -/
theorem peekNat_eight {c : Cursor} (aligned : c.bitOffset = 0) :
    c.peekNat 8 = (c.input.getD c.byteOffset 0).toNat := by
  rw [peekNat_of_le_eight c (by decide) (by omega), aligned]
  cases c.order.bits <;>
    simp [Piece.value, Piece.width, Nat.shiftLeft_eq, Nat.mod_eq_of_lt (UInt8.toNat_lt _)]

/-- **A read loses no bit.** From one position and in one order, two inputs give the same number
only when they have the same bits in the range that is read. -/
theorem peekNat_eq_iff {c d : Cursor} (position : c.position = d.position)
    (order : c.order = d.order) (count : Nat) :
    c.peekNat count = d.peekNat count ↔
      ∀ i, c.position ≤ i → i < c.position + count →
        streamBit c.input c.order.bits i = streamBit d.input d.order.bits i := by
  rw [peekNat_eq_bitsValue, peekNat_eq_bitsValue, ← position, ← order]
  exact bitsValue_places_eq_iff

end Cursor

end BitGrammar
