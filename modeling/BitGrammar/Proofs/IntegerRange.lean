import BitGrammar.Proofs.CheckedRead
import BitGrammar.Proofs.FieldEncoding
import BitGrammar.Proofs.WordRead
import Mathlib.Data.Int.ModEq

/-!
# Signed integers, and integers in a range

Bits with a sign stand for one integer: the only one between the least and the greatest integer of
so many bits that is congruent to the number they spell without a sign. A rule that asks for an
integer between two bounds compares this integer, and lets the match through as it is. So two ranges
around a rule, one inside the other, are their intersection.

## What decides the design

On a machine both are matters of words. The sign is extended by shifting the bits up to the end of a
word and down again, with copies of the sign shifted in (`Machine.signExtend?`); without bits, and
with all the bits of a word, there is nothing to shift. Bounds are compared in words of 128 bits, in
which bytes and integers with and without a sign all find room (`Value.widen`). Each of the two is
shown to be what it is with integers, and everything else is about integers.

That a range lets a match through says something about the match, so that nothing has to be known
about the rule inside, not even that it yields integers.

## Main definitions

* `Machine.signExtend?`: the lowest bits of a word as a signed word
* `Value.widen`, `Machine.between`: numbers and bounds in 128 bits

## Main results

* `Machine.signExtend?_eq`: shifting up and down is reading in two's complement
* `Machine.between_iff`, `Value.map_toInt_widen`: comparing in 128 bits is comparing integers
* `Rule.parse_inRange`: signed integers, ranges of integers, and ranges of ranges
-/

namespace BitGrammar

/-! ### Signs on a machine -/

namespace Machine

variable {raw width distance : Nat}

/-- A word shifted to the right by less than the number of its bits, with copies of the sign shifted
in. -/
def shiftRightSigned? (word : Int64) (distance : Nat) : Option Int64 :=
  if distance < 64 then some (word >>> .ofNat distance) else none

/-- The lowest bits of a word as a signed word. They are shifted up until the first of them is the
sign, and down again. No bits at all stand for zero. -/
def signExtend? (word : UInt64) (width : Nat) : Option Int64 :=
  if width = 0 then some 0
  else if width = 64 then some word.toInt64
  else do
    let distance ← minus? 64 width
    let shifted ← shiftLeft? word distance
    shiftRightSigned? shifted.toInt64 distance

/-- A shift is by the number in its word, as long as that is less than the number of bits. -/
theorem toNat_smod_ofNat :
    ∀ distance < 64, ((Int64.ofNat distance).toBitVec.smod 64).toNat = distance := by
  decide

theorem toInt_shiftRight (word : Int64) (hd : distance < 64) :
    (word >>> Int64.ofNat distance).toInt = word.toInt / (2 ^ distance : Nat) := by
  rw [← Int64.toInt_toBitVec, Int64.toBitVec_shiftRight, BitVec.sshiftRight',
    toNat_smod_ofNat distance hd, BitVec.toInt_sshiftRight, Int64.toInt_toBitVec,
    Int.shiftRight_eq_div_pow]

/-- A word that is taken for a signed one has the sign of its first bit. -/
theorem toInt_toInt64_ofNat (small : raw < 2 ^ 64) :
    (UInt64.ofNat raw).toInt64.toInt = signExtend 64 raw := by
  show (BitVec.ofNat 64 raw).toInt = _
  rw [BitVec.toInt_eq_toNat_cond, BitVec.toNat_ofNat, Nat.mod_eq_of_lt small, signExtend]
  simp only [Nat.one_shiftLeft]
  split <;> split <;> omega

/-- Bits that are moved up stand for a multiple of the integer, whatever its sign. -/
theorem signExtend_mul (pos : 0 < width) (raw distance : Nat) :
    signExtend (width + distance) (raw * 2 ^ distance) =
      signExtend width raw * (2 ^ distance : Nat) := by
  obtain ⟨rest, rfl⟩ : ∃ rest, width = rest + 1 := ⟨width - 1, by omega⟩
  have sign : raw * 2 ^ distance < 2 ^ (rest + distance) ↔ raw < 2 ^ rest := by
    rw [Nat.pow_add, Nat.mul_lt_mul_right (Nat.two_pow_pos distance)]
  rw [signExtend, signExtend, Nat.add_sub_cancel, Nat.add_right_comm, Nat.add_sub_cancel]
  simp only [Nat.one_shiftLeft, sign]
  split
  · rw [Int.natCast_mul]
  · rw [Int.sub_mul, Int.natCast_mul, ← Int.natCast_mul (2 ^ (rest + 1)), ← Nat.pow_add,
      Nat.add_right_comm]

/-- Bits that are moved up to the end of a word lose none of them. -/
theorem mul_two_pow_lt (hsum : width + distance = 64) (small : raw < 2 ^ width) :
    raw * 2 ^ distance < 2 ^ 64 := by
  rw [← hsum, Nat.pow_add]
  exact Nat.mul_lt_mul_of_pos_right small (Nat.two_pow_pos distance)

/-- Up to the end of a word and down again, bits become the integer that they stand for. -/
theorem toInt_shiftRight_shiftLeft (pos : 0 < width) (hsum : width + distance = 64)
    (small : raw < 2 ^ width) :
    ((UInt64.ofNat (raw * 2 ^ distance)).toInt64 >>> Int64.ofNat distance).toInt =
      signExtend width raw := by
  have nonzero : ((2 ^ distance : Nat) : Int) ≠ 0 :=
    Int.natCast_ne_zero.mpr (Nat.two_pow_pos distance).ne'
  rw [toInt_shiftRight _ (by omega), toInt_toInt64_ofNat (mul_two_pow_lt hsum small), ← hsum,
    signExtend_mul pos, Int.mul_ediv_cancel _ nonzero]

/-- **Shifting up and down again is reading in two's complement**, at every width. -/
theorem signExtend?_eq (fits : width ≤ 64) (small : raw < 2 ^ width) :
    signExtend? (.ofNat raw) width = some (.ofInt (signExtend width raw)) := by
  rw [signExtend?]
  by_cases none : width = 0
  · subst none
    obtain rfl : raw = 0 := by omega
    rfl
  by_cases all : width = 64
  · subst all
    rw [if_neg none, if_pos rfl, ← toInt_toInt64_ofNat small, Int64.ofInt_toInt]
  obtain ⟨distance, hsum⟩ := Nat.exists_eq_add_of_le fits
  have difference : minus? 64 width = some distance := by
    rw [minus?_of_le fits]
    exact congrArg some (by omega)
  have up : shiftLeft? (.ofNat raw) distance = some (.ofNat (raw * 2 ^ distance)) :=
    shiftLeft?_ofNat (by omega) (mul_two_pow_lt hsum.symm small)
  rw [if_neg none, if_neg all, difference, Option.bind_eq_bind, Option.bind_some, up,
    Option.bind_eq_bind, Option.bind_some, shiftRightSigned?, if_pos (by omega),
    ← toInt_shiftRight_shiftLeft (Nat.pos_of_ne_zero none) hsum.symm small, Int64.ofInt_toInt]

end Machine

/-! ### Two's complement -/

section TwosComplement

variable {width raw : Nat} {signed : Bool} {n n' : Int}

theorem signExtend_modEq (width raw : Nat) : signExtend width raw ≡ raw [ZMOD 2 ^ width] := by
  rw [signExtend]
  split
  · rfl
  · rw [Nat.one_shiftLeft, Int.natCast_pow]
    exact Int.modEq_iff_dvd.mpr ⟨1, by push_cast; omega⟩

/-- The integers of a number of bits with a sign, half of them negative. -/
theorem representable_signed_iff : Representable width true n ↔
    if width = 0 then n = 0 else -2 ^ (width - 1) ≤ n ∧ n ≤ 2 ^ (width - 1) - 1 := by
  rw [Representable, if_pos rfl]
  cases width with
  | zero =>
    rw [if_pos rfl]
    omega
  | succ rest =>
    have half : ((2 ^ (rest + 1) : Nat) : Int) = 2 * 2 ^ rest := by
      rw [Nat.pow_succ, Nat.mul_comm]
      push_cast
      rfl
    rw [half, if_neg (Nat.succ_ne_zero rest), Nat.add_sub_cancel]
    omega

/-- Among the integers of a number of bits, one is determined up to multiples of their number. -/
theorem Representable.eq_of_modEq (h : Representable width signed n)
    (h' : Representable width signed n') (same : n ≡ n' [ZMOD 2 ^ width]) : n = n' := by
  have near : |n' - n| < 2 ^ width := by
    unfold Representable at h h'
    rw [abs_lt]
    cases signed with
    | false =>
      rw [if_neg Bool.false_ne_true] at h h'
      push_cast at h h'
      omega
    | true =>
      rw [if_pos rfl] at h h'
      push_cast at h h'
      omega
  exact (Int.sub_eq_zero.mp (Int.eq_zero_of_abs_lt_dvd same.dvd near)).symm

/-- **Bits with a sign stand for one integer**, and for no other one. -/
theorem eq_signExtend_iff (small : raw < 2 ^ width) : n = signExtend width raw ↔
    (if width = 0 then n = 0 else -2 ^ (width - 1) ≤ n ∧ n ≤ 2 ^ (width - 1) - 1) ∧
      n ≡ raw [ZMOD 2 ^ width] := by
  have itself : Representable width true (signExtend width raw) :=
    representable_integerOf true small
  rw [← representable_signed_iff]
  constructor
  · rintro rfl
    exact ⟨itself, signExtend_modEq width raw⟩
  · rintro ⟨range, same⟩
    exact range.eq_of_modEq itself (same.trans (signExtend_modEq width raw).symm)

/-- The value of a match is the integer that was read. -/
theorem asInteger_integerItem (fits : width ≤ 64) (h : Representable width signed n) :
    (integerItem signed n).asInteger = some n := by
  have bounds := h.bounds fits
  cases signed with
  | false =>
    obtain ⟨nonneg, lt⟩ := bounds
    have word : (UInt64.ofNat n.toNat).toNat = n.toNat :=
      UInt64.toNat_ofNat_of_lt' (show n.toNat < 2 ^ 64 by omega)
    show some ((UInt64.ofNat n.toNat).toNat : Int) = some n
    rw [word, Int.toNat_of_nonneg nonneg]
  | true =>
    obtain ⟨lower, upper⟩ := bounds
    exact congrArg some (Int64.toInt_ofInt_of_le lower upper)

end TwosComplement

theorem Cursor.readInteger_of_le {c : Cursor} {width : Nat} (h : width ≤ c.remaining)
    (signed : Bool) : c.readInteger width signed =
      .ok (integerItem signed (integerOf width signed (c.peekNat width)), c.advance width) := by
  rw [readInteger, readNat_of_le h]
  cases signed <;> rfl

theorem Cursor.readInteger_of_lt {c : Cursor} {width : Nat} (h : c.remaining < width)
    (signed : Bool) : c.readInteger width signed = .error c.endOfInput := by
  rw [readInteger, readNat_of_lt h]

/-! ### Bounds on a machine -/

/-- The number of a value in 128 bits. A signed integer is filled up with copies of its sign, a byte
or an integer without a sign with zeros. -/
def Value.widen : Value → Option (BitVec 128)
  | .char c => some (c.toBitVec.setWidth 128)
  | .int n => some (n.toBitVec.signExtend 128)
  | .uint n => some (n.toBitVec.setWidth 128)
  | _ => none

/-- A number lies between two bounds, compared in 128 bits. -/
def Machine.between (lower upper : Int64) (n : BitVec 128) : Bool :=
  (lower.toBitVec.signExtend 128).sle n && n.sle (upper.toBitVec.signExtend 128)

/-- No number changes when it is widened. -/
theorem Value.map_toInt_widen (v : Value) : v.widen.map BitVec.toInt = v.asInteger := by
  cases v with
  | char c => exact congrArg some (BitVec.toInt_setWidth'_of_lt (by decide))
  | uint n => exact congrArg some (BitVec.toInt_setWidth'_of_lt (by decide))
  | int n => exact congrArg some (BitVec.toInt_signExtend_of_le (by decide))
  | _ => rfl

/-- **Comparing in 128 bits is comparing integers.** -/
theorem Machine.between_iff {lower upper : Int64} {n : BitVec 128} :
    between lower upper n = true ↔ lower.toInt ≤ n.toInt ∧ n.toInt ≤ upper.toInt := by
  rw [between, Bool.and_eq_true, BitVec.sle_iff_toInt_le, BitVec.sle_iff_toInt_le,
    BitVec.toInt_signExtend_of_le (by decide), BitVec.toInt_signExtend_of_le (by decide),
    Int64.toInt_toBitVec, Int64.toInt_toBitVec]

theorem Machine.toInt_max (a b : Int64) : (max a b).toInt = max a.toInt b.toInt := by
  show (if a ≤ b then b else a).toInt = _
  simp only [Int64.le_iff_toInt_le]
  split <;> omega

theorem Machine.toInt_min (a b : Int64) : (min a b).toInt = min a.toInt b.toInt := by
  show (if a ≤ b then a else b).toInt = _
  simp only [Int64.le_iff_toInt_le]
  split <;> omega

/-! ### Reading with and without a sign -/

/-- The same bits read without a sign and with one. The second integer is the word of the first one
with its sign extended, and the only integer of so many bits that is congruent to it. -/
theorem Cursor.exists_readInteger {c : Cursor} {width : Nat} (fits : width ≤ 64)
    (enough : width ≤ c.remaining) : ∃ (raw : UInt64) (x : Int64),
      c.readInteger width false = .ok (.uint raw, c.advance width) ∧
      c.readInteger width true = .ok (.int x, c.advance width) ∧
      Machine.signExtend? raw width = some x ∧
      ∀ y : Int, y = x.toInt ↔
        (if width = 0 then y = 0 else -2 ^ (width - 1) ≤ y ∧ y ≤ 2 ^ (width - 1) - 1) ∧
          y ≡ raw.toNat [ZMOD 2 ^ width] := by
  have small : c.peekNat width < 2 ^ width := c.peekNat_lt width
  have unsigned : (UInt64.ofNat (c.peekNat width)).toNat = c.peekNat width :=
    UInt64.toNat_ofNat_of_lt' (small.trans_le (Nat.pow_le_pow_right (by decide) fits))
  have signed : (Int64.ofInt (signExtend width (c.peekNat width))).toInt =
      signExtend width (c.peekNat width) := by
    obtain ⟨lower, upper⟩ := (representable_integerOf true small).bounds fits
    exact Int64.toInt_ofInt_of_le lower upper
  refine ⟨.ofNat (c.peekNat width), .ofInt (signExtend width (c.peekNat width)),
    readInteger_of_le enough false, readInteger_of_le enough true,
    Machine.signExtend?_eq fits small, fun y => ?_⟩
  rw [signed, unsigned]
  exact eq_signExtend_iff small

/-- What is read is an integer, and in 128 bits it is compared like one. -/
theorem Cursor.exists_readInteger_between {c : Cursor} {width : Nat} (fits : width ≤ 64)
    (enough : width ≤ c.remaining) (signed : Bool) (lower upper : Int64) : ∃ (v : Value) (x : Int),
      c.readInteger width signed = .ok (v, c.advance width) ∧ v.asInteger = some x ∧
      v.widen.map (Machine.between lower upper) =
        some (decide (lower.toInt ≤ x ∧ x ≤ upper.toInt)) := by
  have value := asInteger_integerItem fits
    (representable_integerOf signed (c.peekNat_lt width))
  refine ⟨_, _, readInteger_of_le enough signed, value, ?_⟩
  rw [← Value.map_toInt_widen, Option.map_eq_some_iff] at value
  obtain ⟨n, hn, heq⟩ := value
  rw [hn, Option.map_some, ← heq]
  exact congrArg some (Bool.eq_iff_iff.mpr (Machine.between_iff.trans decide_eq_true_iff.symm))

/-! ### Ranges -/

namespace Parser

variable {lower upper : Int64} {c : Cursor} {m : Match} {width : Nat} {signed : Bool} {v : Value}

theorem outcome_inRange_bits {x : Int}
    (hread : c.readInteger width signed = .ok (v, c.advance width)) (hx : v.asInteger = some x) :
    (inRange lower upper (bits width signed) c).outcome =
      if lower.toInt ≤ x ∧ x ≤ upper.toInt then .ok ⟨some v, c.advance width⟩
      else .failed (c.rejection (.outOfRange x lower upper)) := by
  refine outcome_inRange_of_ok ?_ hx
  rw [bits, hread]
  rfl

theorem outcome_inRange_bits_of_lt (h : c.remaining < width) :
    (inRange lower upper (bits width signed) c).outcome = .failed c.endOfInput := by
  refine Run.outcome_bind_failed ?_
  rw [bits, Cursor.readInteger_of_lt h]
  rfl

/-- **A range around a range is their intersection**, for every parser. -/
theorem outcome_inRange_inRange_eq_ok_iff {lower' upper' : Int64} {p : Parser} :
    (inRange lower' upper' (inRange lower upper p) c).outcome = .ok m ↔
      (inRange (max lower lower') (min upper upper') p c).outcome = .ok m := by
  simp only [outcome_inRange_eq_ok_iff, Machine.toInt_max, Machine.toInt_min, max_le_iff,
    le_min_iff]
  constructor
  · rintro ⟨⟨hm, n, hn, hlower, hupper⟩, n', hn', hlower', hupper'⟩
    obtain rfl : n = n' := Option.some.inj (hn.symm.trans hn')
    exact ⟨hm, n, hn, ⟨hlower, hlower'⟩, hupper, hupper'⟩
  · rintro ⟨hm, n, hn, ⟨hlower, hlower'⟩, hupper, hupper'⟩
    exact ⟨⟨hm, n, hn, hlower, hupper⟩, n, hn, hlower', hupper'⟩

/-- A range that no integer lies in lets no match through. -/
theorem le_of_outcome_inRange_eq_ok {p : Parser} (h : (inRange lower upper p c).outcome = .ok m) :
    lower ≤ upper := by
  obtain ⟨-, n, -, hlower, hupper⟩ := outcome_inRange_eq_ok_iff.mp h
  exact Int64.le_iff_toInt_le.mpr (hlower.trans hupper)

end Parser

namespace Rule

/-- **Signed integers and ranges are exact.** Bits that are read with a sign are the one integer
between the least and the greatest of so many bits that is congruent to what they are without a
sign, and the two reads end at the same place. A range around an integer of any number of bits, with
or without a sign, lets the match through as it is when the integer lies between the bounds, and
otherwise fails where it started. Two ranges around any rule let through what their intersection
does, with the same value and end, and nothing when that is empty. -/
theorem parse_inRange (cells : Cells) (c : Cursor) :
    (∀ n ≤ 64, n ≤ c.remaining → ∃ (raw : UInt64) (x : Int64),
      c.readInteger n false = .ok (.uint raw, c.advance n) ∧
      c.readInteger n true = .ok (.int x, c.advance n) ∧
      Machine.signExtend? raw n = some x ∧
      ∀ y : Int, y = x.toInt ↔
        (if n = 0 then y = 0 else -2 ^ (n - 1) ≤ y ∧ y ≤ 2 ^ (n - 1) - 1) ∧
          y ≡ raw.toNat [ZMOD 2 ^ n]) ∧
    (∀ (n : Nat) (signed : Bool) (fits : n ≤ 64) (lower upper : Int64) (nonempty : lower ≤ upper),
      (n ≤ c.remaining → ∃ (v : Value) (x : Int),
        c.readInteger n signed = .ok (v, c.advance n) ∧ v.asInteger = some x ∧
        v.widen.map (Machine.between lower upper) =
          some (decide (lower.toInt ≤ x ∧ x ≤ upper.toInt)) ∧
        ((Rule.inRange lower upper nonempty (.bits n signed fits)).parse cells c).outcome =
          if lower.toInt ≤ x ∧ x ≤ upper.toInt then .ok ⟨some v, c.advance n⟩
          else .failed (c.rejection (.outOfRange x lower upper))) ∧
      (c.remaining < n →
        ((Rule.inRange lower upper nonempty (.bits n signed fits)).parse cells c).outcome =
          .failed c.endOfInput)) ∧
    ∀ (rule : Rule) (lower upper lower' upper' : Int64) (nonempty : lower ≤ upper)
        (nonempty' : lower' ≤ upper') (m : Match),
      (∀ meet : max lower lower' ≤ min upper upper',
        ((Rule.inRange lower' upper' nonempty' (.inRange lower upper nonempty rule)).parse
            cells c).outcome = .ok m ↔
          ((Rule.inRange (max lower lower') (min upper upper') meet rule).parse
            cells c).outcome = .ok m) ∧
      (¬ max lower lower' ≤ min upper upper' →
        ((Rule.inRange lower' upper' nonempty' (.inRange lower upper nonempty rule)).parse
            cells c).outcome ≠ .ok m) := by
  refine ⟨fun n fits enough => Cursor.exists_readInteger fits enough,
    fun n signed fits lower upper nonempty => ⟨fun enough => ?_, fun short => ?_⟩,
    fun rule lower upper lower' upper' nonempty nonempty' m => ⟨fun meet => ?_, fun apart => ?_⟩⟩
  · obtain ⟨v, x, hread, hx, hbetween⟩ :=
      Cursor.exists_readInteger_between fits enough signed lower upper
    exact ⟨v, x, hread, hx, hbetween, Parser.outcome_inRange_bits hread hx⟩
  · exact Parser.outcome_inRange_bits_of_lt short
  · exact Parser.outcome_inRange_inRange_eq_ok_iff
  · intro hm
    have inner := Parser.outcome_inRange_inRange_eq_ok_iff.mp hm
    exact apart (Parser.le_of_outcome_inRange_eq_ok inner)

/-- Sixty-four bits, all of them set. -/
def allSet : Cursor :=
  ⟨#[0xff, 0xff, 0xff, 0xff, 0xff, 0xff, 0xff, 0xff], 0, {}⟩

/-- All signed words are a range that the greatest number without a sign lies outside of. The same
bits with a sign are minus one, which lies in one of two ranges that have nothing in common. -/
theorem parse_inRange_allSet :
    ((Rule.inRange .minValue .maxValue (by decide) .uint64).parse .empty allSet).outcome =
      .failed (allSet.rejection (.outOfRange 18446744073709551615 .minValue .maxValue)) ∧
    ((Rule.inRange (-5) (-1) (by decide) .int64).parse .empty allSet).outcome =
      .ok ⟨some (.int (-1)), allSet.advance 64⟩ ∧
    ∀ m, ((Rule.inRange 0 7 (by decide) (.inRange (-5) (-1) (by decide) .int64)).parse .empty
      allSet).outcome ≠ .ok m := by
  obtain ⟨-, ranges, nested⟩ := parse_inRange .empty allSet
  have enough : 64 ≤ allSet.remaining := by decide
  obtain ⟨v, x, hread, hx, -, unsigned⟩ :=
    (ranges 64 false (by decide) .minValue .maxValue (by decide)).1 enough
  obtain ⟨w, y, hread', hy, -, signed⟩ :=
    (ranges 64 true (by decide) (-5) (-1) (by decide)).1 enough
  have hv : allSet.readInteger 64 false = .ok (.uint 0xffffffffffffffff, allSet.advance 64) := rfl
  have hw : allSet.readInteger 64 true = .ok (.int (-1), allSet.advance 64) := rfl
  obtain rfl : v = .uint 0xffffffffffffffff :=
    congrArg Prod.fst (Except.ok.inj (hread.symm.trans hv))
  obtain rfl : w = .int (-1) := congrArg Prod.fst (Except.ok.inj (hread'.symm.trans hw))
  obtain rfl : x = 18446744073709551615 := (Option.some.inj hx).symm
  obtain rfl : y = -1 := (Option.some.inj hy).symm
  refine ⟨unsigned.trans (if_neg (by decide)), signed.trans (if_pos (by decide)), fun m => ?_⟩
  exact (nested .int64 (-5) (-1) 0 7 (by decide) (by decide) m).2 (by decide)

end Rule

end BitGrammar
