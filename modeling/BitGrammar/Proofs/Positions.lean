import BitGrammar.Proofs.Bounds
import Mathlib.Algebra.Ring.Int.Defs
import Mathlib.Algebra.Ring.Nat

/-!
# Positions, and going back to them

A position is the number of bits of the input that lie before it. To move by an offset from an
anchor is to add integers: a `seek` succeeds when the sum is a position, yields it and ends there.
As the position says all there is to say about where a cursor is, a grammar that goes back to the
position it started from is back at the cursor it started from, whatever it matched in between.

## What decides the design

On a machine, sums and positions have another form. An offset is added to a word when it is not
negative, and otherwise its absolute value is subtracted; the step fails when the result is not a
word (`Machine.move?`). A position is kept as the index of a byte and of a bit of that byte, where
the end has no bits (`SplitCursor.Canonical`). Each form is shown once to be the one with integers,
and the laws of moves are then about integers only.

The smallest offset needs no case of its own. Its absolute value is not an offset, but it is a word
(`Machine.toNat_abs_toUInt64`).

## Main definitions

* `Machine.move?`: a word moved by an offset
* `SplitCursor`: a cursor that keeps the byte and the bit of its position apart
* `Rule.restoring`: a rule, and back to where it started

## Main results

* `Machine.move?_eq_some_iff`: words moved by offsets are sums of integers
* `SplitCursor.eq_iff_position_eq`: canonical bytes and bits are the same when the positions are
* `Cursor.seekFrom_eq_ok_iff`: what a move does, by its target
* `Rule.parse_seek`: moves by integers and by words, next to `skip`, and the way back
-/

namespace BitGrammar

/-! ### Words moved by offsets -/

namespace Machine

/-- Moves a word by an offset. A negative offset has its absolute value subtracted, any other one is
added. `none` when the result is not a word. -/
def move? (base : UInt64) (offset : Int64) : Option UInt64 :=
  if offset < 0 then
    if base < offset.abs.toUInt64 then none else some (base - offset.abs.toUInt64)
  else if base + offset.toUInt64 < base then none else some (base + offset.toUInt64)

/-- The absolute value of every offset is a word, that of the smallest one included. -/
theorem toNat_abs_toUInt64 (offset : Int64) :
    offset.abs.toUInt64.toNat = offset.toInt.natAbs := by
  have hword := offset.toBitVec.isLt
  rw [← UInt64.toNat_toBitVec, Int64.toBitVec_toUInt64, Int64.toBitVec_abs, BitVec.toNat_abs,
    ← Int64.toInt_toBitVec, BitVec.toInt_eq_msb_cond]
  split <;> omega

theorem toNat_toUInt64 {offset : Int64} (h : 0 ≤ offset.toInt) :
    (offset.toUInt64.toNat : Int) = offset.toInt := by
  rw [Int64.toNat_toUInt64_of_le (Int64.le_iff_toInt_le.mpr h), Int64.toNatClampNeg,
    Int.toNat_of_nonneg h]

/-- **To move a word by an offset is to add integers.** -/
theorem move?_eq_some_iff {base target : UInt64} {offset : Int64} :
    move? base offset = some target ↔ (target.toNat : Int) = base.toNat + offset.toInt := by
  have hbase := base.toNat_lt
  have htarget := target.toNat_lt
  rw [move?]
  by_cases negative : offset < 0
  · have hoffset : offset.toInt < 0 := Int64.lt_iff_toInt_lt.mp negative
    have hsize := toNat_abs_toUInt64 offset
    rw [if_pos negative]
    by_cases below : base < offset.abs.toUInt64
    · have hbelow := UInt64.lt_iff_toNat_lt.mp below
      rw [if_pos below]
      simp only [reduceCtorEq, false_iff]
      omega
    · have hle := UInt64.not_lt.mp below
      have hle' := UInt64.le_iff_toNat_le.mp hle
      rw [if_neg below, Option.some_inj, ← UInt64.toNat_inj, UInt64.toNat_sub_of_le _ _ hle]
      omega
  · have hoffset : 0 ≤ offset.toInt := Int64.le_iff_toInt_le.mp (Int64.not_lt.mp negative)
    have hsize := toNat_toUInt64 hoffset
    -- a sum that is not a word wraps, and is then below both of its parts
    have hsum := UInt64.toNat_add base offset.toUInt64
    have hword := offset.toUInt64.toNat_lt
    rw [if_neg negative]
    by_cases wraps : base + offset.toUInt64 < base
    · have hwraps := UInt64.lt_iff_toNat_lt.mp wraps
      rw [if_pos wraps]
      simp only [reduceCtorEq, false_iff]
      omega
    · have hle := UInt64.le_iff_toNat_le.mp (UInt64.not_lt.mp wraps)
      rw [if_neg wraps, Option.some_inj, ← UInt64.toNat_inj]
      omega

end Machine

/-! ### Bytes and bits of positions -/

/-- A cursor that keeps the byte and the bit of its position apart. -/
@[ext]
structure SplitCursor where
  input : Array UInt8
  byte : Nat
  bit : Nat
  order : ReadOrder
  deriving DecidableEq

namespace SplitCursor

/-- The position as one number. -/
def position (s : SplitCursor) : Nat :=
  8 * s.byte + s.bit

/-- The byte is one of the input, or the end, and the bit is one of a byte. The end has no bits but
the first one. -/
structure Canonical (s : SplitCursor) : Prop where
  byte_le : s.byte ≤ s.input.size
  bit_lt : s.bit < 8
  bit_eq_zero : s.byte = s.input.size → s.bit = 0

/-- **Canonical bytes and bits are the same when the positions are.** -/
theorem eq_iff_position_eq {s t : SplitCursor} (hs : s.Canonical) (ht : t.Canonical)
    (input : s.input = t.input) (order : s.order = t.order) : s = t ↔ s.position = t.position := by
  refine ⟨congrArg position, fun h => ?_⟩
  have hbit := hs.bit_lt
  have hbit' := ht.bit_lt
  rw [position, position] at h
  exact SplitCursor.ext input (by omega) (by omega) order

end SplitCursor

namespace Cursor

variable {c : Cursor}

/-- The cursor with the byte and the bit of its position. -/
def split (c : Cursor) : SplitCursor :=
  ⟨c.input, c.byteOffset, c.bitOffset, c.order⟩

theorem position_split (c : Cursor) : c.split.position = c.position :=
  c.byteOffset_bitOffset

theorem canonical_split_iff : c.split.Canonical ↔ c.WellFormed := by
  rw [wellFormed_iff]
  exact ⟨fun h => ⟨h.byte_le, h.bit_lt, h.bit_eq_zero⟩, fun h => ⟨h.1, h.2.1, h.2.2⟩⟩

/-- The canonical bytes and bits are those of well-formed cursors. -/
theorem canonical_iff_exists_split {s : SplitCursor} :
    s.Canonical ↔ ∃ c : Cursor, c.WellFormed ∧ c.split = s := by
  constructor
  · intro h
    have hbit := h.bit_lt
    have hbyte : s.position / 8 = s.byte := by
      rw [SplitCursor.position]
      omega
    have hrest : s.position % 8 = s.bit := by
      rw [SplitCursor.position]
      omega
    have hsplit : split ⟨s.input, s.position, s.order⟩ = s := SplitCursor.ext rfl hbyte hrest rfl
    exact ⟨_, canonical_split_iff.mp (hsplit.symm ▸ h), hsplit⟩
  · rintro ⟨c, hc, rfl⟩
    exact canonical_split_iff.mpr hc

theorem eq_iff_position_eq {d : Cursor} (input : d.input = c.input) (order : d.order = c.order) :
    d = c ↔ d.position = c.position := by
  refine ⟨congrArg position, fun h => ?_⟩
  obtain ⟨_, _, _⟩ := d
  cases input
  cases order
  cases h
  rfl

/-! ### Targets of moves -/

variable {offset : Int64} {anchor : Anchor} {next : Cursor}

theorem base_le (h : c.WellFormed) (anchor : Anchor) : c.base anchor ≤ c.size := by
  cases anchor with
  | start => exact Nat.zero_le _
  | current => exact h
  | finish => exact Nat.le_refl _

/-- From the current position on, a number of bits leads to where it leads by `advance`. -/
theorem target_current {n : Nat} (hn : n < 2 ^ 63) :
    c.target (.ofNat n) .current = ((c.position + n : Nat) : Int) := by
  rw [target, base, Int64.toInt_ofNat_of_lt hn, Int.natCast_add]

theorem target_start {n : Nat} (hn : n < 2 ^ 63) : c.target (.ofNat n) .start = (n : Int) := by
  rw [target, base, Int64.toInt_ofNat_of_lt hn]
  exact Int.zero_add _

theorem seekFrom_of_lt (h : c.size < c.target offset anchor) :
    c.seekFrom offset anchor = .error ⟨.endOfInput, ⟨c.input, c.size⟩⟩ := by
  rw [seekFrom_of_nonneg (by omega), seek_of_lt (by omega)]

/-- **A move succeeds when its target is a position**, and ends there. -/
theorem seekFrom_eq_ok_iff : c.seekFrom offset anchor = .ok next ↔
    0 ≤ c.target offset anchor ∧ c.target offset anchor ≤ c.size ∧
      next = { c with position := (c.target offset anchor).toNat } := by
  rcases Int.lt_or_le (c.target offset anchor) 0 with negative | nonneg
  · rw [seekFrom_of_neg negative]
    simp only [reduceCtorEq, false_iff]
    omega
  · rw [seekFrom_of_nonneg nonneg]
    rcases Nat.lt_or_ge c.size (c.target offset anchor).toNat with past | within
    · rw [seek_of_lt past]
      simp only [reduceCtorEq, false_iff]
      omega
    · rw [seek_of_le within, Except.ok.injEq, eq_comm]
      exact ⟨fun h => ⟨nonneg, by omega, h⟩, fun h => h.2.2⟩

/-- `seekFrom` with a word for the position. -/
def seekWord (c : Cursor) (offset : Int64) (anchor : Anchor) : Except Failure Cursor :=
  match Machine.move? (.ofNat (c.base anchor)) offset with
  | some position => c.seek position.toNat
  | none => .error (c.rejection (.seekLeavesInput offset anchor))

/-- **Words lead where integers lead**, when the size of the input fits into an offset. -/
theorem seekWord_eq (h : c.WellFormed) (hsize : c.size < 2 ^ 63) (offset : Int64)
    (anchor : Anchor) : c.seekWord offset anchor = c.seekFrom offset anchor := by
  have hbase := base_le h anchor
  have hoffset := offset.toInt_lt
  have hword : (UInt64.ofNat (c.base anchor)).toNat = c.base anchor :=
    UInt64.toNat_ofNat_of_lt' (show c.base anchor < 2 ^ 64 by omega)
  rw [seekWord]
  cases hmove : Machine.move? (.ofNat (c.base anchor)) offset with
  | some position =>
    have htarget : (position.toNat : Int) = c.target offset anchor := by
      rw [Machine.move?_eq_some_iff.mp hmove, hword, target]
    rw [seekFrom_of_nonneg (by omega), ← htarget, Int.toNat_natCast]
  | none =>
    refine (seekFrom_of_neg (Int.not_le.mp fun nonneg => ?_)).symm
    -- a target that is not negative is a word, and would be the result
    have hfits : (c.target offset anchor).toNat < 2 ^ 64 := by
      rw [target]
      omega
    have hmoved : Machine.move? (.ofNat (c.base anchor)) offset =
        some (.ofNat (c.target offset anchor).toNat) := by
      rw [Machine.move?_eq_some_iff, UInt64.toNat_ofNat_of_lt' hfits, hword,
        Int.toNat_of_nonneg nonneg, target]
    rw [hmove] at hmoved
    cases hmoved

/-- **To skip bits is to move by them from the current position.** -/
theorem skip_eq_ok_iff {n : Nat} (h : c.WellFormed) (hn : n < 2 ^ 63) :
    c.skip n = .ok next ↔ c.seekFrom (.ofNat n) .current = .ok next := by
  have hsum := h.position_add_remaining
  rw [seekFrom_eq_ok_iff, target_current hn, Int.toNat_natCast]
  rcases Nat.lt_or_ge c.remaining n with few | enough
  · rw [skip_of_lt few]
    simp only [reduceCtorEq, false_iff]
    omega
  · rw [skip_of_le enough, Except.ok.injEq, eq_comm]
    exact ⟨fun h => ⟨by omega, by omega, h⟩, fun h => h.2.2⟩

/-- **To move to the position of a cursor is to be back at the cursor**, from anywhere in the
input. -/
theorem seekFrom_position {d : Cursor} (h : c.WellFormed) (hsize : c.size < 2 ^ 63)
    (input : d.input = c.input) (order : d.order = c.order) :
    d.seekFrom (.ofNat c.position) .start = .ok c := by
  have hd : d.size = c.size := by rw [size, input, size]
  rw [seekFrom_eq_ok_iff, target_start (Nat.lt_of_le_of_lt h hsize), Int.toNat_natCast, hd]
  exact ⟨Int.natCast_nonneg _, Int.ofNat_le.mpr h, by rw [input, order]⟩

end Cursor

/-! ### Rules -/

namespace Rule

variable {cells : Cells} {c : Cursor} {m : Match} {offset : Int64} {anchor : Anchor}

theorem outcome_seek_eq_ok_iff :
    ((Rule.seek offset anchor).parse cells c).outcome = .ok m ↔
      ∃ next, c.seekFrom offset anchor = .ok next ∧
        m = ⟨some (Parser.positionValue next.position), next⟩ := by
  show (Parser.seek offset anchor c).outcome = .ok m ↔ _
  rw [Parser.seek_eq, Run.outcome_ofRead_eq_ok_iff]
  rfl

theorem exists_seek_ok_iff : (∃ m, ((Rule.seek offset anchor).parse cells c).outcome = .ok m) ↔
    0 ≤ c.target offset anchor ∧ c.target offset anchor ≤ c.size := by
  constructor
  · rintro ⟨m, hm⟩
    obtain ⟨next, hnext, -⟩ := outcome_seek_eq_ok_iff.mp hm
    obtain ⟨nonneg, within, -⟩ := Cursor.seekFrom_eq_ok_iff.mp hnext
    exact ⟨nonneg, within⟩
  · rintro ⟨nonneg, within⟩
    exact ⟨_, outcome_seek_eq_ok_iff.mpr
      ⟨_, Cursor.seekFrom_eq_ok_iff.mpr ⟨nonneg, within, rfl⟩, rfl⟩⟩

/-- The target of a move that succeeds is the word that is its value. -/
theorem exists_word_of_seek_ok (hsize : c.size < 2 ^ 63)
    (hm : ((Rule.seek offset anchor).parse cells c).outcome = .ok m) :
    ∃ n : UInt64, (n.toNat : Int) = c.target offset anchor ∧
      m = ⟨some (.uint n), { c with position := n.toNat }⟩ := by
  obtain ⟨next, hnext, rfl⟩ := outcome_seek_eq_ok_iff.mp hm
  obtain ⟨nonneg, within, rfl⟩ := Cursor.seekFrom_eq_ok_iff.mp hnext
  have hword : (UInt64.ofNat (c.target offset anchor).toNat).toNat =
      (c.target offset anchor).toNat :=
    UInt64.toNat_ofNat_of_lt' (show (c.target offset anchor).toNat < 2 ^ 64 by omega)
  refine ⟨.ofNat (c.target offset anchor).toNat, ?_, ?_⟩
  · rw [hword, Int.toNat_of_nonneg nonneg]
  · rw [hword, Parser.positionValue]

theorem outcome_seek_eq_failed_iff {e : Failure} :
    ((Rule.seek offset anchor).parse cells c).outcome = .failed e ↔
      c.seekFrom offset anchor = .error e := by
  show (Parser.seek offset anchor c).outcome = .failed e ↔ _
  rw [Parser.seek_eq, Run.outcome_ofRead_eq_failed_iff]

theorem outcome_skip_eq_ok_iff {n : Nat} :
    ((Rule.skip n).parse cells c).outcome = .ok m ↔
      ∃ next, c.skip n = .ok next ∧ m = ⟨none, next⟩ := by
  show (Parser.skip n c).outcome = .ok m ↔ _
  rw [Parser.skip_eq, Run.outcome_ofRead_eq_ok_iff]
  rfl

theorem exists_skip_ok_iff {n : Nat} {next : Cursor} (hc : c.WellFormed) (hn : n < 2 ^ 63) :
    (∃ v, ((Rule.skip n).parse cells c).outcome = .ok ⟨v, next⟩) ↔
      ∃ v, ((Rule.seek (.ofNat n) .current).parse cells c).outcome = .ok ⟨v, next⟩ := by
  constructor
  · rintro ⟨v, hv⟩
    obtain ⟨_, hskip, hm⟩ := outcome_skip_eq_ok_iff.mp hv
    obtain ⟨rfl, rfl⟩ := Match.mk.inj hm
    exact ⟨_, outcome_seek_eq_ok_iff.mpr ⟨_, (Cursor.skip_eq_ok_iff hc hn).mp hskip, rfl⟩⟩
  · rintro ⟨v, hv⟩
    obtain ⟨_, hseek, hm⟩ := outcome_seek_eq_ok_iff.mp hv
    obtain ⟨rfl, rfl⟩ := Match.mk.inj hm
    exact ⟨_, outcome_skip_eq_ok_iff.mpr ⟨_, (Cursor.skip_eq_ok_iff hc hn).mpr hseek, rfl⟩⟩

/-- A rule, and back to the position where it started. -/
def restoring (name : Option String) (rule : Rule) : Rule :=
  .andThen name (fun v => v.asInt64.map fun start => .right rule (.seek start .start)) .tell

/-- A position is an offset from the start. -/
theorem asInt64_positionValue {position : Nat} (h : position < 2 ^ 63) :
    (Parser.positionValue position).asInt64 = some (.ofNat position) := by
  have hword : (UInt64.ofNat position).toNat = position :=
    UInt64.toNat_ofNat_of_lt' (show position < 2 ^ 64 by omega)
  have hle : ((UInt64.ofNat position).toNat : Int) ≤ Int64.maxValue.toInt := by
    rw [hword, show Int64.maxValue.toInt = 2 ^ 63 - 1 from rfl]
    omega
  rw [Parser.positionValue, Value.asInt64]
  refine (if_pos hle).trans ?_
  rw [hword, Int64.ofInt_eq_ofNat]

/-- What comes behind the position is the rule and a move. -/
theorem outcome_restoring (cells : Cells) (name : Option String) (rule : Rule)
    (hc : c.WellFormed) (hsize : c.size < 2 ^ 63) :
    ((restoring name rule).parse cells c).outcome =
      (Parser.right (rule.parse cells) (Parser.seek (.ofNat c.position) .start) c).outcome := by
  have hchosen : (((Parser.positionValue c.position).asInt64.map fun start =>
      Rule.right rule (.seek start .start)).map (parseWithin cells (depthBound cells c))) =
        some ((Rule.right rule (.seek (.ofNat c.position) .start)).parseWithin cells
          (depthBound cells c)) := by
    rw [asInt64_positionValue (Nat.lt_of_le_of_lt hc hsize), Option.map_some, Option.map_some]
  rw [parse, restoring, parseWithin_andThen]
  show _ = ((Rule.right rule (.seek (.ofNat c.position) .start)).parseWithin cells
    (depthBound cells c) c).outcome
  exact Parser.outcome_andThen_of_ok (m := ⟨some (Parser.positionValue c.position), c⟩) rfl hchosen

/-- **Wherever a rule moves, its start can be found again.** -/
theorem outcome_restoring_eq_ok_iff {name : Option String} {rule : Rule} (hc : c.WellFormed)
    (hsize : c.size < 2 ^ 63) : ((restoring name rule).parse cells c).outcome = .ok m ↔
      m = ⟨some (Parser.positionValue c.position), c⟩ ∧
        ∃ n, (rule.parse cells c).outcome = .ok n := by
  rw [outcome_restoring cells name rule hc hsize]
  -- wherever the rule ends, the input and the order of reading are the same
  have back : ∀ n, (rule.parse cells c).outcome = .ok n →
      (Parser.seek (.ofNat c.position) .start n.next).outcome =
        .ok ⟨some (Parser.positionValue c.position), c⟩ := by
    intro n hn
    obtain ⟨within, order⟩ := within_of_parse (hc.within (Nat.zero_le _)) hn
    rw [Parser.seek_eq, Cursor.seekFrom_position hc hsize within.input_eq order]
    rfl
  constructor
  · intro h
    obtain ⟨n, hn, hm⟩ := Run.ok_of_bind h
    rw [back n hn] at hm
    exact ⟨(Outcome.ok.inj hm).symm, n, hn⟩
  · rintro ⟨rfl, n, hn⟩
    exact (Run.outcome_bind_ok hn).trans (back n hn)

/-- **Positions are integers that can be gone back to.** When the size of the input fits into an
offset, a `seek` succeeds if the sum of anchor and offset is a position, and then it yields the sum
and ends there; a negative sum is rejected where the `seek` stands, and one past the end fails at
the end. A cursor is its position, also when the position is kept as a byte and a bit. Skipping
bits is a `seek` by as many from the current position. And a grammar that takes down the position,
goes on with any rule and then seeks the position succeeds when the rule follows, and ends where it
started. -/
theorem parse_seek (cells : Cells) (c : Cursor) (hc : c.WellFormed) (hsize : c.size < 2 ^ 63) :
    (∀ (offset : Int64) (anchor : Anchor),
      c.seekWord offset anchor = c.seekFrom offset anchor ∧
      ((∃ m, ((Rule.seek offset anchor).parse cells c).outcome = .ok m) ↔
        0 ≤ c.target offset anchor ∧ c.target offset anchor ≤ c.size) ∧
      (∀ m, ((Rule.seek offset anchor).parse cells c).outcome = .ok m →
        ∃ n : UInt64, (n.toNat : Int) = c.target offset anchor ∧
          m = ⟨some (.uint n), { c with position := n.toNat }⟩) ∧
      (c.target offset anchor < 0 → ((Rule.seek offset anchor).parse cells c).outcome =
        .failed (c.rejection (.seekLeavesInput offset anchor))) ∧
      (c.size < c.target offset anchor → ((Rule.seek offset anchor).parse cells c).outcome =
        .failed ⟨.endOfInput, ⟨c.input, c.size⟩⟩)) ∧
    (∀ d : Cursor, d.input = c.input → d.order = c.order →
      (d = c ↔ d.position = c.position)) ∧
    (∀ s : SplitCursor, s.Canonical ↔ ∃ d : Cursor, d.WellFormed ∧ d.split = s) ∧
    (∀ s : SplitCursor, s.Canonical → s.input = c.input → s.order = c.order →
      (s = c.split ↔ s.position = c.position)) ∧
    (∀ (n : Nat) (next : Cursor), n < 2 ^ 63 →
      ((∃ v, ((Rule.skip n).parse cells c).outcome = .ok ⟨v, next⟩) ↔
        ∃ v, ((Rule.seek (.ofNat n) .current).parse cells c).outcome = .ok ⟨v, next⟩)) ∧
    ∀ (name : Option String) (rule : Rule) (m : Match),
      ((restoring name rule).parse cells c).outcome = .ok m ↔
        m = ⟨some (.uint (.ofNat c.position)), c⟩ ∧
          ∃ n, ((Rule.followedBy rule).parse cells c).outcome = .ok n := by
  refine ⟨fun offset anchor => ⟨c.seekWord_eq hc hsize offset anchor, exists_seek_ok_iff,
    fun m => exists_word_of_seek_ok hsize, fun before => ?_, fun past => ?_⟩,
    fun d => Cursor.eq_iff_position_eq, fun s => Cursor.canonical_iff_exists_split,
    fun s hs input order => ?_, fun n next hn => ?_, fun name rule m => ?_⟩
  · exact outcome_seek_eq_failed_iff.mpr (Cursor.seekFrom_of_neg before)
  · exact outcome_seek_eq_failed_iff.mpr (Cursor.seekFrom_of_lt past)
  · rw [← c.position_split]
    exact SplitCursor.eq_iff_position_eq hs (Cursor.canonical_split_iff.mpr hc) input order
  · exact exists_skip_ok_iff hc hn
  · exact (outcome_restoring_eq_ok_iff hc hsize).trans
      (and_congr_right fun _ => Parser.exists_ok_followedBy_iff.symm)

/-- From the second of two letters the smallest offset is rejected where it stands, one bit past the
end fails at the end, and the way back from the end leads to the second letter. -/
theorem parse_seek_twoLetters :
    ((⟨#[0x61, 0x62], 8, {}⟩ : Cursor).WellFormed ∧
      (⟨#[0x61, 0x62], 8, {}⟩ : Cursor).size < 2 ^ 63) ∧
    ((Rule.seek Int64.minValue .finish).parse .empty ⟨#[0x61, 0x62], 8, {}⟩).outcome =
      .failed ⟨.rejection (.seekLeavesInput Int64.minValue .finish), ⟨#[0x61, 0x62], 8⟩⟩ ∧
    ((Rule.seek 1 .finish).parse .empty ⟨#[0x61, 0x62], 8, {}⟩).outcome =
      .failed ⟨.endOfInput, ⟨#[0x61, 0x62], 16⟩⟩ ∧
    ((restoring none (.take 1)).parse .empty ⟨#[0x61, 0x62], 8, {}⟩).outcome =
      .ok ⟨some (.uint 8), ⟨#[0x61, 0x62], 8, {}⟩⟩ := by
  have wellFormed : (⟨#[0x61, 0x62], 8, {}⟩ : Cursor).WellFormed := show 8 ≤ 16 by decide
  have small : (⟨#[0x61, 0x62], 8, {}⟩ : Cursor).size < 2 ^ 63 := by decide
  obtain ⟨seeks, -, -, -, -, restores⟩ :=
    parse_seek .empty ⟨#[0x61, 0x62], 8, {}⟩ wellFormed small
  obtain ⟨-, -, -, before, -⟩ := seeks Int64.minValue .finish
  obtain ⟨-, -, -, -, past⟩ := seeks 1 .finish
  exact ⟨⟨wellFormed, small⟩, before (by decide), past (by decide),
    (restores none (.take 1) _).mpr ⟨rfl, _, rfl⟩⟩

end Rule

end BitGrammar
