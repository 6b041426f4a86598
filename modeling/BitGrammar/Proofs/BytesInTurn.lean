import BitGrammar.Proofs.CheckedRead
import BitGrammar.Rule.Parse

/-!
# Bytes read at once and one after another

Where the bytes to read are bytes of the input, `Cursor.readBytes` copies them; elsewhere it reads
eight bits for each of them. Nobody can tell which of the two it did: what it gives is what reading
one byte after another gives, each byte from the cursor behind the one before.

## What decides the design

Reading byte by byte is a relation here, `Cursor.ReadsBytes`, and not one of the two functions that
read. It says nothing about how many bits are left. That there have to be enough of them for all
the bytes, and that the cursor behind the bytes is where it should be, is proved of it once, and
`readBytes` is then compared with the relation.

A copy is right because a byte that is read at a byte boundary is a byte of the input, whatever the
order of its bits is (`Cursor.peekNat_eight`). That a copy is made for one order of bits only does
not matter for this.

## Main definitions

* `Cursor.ReadsBytes`: bytes read one after another
* `Cursor.BytesLeft`: all the whole bytes up to the end of the input

## Main results

* `Cursor.readBytes_eq_ok_iff`: bytes read at once are bytes read one after another
* `Rule.parse_take_iff`: the same for the rule that takes bytes, with all that can go wrong
-/

namespace BitGrammar

namespace Cursor

/-- Bytes that are read one after another, each from the cursor behind the one before. -/
inductive ReadsBytes : Cursor → List UInt8 → Cursor → Prop where
  | nil (c : Cursor) : ReadsBytes c [] c
  | cons {c d finish : Cursor} {b : UInt8} {bytes : List UInt8} (head : c.readByte = .ok (b, d))
    (tail : ReadsBytes d bytes finish) : ReadsBytes c (b :: bytes) finish

variable {c d finish : Cursor} {b : UInt8} {bytes bytes' : List UInt8} {count : Nat}

namespace ReadsBytes

theorem finish_eq (h : c.ReadsBytes bytes finish) : finish = c.advance (8 * bytes.length) := by
  induction h with
  | nil c => rfl
  | cons head tail ih =>
    obtain ⟨-, -, rfl⟩ := readByte_eq_ok head
    rw [ih, advance_eight_advance, List.length_cons]

theorem length_le (h : c.ReadsBytes bytes finish) : 8 * bytes.length ≤ c.remaining := by
  induction h with
  | nil c => exact Nat.zero_le _
  | cons head tail ih =>
    obtain ⟨enough, -, rfl⟩ := readByte_eq_ok head
    rw [remaining_advance] at ih
    rw [List.length_cons]
    omega

theorem append_iff : c.ReadsBytes (bytes ++ bytes') finish ↔
    ∃ d, c.ReadsBytes bytes d ∧ d.ReadsBytes bytes' finish := by
  induction bytes generalizing c with
  | nil =>
    constructor
    · intro h
      exact ⟨c, .nil c, h⟩
    · rintro ⟨d, ⟨⟩, h⟩
      exact h
  | cons b bytes ih =>
    constructor
    · rintro (_ | ⟨head, tail⟩)
      obtain ⟨d, first, second⟩ := ih.mp tail
      exact ⟨d, .cons head first, second⟩
    · rintro ⟨d, (_ | ⟨head, tail⟩), second⟩
      exact .cons head (ih.mpr ⟨d, tail, second⟩)

end ReadsBytes

/-- There are as many bytes to read as there are eight bits left for. -/
theorem exists_readsBytes (enough : 8 * count ≤ c.remaining) :
    ∃ bytes, bytes.length = count ∧ c.ReadsBytes bytes (c.advance (8 * count)) := by
  induction count generalizing c with
  | zero => exact ⟨[], rfl, .nil c⟩
  | succ count ih =>
    have room : 8 * count ≤ (c.advance 8).remaining := by
      rw [remaining_advance]
      omega
    obtain ⟨bytes, length, tail⟩ := ih room
    rw [advance_eight_advance] at tail
    exact ⟨.ofNat (c.peekNat 8) :: bytes, by simp [length],
      .cons (readByte_of_le (by omega)) tail⟩

/-! ### The two ways of reading -/

/-- Reading slowly is reading one byte after another. -/
theorem readBytesSlowly_eq_ok_iff : c.readBytesSlowly count = .ok (bytes, finish) ↔
    bytes.length = count ∧ c.ReadsBytes bytes finish := by
  induction count generalizing c bytes with
  | zero =>
    constructor
    · intro h
      cases h
      exact ⟨rfl, .nil _⟩
    · rintro ⟨length, _ | _⟩
      · rfl
      · cases length
  | succ count ih =>
    constructor
    · intro h
      rw [readBytesSlowly] at h
      cases hb : c.readByte with
      | error e =>
        rw [hb] at h
        cases h
      | ok r =>
        rw [hb] at h
        dsimp only at h
        cases hr : r.2.readBytesSlowly count with
        | error e =>
          rw [hr] at h
          cases h
        | ok s =>
          rw [hr] at h
          cases h
          obtain ⟨length, tail⟩ := ih.mp hr
          exact ⟨by rw [List.length_cons, length], .cons hb tail⟩
    · rintro ⟨length, _ | ⟨head, tail⟩⟩
      · cases length
      · rw [readBytesSlowly, head]
        dsimp only
        rw [ih.mpr ⟨Nat.succ.inj length, tail⟩]

/-- From a byte boundary on, the bytes read are those of the input. -/
theorem readsBytes_of_aligned (aligned : c.bitOffset = 0) (enough : 8 * count ≤ c.remaining) :
    c.ReadsBytes ((c.input.toList.drop c.byteOffset).take count) (c.advance (8 * count)) := by
  induction count generalizing c with
  | zero => exact .nil c
  | succ count ih =>
    have inside : c.byteOffset < c.input.size := by
      have := c.byteOffset_bitOffset
      have : c.remaining = 8 * c.input.size - c.position := rfl
      omega
    have tail := ih (c := c.advance 8) (bitOffset_advance_eight c 1 ▸ aligned)
      (by rw [remaining_advance]; omega)
    rw [advance_eight_advance, byteOffset_advance_eight c 1] at tail
    rw [List.drop_eq_getElem_cons (by simpa using inside), List.take_succ_cons]
    refine .cons ?_ tail
    rw [readByte_of_le (by omega), peekNat_eight aligned]
    simp [Array.getD_eq_getD_getElem?, inside]

/-- Taking bytes at once is reading them slowly, where there are enough of them. -/
theorem readBytes_eq_readBytesSlowly (enough : 8 * count ≤ c.remaining) :
    c.readBytes count = c.readBytesSlowly count := by
  rw [readBytes, if_neg (Nat.not_lt.mpr enough)]
  split
  next fast =>
    have slice : (c.input.extract c.byteOffset (c.byteOffset + count)).toList =
        (c.input.toList.drop c.byteOffset).take count := by
      simp [List.take_drop]
    have length : ((c.input.toList.drop c.byteOffset).take count).length = count := by
      have := c.byteOffset_bitOffset
      have : c.remaining = 8 * c.input.size - c.position := rfl
      rw [List.length_take, List.length_drop, Array.length_toList]
      omega
    rw [slice]
    exact (readBytesSlowly_eq_ok_iff.mpr ⟨length, readsBytes_of_aligned fast.1 enough⟩).symm
  next => rfl

theorem readBytes_of_lt (short : c.remaining < 8 * count) :
    c.readBytes count = .error c.endOfInput :=
  if_pos short

/-- **Bytes read at once are bytes read one after another.** -/
theorem readBytes_eq_ok_iff : c.readBytes count = .ok (bytes, finish) ↔
    bytes.length = count ∧ c.ReadsBytes bytes finish := by
  by_cases enough : 8 * count ≤ c.remaining
  · rw [readBytes_eq_readBytesSlowly enough, readBytesSlowly_eq_ok_iff]
  · rw [readBytes_of_lt (Nat.lt_of_not_le enough)]
    constructor
    · intro h
      cases h
    · rintro ⟨rfl, h⟩
      exact absurd h.length_le enough

/-! ### The bytes that are left -/

section Left

variable {front rest : List UInt8}

/-- The whole bytes up to the end of the input, read one after another. -/
def BytesLeft (c : Cursor) (bytes : List UInt8) : Prop :=
  ∃ finish, c.ReadsBytes bytes finish ∧ finish.remaining < 8

theorem BytesLeft.short (h : c.BytesLeft []) : c.remaining < 8 := by
  obtain ⟨_, ⟨⟩, short⟩ := h
  exact short

theorem BytesLeft.readByte (h : c.BytesLeft (b :: bytes)) : c.readByte = .ok (b, c.advance 8) := by
  obtain ⟨finish, _ | ⟨head, tail⟩, -⟩ := h
  obtain ⟨-, -, rfl⟩ := readByte_eq_ok head
  exact head

theorem BytesLeft.tail (h : c.BytesLeft (b :: bytes)) : (c.advance 8).BytesLeft bytes := by
  obtain ⟨finish, _ | ⟨head, tail⟩, short⟩ := h
  obtain ⟨-, -, rfl⟩ := readByte_eq_ok head
  exact ⟨finish, tail, short⟩

/-- Bytes that the bytes left start with are read, and the others are left behind them. -/
theorem BytesLeft.split (h : c.BytesLeft (front ++ rest)) :
    c.ReadsBytes front (c.advance (8 * front.length)) ∧
      (c.advance (8 * front.length)).BytesLeft rest := by
  obtain ⟨finish, reads, short⟩ := h
  obtain ⟨d, first, second⟩ := ReadsBytes.append_iff.mp reads
  obtain rfl := first.finish_eq
  exact ⟨first, finish, second, short⟩

theorem BytesLeft.behind (h : c.BytesLeft (front ++ rest)) :
    (c.advance (8 * front.length)).BytesLeft rest :=
  h.split.2

/-- The bytes left start with all bytes that are read from there. -/
theorem BytesLeft.prefix_of_readsBytes (h : c.BytesLeft bytes) (reads : c.ReadsBytes front finish) :
    front <+: bytes := by
  induction reads generalizing bytes with
  | nil => exact List.nil_prefix
  | cons head _ ih =>
    cases bytes with
    | nil => exact absurd (readByte_eq_ok head).1 (Nat.not_le.mpr h.short)
    | cons b bytes =>
      cases head.symm.trans h.readByte
      exact List.cons_prefix_cons.mpr ⟨rfl, ih h.tail⟩

theorem bytesLeft_of_readBytes (h : c.readBytes (c.remaining / 8) = .ok (bytes, finish)) :
    c.BytesLeft bytes := by
  obtain ⟨length, reads⟩ := readBytes_eq_ok_iff.mp h
  refine ⟨finish, reads, ?_⟩
  rw [reads.finish_eq, remaining_advance]
  omega

/-- From a byte boundary on, the bytes left are those of the input. -/
theorem readBytes_of_aligned (aligned : c.bitOffset = 0) :
    c.readBytes (c.remaining / 8) =
      .ok (c.input.toList.drop c.byteOffset, c.advance (8 * (c.remaining / 8))) := by
  have length : (c.input.toList.drop c.byteOffset).length = c.remaining / 8 := by
    have := c.byteOffset_bitOffset
    have : c.remaining = 8 * c.input.size - c.position := rfl
    rw [List.length_drop, Array.length_toList]
    omega
  have reads := readsBytes_of_aligned aligned (Nat.mul_div_le c.remaining 8)
  rw [List.take_of_length_le (Nat.le_of_eq length)] at reads
  exact readBytes_eq_ok_iff.mpr ⟨length, reads⟩

theorem bytesLeft_start (input : Array UInt8) (order : ReadOrder) :
    BytesLeft { input, order } input.toList := by
  have start : (⟨input, 0, order⟩ : Cursor).byteOffset = 0 := Nat.zero_div 8
  have all := readBytes_of_aligned (c := { input, order }) rfl
  rw [start, List.drop_zero] at all
  exact bytesLeft_of_readBytes all

end Left

end Cursor

/-- Where no byte of a kind follows, the parser of such a byte fails. -/
theorem Parser.test_failed_of_boundary {kind : UInt8 → Bool} (why : UInt8 → Mismatch) {c : Cursor}
    {bytes : List UInt8} (left : c.BytesLeft bytes)
    (boundary : ∀ b, bytes.head? = some b → kind b = false) :
    ∃ e, (test kind why c).outcome = .failed e := by
  cases bytes with
  | nil => exact ⟨_, congrArg Run.outcome (test_of_lt left.short)⟩
  | cons b bytes => exact ⟨_, congrArg Run.outcome (test_of_refused left.readByte (boundary b rfl))⟩

namespace Rule

/-- **Taking bytes is reading them one after another.** It succeeds when there are eight bits for
each of the bytes, and fails at the start when there are not; what it gives are the bytes that are
read in turn and the cursor behind them, for the rule as for the read. With machine words, where
the number of bits is capped at the largest word, it is the same for every number of bytes. -/
theorem parse_take_iff (cells : Cells) (c : Cursor) (h : c.WellFormed) (count : Nat) :
    ((∃ bytes finish, c.readBytes count = .ok (bytes, finish)) ↔ 8 * count ≤ c.remaining) ∧
    (∀ bytes finish, c.readBytes count = .ok (bytes, finish) ↔
      bytes.length = count ∧ c.ReadsBytes bytes finish) ∧
    (∀ m, (Rule.parse cells (.take count) c).outcome = .ok m ↔
      ∃ bytes, m.value = some (.bytes bytes) ∧ bytes.length = count ∧
        c.ReadsBytes bytes m.next) ∧
    (c.remaining < 8 * count →
      c.readBytes count = .error ⟨.endOfInput, ⟨c.input, c.position⟩⟩ ∧
      (Rule.parse cells (.take count) c).outcome =
        .failed ⟨.endOfInput, ⟨c.input, c.position⟩⟩) ∧
    ∀ width, 0 < width → c.size < 2 ^ width →
      c.readBytes? width count = some (c.readBytes count) := by
  have run : Rule.parse cells (.take count) c =
      .ofRead (fun r => some (.bytes r.1)) Prod.snd (c.readBytes count) :=
    Parser.take_eq count c
  refine ⟨⟨?_, fun enough => ?_⟩, fun bytes finish => Cursor.readBytes_eq_ok_iff, fun m => ?_,
    fun short => ?_, fun width positive fits => Cursor.readBytes?_eq h fits positive count⟩
  · rintro ⟨bytes, finish, hr⟩
    obtain ⟨rfl, reads⟩ := Cursor.readBytes_eq_ok_iff.mp hr
    exact reads.length_le
  · obtain ⟨bytes, reads⟩ := Cursor.exists_readsBytes enough
    exact ⟨bytes, _, Cursor.readBytes_eq_ok_iff.mpr reads⟩
  · rw [run, Run.outcome_ofRead_eq_ok_iff]
    constructor
    · rintro ⟨⟨bytes, finish⟩, hr, rfl⟩
      exact ⟨bytes, rfl, Cursor.readBytes_eq_ok_iff.mp hr⟩
    · obtain ⟨value, next⟩ := m
      rintro ⟨bytes, rfl, reads⟩
      exact ⟨(bytes, next), Cursor.readBytes_eq_ok_iff.mpr reads, rfl⟩
  · have fails := Cursor.readBytes_of_lt short
    refine ⟨fails, ?_⟩
    rw [run, Run.outcome_ofRead_eq_failed_iff]
    exact fails

/-- Two bytes taken from the fourth bit of three, the least significant bit of each byte first. -/
theorem parse_take_iff_unaligned :
    (⟨#[0x12, 0x34, 0x56], 4, .little⟩ : Cursor).WellFormed ∧
      ∃ bytes finish, (⟨#[0x12, 0x34, 0x56], 4, .little⟩ : Cursor).readBytes 2 =
        .ok (bytes, finish) := by
  have h : (⟨#[0x12, 0x34, 0x56], 4, .little⟩ : Cursor).WellFormed := by
    show 4 ≤ 8 * 3
    decide
  exact ⟨h, (parse_take_iff .empty _ h 2).1.mpr (by decide)⟩

end Rule

end BitGrammar
