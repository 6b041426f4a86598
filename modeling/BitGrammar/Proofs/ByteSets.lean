import BitGrammar.Rule.Parse
import Mathlib.Data.Nat.Bitwise
import Mathlib.Data.Set.Insert

/-!
# Sets of bytes, and the bytes that parsers accept

A set of bytes is made by putting in bytes and by taking complements, in any order and any number of
times. It is kept in four words of 64 bits: the two highest bits of a byte choose the word and the
others the bit. What is in the set is what the operations say of a set without any words, and as
every bit of every word belongs to a byte, sets with the same members are the same words.

Of the two parsers for a list of bytes, one takes the bytes of the list and the other one all the
others. Where eight bits are left exactly one of them matches, whatever the byte and the order are.
A range of bytes matches as the list of its bytes does.

## What decides the design

One definition runs a sequence of operations, given what each of them does (`ByteSet.Op.run`). So a
relation that each operation preserves holds behind every sequence, and the relation here is to have
the same members: between the words and a set, and between the words and the one number of 256 bits
that parsers look bytes up in. A byte and its place in the words determine each other, which makes
words with the same members the same.

## Main definitions

* `ByteSet.Op`, `ByteSet.Op.run`: operations on sets, and what a sequence of them makes
* `Machine.ByteWords`: sets of bytes as four words

## Main results

* `Machine.ByteWords.eq_of_contains`: words with the same members are the same
* `Rule.parse_byteSets`: sets made by operations, and the parsers of bytes in sets
-/

namespace BitGrammar

/-! ### Operations on sets -/

namespace ByteSet

/-- An operation on a set of bytes. -/
inductive Op where
  | insert (byte : UInt8)
  | complement

namespace Op

section Run

variable {α β : Type}

/-- One operation, given what the operations do. -/
def apply (insert : α → UInt8 → α) (complement : α → α) (s : α) : Op → α
  | .insert byte => insert s byte
  | .complement => complement s

/-- A sequence of operations one after another, given what the operations do. -/
def run (insert : α → UInt8 → α) (complement : α → α) (start : α) (ops : List Op) : α :=
  ops.foldl (apply insert complement) start

/-- What every operation preserves holds behind every sequence of them. -/
theorem run_related {insert : α → UInt8 → α} {complement : α → α} {insert' : β → UInt8 → β}
    {complement' : β → β} (related : α → β → Prop)
    (inserts : ∀ s t b, related s t → related (insert s b) (insert' t b))
    (complements : ∀ s t, related s t → related (complement s) (complement' t)) {s : α} {t : β}
    (start : related s t) (ops : List Op) :
    related (run insert complement s ops) (run insert' complement' t ops) := by
  induction ops generalizing s t with
  | nil => exact start
  | cons op ops ih =>
    cases op with
    | insert b => exact ih (inserts s t b start)
    | complement => exact ih (complements s t start)

end Run

/-- The set that a sequence of operations stands for. -/
def meaning (ops : List Op) : Set UInt8 :=
  run (fun s b => Insert.insert b s) (fun s => sᶜ) ∅ ops

/-- Where membership follows the operations, the members are those of the set that the operations
stand for. -/
theorem contains_run_iff {α : Type} {insert : α → UInt8 → α} {complement : α → α} {start : α}
    {contains : α → UInt8 → Bool} (empty : ∀ b, contains start b = false)
    (inserts : ∀ s a b, contains (insert s a) b = (contains s b || a == b))
    (complements : ∀ s b, contains (complement s) b = !contains s b) (ops : List Op) (b : UInt8) :
    contains (run insert complement start ops) b = true ↔ b ∈ meaning ops := by
  have members : ∀ b, contains (run insert complement start ops) b = true ↔ b ∈ meaning ops := by
    refine run_related (fun s (t : Set UInt8) => ∀ b, contains s b = true ↔ b ∈ t)
      (fun s t a h b => ?_) (fun s t h b => ?_) (fun b => ?_) ops
    · rw [inserts, Bool.or_eq_true, h, beq_iff_eq, Set.mem_insert_iff, or_comm, eq_comm]
    · rw [complements, Bool.not_eq_true', Bool.eq_false_iff, ne_eq, h, Set.mem_compl_iff]
    · simp [empty]
  exact members b

end Op

/-- The set of bytes behind a sequence of operations. -/
def after (ops : List Op) : ByteSet :=
  Op.run insert complement empty ops

theorem contains_after_iff (ops : List Op) (b : UInt8) :
    (after ops).contains b = true ↔ b ∈ Op.meaning ops :=
  Op.contains_run_iff contains_empty contains_insert contains_complement ops b

end ByteSet

/-! ### Four words -/

namespace Machine

/-- The word that holds the bit of a byte. -/
def wordIndex (b : UInt8) : Fin 4 :=
  ⟨(b >>> 6).toNat, by
    have := b.toNat_lt
    rw [UInt8.toNat_shiftRight]
    show b.toNat >>> 6 < 4
    omega⟩

/-- The bit of a byte in its word, as a word. -/
def bitMask (b : UInt8) : UInt64 :=
  1 <<< (b &&& 63).toUInt64

/-- A set of bytes as four words. -/
structure ByteWords where
  words : Vector UInt64 4
  deriving DecidableEq

theorem val_wordIndex (b : UInt8) : (wordIndex b).val = b.toNat / 64 := by
  show (b >>> 6).toNat = _
  rw [UInt8.toNat_shiftRight]
  exact Nat.shiftRight_eq_div_pow b.toNat 6

theorem toNat_bitMask (b : UInt8) : (bitMask b).toNat = 2 ^ (b.toNat % 64) := by
  have low : (b &&& 63).toUInt64.toNat = b.toNat % 64 := by
    rw [UInt8.toNat_toUInt64, UInt8.toNat_and]
    exact Nat.and_two_pow_sub_one_eq_mod b.toNat 6
  have small : b.toNat % 64 < 64 := Nat.mod_lt _ (by decide)
  have fits : 2 ^ (b.toNat % 64) < 2 ^ 64 := Nat.pow_lt_pow_right (by decide) small
  rw [bitMask, UInt64.toNat_shiftLeft, low, Nat.mod_eq_of_lt small, Nat.shiftLeft_eq,
    UInt64.toNat_one, Nat.one_mul, Nat.mod_eq_of_lt fits]

/-- Bytes with the same bit in the same word are the same. -/
theorem eq_iff_place_eq (a b : UInt8) :
    a = b ↔ wordIndex a = wordIndex b ∧ a.toNat % 64 = b.toNat % 64 := by
  rw [Fin.ext_iff, val_wordIndex, val_wordIndex, ← UInt8.toNat_inj]
  omega

/-- Every bit of every word is that of a byte. -/
theorem exists_place (i : Fin 4) {j : Nat} (hj : j < 64) :
    ∃ b, wordIndex b = i ∧ b.toNat % 64 = j := by
  have hi := i.isLt
  have byte : (UInt8.ofNat (64 * i.val + j)).toNat = 64 * i.val + j :=
    UInt8.toNat_ofNat_of_lt' (by
      show 64 * i.val + j < 256
      omega)
  refine ⟨.ofNat (64 * i.val + j), Fin.ext ?_, ?_⟩
  · rw [val_wordIndex, byte]
    omega
  · rw [byte]
    omega

/-- A word has 64 bits. -/
theorem testBit_of_ge {word : UInt64} {j : Nat} (h : 64 ≤ j) : word.toNat.testBit j = false :=
  Nat.testBit_lt_two_pow
    (Nat.lt_of_lt_of_le word.toNat_lt (Nat.pow_le_pow_right (by decide) h))

namespace ByteWords

/-- The set without members. -/
def empty : ByteWords :=
  ⟨.replicate 4 0⟩

/-- The set with one more byte. -/
def insert (s : ByteWords) (b : UInt8) : ByteWords :=
  ⟨s.words.set (wordIndex b).val (s.words[wordIndex b] ||| bitMask b) (wordIndex b).isLt⟩

/-- Membership. -/
def contains (s : ByteWords) (b : UInt8) : Bool :=
  s.words[wordIndex b] &&& bitMask b != 0

/-- The bytes that are not in the set. -/
def complement (s : ByteWords) : ByteWords :=
  ⟨s.words.map (~~~ ·)⟩

/-- The words behind a sequence of operations. -/
def after (ops : List ByteSet.Op) : ByteWords :=
  ByteSet.Op.run insert complement empty ops

/-- A byte is a member if its bit in its word is set. -/
theorem contains_eq (s : ByteWords) (b : UInt8) :
    s.contains b = s.words[wordIndex b].toNat.testBit (b.toNat % 64) := by
  have masked : (s.words[wordIndex b] &&& bitMask b).toNat =
      (s.words[wordIndex b].toNat.testBit (b.toNat % 64)).toNat * 2 ^ (b.toNat % 64) := by
    rw [UInt64.toNat_and, toNat_bitMask, Nat.and_two_pow]
  rw [contains, Bool.eq_iff_iff, bne_iff_ne, ne_eq, ← UInt64.toNat_inj, masked]
  cases s.words[wordIndex b].toNat.testBit (b.toNat % 64) <;> simp

@[simp] theorem contains_empty (b : UInt8) : empty.contains b = false := by
  rw [contains_eq, empty, Fin.getElem_fin, Vector.getElem_replicate]
  exact Nat.zero_testBit _

@[simp] theorem contains_insert (s : ByteWords) (a b : UInt8) :
    (s.insert a).contains b = (s.contains b || a == b) := by
  rw [contains_eq, contains_eq, insert, Fin.getElem_fin, Vector.getElem_set]
  by_cases word : (wordIndex a).val = (wordIndex b).val
  · have same : (decide (a.toNat % 64 = b.toNat % 64)) = (a == b) := by
      rw [Bool.eq_iff_iff, decide_eq_true_iff, beq_iff_eq, eq_iff_place_eq]
      exact ⟨fun bit => ⟨Fin.ext word, bit⟩, And.right⟩
    rw [if_pos word, UInt64.toNat_or, Nat.testBit_or, toNat_bitMask, Nat.testBit_two_pow, same]
    simp only [word, Fin.getElem_fin]
  · have other : (a == b) = false :=
      beq_eq_false_iff_ne.mpr fun same => word (congrArg (fun b => (wordIndex b).val) same)
    rw [if_neg word, other, Bool.or_false, Fin.getElem_fin]

@[simp] theorem contains_complement (s : ByteWords) (b : UInt8) :
    s.complement.contains b = !s.contains b := by
  have small : b.toNat % 64 < 64 := Nat.mod_lt _ (by decide)
  have flipped : ∀ word : UInt64, (~~~word).toNat = 2 ^ 64 - (word.toNat + 1) := fun word => by
    rw [UInt64.toNat_not, Nat.sub_sub, Nat.add_comm]
    rfl
  rw [contains_eq, contains_eq, complement, Fin.getElem_fin, Vector.getElem_map, flipped,
    Nat.testBit_two_pow_sub_succ (UInt64.toNat_lt _), decide_eq_true small, Bool.true_and]
  rfl

theorem contains_of_place {i : Fin 4} {j : Nat} {b : UInt8} (word : wordIndex b = i)
    (bit : b.toNat % 64 = j) (s : ByteWords) : s.contains b = s.words[i].toNat.testBit j := by
  subst word bit
  exact s.contains_eq b

/-- **Words with the same members are the same.** -/
theorem eq_of_contains {s t : ByteWords} (h : ∀ b, s.contains b = t.contains b) : s = t := by
  obtain ⟨words⟩ := s
  obtain ⟨words'⟩ := t
  refine congrArg ByteWords.mk (Vector.ext fun i hi => ?_)
  refine UInt64.toNat_inj.mp (Nat.eq_of_testBit_eq fun j => ?_)
  rcases Nat.lt_or_ge j 64 with inside | outside
  · obtain ⟨b, word, bit⟩ := exists_place ⟨i, hi⟩ inside
    have same := h b
    rwa [contains_of_place word bit, contains_of_place word bit] at same
  · rw [testBit_of_ge outside, testBit_of_ge outside]

/-- Words that have the members of a set are its words. -/
theorem map_toNat_words {s : ByteWords} {t : ByteSet} (h : ∀ b, s.contains b = t.contains b) :
    s.words.toList.map UInt64.toNat = t.words := by
  refine List.ext_getElem (by simp [ByteSet.words]) fun i hi _ => ?_
  have hi : i < 4 := by simpa using hi
  have word : (s.words[i]).toNat = (t.bits.extractLsb' (64 * i) 64).toNat := by
    refine Nat.eq_of_testBit_eq fun j => ?_
    rw [BitVec.testBit_toNat, BitVec.getLsbD_extractLsb']
    rcases Nat.lt_or_ge j 64 with inside | outside
    · obtain ⟨b, place, bit⟩ := exists_place ⟨i, hi⟩ inside
      have byte : 64 * i + j = b.toNat := by
        have word : b.toNat / 64 = i := (val_wordIndex b).symm.trans (congrArg Fin.val place)
        omega
      have same := h b
      rw [contains_of_place place bit] at same
      rw [decide_eq_true inside, Bool.true_and, byte]
      exact same
    · rw [testBit_of_ge outside, decide_eq_false (Nat.not_lt.mpr outside), Bool.false_and]
  simpa [ByteSet.words] using word

theorem contains_after_iff (ops : List ByteSet.Op) (b : UInt8) :
    (after ops).contains b = true ↔ b ∈ ByteSet.Op.meaning ops :=
  ByteSet.Op.contains_run_iff contains_empty contains_insert contains_complement ops b

/-- The words behind operations have the members that the set behind them has. -/
theorem contains_after (ops : List ByteSet.Op) (b : UInt8) :
    (after ops).contains b = (ByteSet.after ops).contains b := by
  rw [Bool.eq_iff_iff, contains_after_iff, ByteSet.contains_after_iff]

/-- Sequences of operations make the same words when they make the same set. -/
theorem after_eq_iff (ops ops' : List ByteSet.Op) :
    after ops = after ops' ↔ ByteSet.Op.meaning ops = ByteSet.Op.meaning ops' := by
  constructor
  · intro h
    ext b
    rw [← contains_after_iff, ← contains_after_iff, h]
  · intro h
    refine eq_of_contains fun b => ?_
    rw [Bool.eq_iff_iff, contains_after_iff, contains_after_iff, h]

end ByteWords

end Machine

/-! ### Parsers of bytes in sets -/

namespace Rule

/-- The bytes from one up to another one. -/
def bytesFromTo (lower upper : UInt8) : List UInt8 :=
  (List.range' lower.toNat (upper.toNat + 1 - lower.toNat)).map UInt8.ofNat

theorem mem_bytesFromTo {lower upper b : UInt8} :
    b ∈ bytesFromTo lower upper ↔ lower ≤ b ∧ b ≤ upper := by
  have top := upper.toNat_lt
  rw [bytesFromTo, List.mem_map, UInt8.le_iff_toNat_le, UInt8.le_iff_toNat_le]
  constructor
  · rintro ⟨n, hn, rfl⟩
    have := List.mem_range'_1.mp hn
    rw [UInt8.toNat_ofNat_of_lt' (show n < 256 by omega)]
    omega
  · rintro ⟨first, last⟩
    exact ⟨b.toNat, List.mem_range'_1.mpr (by omega), UInt8.ofNat_toNat⟩

section Parsers

variable (cells : Cells) (c : Cursor) (bytes : List UInt8)

theorem oneOf_parse_eq : (oneOf bytes).parse cells c =
    Parser.test (bytes.contains ·) .byteNotInSet c := by
  show Parser.test (ByteSet.ofList bytes).contains .byteNotInSet c = _
  rw [funext (ByteSet.contains_ofList bytes)]

theorem noneOf_parse_eq : (noneOf bytes).parse cells c =
    Parser.test (fun b => !bytes.contains b) .byteNotInSet c := by
  show Parser.test (ByteSet.ofList bytes).complement.contains .byteNotInSet c = _
  rw [funext (ByteSet.contains_complement _)]
  simp only [ByteSet.contains_ofList]

theorem byteRange_parse_eq (lower upper : UInt8) : (Rule.byteRange lower upper).parse cells c =
    Parser.test (fun b => (bytesFromTo lower upper).contains b) (.byteOutside lower upper) c := by
  show Parser.test (fun b => lower ≤ b && b ≤ upper) (.byteOutside lower upper) c = _
  congr
  funext b
  rw [Bool.eq_iff_iff, List.contains_iff_mem, mem_bytesFromTo]
  simp

end Parsers

/-- **Sets of bytes are what operations say, and parsers of bytes in sets split the input.** A byte
is a member of the words behind a sequence of operations when it is in the set that the operations
stand for, and two sequences that stand for one set give the same words. The sets that parsers look
bytes up in have those members and those words. Of the parsers for a list of bytes and for all the
other bytes, both fail at the end of the input where fewer than eight bits are left; elsewhere one
of them gives the byte that is read and ends where the read does, the one for the list when the byte
is in the list, and the other one fails where it stands. A range of bytes matches as the list of its
bytes does. -/
theorem parse_byteSets :
    (∀ (ops : List ByteSet.Op) (b : UInt8),
      ((Machine.ByteWords.after ops).contains b = true ↔ b ∈ ByteSet.Op.meaning ops) ∧
      (ByteSet.after ops).contains b = (Machine.ByteWords.after ops).contains b) ∧
    (∀ ops ops' : List ByteSet.Op,
      (Machine.ByteWords.after ops = Machine.ByteWords.after ops' ↔
        ByteSet.Op.meaning ops = ByteSet.Op.meaning ops') ∧
      (ByteSet.after ops).words = (Machine.ByteWords.after ops).words.toList.map UInt64.toNat) ∧
    ∀ (cells : Cells) (c : Cursor),
      (∀ bytes : List UInt8,
        (c.remaining < 8 ∧
          ((oneOf bytes).parse cells c).outcome = .failed ⟨.endOfInput, ⟨c.input, c.position⟩⟩ ∧
          ((noneOf bytes).parse cells c).outcome = .failed ⟨.endOfInput, ⟨c.input, c.position⟩⟩) ∨
        ∃ b next, 8 ≤ c.remaining ∧ c.readByte = .ok (b, next) ∧
          (b ∈ bytes ∧ ((oneOf bytes).parse cells c).outcome = .ok ⟨some (.char b), next⟩ ∧
            ((noneOf bytes).parse cells c).outcome =
              .failed ⟨.mismatch (.byteNotInSet b), ⟨c.input, c.position⟩⟩ ∨
          b ∉ bytes ∧ ((noneOf bytes).parse cells c).outcome = .ok ⟨some (.char b), next⟩ ∧
            ((oneOf bytes).parse cells c).outcome =
              .failed ⟨.mismatch (.byteNotInSet b), ⟨c.input, c.position⟩⟩)) ∧
      ∀ (lower upper : UInt8) (m : Match),
        ((Rule.byteRange lower upper).parse cells c).outcome = .ok m ↔
          ((oneOf (bytesFromTo lower upper)).parse cells c).outcome = .ok m := by
  refine ⟨fun ops b => ⟨Machine.ByteWords.contains_after_iff ops b,
    (Machine.ByteWords.contains_after ops b).symm⟩,
    fun ops ops' => ⟨Machine.ByteWords.after_eq_iff ops ops',
      (Machine.ByteWords.map_toNat_words (Machine.ByteWords.contains_after ops)).symm⟩,
    fun cells c => ⟨fun bytes => ?_, fun lower upper m => ?_⟩⟩
  · rw [oneOf_parse_eq, noneOf_parse_eq]
    rcases Nat.lt_or_ge c.remaining 8 with short | enough
    · rw [Parser.test_of_lt short, Parser.test_of_lt short]
      exact .inl ⟨short, rfl, rfl⟩
    · have head := Cursor.readByte_of_le enough
      refine .inr ⟨_, _, enough, head, ?_⟩
      by_cases member : UInt8.ofNat (c.peekNat 8) ∈ bytes
      · rw [Parser.test_of_accepted head (by simpa using member),
          Parser.test_of_refused head (by simpa using member)]
        exact .inl ⟨member, rfl, rfl⟩
      · rw [Parser.test_of_refused head (by simpa using member),
          Parser.test_of_accepted head (by simpa using member)]
        exact .inr ⟨member, rfl, rfl⟩
  · rw [oneOf_parse_eq, byteRange_parse_eq]
    exact Parser.outcome_test_eq_ok_iff.trans Parser.outcome_test_eq_ok_iff.symm

end Rule

end BitGrammar
