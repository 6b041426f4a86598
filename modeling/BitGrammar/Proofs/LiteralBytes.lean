import BitGrammar.Proofs.BytesInTurn
import Mathlib.Order.Bounds.Basic

/-!
# Literals byte by byte

A literal matches exactly where the bytes that are read are its own. Where they are not, there is a
first index at which the input has another byte, or does not have eight bits left. That is where the
literal fails: with the two bytes in the first case, and with the end of the input in the second.
Bytes that are missing behind a wrong one do not count.

A sequence of single bytes matches the same inputs, up to the same place, and fails at the same
place for the same kind of reason. Its messages are others, as a single byte has no index.

## What decides the design

The first departure is found on the way through the bytes, and `Cursor.DepartsFirst` is that way
as a relation, beside `Cursor.ReadsBytes` for bytes that all match. Every literal has one of the two
from every cursor. What a parser does is then proved once for each of them, by induction on the way,
and that the index is the least one is a fact about cursors alone.

## Main definitions

* `Cursor.Departs`: the input has another byte, or none, at an index
* `Cursor.DepartsFirst`: the first index at which it does, with what is found there
* `Outcome.RecognisesAs`: the same end, or the same place and kind of failure

## Main results

* `Cursor.DepartsFirst.isLeast`: the first departure is the least index
* `Rule.parse_literal`: literals against bytes read at once, the first departure, and single bytes
-/

namespace BitGrammar

/-! ### Kinds of failures -/

/-- The kinds of reasons for a failure, without what they say. -/
inductive Cause.Kind where
  | endOfInput
  | mismatch
  | rejection

/-- The kind of a reason. -/
def Cause.kind : Cause → Cause.Kind
  | .endOfInput => .endOfInput
  | .mismatch _ => .mismatch
  | .rejection _ => .rejection

/-- Two answers agree apart from values and messages: both match up to one cursor, or both fail at
one place for reasons of one kind. -/
inductive Outcome.RecognisesAs : Outcome Match → Outcome Match → Prop where
  | ok {m n : Match} (next : m.next = n.next) : RecognisesAs (.ok m) (.ok n)
  | failed {e f : Failure} (kind : e.cause.kind = f.cause.kind)
    (location : e.location = f.location) : RecognisesAs (.failed e) (.failed f)

/-! ### Departures -/

namespace Cursor

/-- At an index of given bytes the input has fewer than eight bits left, or another byte. -/
def Departs (c : Cursor) (bytes : List UInt8) (i : Nat) : Prop :=
  ∃ expected, bytes[i]? = some expected ∧
    ((c.advance (8 * i)).remaining < 8 ∨
      ∃ found next, (c.advance (8 * i)).readByte = .ok (found, next) ∧ found ≠ expected)

/-- The input departs from given bytes at an index, where a byte is expected and another one is
found, or none; before that index, the bytes are those that are read. -/
inductive DepartsFirst : Cursor → List UInt8 → Nat → UInt8 → Option UInt8 → Prop where
  | missing {c : Cursor} {expected : UInt8} {bytes : List UInt8} (short : c.remaining < 8) :
    DepartsFirst c (expected :: bytes) 0 expected none
  | wrong {c d : Cursor} {expected found : UInt8} {bytes : List UInt8}
    (head : c.readByte = .ok (found, d)) (differs : found ≠ expected) :
    DepartsFirst c (expected :: bytes) 0 expected (some found)
  | further {c d : Cursor} {b expected : UInt8} {bytes : List UInt8} {i : Nat}
    {found : Option UInt8} (head : c.readByte = .ok (b, d))
    (tail : DepartsFirst d bytes i expected found) :
    DepartsFirst c (b :: bytes) (i + 1) expected found

/-- The failure of a departure. -/
def departure (c : Cursor) (i : Nat) (why : UInt8 → Mismatch) : Option UInt8 → Failure
  | none => (c.advance (8 * i)).endOfInput
  | some found => (c.advance (8 * i)).mismatch (why found)

variable {c d finish : Cursor} {b expected : UInt8} {bytes : List UInt8} {i : Nat}
  {found : Option UInt8}

theorem departs_cons_zero : c.Departs (b :: bytes) 0 ↔
    c.remaining < 8 ∨ ∃ found next, c.readByte = .ok (found, next) ∧ found ≠ b := by
  simp [Departs]

theorem departs_cons_succ : c.Departs (b :: bytes) (i + 1) ↔ (c.advance 8).Departs bytes i := by
  simp [Departs, advance_eight_advance]

/-- Either all bytes are read, or there is a first departure. -/
theorem readsBytes_or_departsFirst (c : Cursor) (bytes : List UInt8) :
    c.ReadsBytes bytes (c.advance (8 * bytes.length)) ∨
      ∃ i expected found, c.DepartsFirst bytes i expected found := by
  induction bytes generalizing c with
  | nil => exact .inl (.nil c)
  | cons b bytes ih =>
    rcases Nat.lt_or_ge c.remaining 8 with short | enough
    · exact .inr ⟨0, b, none, .missing short⟩
    · have head := readByte_of_le enough
      by_cases same : UInt8.ofNat (c.peekNat 8) = b
      · rw [same] at head
        rcases ih (c.advance 8) with reads | ⟨i, expected, found, departs⟩
        · rw [advance_eight_advance] at reads
          exact .inl (.cons head reads)
        · exact .inr ⟨i + 1, expected, found, .further head departs⟩
      · exact .inr ⟨0, b, _, .wrong head same⟩

namespace DepartsFirst

theorem not_readsBytes (h : c.DepartsFirst bytes i expected found) :
    ¬ c.ReadsBytes bytes finish := by
  intro reads
  induction h with
  | missing short =>
    cases reads with
    | cons head _ => exact absurd (readByte_eq_ok head).1 (Nat.not_le.mpr short)
  | wrong head differs =>
    cases reads with
    | cons head' _ =>
      cases head.symm.trans head'
      exact differs rfl
  | further head _ ih =>
    cases reads with
    | cons head' tail' =>
      cases head.symm.trans head'
      exact ih tail'

theorem getElem? (h : c.DepartsFirst bytes i expected found) : bytes[i]? = some expected := by
  induction h with
  | missing _ => rfl
  | wrong _ _ => rfl
  | further _ _ ih => exact ih

theorem departs (h : c.DepartsFirst bytes i expected found) : c.Departs bytes i := by
  induction h with
  | missing short => exact departs_cons_zero.mpr (.inl short)
  | wrong head differs => exact departs_cons_zero.mpr (.inr ⟨_, _, head, differs⟩)
  | further head _ ih =>
    obtain ⟨-, -, rfl⟩ := readByte_eq_ok head
    exact departs_cons_succ.mpr ih

theorem le_of_departs (h : c.DepartsFirst bytes i expected found) {j : Nat}
    (hj : c.Departs bytes j) : i ≤ j := by
  induction h generalizing j with
  | missing _ => exact Nat.zero_le j
  | wrong _ _ => exact Nat.zero_le j
  | further head _ ih =>
    cases j with
    | zero =>
      rcases departs_cons_zero.mp hj with short | ⟨found, next, head', differs⟩
      · exact absurd (readByte_eq_ok head).1 (Nat.not_le.mpr short)
      · cases head.symm.trans head'
        exact absurd rfl differs
    | succ j =>
      obtain ⟨-, -, rfl⟩ := readByte_eq_ok head
      exact Nat.succ_le_succ (ih (departs_cons_succ.mp hj))

/-- The first departure is the least index at which the input departs. -/
theorem isLeast (h : c.DepartsFirst bytes i expected found) : IsLeast {i | c.Departs bytes i} i :=
  ⟨h.departs, fun _ hj => h.le_of_departs hj⟩

/-- What is found at the first departure: nothing, or another byte. -/
theorem found_cases (h : c.DepartsFirst bytes i expected found) :
    found = none ∧ (c.advance (8 * i)).remaining < 8 ∨
      ∃ b next, found = some b ∧ (c.advance (8 * i)).readByte = .ok (b, next) ∧ b ≠ expected := by
  induction h with
  | missing short => exact .inl ⟨rfl, short⟩
  | wrong head differs => exact .inr ⟨_, _, rfl, head, differs⟩
  | further head _ ih =>
    obtain ⟨-, -, rfl⟩ := readByte_eq_ok head
    rwa [advance_eight_advance] at ih

end DepartsFirst

theorem departure_succ (c : Cursor) (i : Nat) (why : UInt8 → Mismatch) (found : Option UInt8) :
    (c.advance 8).departure i why found = c.departure (i + 1) why found := by
  cases found <;> simp only [departure, advance_eight_advance]

end Cursor

/-! ### Literals and single bytes -/

namespace Parser

variable {c d finish : Cursor} {b expected : UInt8} {bytes whole : List UInt8} {i : Nat}
  {found : Option UInt8}

theorem matchLiteral_of_readsBytes (h : c.ReadsBytes bytes finish) (index : Nat) :
    matchLiteral whole index c bytes = .ok finish := by
  induction h generalizing index with
  | nil c => rfl
  | cons head _ ih =>
    rw [matchLiteral, head]
    exact (if_pos rfl).trans (ih (index + 1))

/-- A literal fails at the first departure. The index in the message counts the bytes before it. -/
theorem matchLiteral_of_departsFirst (h : c.DepartsFirst bytes i expected found) (index : Nat) :
    matchLiteral whole index c bytes =
      .error (c.departure i (fun b => .literalByte expected b (index + i) whole) found) := by
  induction h generalizing index with
  | missing short =>
    rw [matchLiteral, Cursor.readByte_of_lt short]
    rfl
  | wrong head differs =>
    rw [matchLiteral, head]
    exact if_neg differs
  | @further c d b expected bytes i found head _ ih =>
    obtain ⟨-, -, rfl⟩ := Cursor.readByte_eq_ok head
    have shift : index + (i + 1) = index + 1 + i := by omega
    rw [matchLiteral, head, ← Cursor.departure_succ, shift]
    exact (if_pos rfl).trans (ih (index + 1))

theorem byte_of_readByte (h : c.readByte = .ok (b, d)) :
    byte b c = pure ⟨some (.char b), d⟩ :=
  test_of_accepted h (beq_self_eq_true b)

theorem collect_bytes_of_readsBytes (h : c.ReadsBytes bytes finish) :
    collect (bytes.map byte) c = pure (bytes.map .char, finish) := by
  induction h with
  | nil c => rfl
  | cons head _ ih =>
    rw [List.map_cons, collect, byte_of_readByte head, Run.pure_bind, ih, Run.pure_bind]
    rfl

/-- Single bytes fail at the first departure. -/
theorem collect_bytes_of_departsFirst (h : c.DepartsFirst bytes i expected found) :
    collect (bytes.map byte) c = .fail (c.departure i (.byte expected) found) := by
  induction h with
  | missing short =>
    rw [List.map_cons, collect, byte, test, Cursor.readByte_of_lt short]
    rfl
  | @wrong c d expected found bytes head differs =>
    have refused : byte expected c = .fail (c.mismatch (.byte expected found)) := by
      simp [byte, test, head, differs]
    rw [List.map_cons, collect, refused]
    rfl
  | further head _ ih =>
    obtain ⟨-, -, rfl⟩ := Cursor.readByte_eq_ok head
    rw [List.map_cons, collect, byte_of_readByte head, Run.pure_bind, ih, Cursor.departure_succ]
    rfl

/-- A literal is recognised as its single bytes are. -/
theorem recognisesAs_literal (bytes : List UInt8) (c : Cursor) :
    Outcome.RecognisesAs (literal bytes c).outcome (sequence (bytes.map byte) c).outcome := by
  rw [literal, sequence]
  rcases c.readsBytes_or_departsFirst bytes with reads | ⟨i, expected, found, departs⟩
  · rw [matchLiteral_of_readsBytes reads, collect_bytes_of_readsBytes reads, Run.pure_bind]
    exact .ok rfl
  · rw [matchLiteral_of_departsFirst departs, collect_bytes_of_departsFirst departs]
    cases found with
    | none => exact .failed rfl rfl
    | some b => exact .failed rfl rfl

end Parser

/-! ### Rules -/

namespace Rule

theorem sequence_bytes_parse_eq (cells : Cells) (bytes : List UInt8) (c : Cursor) :
    (Rule.sequence (bytes.map .byte)).parse cells c =
      Parser.sequence (bytes.map Parser.byte) c := by
  rw [parse, parseWithin_sequence, List.map_map]
  rfl

/-- **A literal matches its bytes and tells the first that is wrong or missing.** It succeeds where
the bytes read at once are its own, and ends where they do. Otherwise it fails at the least index at
which there is another byte, or fewer than eight bits: with the bytes and the index in the first
case, with the end of the input in the second. Single bytes in order match and fail at the same
places, for reasons of the same kinds. -/
theorem parse_literal (cells : Cells) (bytes : List UInt8) (c : Cursor) :
    (∀ m, ((Rule.literal bytes).parse cells c).outcome = .ok m ↔
      c.readBytes bytes.length = .ok (bytes, m.next) ∧ m.value = some (.bytes bytes)) ∧
    ((∀ next, c.readBytes bytes.length ≠ .ok (bytes, next)) →
      ∃ i expected, IsLeast {i | c.Departs bytes i} i ∧ bytes[i]? = some expected ∧
        ((c.advance (8 * i)).remaining < 8 ∧
            ((Rule.literal bytes).parse cells c).outcome =
              .failed ⟨.endOfInput, ⟨c.input, c.position + 8 * i⟩⟩ ∨
          ∃ found next, (c.advance (8 * i)).readByte = .ok (found, next) ∧ found ≠ expected ∧
            ((Rule.literal bytes).parse cells c).outcome =
              .failed ⟨.mismatch (.literalByte expected found i bytes),
                ⟨c.input, c.position + 8 * i⟩⟩ ∧
            (Mismatch.literalByte expected found i bytes).message =
              "expected " ++ Mismatch.hexByte expected ++ ", found " ++ Mismatch.hexByte found ++
                " at index " ++ toString i ++ " of " ++ Quoted.encode (Utf8.decode bytes))) ∧
    Outcome.RecognisesAs ((Rule.literal bytes).parse cells c).outcome
      ((Rule.sequence (bytes.map .byte)).parse cells c).outcome := by
  have run : (Rule.literal bytes).parse cells c = .ofRead (fun _ => some (.bytes bytes)) id
      (Parser.matchLiteral bytes 0 c bytes) := Parser.literal_eq bytes c
  refine ⟨fun m => ?_, fun different => ?_, ?_⟩
  · rw [run, Run.outcome_ofRead_eq_ok_iff, Cursor.readBytes_eq_ok_iff]
    rcases c.readsBytes_or_departsFirst bytes with reads | ⟨i, expected, found, departs⟩
    · rw [Parser.matchLiteral_of_readsBytes reads]
      constructor
      · rintro ⟨_, ⟨⟩, rfl⟩
        exact ⟨⟨rfl, reads⟩, rfl⟩
      · obtain ⟨value, next⟩ := m
        rintro ⟨⟨-, reads'⟩, rfl⟩
        exact ⟨_, rfl, congrArg _ reads'.finish_eq⟩
    · rw [Parser.matchLiteral_of_departsFirst departs]
      constructor
      · rintro ⟨_, ⟨⟩, -⟩
      · rintro ⟨⟨-, reads⟩, -⟩
        exact absurd reads departs.not_readsBytes
  · rcases c.readsBytes_or_departsFirst bytes with reads | ⟨i, expected, found, departs⟩
    · exact absurd (Cursor.readBytes_eq_ok_iff.mpr ⟨rfl, reads⟩) (different _)
    · refine ⟨i, expected, departs.isLeast, departs.getElem?, ?_⟩
      rw [run, Parser.matchLiteral_of_departsFirst departs, Nat.zero_add]
      rcases departs.found_cases with ⟨rfl, short⟩ | ⟨b, next, rfl, head, differs⟩
      · exact .inl ⟨short, rfl⟩
      · exact .inr ⟨b, next, head, differs, rfl, rfl⟩
  · rw [sequence_bytes_parse_eq]
    exact Parser.recognisesAs_literal bytes c

/-- Of four bytes that are not at a byte boundary, the second is wrong and the last two are missing.
The wrong one counts. -/
theorem parse_literal_unaligned :
    (∀ next, (⟨#[0x16, 0x06, 0x20], 4, {}⟩ : Cursor).readBytes 4 ≠
      .ok ([0x60, 0x61, 0x62, 0x63], next)) ∧
    (∃ i, IsLeast
      {i | (⟨#[0x16, 0x06, 0x20], 4, {}⟩ : Cursor).Departs [0x60, 0x61, 0x62, 0x63] i} i) ∧
    ((Rule.literal [0x60, 0x61, 0x62, 0x63]).parse .empty ⟨#[0x16, 0x06, 0x20], 4, {}⟩).outcome =
      .failed ⟨.mismatch (.literalByte 0x61 0x62 1 [0x60, 0x61, 0x62, 0x63]),
        ⟨#[0x16, 0x06, 0x20], 12⟩⟩ := by
  have different : ∀ next, (⟨#[0x16, 0x06, 0x20], 4, {}⟩ : Cursor).readBytes 4 ≠
      .ok ([0x60, 0x61, 0x62, 0x63], next) := by
    intro next h
    cases h
  obtain ⟨i, expected, least, -⟩ :=
    (parse_literal .empty [0x60, 0x61, 0x62, 0x63] ⟨#[0x16, 0x06, 0x20], 4, {}⟩).2.1 different
  exact ⟨different, ⟨i, least⟩, rfl⟩

end Rule

end BitGrammar
