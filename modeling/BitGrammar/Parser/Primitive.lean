import BitGrammar.Parser
import BitGrammar.ByteSet

/-!
# Parsers of bytes, bits and positions

The parsers that have no parts of their own. Each reads from the cursor once and fails where it
stands, apart from `literal`, which fails at the first byte that is wrong or missing.
-/

namespace BitGrammar

namespace Parser

/-! ### Bytes -/

/-- Matches one byte that passes a test, and says what is wrong with one that does not. -/
def test (accept : UInt8 → Bool) (why : UInt8 → Mismatch) : Parser := fun c =>
  match c.readByte with
  | .ok (b, next) =>
    if accept b then .pure ⟨some (.char b), next⟩ else .fail (c.mismatch (why b))
  | .error e => .fail e

section Test

variable {accept : UInt8 → Bool} {why : UInt8 → Mismatch} {c next : Cursor} {b : UInt8}

theorem test_of_accepted (head : c.readByte = .ok (b, next)) (accepted : accept b = true) :
    test accept why c = .pure ⟨some (.char b), next⟩ := by
  rw [test, head]
  exact if_pos accepted

theorem test_of_refused (head : c.readByte = .ok (b, next)) (refused : accept b = false) :
    test accept why c = .fail (c.mismatch (why b)) := by
  rw [test, head]
  exact if_neg (Bool.eq_false_iff.mp refused)

theorem test_of_lt (short : c.remaining < 8) : test accept why c = .fail c.endOfInput := by
  rw [test, Cursor.readByte_of_lt short]

/-- A test gives the byte that it reads, or fails. -/
theorem test_cases (accept : UInt8 → Bool) (why : UInt8 → Mismatch) (c : Cursor) :
    (∃ b next, c.readByte = .ok (b, next) ∧ accept b = true ∧
      test accept why c = .pure ⟨some (.char b), next⟩) ∨
    ∃ e, test accept why c = .fail e := by
  cases head : c.readByte with
  | error e => exact .inr ⟨e, by rw [test, head]⟩
  | ok r =>
    obtain ⟨b, next⟩ := r
    cases accepted : accept b with
    | true => exact .inl ⟨b, next, rfl, accepted, test_of_accepted head accepted⟩
    | false => exact .inr ⟨_, test_of_refused head accepted⟩

theorem outcome_test_eq_ok_iff {m : Match} : (test accept why c).outcome = .ok m ↔
    ∃ b next, c.readByte = .ok (b, next) ∧ accept b = true ∧ m = ⟨some (.char b), next⟩ := by
  constructor
  · intro h
    rcases test_cases accept why c with ⟨b, next, head, accepted, found⟩ | ⟨e, failed⟩
    · rw [found] at h
      exact ⟨b, next, head, accepted, (Outcome.ok.inj h).symm⟩
    · rw [failed] at h
      cases h
  · rintro ⟨b, next, head, accepted, rfl⟩
    rw [test_of_accepted head accepted]
    rfl

end Test

/-- Matches a given byte. -/
def byte (expected : UInt8) : Parser :=
  test (· == expected) (.byte expected)

theorem outcome_byte_eq_ok_iff {expected : UInt8} {c : Cursor} {m : Match} :
    (byte expected c).outcome = .ok m ↔
      ∃ next, c.readByte = .ok (expected, next) ∧ m = ⟨some (.char expected), next⟩ := by
  refine outcome_test_eq_ok_iff.trans ⟨?_, ?_⟩
  · rintro ⟨b, next, head, same, rfl⟩
    obtain rfl := eq_of_beq same
    exact ⟨next, head, rfl⟩
  · rintro ⟨next, head, rfl⟩
    exact ⟨expected, next, head, beq_self_eq_true expected, rfl⟩

/-- Matches a byte between two bounds, which belong to the range. -/
def byteRange (lower upper : UInt8) : Parser :=
  test (fun b => lower ≤ b && b ≤ upper) (.byteOutside lower upper)

/-- Matches a byte of a set. -/
def byteIn (set : ByteSet) : Parser :=
  test set.contains .byteNotInSet

/-- Compares the rest of a literal with the input, byte by byte, and gives the cursor behind it.
The index counts the bytes of the literal that have matched already. -/
def matchLiteral (literal : List UInt8) (index : Nat) (c : Cursor) :
    List UInt8 → Except Failure Cursor
  | [] => .ok c
  | expected :: rest =>
    match c.readByte with
    | .ok (found, next) =>
      if found = expected then matchLiteral literal (index + 1) next rest
      else .error (c.mismatch (.literalByte expected found index literal))
    | .error e => .error e

/-- Matches given bytes one after another. -/
def literal (bytes : List UInt8) : Parser := fun c =>
  match matchLiteral bytes 0 c bytes with
  | .ok next => .pure ⟨some (.bytes bytes), next⟩
  | .error e => .fail e

/-- Takes a number of bytes, whatever they are. -/
def take (count : Nat) : Parser := fun c =>
  match c.readBytes count with
  | .ok (bytes, next) => .pure ⟨some (.bytes bytes), next⟩
  | .error e => .fail e

/-! ### Bits and positions -/

/-- Takes an integer of a number of bits. -/
def bits (width : Nat) (signed : Bool) : Parser := fun c =>
  match c.readInteger width signed with
  | .ok (v, next) => .pure ⟨some v, next⟩
  | .error e => .fail e

/-- Goes over a number of bits and yields no value. -/
def skip (count : Nat) : Parser := fun c =>
  match c.skip count with
  | .ok next => .pure ⟨none, next⟩
  | .error e => .fail e

/-- The value that stands for a bit position. -/
def positionValue (position : Nat) : Value :=
  .uint (.ofNat position)

/-- Yields the current position. -/
def tell : Parser := fun c =>
  .pure ⟨some (positionValue c.position), c⟩

/-- Moves to a position and yields it. -/
def seek (offset : Int64) (anchor : Anchor) : Parser := fun c =>
  match c.seekFrom offset anchor with
  | .ok next => .pure ⟨some (positionValue next.position), next⟩
  | .error e => .fail e

/-! ### Nothing at all -/

/-- Matches the empty input. -/
def epsilon : Parser := fun c =>
  .pure ⟨some .unit, c⟩

/-- Matches nothing. -/
def nothing : Parser := fun c =>
  .fail (c.rejection .neverMatches)

/-- Matches the end of the input. -/
def finish : Parser := fun c =>
  if c.atEnd then .pure ⟨some .unit, c⟩ else .fail (c.mismatch (.inputLeft c.remaining))

end Parser

end BitGrammar
