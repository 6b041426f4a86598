import BitGrammar.Proofs.Exclusions
import BitGrammar.Proofs.LiteralBytes
import BitGrammar.Proofs.LongestRepetition
import Mathlib.Data.List.TakeWhile

/-!
# Words that are not a keyword

An identifier is a word that is not a keyword. The grammar says this with a repetition of letters,
and an exclusion of the keyword with no letter behind it. The repetition takes the longest word that
the input starts with, and the exclusion takes that word back where it is the keyword. A longer word
that starts with the keyword stays: what is excluded then fails at its lookahead. So does a word
that the end of the input cuts short, as the lookahead asks for a letter and not for an end.

## What decides the design

A text starts with one longest run of bytes of a kind (`LongestRun`). What comes behind it is the
end or a byte of another kind, and both make the parser of one such byte fail. That is where the
repetition ends and also where the negative lookahead succeeds, so that both are read off the same
run: for a keyword of bytes of that kind, the exclusion matches when the run is the keyword, and
fails for every other run (`outcome_wholeWord_ok`, `outcome_wholeWord_failed`).

## Main definitions

* `LongestRun`: the longest run of bytes of a kind that a text starts with
* `Rule.identifier`: words of letters that are not the keyword

## Main results

* `Parser.repetition_test`: a repetition takes the longest run
* `Parser.outcome_butNot_wholeWord`: a run is taken back where it is the keyword
* `Rule.parse_identifier`: the identifiers that inputs start with
-/

namespace BitGrammar

/-! ### Longest runs -/

/-- The longest run of bytes of a kind that a text starts with. -/
structure LongestRun (kind : UInt8 → Bool) (front bytes : List UInt8) : Prop where
  starts : front <+: bytes
  alike : ∀ b ∈ front, kind b = true
  longest : ∀ other, other <+: bytes → (∀ b ∈ other, kind b = true) → other.length ≤ front.length

namespace LongestRun

variable {kind : UInt8 → Bool} {front bytes rest word : List UInt8}

theorem of_takeWhile (kind : UInt8 → Bool) (bytes : List UInt8) :
    LongestRun kind (bytes.takeWhile kind) bytes := by
  refine ⟨List.takeWhile_prefix kind, fun b hb => List.mem_takeWhile_imp hb, ?_⟩
  rintro other ⟨rest, rfl⟩ alike
  rw [List.takeWhile_append_of_pos alike, List.length_append]
  exact Nat.le_add_right _ _

/-- Behind a longest run there is the end, or a byte of another kind. -/
theorem boundary (h : LongestRun kind front (front ++ rest)) {b : UInt8}
    (hb : rest.head? = some b) : kind b = false := by
  obtain ⟨rest, rfl⟩ := List.head?_eq_some_iff.mp hb
  by_contra accepted
  have alike : ∀ a ∈ front ++ [b], kind a = true := by
    intro a ha
    rcases List.mem_append.mp ha with ha | ha
    · exact h.alike a ha
    · rw [List.mem_singleton.mp ha]
      exact Bool.eq_true_of_not_eq_false accepted
  have longer := h.longest (front ++ [b]) ⟨rest, by simp⟩ alike
  rw [List.length_append, List.length_singleton] at longer
  omega

/-- A word of bytes of the kind that the text starts with is shorter than the longest run, and a
byte of the kind comes behind it, unless it is the run. -/
theorem exists_further (h : LongestRun kind front bytes) (alike : ∀ b ∈ word, kind b = true)
    (starts : word <+: bytes) (ne : front ≠ word) :
    ∃ b rest, bytes = word ++ b :: rest ∧ kind b = true := by
  obtain ⟨after, rfl⟩ := List.prefix_of_prefix_length_le starts h.starts (h.longest _ starts alike)
  obtain ⟨rest, rfl⟩ := h.starts
  cases after with
  | nil => exact absurd (List.append_nil word) ne
  | cons b after => exact ⟨b, after ++ rest, by simp, h.alike b (by simp)⟩

end LongestRun

/-! ### Parsers of words -/

namespace Parser

variable {kind : UInt8 → Bool} (why : UInt8 → Mismatch) {c : Cursor}
  {front bytes rest word : List UInt8}

/-- **A repetition takes the longest run.** The induction is on the run. -/
theorem repetition_test (left : c.BytesLeft (front ++ rest))
    (alike : ∀ b ∈ front, kind b = true)
    (boundary : ∀ b, rest.head? = some b → kind b = false) :
    ∃ ms, Repetition (test kind why) c ms (c.advance (8 * front.length)) ∧
      ms.length = front.length ∧ Match.values ms = front.map .char := by
  induction front generalizing c with
  | nil =>
    obtain ⟨e, he⟩ := test_failed_of_boundary why left boundary
    exact ⟨[], .failed he, rfl, rfl⟩
  | cons b front ih =>
    obtain ⟨hb, alike⟩ := List.forall_mem_cons.mp alike
    obtain ⟨ms, rep, length, values⟩ := ih left.tail alike
    have matched : (test kind why c).outcome = .ok ⟨some (.char b), c.advance 8⟩ :=
      congrArg Run.outcome (test_of_accepted left.readByte hb)
    have moves : (c.advance 8).position ≠ c.position :=
      Nat.ne_of_gt (Nat.lt_add_of_pos_right (by decide))
    rw [Cursor.advance_eight_advance] at rep
    refine ⟨_ :: ms, .moved matched moves rep, congrArg (· + 1) length, ?_⟩
    rw [List.map_cons, ← values]
    rfl

/-- One or more bytes of a kind are the longest run, if there is one that is not empty. -/
theorem outcome_many1_test (left : c.BytesLeft bytes) (run : LongestRun kind front bytes)
    (ne : front ≠ []) : (many1 (test kind why) c).outcome =
      .ok ⟨some (.sequence (front.map .char)), c.advance (8 * front.length)⟩ := by
  obtain ⟨rest, rfl⟩ := run.starts
  obtain ⟨ms, rep, length, values⟩ :=
    repetition_test why left run.alike fun _ => run.boundary
  have rounds : ms.length ≤ c.remaining + 1 := by
    have := left.split.1.length_le
    omega
  obtain ⟨b, front, rfl⟩ := List.exists_cons_of_ne_nil ne
  have first : (test kind why c).outcome = .ok ⟨some (.char b), c.advance 8⟩ :=
    congrArg Run.outcome (test_of_accepted left.readByte (run.alike b (List.mem_cons_self ..)))
  have never : ∀ e, (test kind why c).outcome ≠ .failed e := fun e he => by
    cases first.symm.trans he
  rw [many1_eq_many never, rep.outcome_many rounds, values]

/-- Without a byte of the kind there is no word. -/
theorem outcome_many1_test_failed (left : c.BytesLeft bytes) (run : LongestRun kind [] bytes) :
    ∃ e, (test kind why c).outcome = .failed e ∧ (many1 (test kind why) c).outcome = .failed e := by
  obtain ⟨e, he⟩ := test_failed_of_boundary why left fun _ => run.boundary
  exact ⟨e, he, (many1_failed_iff _ c e).mpr he⟩

/-- A word with no byte of a kind behind it. -/
def wholeWord (kind : UInt8 → Bool) (why : UInt8 → Mismatch) (word : List UInt8) : Parser :=
  sequence [literal word, notFollowedBy (test kind why)]

theorem outcome_literal_ok (left : c.BytesLeft (word ++ rest)) :
    (literal word c).outcome = .ok ⟨some (.bytes word), c.advance (8 * word.length)⟩ := by
  rw [literal, matchLiteral_of_readsBytes left.split.1]
  rfl

theorem outcome_literal_failed (left : c.BytesLeft bytes) (other : ¬ word <+: bytes) :
    ∃ e, (literal word c).outcome = .failed e := by
  rcases c.readsBytes_or_departsFirst word with reads | ⟨i, expected, found, departs⟩
  · exact absurd (left.prefix_of_readsBytes reads) other
  · rw [literal, matchLiteral_of_departsFirst departs]
    exact ⟨_, rfl⟩

/-- The longest run is found as a whole word. -/
theorem outcome_wholeWord_ok (left : c.BytesLeft bytes) (run : LongestRun kind word bytes) :
    (wholeWord kind why word c).outcome =
      .ok ⟨some (.sequence [.bytes word, .unit]), c.advance (8 * word.length)⟩ := by
  obtain ⟨rest, rfl⟩ := run.starts
  obtain ⟨e, he⟩ := test_failed_of_boundary why left.behind fun _ => run.boundary
  have items := outcome_collect_cons [notFollowedBy (test kind why)] (outcome_literal_ok left)
  rw [outcome_collect_cons _ (outcome_notFollowedBy_of_failed he)] at items
  exact Run.outcome_bind_ok items

/-- No other word of bytes of the kind is found: the input does not start with it, or the run goes
on behind it. -/
theorem outcome_wholeWord_failed (left : c.BytesLeft bytes) (run : LongestRun kind front bytes)
    (alike : ∀ b ∈ word, kind b = true) (ne : front ≠ word) :
    ∃ e, (wholeWord kind why word c).outcome = .failed e := by
  by_cases starts : word <+: bytes
  · obtain ⟨b, rest, rfl, hb⟩ := run.exists_further alike starts ne
    have follows : (test kind why (c.advance (8 * word.length))).outcome = .ok _ :=
      congrArg Run.outcome (test_of_accepted left.behind.readByte hb)
    have items := outcome_collect_cons [notFollowedBy (test kind why)] (outcome_literal_ok left)
    rw [outcome_collect_failed (outcome_notFollowedBy_of_ok follows)] at items
    exact ⟨_, Run.outcome_bind_failed items⟩
  · obtain ⟨e, he⟩ := outcome_literal_failed left starts
    exact ⟨e, Run.outcome_bind_failed (outcome_collect_failed he)⟩

/-- **The longest run is taken back where it is the keyword,** and nowhere else. -/
theorem outcome_butNot_wholeWord (left : c.BytesLeft bytes) (run : LongestRun kind front bytes)
    (alike : ∀ b ∈ word, kind b = true) (ne : front ≠ []) :
    (butNot (many1 (test kind why)) (wholeWord kind why word) c).outcome =
      if front = word then
        .failed (c.rejection (.excluded (8 * word.length) (8 * word.length)))
      else .ok ⟨some (.sequence (front.map .char)), c.advance (8 * front.length)⟩ := by
  have taken := outcome_many1_test why left run ne
  split
  · next same =>
    subst same
    have length : (c.advance (8 * front.length)).bitsSince c = 8 * front.length :=
      Nat.add_sub_cancel_left _ _
    rw [butNot, outcome_excluding_of_ok_ok taken (outcome_wholeWord_ok why left run)]
    simp [length]
  · next differs =>
    obtain ⟨e, he⟩ := outcome_wholeWord_failed why left run alike differs
    exact outcome_excluding_of_ok_failed taken he

end Parser

/-! ### The grammar -/

namespace Rule

/-- A lower-case letter. -/
def letter : Rule := .byteRange 0x61 0x7a

/-- The word `if`. -/
def keyword : List UInt8 := [0x69, 0x66]

/-- A word of lower-case letters that is not the keyword. -/
def identifier : Rule :=
  .butNot (.many1 letter) (.sequence [.literal keyword, .notFollowedBy letter])

/-- True of lower-case letters. -/
def isLetter (b : UInt8) : Bool :=
  0x61 ≤ b && b ≤ 0x7a

theorem identifier_parse_eq (cells : Cells) (c : Cursor) : identifier.parse cells c =
    Parser.butNot (Parser.many1 (Parser.test isLetter (.byteOutside 0x61 0x7a)))
      (Parser.wholeWord isLetter (.byteOutside 0x61 0x7a) keyword) c :=
  rfl

/-- **An identifier is the longest word of letters, unless that is empty or the keyword.** An input
starts with a longest word. The grammar succeeds when there is one and it is not the keyword; it
gives the letters of the word and ends behind them. Without a letter it fails as the parser of the
first letter does, and for the keyword it fails at the start. -/
theorem parse_identifier (cells : Cells) (order : ReadOrder) (bytes : List UInt8) :
    ∃ word, LongestRun isLetter word bytes ∧
      ((∃ m, (identifier.parse cells ⟨bytes.toArray, 0, order⟩).outcome = .ok m) ↔
        word ≠ [] ∧ word ≠ keyword) ∧
      (∀ m, (identifier.parse cells ⟨bytes.toArray, 0, order⟩).outcome = .ok m →
        m = ⟨some (.sequence (word.map .char)), ⟨bytes.toArray, 8 * word.length, order⟩⟩) ∧
      (word = [] → ∃ e, (letter.parse cells ⟨bytes.toArray, 0, order⟩).outcome = .failed e ∧
        (identifier.parse cells ⟨bytes.toArray, 0, order⟩).outcome = .failed e) ∧
      (word = keyword → (identifier.parse cells ⟨bytes.toArray, 0, order⟩).outcome =
        .failed ⟨.rejection (.excluded 16 16), ⟨bytes.toArray, 0⟩⟩) := by
  have left : Cursor.BytesLeft ⟨bytes.toArray, 0, order⟩ bytes :=
    Cursor.bytesLeft_start bytes.toArray order
  have letters : ∀ b ∈ keyword, isLetter b = true :=
    List.forall_mem_cons.mpr ⟨rfl, List.forall_mem_singleton.mpr rfl⟩
  generalize hword : bytes.takeWhile isLetter = word
  have run : LongestRun isLetter word bytes := hword ▸ .of_takeWhile isLetter bytes
  refine ⟨word, run, ?_⟩
  rw [identifier_parse_eq]
  cases word with
  | nil =>
    obtain ⟨e, first, failed⟩ :=
      Parser.outcome_many1_test_failed (.byteOutside 0x61 0x7a) left run
    rw [Parser.butNot, Parser.outcome_excluding_of_failed failed]
    refine ⟨?_, ?_, fun _ => ⟨e, first, rfl⟩, ?_⟩
    · simp
    · rintro m ⟨⟩
    · rintro ⟨⟩
  | cons b word =>
    have position : (⟨bytes.toArray, 0, order⟩ : Cursor).advance (8 * (b :: word).length) =
        ⟨bytes.toArray, 8 * (b :: word).length, order⟩ := by
      simp [Cursor.advance]
    have nonempty : b :: word ≠ [] := List.cons_ne_nil b word
    rw [Parser.outcome_butNot_wholeWord _ left run letters nonempty, position]
    split
    · next same =>
      refine ⟨?_, ?_, fun empty => absurd empty nonempty, fun _ => rfl⟩
      · simp [same]
      · rintro m ⟨⟩
    · next differs =>
      refine ⟨?_, fun m h => (Outcome.ok.inj h).symm, fun empty => absurd empty nonempty,
        fun same => absurd same differs⟩
      simp [differs]

/-- A longer word that starts with the keyword. -/
example : (identifier.parse .empty ⟨#[0x69, 0x66, 0x66, 0x79], 0, {}⟩).outcome =
    .ok ⟨some (.sequence [.char 0x69, .char 0x66, .char 0x66, .char 0x79]),
      ⟨#[0x69, 0x66, 0x66, 0x79], 32, {}⟩⟩ :=
  rfl

end Rule

end BitGrammar
