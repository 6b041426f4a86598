import BitGrammar.Proofs.BytesInTurn
import BitGrammar.Proofs.LongestRepetition

/-!
# Blanks in front

A rule behind blanks runs from the first place, counted in whole bytes from the cursor, where the
next byte is not a blank or no whole byte is left. The blanks are gone over by a loop of their own,
which collects no values. It leads where a repetition of single blanks leads, for every bit offset
and order of reading, and like that repetition it leaves no records. So the rule behind it starts
from the same cursor, and all that it does is the same. And behind blanks there are no more blanks.

## What decides the design

Both loops read the same bytes. `Cursor.BlankRun` says which: those that are read one after another,
all of them blanks, up to a cursor where blanks end. From every cursor there is such a run, and it
decides where either loop leads, by an induction along its bytes. How far that is in terms of
positions alone, is a fact about cursors (`BlankRun.isLeast`).

## Main definitions

* `Cursor.BlanksEnd`: no blank follows
* `Cursor.BlankRun`: the blanks from a cursor on

## Main results

* `Cursor.BlankRun.whitespace_eq`: a parser behind blanks runs from where they end
* `Cursor.BlankRun.right_many_eq`: so it does behind a repetition of blanks
* `Rule.parse_whitespace`: both for rules, and that blanks are gone over once
-/

namespace BitGrammar

/-- The bytes that are blanks. -/
def Parser.blanks : List UInt8 :=
  [0x20, 0x09, 0x0a, 0x0b, 0x0c, 0x0d]

theorem Parser.isBlank_iff (b : UInt8) : isBlank b = true ↔ b ∈ blanks := by
  simp [isBlank, blanks, or_assoc]

namespace Cursor

/-- No blank follows: fewer than eight bits are left, or the next ones are another byte. -/
def BlanksEnd (c : Cursor) : Prop :=
  c.remaining < 8 ∨ ∃ b next, c.readByte = .ok (b, next) ∧ b ∉ Parser.blanks

/-- Bytes read one after another that are all blanks, up to a cursor where blanks end. -/
structure BlankRun (c : Cursor) (bytes : List UInt8) (finish : Cursor) : Prop where
  reads : c.ReadsBytes bytes finish
  blank : ∀ b ∈ bytes, b ∈ Parser.blanks
  ends : finish.BlanksEnd

variable {c d finish : Cursor} {b : UInt8} {bytes : List UInt8} {rounds count : Nat}

theorem not_blanksEnd (head : c.readByte = .ok (b, d)) (hb : b ∈ Parser.blanks) :
    ¬ c.BlanksEnd := by
  rintro (short | ⟨b', next, head', hb'⟩)
  · rw [readByte_of_lt short] at head
    cases head
  · rw [head] at head'
    cases head'
    exact hb' hb

/-- A blank is taken as a byte of the set of blanks. -/
theorem byteIn_of_blank (head : c.readByte = .ok (b, d)) (hb : b ∈ Parser.blanks) :
    Parser.byteIn (.ofList Parser.blanks) c = ⟨[], .ok ⟨some (.char b), d⟩⟩ :=
  Parser.test_of_accepted head (by simpa using hb)

/-- Where blanks end, there is no byte of the set of blanks. -/
theorem byteIn_of_blanksEnd (h : c.BlanksEnd) :
    ∃ e, Parser.byteIn (.ofList Parser.blanks) c = ⟨[], .failed e⟩ := by
  rcases h with short | ⟨b, next, head, other⟩
  · exact ⟨_, Parser.test_of_lt short⟩
  · exact ⟨_, Parser.test_of_refused head (by simpa using other)⟩

/-- There are blanks up to some cursor. The induction is on the number of bits that remain. -/
theorem exists_blankRun (c : Cursor) : ∃ bytes finish, c.BlankRun bytes finish := by
  induction hbits : c.remaining using Nat.strong_induction_on generalizing c with
  | _ bits ih =>
    by_cases ends : c.BlanksEnd
    · exact ⟨[], c, .nil c, nofun, ends⟩
    · obtain ⟨enough, blank⟩ := not_or.mp ends
      have enough : 8 ≤ c.remaining := Nat.le_of_not_lt enough
      have head := readByte_of_le enough
      have hb : UInt8.ofNat (c.peekNat 8) ∈ Parser.blanks := by
        by_contra other
        exact blank ⟨_, _, head, other⟩
      have fewer : (c.advance 8).remaining < bits := by
        rw [remaining_advance]
        omega
      obtain ⟨bytes, finish, run⟩ := ih _ fewer (c.advance 8) rfl
      exact ⟨_ :: bytes, finish, .cons head run.reads, List.forall_mem_cons.mpr ⟨hb, run.blank⟩,
        run.ends⟩

namespace BlankRun

theorem tail (h : c.BlankRun (b :: bytes) finish) :
    ∃ d, c.readByte = .ok (b, d) ∧ b ∈ Parser.blanks ∧ d.BlankRun bytes finish := by
  obtain ⟨hb, hbytes⟩ := List.forall_mem_cons.mp h.blank
  cases h.reads with
  | cons head tail => exact ⟨_, head, hb, tail, hbytes, h.ends⟩

/-- Blanks end at the first place where no blank follows. -/
theorem isLeast (h : c.BlankRun bytes finish) :
    IsLeast {k | (c.advance (8 * k)).BlanksEnd} bytes.length := by
  refine ⟨?_, ?_⟩
  · show (c.advance (8 * bytes.length)).BlanksEnd
    rw [← h.reads.finish_eq]
    exact h.ends
  · induction bytes generalizing c with
    | nil => exact fun k _ => Nat.zero_le k
    | cons b bytes ih =>
      intro k hk
      obtain ⟨d, head, hb, tail⟩ := h.tail
      cases k with
      | zero => exact absurd hk (not_blanksEnd head hb)
      | succ k =>
        obtain ⟨-, -, rfl⟩ := readByte_eq_ok head
        refine Nat.succ_le_succ (ih tail ?_)
        show ((c.advance 8).advance (8 * k)).BlanksEnd
        rw [advance_eight_advance]
        exact hk

/-! ### The two loops -/

/-- A loop that may go over as many blanks as there are ends where they do. -/
theorem skipBlanks_eq (h : c.BlankRun bytes finish) (enough : bytes.length ≤ count) :
    Parser.skipBlanks count c = finish := by
  induction bytes generalizing c count with
  | nil =>
    cases h.reads
    cases count with
    | zero => rfl
    | succ count =>
      rw [Parser.skipBlanks]
      rcases h.ends with short | ⟨b, next, head, other⟩
      · rw [readByte_of_lt short]
      · rw [head]
        exact if_neg (mt (Parser.isBlank_iff b).mp other)
  | cons b bytes ih =>
    obtain ⟨d, head, hb, tail⟩ := h.tail
    cases count with
    | zero => cases enough
    | succ count =>
      rw [Parser.skipBlanks, head]
      dsimp only
      rw [if_pos ((Parser.isBlank_iff b).mpr hb)]
      exact ih tail (Nat.le_of_succ_le_succ enough)

/-- **A parser behind blanks runs from where they end.** -/
theorem whitespace_eq (h : c.BlankRun bytes finish) (p : Parser) :
    Parser.whitespace p c = p finish := by
  have enough : bytes.length ≤ c.remaining / 8 := by
    have := h.reads.length_le
    omega
  rw [Parser.whitespace, h.skipBlanks_eq enough]

/-- A repetition of blanks takes them one by one, and its loop is allowed more rounds than that. -/
theorem repeatWhile_eq (h : c.BlankRun bytes finish) (enough : bytes.length < rounds) :
    Parser.repeatWhile (Parser.byteIn (.ofList Parser.blanks)) rounds 0 c =
      ⟨[], .ok (bytes.map .char, finish)⟩ := by
  induction bytes generalizing c rounds with
  | nil =>
    cases rounds with
    | zero => cases enough
    | succ rounds =>
      cases h.reads
      obtain ⟨e, he⟩ := byteIn_of_blanksEnd h.ends
      rw [Parser.repeatWhile_of_failed (congrArg Run.outcome he), he]
      rfl
  | cons b bytes ih =>
    cases rounds with
    | zero => cases enough
    | succ rounds =>
      obtain ⟨d, head, hb, tail⟩ := h.tail
      have moves : d.position ≠ c.position := by
        obtain ⟨-, -, rfl⟩ := readByte_eq_ok head
        exact Nat.ne_of_gt (Nat.lt_add_of_pos_right (by decide))
      have round := byteIn_of_blank head hb
      rw [Parser.repeatWhile_of_moves (congrArg Run.outcome round) moves,
        ih tail (Nat.lt_of_succ_lt_succ enough), round]
      rfl

/-- **A parser behind a repetition of blanks runs from where they end.** -/
theorem right_many_eq (h : c.BlankRun bytes finish) (p : Parser) :
    Parser.right (Parser.many (Parser.byteIn (.ofList Parser.blanks))) p c = p finish := by
  have enough : bytes.length < c.positions + 1 := by
    have := h.reads.length_le
    have : c.remaining < c.positions + 1 := Parser.remaining_lt_rounds c
    omega
  rw [Parser.right, Parser.many_eq, h.repeatWhile_eq enough]
  rfl

end BlankRun

end Cursor

/-! ### Rules -/

namespace Rule

/-- **Blanks in front of a rule are gone over once, and then the rule runs.** There is a first
place, in whole bytes from the cursor, where blanks end, and whatever the rule is, it runs from
there: with the match, the failure, the misuse or the lack of an end that it has there, and with its
records. That is what it does behind a repetition of blanks, and going over blanks again in front of
it changes nothing. -/
theorem parse_whitespace (c : Cursor) :
    ∃ k, IsLeast {k | (c.advance (8 * k)).BlanksEnd} k ∧ ∀ (cells : Cells) (rule : Rule),
      (Rule.whitespace rule).parse cells c = rule.parse cells (c.advance (8 * k)) ∧
      (Rule.whitespace rule).parse cells c =
        (Rule.right (.many (.oneOf Parser.blanks)) rule).parse cells c ∧
      (Rule.whitespace (.whitespace rule)).parse cells c =
        (Rule.whitespace rule).parse cells c := by
  obtain ⟨bytes, finish, run⟩ := c.exists_blankRun
  refine ⟨bytes.length, run.isLeast, fun cells rule => ?_⟩
  rw [← run.reads.finish_eq]
  have input : finish.input = c.input := by
    rw [run.reads.finish_eq]
    rfl
  have behind : finish.BlankRun [] finish := ⟨.nil finish, nofun, run.ends⟩
  have whitespace : ∀ rule : Rule, (Rule.whitespace rule).parse cells c =
      rule.parseWithin cells (depthBound cells c) finish := fun rule => run.whitespace_eq _
  refine ⟨?_, ?_, ?_⟩
  · rw [whitespace, parse, depthBound_eq cells input]
  · rw [whitespace]
    exact (run.right_many_eq _).symm
  · rw [whitespace, whitespace]
    exact behind.whitespace_eq _

end Rule

end BitGrammar
