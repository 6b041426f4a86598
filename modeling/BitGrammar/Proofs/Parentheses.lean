import BitGrammar.Proofs.BytesInTurn
import BitGrammar.Proofs.ChoiceLaws
import Mathlib.Combinatorics.Enumerative.DyckWord

/-!
# Balanced parentheses

The shortest grammar of nested things refers to itself twice: an opening parenthesis, the grammar
again, a closing parenthesis, and the grammar again; or nothing. Choices are ordered and do not come
back to an alternative that they have left, so it is not clear that such a grammar finds what it
describes. It does. It never fails, and it goes over the longest balanced string that the input
starts with.

## What decides the design

Balanced strings are the Dyck words of Mathlib with their steps written as bytes, so that the
meaning of the grammar is not another grammar. Two facts about them are needed. A balanced string
that is not empty is an opening parenthesis, a balanced string, a closing parenthesis and a
balanced string (`Balanced.eq_nil_or_nest`). And a balanced string with a closing parenthesis
behind it starts no balanced string (`Balanced.not_closed`).

The second one makes greed harmless. If the inner grammar stops at the end of the longest balanced
string, then the closing parenthesis comes there or nowhere (`LongestBalanced.eq_of_closed`), and
without one no balanced string but the empty one starts at the opening parenthesis. To fall back to
nothing is therefore right, however much has matched by then.

The grammar is one parser given the parser that its reference stands for (`Parser.spans_choice`).
The induction is on the depth. As every entry lies behind an opening parenthesis, the number of
bytes is depth enough.

## Main definitions

* `Balanced`, `LongestBalanced`: balanced strings, and the longest one that a string starts with
* `Rule.parentheses`: the grammar

## Main results

* `Rule.spans_parseWithin`: the grammar goes over the longest balanced string
* `Rule.parse_parentheses`: the inputs that it matches to the end are the balanced ones
-/

namespace BitGrammar

/-! ### Balanced strings -/

/-- The byte that stands for a step. -/
def parenthesis : DyckStep → UInt8
  | .U => 0x28
  | .D => 0x29

/-- A string of opening and closing parentheses in which they match. -/
def Balanced (bytes : List UInt8) : Prop :=
  ∃ word : DyckWord, word.toList.map parenthesis = bytes

theorem parenthesis_injective : Function.Injective parenthesis := by
  intro a b h
  cases a <;> cases b <;> first | rfl | cases h

namespace Balanced

variable {bytes front inner rest : List UInt8}

theorem nil : Balanced [] :=
  ⟨0, rfl⟩

theorem nest (hi : Balanced inner) (hr : Balanced rest) :
    Balanced (0x28 :: (inner ++ 0x29 :: rest)) := by
  obtain ⟨p, rfl⟩ := hi
  obtain ⟨q, rfl⟩ := hr
  refine ⟨p.nest + q, ?_⟩
  show ([DyckStep.U] ++ p.toList ++ [DyckStep.D] ++ q.toList).map parenthesis = _
  simp [parenthesis]

theorem eq_nil_or_nest (h : Balanced bytes) : bytes = [] ∨
    ∃ inner rest, Balanced inner ∧ Balanced rest ∧ bytes = 0x28 :: (inner ++ 0x29 :: rest) := by
  obtain ⟨word, rfl⟩ := h
  by_cases hw : word = 0
  · left
    rw [hw]
    rfl
  · right
    refine ⟨_, _, ⟨word.insidePart, rfl⟩, ⟨word.outsidePart, rfl⟩, ?_⟩
    have parts := congrArg DyckWord.toList (DyckWord.nest_insidePart_add_outsidePart hw)
    rw [← parts]
    show ([DyckStep.U] ++ word.insidePart.toList ++ [DyckStep.D] ++
      word.outsidePart.toList).map parenthesis = _
    simp [parenthesis]

theorem count_eq (h : Balanced bytes) : bytes.count 0x28 = bytes.count 0x29 := by
  obtain ⟨word, rfl⟩ := h
  have up := List.count_map_of_injective word.toList parenthesis parenthesis_injective .U
  have down := List.count_map_of_injective word.toList parenthesis parenthesis_injective .D
  rw [show (0x28 : UInt8) = parenthesis .U by rfl, show (0x29 : UInt8) = parenthesis .D by rfl, up,
    down, word.count_U_eq_count_D]

theorem count_le (h : Balanced bytes) (hf : front <+: bytes) :
    front.count 0x29 ≤ front.count 0x28 := by
  obtain ⟨word, rfl⟩ := h
  rw [List.prefix_iff_eq_take.mp hf, ← List.map_take]
  generalize front.length = n
  have up := List.count_map_of_injective (word.toList.take n) parenthesis parenthesis_injective .U
  have down := List.count_map_of_injective (word.toList.take n) parenthesis parenthesis_injective .D
  rw [show (0x28 : UInt8) = parenthesis .U by rfl, show (0x29 : UInt8) = parenthesis .D by rfl, up,
    down]
  exact word.count_D_le_count_U n

/-- No balanced string starts with a balanced string that is closed once more. -/
theorem not_closed (h : Balanced bytes) (hi : Balanced inner) : ¬ inner ++ [0x29] <+: bytes := by
  intro hp
  have le := h.count_le hp
  rw [List.count_append, List.count_append, hi.count_eq] at le
  simp at le

end Balanced

/-! ### The longest one -/

/-- The longest balanced string that a string starts with. -/
structure LongestBalanced (front bytes : List UInt8) : Prop where
  balanced : Balanced front
  starts : front <+: bytes
  longest : ∀ other, Balanced other → other <+: bytes → other.length ≤ front.length

namespace LongestBalanced

variable {bytes front inner rest : List UInt8}

theorem nil (h : bytes.head? ≠ some 0x28) : LongestBalanced [] bytes := by
  refine ⟨.nil, List.nil_prefix, fun other balanced starts => ?_⟩
  rcases balanced.eq_nil_or_nest with rfl | ⟨inner, rest, -, -, rfl⟩
  · rfl
  · obtain ⟨after, rfl⟩ := starts
    exact absurd rfl h

/-- Behind an opening parenthesis the closing one comes where the longest balanced string ends, if
it comes at all. -/
theorem eq_of_closed (h : LongestBalanced front bytes) (hi : Balanced inner)
    (hp : inner ++ [0x29] <+: bytes) : inner = front := by
  have starts : inner <+: bytes := (List.prefix_append inner [0x29]).trans hp
  obtain ⟨after, rfl⟩ := List.prefix_of_prefix_length_le starts h.starts (h.longest _ hi starts)
  cases after with
  | nil => exact (List.append_nil inner).symm
  | cons b after =>
    -- the longest one goes on where the other one is closed
    have closed : inner ++ [0x29] <+: inner ++ b :: after :=
      List.prefix_of_prefix_length_le hp h.starts (by simp)
    exact absurd closed (h.balanced.not_closed hi)

theorem unclosed (h : LongestBalanced front (front ++ rest)) (hr : rest.head? ≠ some 0x29) :
    LongestBalanced [] (0x28 :: (front ++ rest)) := by
  refine ⟨.nil, List.nil_prefix, fun other balanced starts => ?_⟩
  rcases balanced.eq_nil_or_nest with rfl | ⟨inner, after, hi, -, rfl⟩
  · rfl
  · have starts := (List.cons_prefix_cons.mp starts).2
    have closed : inner ++ [0x29] <+: front ++ rest :=
      List.IsPrefix.trans ⟨after, by simp⟩ starts
    obtain rfl := h.eq_of_closed hi closed
    obtain ⟨tail, rfl⟩ := (List.prefix_append_right_inj inner).mp closed
    exact absurd rfl hr

theorem nest (hi : LongestBalanced inner (inner ++ 0x29 :: rest))
    (hf : LongestBalanced front rest) :
    LongestBalanced (0x28 :: (inner ++ 0x29 :: front)) (0x28 :: (inner ++ 0x29 :: rest)) := by
  refine ⟨hi.balanced.nest hf.balanced, ?_, fun other balanced starts => ?_⟩
  · rw [List.cons_prefix_cons, List.prefix_append_right_inj, List.cons_prefix_cons]
    exact ⟨rfl, rfl, hf.starts⟩
  · rcases balanced.eq_nil_or_nest with rfl | ⟨inner', after, hi', ha, rfl⟩
    · exact Nat.zero_le _
    · have starts := (List.cons_prefix_cons.mp starts).2
      have closed : inner' ++ [0x29] <+: inner ++ 0x29 :: rest :=
        List.IsPrefix.trans ⟨after, by simp⟩ starts
      obtain rfl := hi.eq_of_closed hi' closed
      have starts := (List.cons_prefix_cons.mp
        ((List.prefix_append_right_inj inner').mp starts)).2
      simpa using hf.longest after ha starts

/-- The longest balanced string is the whole string when that is balanced. -/
theorem length_eq_iff (h : LongestBalanced front bytes) :
    front.length = bytes.length ↔ Balanced bytes := by
  constructor
  · intro length
    rw [← h.starts.eq_of_length length]
    exact h.balanced
  · intro balanced
    exact Nat.le_antisymm h.starts.length_le (h.longest bytes balanced (List.prefix_refl bytes))

end LongestBalanced

/-! ### Parsers of parentheses -/

namespace Parser

variable {p : Parser} {ps : List Parser} {c : Cursor} {b : UInt8} {bytes rest : List UInt8}

theorem outcome_ignore_byte_ok (h : c.BytesLeft (b :: rest)) :
    (ignore (byte b) c).outcome = .ok ⟨none, c.advance 8⟩ := by
  have found : byte b c = .pure ⟨some (.char b), c.advance 8⟩ :=
    test_of_accepted h.readByte (beq_self_eq_true b)
  rw [ignore, found]
  rfl

theorem outcome_ignore_byte_failed (h : c.BytesLeft bytes) (hb : bytes.head? ≠ some b) :
    ∃ e, (ignore (byte b) c).outcome = .failed e := by
  have other : ∀ a, bytes.head? = some a → (a == b) = false :=
    fun a ha => beq_eq_false_iff_ne.mpr fun hab => hb (hab ▸ ha)
  obtain ⟨e, he⟩ := test_failed_of_boundary (.byte b) h other
  exact ⟨e, Run.outcome_bind_failed he⟩

theorem outcome_left_finish {m : Match} (h : (p c).outcome = .ok m) :
    (m.next.atEnd = true ∧ (left p finish c).outcome = .ok m) ∨
      (m.next.atEnd = false ∧ ∃ e, (left p finish c).outcome = .failed e) := by
  rw [left, Run.outcome_bind_ok h, finish]
  cases m.next.atEnd with
  | true => exact .inl ⟨rfl, rfl⟩
  | false => exact .inr ⟨rfl, _, rfl⟩

/-- The parser goes over the longest balanced string, given the bytes that are left. -/
def Spans (p : Parser) (c : Cursor) (bytes : List UInt8) : Prop :=
  ∃ front value, LongestBalanced front bytes ∧
    (p c).outcome = .ok ⟨value, c.advance (8 * front.length)⟩

/-- **One level.** The grammar goes over the longest balanced string, if what its reference stands
for does so on shorter strings. -/
theorem spans_choice (h : c.BytesLeft bytes)
    (inner : ∀ d rest, d.BytesLeft rest → rest.length < bytes.length → p.Spans d rest) :
    (choice [sequence [ignore (byte 0x28), p, ignore (byte 0x29), p], epsilon]).Spans c bytes := by
  by_cases opening : bytes.head? = some 0x28
  · obtain ⟨rest, rfl⟩ := List.head?_eq_some_iff.mp opening
    have behind : (c.advance 8).BytesLeft rest := h.tail
    obtain ⟨front, v, longest, hv⟩ := inner _ rest behind (by simp)
    obtain ⟨after, rfl⟩ := longest.starts
    have items := outcome_collect_cons [p, ignore (byte 0x29), p] (outcome_ignore_byte_ok h)
    rw [outcome_collect_cons _ hv] at items
    by_cases closing : after.head? = some 0x29
    · obtain ⟨rest, rfl⟩ := List.head?_eq_some_iff.mp closing
      have there : (((c.advance 8).advance (8 * front.length)).advance 8).BytesLeft rest :=
        behind.behind.tail
      obtain ⟨last, w, longest', hw⟩ := inner _ rest there (by simp; omega)
      have finish : (((c.advance 8).advance (8 * front.length)).advance 8).advance
          (8 * last.length) = c.advance (8 * (0x28 :: (front ++ 0x29 :: last)).length) := by
        simp only [Cursor.advance_advance, List.length_cons, List.length_append]
        exact congrArg c.advance (by omega)
      rw [finish] at hw
      rw [outcome_collect_cons _ (outcome_ignore_byte_ok behind.behind),
        outcome_collect_cons _ hw] at items
      exact ⟨_, _, longest.nest longest',
        outcome_choice_epsilon_ok (Run.outcome_bind_ok items)⟩
    · -- no other end of the inner string is tried, and none has a closing parenthesis behind it
      obtain ⟨e, he⟩ := outcome_ignore_byte_failed behind.behind closing
      rw [outcome_collect_failed he] at items
      exact ⟨[], _, longest.unclosed closing,
        outcome_choice_epsilon_failed (Run.outcome_bind_failed items)⟩
  · obtain ⟨e, he⟩ := outcome_ignore_byte_failed h opening
    exact ⟨[], _, .nil opening,
      outcome_choice_epsilon_failed (Run.outcome_bind_failed (outcome_collect_failed he))⟩

end Parser

/-! ### The grammar -/

namespace Rule

variable {cells : Cells} {cell : Cell} {start : Rule} {c : Cursor} {bytes : List UInt8}
  {depth : Nat}

/-- An opening parenthesis, the grammar again, a closing parenthesis and the grammar again, or
nothing. The cell stands for the grammar. -/
def parentheses (cell : Cell) : Rule :=
  .choice [.sequence [.ignore (.byte 0x28), .ref cell, .ignore (.byte 0x29), .ref cell], .epsilon]

/-- **All levels.** -/
theorem spans_parseWithin (bound : cells.target? cell = some (parentheses cell))
    (h : c.BytesLeft bytes) (deep : bytes.length ≤ depth) :
    ((parentheses cell).parseWithin cells depth).Spans c bytes := by
  induction depth generalizing c bytes with
  | zero =>
    -- without a byte the reference is not entered
    refine Parser.spans_choice h fun d rest _ shorter => ?_
    omega
  | succ depth ih =>
    show (Parser.choice [Parser.sequence [Parser.ignore (Parser.byte 0x28),
      (Rule.ref cell).parseWithin cells (depth + 1), Parser.ignore (Parser.byte 0x29),
      (Rule.ref cell).parseWithin cells (depth + 1)], Parser.epsilon]).Spans c bytes
    rw [parseWithin_ref bound]
    exact Parser.spans_choice h fun d rest left shorter => ih left (by omega)

/-- The grammar can be started at itself or at a reference to it. -/
theorem spans_parseWithin_start (bound : cells.target? cell = some (parentheses cell))
    (hs : start = parentheses cell ∨ start = .ref cell) (h : c.BytesLeft bytes)
    (deep : bytes.length < depth) : (start.parseWithin cells depth).Spans c bytes := by
  rcases hs with rfl | rfl
  · exact spans_parseWithin bound h (Nat.le_of_lt deep)
  · obtain ⟨depth, rfl⟩ := Nat.exists_eq_succ_of_ne_zero (Nat.ne_zero_of_lt deep)
    rw [parseWithin_ref bound]
    exact spans_parseWithin bound h (Nat.le_of_lt_succ deep)

/-- The bound on the depth allows for an entry at every byte. -/
theorem length_lt_depthBound (bound : cells.target? cell = some (parentheses cell))
    (h : c.BytesLeft bytes) : bytes.length < depthBound cells c := by
  obtain ⟨finish, reads, -⟩ := h
  have fits := reads.length_le
  have size : c.remaining ≤ c.size := Nat.sub_le _ _
  have bindings : 0 < cells.bindings.length :=
    List.length_pos_of_mem (Cells.mem_bindings_of_target? bound)
  have entries : 1 * c.positions ≤ 4 * cells.bindings.length * c.positions :=
    Nat.mul_le_mul_right _ (by omega)
  have positions : c.positions = c.size + 1 := rfl
  rw [depthBound]
  omega

theorem outcome_parseInput?_ok {rule : Rule} {input : Array UInt8} {order : ReadOrder} {m : Match}
    (h : (rule.parse cells { input, order }).outcome = .ok m) :
    (rule.parseInput? cells input order).outcome = .ok (some m.shown) := by
  have value : (rule.parseValue cells { input, order }).outcome = .ok m.shown := by
    rw [parseValue, Run.outcome_attempt_bind_ok h]
    rfl
  rw [parseInput?, Run.outcome_attempt_bind_ok value]
  rfl

theorem outcome_parseInput?_failed {rule : Rule} {input : Array UInt8} {order : ReadOrder}
    {e : Failure} (h : (rule.parse cells { input, order }).outcome = .failed e) :
    (rule.parseInput? cells input order).outcome = .ok none := by
  have failure : (rule.parseValue cells { input, order }).outcome = .failed e := by
    rw [parseValue, Run.outcome_attempt_bind_failed h]
    rfl
  rw [parseInput?, Run.outcome_attempt_bind_failed failure]
  rfl

/-- **The grammar of balanced parentheses.** Followed by the end of the input it matches the inputs
that are balanced, and no others. By itself it never fails: from every cursor it goes over the
longest balanced string that the bytes left start with, which from a byte boundary on are the bytes
of the input. -/
theorem parse_parentheses (cells : Cells) (cell : Cell)
    (bound : cells.target? cell = some (parentheses cell)) (start : Rule)
    (hs : start = parentheses cell ∨ start = .ref cell) :
    (∀ input order, ∃ result,
      ((Rule.left start .finish).parseInput? cells input order).outcome = .ok result ∧
      (result.isSome ↔ Balanced input.toList)) ∧
    ∀ c : Cursor, ∃ bytes finish front value,
      c.readBytes (c.remaining / 8) = .ok (bytes, finish) ∧
      (c.bitOffset = 0 → bytes = c.input.toList.drop c.byteOffset) ∧
      LongestBalanced front bytes ∧
      (start.parse cells c).outcome = .ok ⟨value, c.advance (8 * front.length)⟩ := by
  constructor
  · intro input order
    let c : Cursor := { input, order }
    have left : c.BytesLeft input.toList := Cursor.bytesLeft_start input order
    obtain ⟨front, value, longest, run⟩ :=
      spans_parseWithin_start bound hs left (length_lt_depthBound bound left)
    -- the end of the input is behind all of its bytes
    have atEnd : (c.advance (8 * front.length)).atEnd = true ↔ Balanced input.toList := by
      have length : input.toList.length = input.size := Array.length_toList
      have shorter := longest.starts.length_le
      have : c.size = 8 * input.size := rfl
      have : (c.advance (8 * front.length)).position = 0 + 8 * front.length := rfl
      rw [← longest.length_eq_iff, Cursor.atEnd_iff, Cursor.size_advance]
      omega
    have parse : (Rule.left start .finish).parse cells c = Parser.left
        (start.parseWithin cells (depthBound cells c)) Parser.finish c := rfl
    rcases Parser.outcome_left_finish run with ⟨all, h⟩ | ⟨some_left, e, h⟩
    · rw [← parse] at h
      exact ⟨_, outcome_parseInput?_ok h, by simpa using atEnd.mp all⟩
    · rw [← parse] at h
      refine ⟨_, outcome_parseInput?_failed h, ?_⟩
      rw [← atEnd, some_left]
      simp
  · intro c
    obtain ⟨bytes, length, reads⟩ := Cursor.exists_readsBytes (Nat.mul_div_le c.remaining 8)
    have all := Cursor.readBytes_eq_ok_iff.mpr ⟨length, reads⟩
    have left := Cursor.bytesLeft_of_readBytes all
    obtain ⟨front, value, longest, run⟩ :=
      spans_parseWithin_start bound hs left (length_lt_depthBound bound left)
    refine ⟨bytes, _, front, value, all, fun aligned => ?_, longest, run⟩
    rw [Cursor.readBytes_of_aligned aligned] at all
    cases all
    rfl

/-- The one cell of the grammar. -/
def parenthesesCells : Cells where
  count := 1
  bindings := [(⟨0⟩, parentheses ⟨0⟩)]

/-- Two pairs within a pair. -/
theorem parse_parentheses_twoPairs :
    parenthesesCells.target? ⟨0⟩ = some (parentheses ⟨0⟩) ∧
      ∃ value, ((Rule.left (parentheses ⟨0⟩) .finish).parseInput? parenthesesCells
        #[0x28, 0x28, 0x29, 0x28, 0x29, 0x29]).outcome = .ok (some value) := by
  have balanced : Balanced #[0x28, 0x28, 0x29, 0x28, 0x29, 0x29].toList :=
    .nest (.nest .nil (.nest .nil .nil)) .nil
  obtain ⟨result, outcome, found⟩ := (parse_parentheses parenthesesCells ⟨0⟩ rfl _ (.inl rfl)).1
    #[0x28, 0x28, 0x29, 0x28, 0x29, 0x29] {}
  obtain ⟨value, rfl⟩ := Option.isSome_iff_exists.mp (found.mpr balanced)
  exact ⟨rfl, value, outcome⟩

end Rule

end BitGrammar
