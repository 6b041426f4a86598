import BitGrammar.Proofs.Bounds
import BitGrammar.Proofs.BitStream

/-!
# Inputs inside of larger inputs

An input can be a part of a larger one, with bytes before it and bytes after it. A cursor on the
smaller input then has its counterpart on the larger one, and so has everything that a run comes up
with: failures, records, matches. This module says what reads do with counterparts.

## What decides the design

A read that succeeds takes bits between the cursor and the end of the smaller input, and these are
there on the larger one as well. What can tell the two inputs apart is the number of the position,
which only `tell` and `seek` look at, and the end of the smaller input. A read that fails there is
answered by its counterpart only when no bytes follow; `Embedding.Answers` leaves it open otherwise.

Counterparts are functions and not relations, so that corresponding runs are stated as equations.

## Main definitions

* `Embedding`: the bytes before and after an input
* `Embedding.cursor`, `Embedding.failure`, `Embedding.run`, …: counterparts on the larger input
* `Embedding.Answers`: what is asked of a read on the larger input

## Main results

* `Embedding.peekNat_cursor`: reads within the smaller input see the same bits
* `Embedding.readAlike_leaf`: leaves read alike on the two inputs
-/

namespace BitGrammar

/-- The bytes before and after an input in a larger one. -/
structure Embedding where
  before : Array UInt8 := #[]
  after : Array UInt8 := #[]

namespace Embedding

/-! ### Counterparts -/

section Counterparts

variable (k : Embedding)

/-- The larger input. -/
def input (input : Array UInt8) : Array UInt8 :=
  k.before ++ input ++ k.after

/-- A bit position, counted from the start of the larger input. -/
def shift (position : Nat) : Nat :=
  8 * k.before.size + position

/-- A location on the larger input. -/
def location (l : Location) : Location :=
  ⟨k.input l.input, k.shift l.position⟩

/-- A cursor on the larger input. -/
def cursor (c : Cursor) : Cursor :=
  { c with input := k.input c.input, position := k.shift c.position }

/-- A failure on the larger input, with the same cause. -/
def failure (e : Failure) : Failure :=
  { e with location := k.location e.location }

/-- A record of a parse of the larger input. -/
def record : Record → Record
  | .choiceFailed index position e => .choiceFailed index (k.shift position) (k.failure e)
  | .repeatStopped done total e => .repeatStopped done total (k.failure e)
  | .parseFailed e => .parseFailed (k.failure e)
  | r => r

/-- A match on the larger input, with the same value. -/
def matched (m : Match) : Match :=
  { m with next := k.cursor m.next }

/-- An outcome on the larger input, of the same kind. -/
def outcome : Outcome Match → Outcome Match
  | .ok m => .ok (k.matched m)
  | .failed e => .failed (k.failure e)
  | .misused m => .misused m
  | .endless => .endless

/-- A run on the larger input. -/
def run (x : Run Match) : Run Match :=
  ⟨x.trace.map k.record, k.outcome x.outcome⟩

@[simp] theorem input_cursor (c : Cursor) : (k.cursor c).input = k.input c.input := rfl

@[simp] theorem position_cursor (c : Cursor) : (k.cursor c).position = k.shift c.position := rfl

@[simp] theorem order_cursor (c : Cursor) : (k.cursor c).order = c.order := rfl

theorem failure_furthest (e e' : Failure) :
    k.failure (e.furthest e') = (k.failure e).furthest (k.failure e') := by
  have hlt : (k.failure e).position < (k.failure e').position ↔ e.position < e'.position :=
    Nat.add_lt_add_iff_left
  rw [Failure.furthest, Failure.furthest]
  by_cases h : e.position < e'.position
  · rw [if_pos h, if_pos (hlt.mpr h)]
  · rw [if_neg h, if_neg (mt hlt.mp h)]

theorem cursor_advance (c : Cursor) (n : Nat) :
    k.cursor (c.advance n) = (k.cursor c).advance n := by
  simp [cursor, Cursor.advance, shift, Nat.add_assoc]

theorem positions_cursor (c : Cursor) :
    (k.cursor c).positions = 8 * k.before.size + c.positions + 8 * k.after.size := by
  simp only [Cursor.positions, Cursor.size, cursor, input, Array.size_append]
  omega

variable {k} {c : Cursor}

theorem outcome_eq_endless_iff {o : Outcome Match} : k.outcome o = .endless ↔ o = .endless := by
  cases o <;> simp [outcome]

theorem remaining_cursor (h : c.WellFormed) :
    (k.cursor c).remaining = c.remaining + 8 * k.after.size := by
  have hle : c.position ≤ 8 * c.input.size := h
  simp only [Cursor.remaining, Cursor.size, cursor, input, shift, Array.size_append]
  omega

theorem wellFormed_cursor (h : c.WellFormed) : (k.cursor c).WellFormed := by
  have hle : c.position ≤ 8 * c.input.size := h
  simp only [Cursor.WellFormed, Cursor.size, cursor, input, shift, Array.size_append]
  omega

theorem byteOffset_cursor : (k.cursor c).byteOffset = k.before.size + c.byteOffset := by
  simp only [Cursor.byteOffset, cursor, shift]
  omega

theorem bitOffset_cursor : (k.cursor c).bitOffset = c.bitOffset := by
  simp only [Cursor.bitOffset, cursor, shift]
  omega

end Counterparts

/-! ### The bits that a read sees -/

section Reads

variable {k : Embedding} {c : Cursor}

theorem getD_input (k : Embedding) {input : Array UInt8} {i : Nat} (h : i < input.size) :
    (k.input input).getD (k.before.size + i) 0 = input.getD i 0 := by
  simp only [Embedding.input, Array.getD, Array.size_append, Array.getInternal_eq_getElem]
  rw [dif_pos (by omega), dif_pos h, Array.getElem_append_left (by rw [Array.size_append]; omega),
    Array.getElem_append_right (by omega)]
  simp

/-- Whole bytes in front of a range move its pieces and leave their offsets within bytes. -/
theorem ofRange_add (bytes position count : Nat) : Piece.ofRange (8 * bytes + position) count =
    (Piece.ofRange position count).map fun p => { p with byte := bytes + p.byte } := by
  have hfirst : (8 * bytes + position) / 8 = bytes + position / 8 := by omega
  have hoffset : (8 * bytes + position) % 8 = position % 8 := by omega
  rw [Piece.ofRange, Piece.ofRange, hfirst, hoffset, ← List.map_add_range',
    List.map_map, List.map_map]
  refine List.map_congr_left fun i _ => ?_
  simp only [Function.comp_apply, Piece.mk.injEq, true_and]
  omega

/-- **Reads within the smaller input see the same bits.** -/
theorem peekNat_cursor (h : c.WellFormed) {count : Nat} (fits : count ≤ c.remaining) :
    (k.cursor c).peekNat count = c.peekNat count := by
  have hsum := h.position_add_remaining
  rw [Cursor.peekNat, Cursor.peekNat]
  refine congrArg _ ?_
  rw [position_cursor, shift, ofRange_add, List.map_map]
  refine List.map_congr_left fun p hp => ?_
  have hsize : c.position + count ≤ 8 * c.input.size := by
    change c.position + count ≤ c.size
    omega
  have hbyte := (Piece.byte_lt_of_mem_ofRange hp hsize).1
  exact congrArg (fun b : UInt8 => (p.width, p.value c.order.bits b.toNat)) (k.getD_input hbyte)

theorem extract_input (k : Embedding) (input : Array UInt8) (first : Nat) {last : Nat}
    (h : last ≤ input.size) :
    (k.input input).extract (k.before.size + first) (k.before.size + last) =
      input.extract first last := by
  have hbefore : k.before.extract (k.before.size + first) (k.before.size + last) = #[] :=
    Array.extract_empty_of_size_le_start (Nat.le_add_right _ _)
  have hafter : k.after.extract (k.before.size + first - (k.before.size + input.size))
      (k.before.size + last - (k.before.size + input.size)) = #[] :=
    Array.extract_empty_of_stop_le_start (by omega)
  simp only [Embedding.input, Array.extract_append, Array.size_append, hbefore, hafter,
    Array.empty_append, Array.append_empty, Nat.add_sub_cancel_left]

/-! ### What reads answer -/

/-- The answer that a read on the larger input has to give. Running past the end of the smaller
input says nothing if bytes follow. -/
inductive Answers (k : Embedding) {α : Type} (counterpart : α → α) :
    Except Failure α → Except Failure α → Prop where
  | ok (a : α) : Answers k counterpart (.ok a) (.ok (counterpart a))
  | error (e : Failure) : Answers k counterpart (.error e) (.error (k.failure e))
  | overrun (c : Cursor) (follows : k.after ≠ #[]) (y : Except Failure α) :
    Answers k counterpart (.error c.endOfInput) y

/-- A read that would run past the end of the smaller input does so on the larger one, or bytes
follow. -/
theorem answers_of_lt {α : Type} {counterpart : α → α} (h : c.WellFormed) {count : Nat}
    (hlt : c.remaining < count) {y : Except Failure α}
    (hy : (k.cursor c).remaining < count → y = .error (k.cursor c).endOfInput) :
    k.Answers counterpart (.error c.endOfInput) y := by
  by_cases hafter : k.after = #[]
  · have hrem : (k.cursor c).remaining = c.remaining := by
      rw [remaining_cursor h, hafter]
      rfl
    rw [hy (by omega)]
    exact .error c.endOfInput
  · exact .overrun c hafter y

theorem answers_skip (h : c.WellFormed) (count : Nat) :
    k.Answers k.cursor (c.skip count) ((k.cursor c).skip count) := by
  by_cases hn : count ≤ c.remaining
  · have hn' : count ≤ (k.cursor c).remaining := by rw [remaining_cursor h]; omega
    rw [Cursor.skip_of_le hn, Cursor.skip_of_le hn', ← cursor_advance]
    exact .ok _
  · have hlt := Nat.lt_of_not_le hn
    rw [Cursor.skip_of_lt hlt]
    exact answers_of_lt h hlt Cursor.skip_of_lt

theorem answers_readNat (h : c.WellFormed) (count : Nat) :
    k.Answers (Prod.map id k.cursor) (c.readNat count) ((k.cursor c).readNat count) := by
  by_cases hn : count ≤ c.remaining
  · have hn' : count ≤ (k.cursor c).remaining := by rw [remaining_cursor h]; omega
    rw [Cursor.readNat_of_le hn, Cursor.readNat_of_le hn', peekNat_cursor h hn, ← cursor_advance]
    exact .ok _
  · have hlt := Nat.lt_of_not_le hn
    rw [Cursor.readNat_of_lt hlt]
    exact answers_of_lt h hlt Cursor.readNat_of_lt

theorem answers_readInteger (h : c.WellFormed) (count : Nat) (signed : Bool) :
    k.Answers (Prod.map id k.cursor) (c.readInteger count signed)
      ((k.cursor c).readInteger count signed) := by
  have hread := answers_readNat (k := k) h count
  rw [Cursor.readInteger, Cursor.readInteger]
  generalize c.readNat count = x, (k.cursor c).readNat count = y at hread
  cases hread with
  | ok r => exact .ok _
  | error e => exact .error e
  | overrun d follows => exact .overrun d follows _

theorem answers_readByte (h : c.WellFormed) :
    k.Answers (Prod.map id k.cursor) c.readByte (k.cursor c).readByte := by
  have hread := answers_readNat (k := k) h 8
  rw [Cursor.readByte, Cursor.readByte]
  generalize c.readNat 8 = x, (k.cursor c).readNat 8 = y at hread
  cases hread with
  | ok r => exact .ok _
  | error e => exact .error e
  | overrun d follows => exact .overrun d follows _

theorem answers_readBytesSlowly (h : c.WellFormed) (count : Nat) :
    k.Answers (Prod.map id k.cursor) (c.readBytesSlowly count)
      ((k.cursor c).readBytesSlowly count) := by
  induction count generalizing c with
  | zero => exact .ok ([], c)
  | succ count ih =>
    have hread := answers_readByte (k := k) h
    have hnext := (h.within (Nat.zero_le _)).readByte
    rw [Cursor.readBytesSlowly, Cursor.readBytesSlowly]
    generalize c.readByte = x, (k.cursor c).readByte = y at hread hnext
    cases hread with
    | ok r =>
      have hrest := ih hnext.1.wellFormed
      obtain ⟨b, next⟩ := r
      dsimp only [Prod.map] at hrest ⊢
      generalize next.readBytesSlowly count = xs,
        (k.cursor next).readBytesSlowly count = ys at hrest
      cases hrest with
      | ok r => exact .ok (b :: r.1, r.2)
      | error e => exact .error e
      | overrun d follows => exact .overrun d follows _
    | error e => exact .error e
    | overrun d follows => exact .overrun d follows _

theorem answers_readBytes (h : c.WellFormed) (count : Nat) :
    k.Answers (Prod.map id k.cursor) (c.readBytes count) ((k.cursor c).readBytes count) := by
  have hsum := h.position_add_remaining
  have hoffsets := c.byteOffset_bitOffset
  have hsize : c.size = 8 * c.input.size := rfl
  by_cases hn : c.remaining < 8 * count
  · rw [Cursor.readBytes, if_pos hn]
    exact answers_of_lt h hn fun hn' => if_pos hn'
  · have hn' : ¬ (k.cursor c).remaining < 8 * count := by rw [remaining_cursor h]; omega
    rw [Cursor.readBytes, Cursor.readBytes, if_neg hn, if_neg hn', bitOffset_cursor,
      order_cursor]
    by_cases hfast : c.bitOffset = 0 ∧ c.order.bits = .mostFirst
    · have hend : c.byteOffset + count ≤ c.input.size := by omega
      have hbytes := k.extract_input c.input c.byteOffset hend
      rw [if_pos hfast, if_pos hfast, byteOffset_cursor, Nat.add_assoc, ← cursor_advance,
        input_cursor, hbytes]
      exact .ok _
    · rw [if_neg hfast, if_neg hfast]
      exact answers_readBytesSlowly h count

theorem answers_matchLiteral (h : c.WellFormed) (literal : List UInt8) (index : Nat)
    (rest : List UInt8) :
    k.Answers k.cursor (Parser.matchLiteral literal index c rest)
      (Parser.matchLiteral literal index (k.cursor c) rest) := by
  induction rest generalizing c index with
  | nil => exact .ok c
  | cons expected rest ih =>
    have hread := answers_readByte (k := k) h
    have hnext := (h.within (Nat.zero_le _)).readByte
    rw [Parser.matchLiteral, Parser.matchLiteral]
    generalize c.readByte = x, (k.cursor c).readByte = y at hread hnext
    cases hread with
    | ok r =>
      dsimp only [Prod.map, id]
      split
      · exact ih hnext.1.wellFormed (index + 1)
      · exact .error (c.mismatch _)
    | error e => exact .error e
    | overrun d follows => exact .overrun d follows _

/-- Without bytes before the input, positions have the same numbers. -/
theorem shift_of_before (hbefore : k.before = #[]) (position : Nat) :
    k.shift position = position := by
  simp [shift, hbefore]

theorem size_cursor_of_after (hbefore : k.before = #[]) (hafter : k.after = #[]) (c : Cursor) :
    (k.cursor c).size = c.size := by
  simp [Cursor.size, input, hbefore, hafter]

theorem answers_seek (hbefore : k.before = #[]) (position : Nat) :
    k.Answers k.cursor (c.seek position) ((k.cursor c).seek position) := by
  have hle : c.size ≤ (k.cursor c).size := by
    simp only [Cursor.size, input_cursor, input, Array.size_append]
    omega
  by_cases hn : position ≤ c.size
  · have hmoved : k.cursor { c with position } = { k.cursor c with position } := by
      rw [cursor, shift_of_before hbefore, cursor]
    rw [Cursor.seek_of_le hn, Cursor.seek_of_le (Nat.le_trans hn hle), ← hmoved]
    exact .ok _
  · have hlt := Nat.lt_of_not_le hn
    rw [Cursor.seek_of_lt hlt]
    by_cases hafter : k.after = #[]
    · have hsize := size_cursor_of_after hbefore hafter c
      have hend : k.failure ⟨.endOfInput, ⟨c.input, c.size⟩⟩ =
          ⟨.endOfInput, ⟨(k.cursor c).input, c.size⟩⟩ := by
        rw [failure, location, shift_of_before hbefore, input_cursor]
      rw [Cursor.seek_of_lt (hsize.symm ▸ hlt), hsize, ← hend]
      exact .error _
    · exact .overrun { c with position := c.size } hafter _

/-- A `seek` sees the number of the position, so that nothing may come before, and one that is
counted from the end must find the same end. -/
theorem answers_seekFrom (hbefore : k.before = #[]) (offset : Int64) {anchor : Anchor}
    (hafter : k.after = #[] ∨ anchor ≠ .finish) :
    k.Answers k.cursor (c.seekFrom offset anchor) ((k.cursor c).seekFrom offset anchor) := by
  have htarget : (k.cursor c).target offset anchor = c.target offset anchor := by
    cases anchor with
    | start => rfl
    | current =>
      rw [Cursor.target, Cursor.base, position_cursor, shift_of_before hbefore]
      rfl
    | finish =>
      have hsize := size_cursor_of_after hbefore (hafter.resolve_right fun h => h rfl) c
      rw [Cursor.target, Cursor.base, hsize]
      rfl
  rw [Cursor.seekFrom_eq, Cursor.seekFrom_eq, htarget]
  split
  · exact .error (c.rejection _)
  · exact answers_seek hbefore _

/-! ### Going over blanks -/

/-- Going over blanks stops where another byte follows, or at the end. -/
theorem isBlank_eq_false_of_skipBlanks (h : c.WellFormed) {count : Nat}
    (hcount : c.remaining < 8 * count + 8) {b : UInt8} {next : Cursor}
    (hread : (Parser.skipBlanks count c).readByte = .ok (b, next)) : Parser.isBlank b = false := by
  induction count generalizing c with
  | zero =>
    rw [Parser.skipBlanks, Cursor.readByte_of_lt hcount] at hread
    cases hread
  | succ count ih =>
    rw [Parser.skipBlanks] at hread
    by_cases hfits : 8 ≤ c.remaining
    · rw [Cursor.readByte_of_le hfits] at hread
      dsimp only at hread
      by_cases hblank : Parser.isBlank (.ofNat (c.peekNat 8)) = true
      · rw [if_pos hblank] at hread
        have hsum := h.position_add_remaining
        have hadvance := (h.advance hfits).position_add_remaining
        refine ih (h.advance hfits) ?_ hread
        change c.position + 8 + (c.advance 8).remaining = c.size at hadvance
        omega
      · rw [if_neg hblank, Cursor.readByte_of_le hfits] at hread
        cases hread
        exact Bool.eq_false_of_not_eq_true hblank
    · have hshort := Cursor.readByte_of_lt (Nat.lt_of_not_le hfits)
      rw [hshort] at hread
      dsimp only at hread
      rw [hshort] at hread
      cases hread

/-- Blanks are gone over alike, unless the smaller input ends there and bytes follow. -/
theorem skipBlanks_cursor (h : c.WellFormed) {count count' : Nat} (hle : count ≤ count')
    (stops : count = count' ∧ k.after = #[] ∨
      ∃ b next, (Parser.skipBlanks count c).readByte = .ok (b, next) ∧ Parser.isBlank b = false) :
    Parser.skipBlanks count' (k.cursor c) = k.cursor (Parser.skipBlanks count c) := by
  induction count generalizing c count' with
  | zero =>
    rcases stops with ⟨rfl, -⟩ | ⟨b, next, hread, hblank⟩
    · rfl
    · cases count' with
      | zero => rfl
      | succ count' =>
        have hanswer := answers_readByte (k := k) h
        change c.readByte = .ok (b, next) at hread
        rw [hread] at hanswer
        rw [Parser.skipBlanks, Parser.skipBlanks]
        generalize (k.cursor c).readByte = y at hanswer
        cases hanswer
        simp [hblank]
  | succ count ih =>
    obtain ⟨count', rfl⟩ : ∃ n, count' = n + 1 := ⟨count' - 1, by omega⟩
    have hanswer := answers_readByte (k := k) h
    have hnext := (h.within (Nat.zero_le _)).readByte
    rw [Parser.skipBlanks] at stops ⊢
    rw [Parser.skipBlanks]
    generalize hx : c.readByte = x, (k.cursor c).readByte = y at hanswer hnext stops ⊢
    cases hanswer with
    | ok r =>
      obtain ⟨b, next⟩ := r
      dsimp only [Prod.map, id] at stops ⊢
      cases hb : Parser.isBlank b with
      | true =>
        rw [hb] at stops
        refine ih hnext.1.wellFormed (Nat.le_of_succ_le_succ hle) ?_
        exact stops.imp_left fun hs => ⟨Nat.succ.inj hs.1, hs.2⟩
      | false => rfl
    | error e => rfl
    | overrun d follows =>
      rcases stops with ⟨-, hafter⟩ | ⟨b, next, hread, -⟩
      · exact absurd hafter follows
      · dsimp only at hread
        rw [hx] at hread
        cases hread

end Reads

/-! ### Leaves -/

section Leaves

variable {k : Embedding} {c : Cursor}

/-- Two runs that do nothing but read, where the second gives the answer that it has to. -/
inductive ReadAlike (k : Embedding) : Run Match → Run Match → Prop where
  | ok (m : Match) : ReadAlike k (.pure m) (.pure (k.matched m))
  | fail (e : Failure) : ReadAlike k (.fail e) (.fail (k.failure e))
  | overrun (c : Cursor) (follows : k.after ≠ #[]) (y : Run Match) :
    ReadAlike k (.fail c.endOfInput) y

theorem readAlike_of_eq_ofRead {α : Type} {counterpart : α → α} {r s : Except Failure α}
    {value : α → Option Value} {next : α → Cursor} {x y : Run Match}
    (hx : x = .ofRead value next r) (hy : y = .ofRead value next s)
    (h : k.Answers counterpart r s) (hvalue : ∀ a, value (counterpart a) = value a)
    (hnext : ∀ a, next (counterpart a) = k.cursor (next a)) : k.ReadAlike x y := by
  subst hx hy
  cases h with
  | ok a =>
    rw [Run.ofRead, Run.ofRead, hvalue, hnext]
    exact .ok ⟨value a, next a⟩
  | error e => exact .fail e
  | overrun d follows => exact .overrun d follows _

theorem readAlike_test (h : c.WellFormed) (accept : UInt8 → Bool) (why : UInt8 → Mismatch) :
    k.ReadAlike (Parser.test accept why c) (Parser.test accept why (k.cursor c)) := by
  have hread := answers_readByte (k := k) h
  rw [Parser.test, Parser.test]
  generalize c.readByte = x, (k.cursor c).readByte = y at hread
  cases hread with
  | ok r =>
    dsimp only [Prod.map, id]
    split
    · exact .ok ⟨some (.char r.1), r.2⟩
    · exact .fail (c.mismatch (why r.1))
  | error e => exact .fail e
  | overrun d follows => exact .overrun d follows _

theorem readAlike_finish (h : c.WellFormed) (hafter : k.after = #[]) :
    k.ReadAlike (Parser.finish c) (Parser.finish (k.cursor c)) := by
  have hrem : (k.cursor c).remaining = c.remaining := by
    rw [remaining_cursor h, hafter]
    rfl
  have hend : (k.cursor c).atEnd = c.atEnd := by
    rw [Bool.eq_iff_iff, Cursor.atEnd_iff, Cursor.atEnd_iff]
    simp only [Cursor.size, input_cursor, input, hafter, Array.append_empty, Array.size_append,
      position_cursor, shift]
    omega
  rw [Parser.finish, Parser.finish, hend]
  cases c.atEnd with
  | true => exact .ok ⟨some .unit, c⟩
  | false =>
    rw [hrem]
    exact .fail (c.mismatch (.inputLeft c.remaining))

/-- **Leaves read alike on the two inputs**, but for those that look at the number of the position
when bytes come before, and those that look at the end when bytes follow. -/
theorem readAlike_leaf (h : c.WellFormed) {rule : Rule} (leaf : rule.isLeaf)
    (hbefore : k.before = #[] ∨ rule ≠ .tell ∧ ∀ offset anchor, rule ≠ .seek offset anchor)
    (hafter : k.after = #[] ∨ rule ≠ .finish ∧ ∀ offset, rule ≠ .seek offset .finish) :
    k.ReadAlike (Interpretation.plain.leaf rule c)
      (Interpretation.plain.leaf rule (k.cursor c)) := by
  cases rule with
  | byte expected => exact readAlike_test h _ _
  | byteRange lower upper => exact readAlike_test h _ _
  | byteIn set => exact readAlike_test h _ _
  | literal bytes =>
    exact readAlike_of_eq_ofRead (Parser.literal_eq bytes c) (Parser.literal_eq bytes _)
      (answers_matchLiteral h bytes 0 bytes) (fun _ => rfl) fun _ => rfl
  | take count =>
    exact readAlike_of_eq_ofRead (Parser.take_eq count c) (Parser.take_eq count _)
      (answers_readBytes h count) (fun _ => rfl) fun _ => rfl
  | bits width signed fits =>
    exact readAlike_of_eq_ofRead (Parser.bits_eq width signed c) (Parser.bits_eq width signed _)
      (answers_readInteger h width signed) (fun _ => rfl) fun _ => rfl
  | skip count =>
    exact readAlike_of_eq_ofRead (Parser.skip_eq count c) (Parser.skip_eq count _)
      (answers_skip h count) (fun _ => rfl) fun _ => rfl
  | tell =>
    have hshift := shift_of_before (hbefore.resolve_right fun hn => hn.1 rfl) c.position
    change k.ReadAlike (Parser.tell c) (Parser.tell (k.cursor c))
    rw [Parser.tell, Parser.tell, position_cursor, hshift]
    exact .ok ⟨some (Parser.positionValue c.position), c⟩
  | seek offset anchor =>
    have hbefore := hbefore.resolve_right fun hn => hn.2 offset anchor rfl
    have hanchor : k.after = #[] ∨ anchor ≠ .finish :=
      hafter.imp_right fun hn ha => hn.2 offset (ha ▸ rfl)
    refine readAlike_of_eq_ofRead (Parser.seek_eq offset anchor c) (Parser.seek_eq offset anchor _)
      (answers_seekFrom hbefore offset hanchor) (fun next => ?_) fun _ => rfl
    rw [position_cursor, shift_of_before hbefore]
  | epsilon => exact .ok ⟨some .unit, c⟩
  | nothing => exact .fail (c.rejection .neverMatches)
  | finish => exact readAlike_finish h (hafter.resolve_right fun hn => hn.1 rfl)
  | _ => cases leaf

end Leaves

end Embedding

end BitGrammar
