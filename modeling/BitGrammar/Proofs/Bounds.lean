import BitGrammar.Proofs.Interpretation

/-!
# Runs within the input

No rule leads a cursor out of the input, and no failure is reported outside of it. The order of
reading is the same behind a match as before it. A grammar that does not reach a `seek` moves
forward only: its matches end, and its failures lie, at or behind the position it starts from.

## What decides the design

Both facts are one: cursors and failures lie between a position and the end of the input. Any
position will do for grammars without a `seek`, and for the others the start of the input.
`Cursor.Within` is that statement about a cursor, and the parsers with parts keep it because they
only pass on cursors that they got.

## Main definitions

* `Cursor.Within`, `Failure.Within`: on an input, between a position and the end

## Main results

* `Cursor.wellFormed_iff`: what it means for the offsets of the byte and of the bit
* `Rule.keeps_parseWithin`: runs stay within the input, in results and in failures
* `Rule.parseWithin_mono`: a higher bound on the depth changes endless runs only
-/

namespace BitGrammar

/-! ### Cursors and failures within the input -/

namespace Cursor

theorem wellFormed_iff (c : Cursor) :
    c.WellFormed ↔ c.byteOffset ≤ c.input.size ∧ c.bitOffset < 8 ∧
      (c.byteOffset = c.input.size → c.bitOffset = 0) := by
  rw [WellFormed, size, ← c.byteOffset_bitOffset]
  have := c.bitOffset_lt
  constructor
  · intro h
    omega
  · rintro ⟨hbyte, -, hbit⟩
    omega

/-- A cursor on an input, at or behind a position, and not past the end. -/
structure Within (input : Array UInt8) (first : Nat) (c : Cursor) : Prop where
  input_eq : c.input = input
  first_le : first ≤ c.position
  wellFormed : c.WellFormed

end Cursor

/-- A failure on an input, at or behind a position, and not past the end. -/
structure Failure.Within (input : Array UInt8) (first : Nat) (e : Failure) : Prop where
  input_eq : e.location.input = input
  first_le : first ≤ e.position
  position_le : e.position ≤ 8 * input.size

namespace Cursor

variable {c : Cursor} {input : Array UInt8} {first : Nat}

theorem WellFormed.within (h : c.WellFormed) (hfirst : first ≤ c.position) :
    c.Within c.input first :=
  ⟨rfl, hfirst, h⟩

namespace Within

theorem failure (h : c.Within input first) {e : Failure} (he : e.location = c.location) :
    e.Within input first := by
  refine ⟨?_, ?_, ?_⟩
  · rw [he]
    exact h.input_eq
  · rw [Failure.position, he]
    exact h.first_le
  · rw [Failure.position, he, ← h.input_eq]
    exact h.wellFormed

theorem withOrder (h : c.Within input first) (o : ReadOrder) :
    (c.withOrder o).Within input first :=
  ⟨h.input_eq, h.first_le, h.wellFormed⟩

theorem advance (h : c.Within input first) {n : Nat} (fits : n ≤ c.remaining) :
    (c.advance n).Within input first :=
  ⟨h.input_eq, Nat.le_add_right_of_le h.first_le, h.wellFormed.advance fits⟩

end Within

/-! ### Reads -/

/-- A read ends within the input, with the order of reading as it was, or fails within it. -/
def Reads {α : Type} (input : Array UInt8) (first : Nat) (order : ReadOrder) (next : α → Cursor) :
    Except Failure α → Prop
  | .ok a => (next a).Within input first ∧ (next a).order = order
  | .error e => e.Within input first

namespace Within

theorem skip (h : c.Within input first) (n : Nat) : Reads input first c.order id (c.skip n) := by
  by_cases hn : n ≤ c.remaining
  · rw [skip_of_le hn]
    exact ⟨h.advance hn, rfl⟩
  · rw [skip_of_lt (Nat.lt_of_not_le hn)]
    exact h.failure rfl

theorem readNat (h : c.Within input first) (n : Nat) :
    Reads input first c.order Prod.snd (c.readNat n) := by
  by_cases hn : n ≤ c.remaining
  · rw [readNat_of_le hn]
    exact ⟨h.advance hn, rfl⟩
  · rw [readNat_of_lt (Nat.lt_of_not_le hn)]
    exact h.failure rfl

theorem readInteger (h : c.Within input first) (n : Nat) (signed : Bool) :
    Reads input first c.order Prod.snd (c.readInteger n signed) := by
  have hread := h.readNat n
  rw [Cursor.readInteger]
  cases hr : c.readNat n with
  | ok r =>
    rw [hr] at hread
    exact hread
  | error e =>
    rw [hr] at hread
    exact hread

theorem readByte (h : c.Within input first) :
    Reads input first c.order Prod.snd c.readByte := by
  have hread := h.readNat 8
  rw [Cursor.readByte]
  cases hr : c.readNat 8 with
  | ok r =>
    rw [hr] at hread
    exact hread
  | error e =>
    rw [hr] at hread
    exact hread

theorem readBytesSlowly (h : c.Within input first) (count : Nat) :
    Reads input first c.order Prod.snd (c.readBytesSlowly count) := by
  induction count generalizing c with
  | zero => exact ⟨h, rfl⟩
  | succ count ih =>
    have hread := h.readByte
    rw [Cursor.readBytesSlowly]
    cases hr : c.readByte with
    | ok r =>
      rw [hr] at hread
      have hrest := ih hread.1
      dsimp only
      cases hrs : r.2.readBytesSlowly count with
      | ok rs =>
        rw [hrs] at hrest
        exact ⟨hrest.1, hrest.2.trans hread.2⟩
      | error e =>
        rw [hrs] at hrest
        exact hrest
    | error e =>
      rw [hr] at hread
      exact hread

theorem readBytes (h : c.Within input first) (count : Nat) :
    Reads input first c.order Prod.snd (c.readBytes count) := by
  rw [Cursor.readBytes]
  split
  · exact h.failure rfl
  · split
    · exact ⟨h.advance (by omega), rfl⟩
    · exact h.readBytesSlowly count

/-- A `seek` can lead back to the start, but no further. -/
theorem seek (h : c.Within input first) (position : Nat) :
    Reads input 0 c.order id (c.seek position) := by
  by_cases hp : position ≤ c.size
  · rw [seek_of_le hp]
    exact ⟨⟨h.input_eq, Nat.zero_le _, hp⟩, rfl⟩
  · rw [seek_of_lt (Nat.lt_of_not_le hp)]
    refine ⟨h.input_eq, Nat.zero_le _, ?_⟩
    rw [← h.input_eq]
    exact Nat.le_refl _

theorem seekFrom (h : c.Within input first) (offset : Int64) (anchor : Anchor) :
    Reads input 0 c.order id (c.seekFrom offset anchor) := by
  rw [seekFrom_eq]
  split
  · have hc : (c.rejection (.seekLeavesInput offset anchor)).Within input first := h.failure rfl
    exact ⟨hc.input_eq, Nat.zero_le _, hc.position_le⟩
  · exact h.seek _

theorem matchLiteral (h : c.Within input first) (literal : List UInt8) (index : Nat)
    (rest : List UInt8) :
    Reads input first c.order id (Parser.matchLiteral literal index c rest) := by
  induction rest generalizing c index with
  | nil => exact ⟨h, rfl⟩
  | cons expected rest ih =>
    have hread := h.readByte
    rw [Parser.matchLiteral]
    cases hr : c.readByte with
    | ok r =>
      rw [hr] at hread
      dsimp only
      split
      · have hrest := ih hread.1 (index + 1)
        rw [hread.2] at hrest
        exact hrest
      · exact h.failure rfl
    | error e =>
      rw [hr] at hread
      exact hread

theorem skipBlanks (h : c.Within input first) (count : Nat) :
    (Parser.skipBlanks count c).Within input first ∧
      (Parser.skipBlanks count c).order = c.order := by
  induction count generalizing c with
  | zero => exact ⟨h, rfl⟩
  | succ count ih =>
    have hread := h.readByte
    rw [Parser.skipBlanks]
    cases hr : c.readByte with
    | ok r =>
      rw [hr] at hread
      dsimp only
      split
      · exact ⟨(ih hread.1).1, (ih hread.1).2.trans hread.2⟩
      · exact ⟨h, rfl⟩
    | error e => exact ⟨h, rfl⟩

end Within

end Cursor

/-! ### Parsers that only read -/

namespace Run

/-- The match that a read makes, or its failure. -/
def ofRead {α : Type} (value : α → Option Value) (next : α → Cursor) :
    Except Failure α → Run Match
  | .ok a => .pure ⟨value a, next a⟩
  | .error e => .fail e

variable {α : Type} {value : α → Option Value} {next : α → Cursor} {r : Except Failure α}

theorem outcome_ofRead_eq_ok_iff {m : Match} :
    (ofRead value next r).outcome = .ok m ↔ ∃ a, r = .ok a ∧ m = ⟨value a, next a⟩ := by
  cases r <;> simp [ofRead, Run.pure, Run.fail, eq_comm]

theorem outcome_ofRead_eq_failed_iff {e : Failure} :
    (ofRead value next r).outcome = .failed e ↔ r = .error e := by
  cases r <;> simp [ofRead, Run.pure, Run.fail]

end Run

namespace Parser

theorem literal_eq (bytes : List UInt8) (c : Cursor) :
    literal bytes c = .ofRead (fun _ => some (.bytes bytes)) id (matchLiteral bytes 0 c bytes) := by
  rw [literal]
  cases matchLiteral bytes 0 c bytes <;> rfl

theorem take_eq (count : Nat) (c : Cursor) :
    take count c = .ofRead (fun r => some (.bytes r.1)) Prod.snd (c.readBytes count) := by
  rw [take]
  cases c.readBytes count <;> rfl

theorem bits_eq (width : Nat) (signed : Bool) (c : Cursor) :
    bits width signed c = .ofRead (fun r => some r.1) Prod.snd (c.readInteger width signed) := by
  rw [bits]
  cases c.readInteger width signed <;> rfl

theorem skip_eq (count : Nat) (c : Cursor) :
    skip count c = .ofRead (fun _ => none) id (c.skip count) := by
  rw [skip]
  cases c.skip count <;> rfl

theorem seek_eq (offset : Int64) (anchor : Anchor) (c : Cursor) :
    seek offset anchor c =
      .ofRead (fun next => some (positionValue next.position)) id (c.seekFrom offset anchor) := by
  rw [seek]
  cases c.seekFrom offset anchor <;> rfl

end Parser

/-! ### Leaves -/

/-- Within the input, at or behind a position. -/
def Invariant.within (input : Array UInt8) (first : Nat) : Invariant where
  cursor := Cursor.Within input first
  failure := Failure.Within input first
  rejection _ h _ := h.failure rfl

theorem Invariant.reorder_within {input : Array UInt8} {first : Nat} {endless : Prop}
    {misuse : Misuse → Prop} {traces : Prop} {c d : Cursor}
    (h : ((within input first).same endless misuse traces).cursor c d) (o : ReadOrder) :
    ((within input first).same endless misuse traces).cursor (c.withOrder o) (d.withOrder o) :=
  ⟨congrArg (·.withOrder o) h.1, h.2.withOrder o⟩

namespace Cursor.Within

variable {c : Cursor} {input : Array UInt8} {first : Nat}

theorem keptBy_of_eq_ofRead {α : Type} {value : α → Option Value} {next : α → Cursor}
    {r : Except Failure α} (h : Reads input first c.order next r) {x : Run Match}
    (hx : x = .ofRead value next r) : (Invariant.within input first).KeptBy c x := by
  rw [hx]
  cases r with
  | ok a => exact h
  | error e => exact h

theorem keptBy_test (h : c.Within input first) (accept : UInt8 → Bool) (why : UInt8 → Mismatch) :
    (Invariant.within input first).KeptBy c (Parser.test accept why c) := by
  have hread := h.readByte
  rw [Parser.test]
  cases hr : c.readByte with
  | ok r =>
    rw [hr] at hread
    dsimp only
    split
    · exact hread
    · exact h.failure rfl
  | error e =>
    rw [hr] at hread
    exact hread

theorem keptBy_finish (h : c.Within input first) :
    (Invariant.within input first).KeptBy c (Parser.finish c) := by
  rw [Parser.finish]
  split
  · exact ⟨h, rfl⟩
  · exact h.failure rfl

/-- The leaves stay within the input, and ahead of every earlier position unless one is a `seek`. -/
theorem keptBy_leaf (h : c.Within input first) {rule : Rule} (leaf : rule.isLeaf)
    (forward : first = 0 ∨ ∀ offset anchor, rule ≠ .seek offset anchor) :
    (Invariant.within input first).KeptBy c (Interpretation.plain.leaf rule c) := by
  cases rule with
  | byte expected => exact h.keptBy_test _ _
  | byteRange lower upper => exact h.keptBy_test _ _
  | byteIn set => exact h.keptBy_test _ _
  | literal bytes =>
    exact keptBy_of_eq_ofRead (h.matchLiteral bytes 0 bytes) (Parser.literal_eq bytes c)
  | take count =>
    exact keptBy_of_eq_ofRead (h.readBytes count) (Parser.take_eq count c)
  | bits width signed fits =>
    exact keptBy_of_eq_ofRead (h.readInteger width signed) (Parser.bits_eq width signed c)
  | skip count =>
    exact keptBy_of_eq_ofRead (h.skip count) (Parser.skip_eq count c)
  | tell => exact ⟨h, rfl⟩
  | seek offset anchor =>
    obtain rfl := forward.resolve_right fun hseek => hseek offset anchor rfl
    exact keptBy_of_eq_ofRead (h.seekFrom offset anchor) (Parser.seek_eq offset anchor c)
  | epsilon => exact ⟨h, rfl⟩
  | nothing => exact h.failure rfl
  | finish => exact h.keptBy_finish
  | _ => cases leaf

end Cursor.Within

/-! ### Grammars -/

namespace Rule

/-- Nothing else is asked of two plain runs than to stay within the input. -/
theorem comparable_within (input : Array UInt8) (first : Nat) (endless : Prop)
    (misuse : Misuse → Prop) (traces : Prop) :
    Interpretation.Comparable ((Invariant.within input first).same endless misuse traces) .plain
      .plain :=
  .plain (fun hc n => hc.skipBlanks n) fun hc o => hc.withOrder o

/-- Runs over two stores of cells, with two bounds on the depth, stay together and within the
input. -/
theorem related_parseWithin {cells cells' : Cells} {depth depth' : Nat} {endless : Prop}
    {misuse : Misuse → Prop} {input : Array UInt8} {first : Nat}
    (hcells : Interpretation.Stores ((Invariant.within input first).same endless misuse) cells
      cells')
    (hd : depth ≤ depth' ∧ (endless ∨ depth = depth')) (rule : Rule)
    (forward : first = 0 ∨ ∀ offset anchor, ¬ cells.Reaches rule (.seek offset anchor)) :
    ((Invariant.within input first).same endless misuse).Related (rule.parseWithin cells depth)
      (rule.parseWithin cells' depth') := by
  rw [← Interpretation.plain_parseWithin, ← Interpretation.plain_parseWithin]
  refine (comparable_within input first endless misuse True).parseWithin_related hcells hd
    fun inner hreach hleaf => ?_
  refine Invariant.related_same fun c hc => ⟨rfl, hc.keptBy_leaf hleaf ?_⟩
  exact forward.imp_right fun hseek offset anchor hs => hseek offset anchor (hs ▸ hreach)

/-- **Runs stay within the input, in results and in failures.** A grammar that does not reach a
`seek` stays ahead of every position that it starts ahead of. -/
theorem keptBy_parseWithin (cells : Cells) (depth : Nat) (rule : Rule) {c : Cursor}
    {input : Array UInt8} {first : Nat} (h : c.Within input first)
    (forward : first = 0 ∨ ∀ offset anchor, ¬ cells.Reaches rule (.seek offset anchor)) :
    (Invariant.within input first).KeptBy c (rule.parseWithin cells depth c) := by
  have related : ((Invariant.within input first).same False).Related _ _ :=
    related_parseWithin (.refl _ cells) ⟨Nat.le_refl depth, .inr rfl⟩ rule forward
  exact (Invariant.eq_and_kept related h).2

/-- A match ends within the input, with the order of reading that it started with. -/
theorem within_of_parse {cells : Cells} {rule : Rule} {c : Cursor} {input : Array UInt8}
    (h : c.Within input 0) {m : Match} (hm : (rule.parse cells c).outcome = .ok m) :
    m.next.Within input 0 ∧ m.next.order = c.order := by
  have kept := keptBy_parseWithin cells (depthBound cells c) rule h (.inl rfl)
  rw [parse] at hm
  rwa [Invariant.KeptBy, hm] at kept

/-- **A higher bound on the depth changes endless runs only.** -/
theorem parseWithin_mono (cells : Cells) {depth depth' : Nat} (hd : depth ≤ depth') (rule : Rule)
    {c : Cursor} (h : c.WellFormed) :
    rule.parseWithin cells depth c = rule.parseWithin cells depth' c ∨
      (rule.parseWithin cells depth c).outcome = .endless := by
  have related : ((Invariant.within c.input 0).same True).Related _ _ :=
    related_parseWithin (.refl _ cells) ⟨hd, .inl trivial⟩ rule (.inl rfl)
  exact (Invariant.eq_or_endless related (h.within (Nat.zero_le _))).imp And.left And.right

/-- The bound on the depth is the same for all the cursors on one input. -/
theorem depthBound_eq (cells : Cells) {c d : Cursor} (same : d.input = c.input) :
    depthBound cells d = depthBound cells c := by
  rw [depthBound, depthBound, Cursor.positions, Cursor.positions, Cursor.size, Cursor.size, same]

/-- Rules run within another rule as they do by themselves. -/
theorem related_parse (cells : Cells) (rule : Rule) (c : Cursor) :
    ((Invariant.within c.input 0).same False).Related (rule.parseWithin cells (depthBound cells c))
      (rule.parse cells) := by
  refine Invariant.related_same fun d hd => ⟨?_, keptBy_parseWithin cells _ rule hd (.inl rfl)⟩
  rw [parse, depthBound_eq cells hd.input_eq]

/-- A parser that is put together from rules does not tell how they run within it from how they run
by themselves. -/
theorem eq_of_related {p q : Parser} {c : Cursor}
    (related : ((Invariant.within c.input 0).same False).Related p q) (hc : c.WellFormed) :
    p c = q c :=
  (Invariant.eq_and_kept related (hc.within (Nat.zero_le _))).1

end Rule

end BitGrammar
