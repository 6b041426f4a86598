import BitGrammar.Hook
import BitGrammar.Proofs.Bounds

/-!
# Moving forward

A grammar that reaches no `seek` moves forward only. Its matches end, and its failures lie, at or
behind the cursor it starts from, and so do the matches and failures of all its parts. Whatever two
positions are compared on the way are therefore positions from there on: the start and the end of a
round of a repetition, the lengths of a match and of one that excludes it, the places of two
failures of which the one further on is kept.

## What decides the design

Positions that are compared are always the starts, the ends and the failures of parts, or places
where a part has ended and the whole then fails. `Interpretation.ahead` looks at every part and ends
in a fault where one starts, ends or fails before a given position. As nothing in a grammar absorbs
a misuse, a run that is the same whatever the fault is has not met one.

## Main definitions

* `Interpretation.ahead`: a grammar all of whose parts have to stay ahead of a position

## Main results

* `Rule.parse_forward`: without a `seek`, runs and all their parts stay ahead of their start
-/

namespace BitGrammar

namespace Run

/-- Puts a fault in place of a match that ends, or a failure that lies, before a position. -/
def aheadOf (first : Nat) (fault : List Record × Misuse) (x : Run Match) : Run Match :=
  match x.outcome with
  | .ok m => if first ≤ m.next.position then x else ⟨fault.1, .misused fault.2⟩
  | .failed e => if first ≤ e.position then x else ⟨fault.1, .misused fault.2⟩
  | _ => x

variable {first : Nat} {t : List Record}

theorem aheadOf_ok (fault : List Record × Misuse) {m : Match} (h : first ≤ m.next.position) :
    aheadOf first fault ⟨t, .ok m⟩ = ⟨t, .ok m⟩ :=
  if_pos h

theorem aheadOf_failed (fault : List Record × Misuse) {e : Failure} (h : first ≤ e.position) :
    aheadOf first fault ⟨t, .failed e⟩ = ⟨t, .failed e⟩ :=
  if_pos h

end Run

namespace Interpretation

/-- Every part has to start, to end and to fail at or behind a position, or else is a fault. -/
def ahead (first : Nat) (fault : List Record × Misuse) : Interpretation where
  leaf := plain.leaf
  blanks := plain.blanks
  node p c := if first ≤ c.position then (p c).aheadOf first fault else ⟨fault.1, .misused fault.2⟩

variable {input : Array UInt8} {first : Nat}

/-- Runs that stay ahead of a position meet no fault there. -/
theorem runs_aheadOf {c : Cursor} {x y : Run Match} (fault : List Record × Misuse)
    (h : ((Invariant.within input first).same False).Runs
      (((Invariant.within input first).same False).Matches c c) x y) :
    ((Invariant.within input first).same False).Runs
      (((Invariant.within input first).same False).Matches c c) (x.aheadOf first fault) y := by
  cases h with
  | @ok t u m n trace result =>
    rw [Run.aheadOf_ok fault result.next.cursor.2.first_le]
    exact .ok trace result
  | @failed t u e f trace failure =>
    rw [Run.aheadOf_failed fault failure.2.first_le]
    exact .failed trace failure
  | misused trace => exact .misused trace
  | endless trace => exact .endless trace
  | ofMisuse free => exact .ofMisuse free
  | ofEndless free => exact .ofEndless free

/-- As long as cursors stay ahead of a position, looking out for it makes no difference. -/
theorem comparable_ahead (input : Array UInt8) (first : Nat) (fault : List Record × Misuse) :
    Comparable ((Invariant.within input first).same False) (ahead first fault) plain where
  values := trivial
  node := by
    rintro p q hpq c _ ⟨rfl, hc⟩
    dsimp only [ahead]
    rw [if_pos hc.first_le]
    exact runs_aheadOf fault (hpq ⟨rfl, hc⟩)
  blanks := (Rule.comparable_within input first False _ _).blanks
  reorder := Invariant.reorder_within
  sameOrder := Invariant.sameOrder

/-- **All parts of a grammar without a `seek` stay ahead** of every position that it starts ahead
of. -/
theorem parseWithin_ahead (fault : List Record × Misuse) {cells : Cells} {rule : Rule}
    (noSeek : ∀ offset anchor, ¬ cells.Reaches rule (.seek offset anchor)) (depth : Nat)
    {c : Cursor} (h : c.Within input first) :
    (ahead first fault).parseWithin cells depth rule c = rule.parseWithin cells depth c := by
  have related : ((Invariant.within input first).same False).Related
      ((ahead first fault).parseWithin cells depth rule) (rule.parseWithin cells depth) := by
    rw [← plain_parseWithin]
    refine (comparable_ahead input first fault).parseWithin_related (.refl _ cells)
      ⟨Nat.le_refl depth, .inr rfl⟩ fun inner hreach hleaf => ?_
    have hseek : ∀ offset anchor, inner ≠ .seek offset anchor :=
      fun offset anchor heq => noSeek offset anchor (heq ▸ hreach)
    exact Invariant.related_same fun d hd => ⟨rfl, hd.keptBy_leaf hleaf (.inr hseek)⟩
  exact (Invariant.eq_and_kept related h).1

end Interpretation

namespace Rule

/-- **Grammars without a `seek` move forward only**, in results and in failures. So do all their
parts: no part starts, ends or fails before the cursor that the whole starts from. -/
theorem parse_forward (cells : Cells) (rule : Rule)
    (noSeek : ∀ offset anchor, ¬ cells.Reaches rule (.seek offset anchor)) (c : Cursor)
    (h : c.WellFormed) :
    (∀ m, (rule.parse cells c).outcome = .ok m → c.position ≤ m.next.position) ∧
    (∀ e, (rule.parse cells c).outcome = .failed e → c.position ≤ e.position) ∧
    ∀ fault, (Interpretation.ahead c.position fault).parseWithin cells (depthBound cells c) rule c =
      rule.parse cells c := by
  have hc : c.Within c.input c.position := h.within (Nat.le_refl _)
  have kept := keptBy_parseWithin cells (depthBound cells c) rule hc (.inr noSeek)
  refine ⟨fun m hm => ?_, fun e he => ?_, fun fault => ?_⟩
  · rw [parse] at hm
    rw [Invariant.KeptBy, hm] at kept
    exact kept.1.first_le
  · rw [parse] at he
    rw [Invariant.KeptBy, he] at kept
    exact kept.first_le
  · exact Interpretation.parseWithin_ahead fault noSeek _ hc

/-- A number of bytes and then as many bytes. -/
def chunk : Rule :=
  .andThen none Continuation.take uint8

/-- One or more chunks up to the end of the input. -/
def chunks : Cells where
  count := 1
  bindings := [(⟨0⟩, .choice [.left chunk .finish, .right chunk (.ref ⟨0⟩)])]

/-- What the grammar of chunks reaches. -/
theorem chunks_reaches {rule : Rule} (h : chunks.Reaches (.ref ⟨0⟩) rule) :
    rule = .ref ⟨0⟩ ∨ rule = .choice [.left chunk .finish, .right chunk (.ref ⟨0⟩)] ∨
      rule = .left chunk .finish ∨ rule = .right chunk (.ref ⟨0⟩) ∨ rule = chunk ∨
      rule = .finish ∨ rule = uint8 ∨ ∃ count, rule = .take count := by
  induction h with
  | refl => exact .inl rfl
  | tail _ step ih =>
    rcases step with hpart | ⟨cell, -, ht⟩
    · rcases ih with rfl | rfl | rfl | rfl | rfl | rfl | rfl | ⟨count, rfl⟩
      · cases hpart
      · rcases List.mem_pair.mp hpart with rfl | rfl <;> simp
      · rcases hpart with rfl | rfl <;> simp
      · rcases hpart with rfl | rfl <;> simp
      · rcases hpart with rfl | ⟨v, hv⟩
        · simp
        · obtain ⟨count, -, rfl⟩ := Option.map_eq_some_iff.mp hv
          simp
      · cases hpart
      · cases hpart
      · cases hpart
    · have hmem := Cells.mem_bindings_of_target? ht
      simp only [chunks, List.mem_singleton, Prod.mk.injEq] at hmem
      exact .inr (.inl hmem.2)

/-- A second chunk of which four bytes are missing. -/
theorem parse_forward_chunks :
    (∀ offset anchor, ¬ chunks.Reaches (.ref ⟨0⟩) (.seek offset anchor)) ∧
      (⟨#[1, 0x61, 5, 0x62], 16, {}⟩ : Cursor).WellFormed ∧
      ((Rule.ref ⟨0⟩).parse chunks ⟨#[1, 0x61, 5, 0x62], 16, {}⟩).outcome =
        .failed ⟨.endOfInput, ⟨#[1, 0x61, 5, 0x62], 24⟩⟩ ∧
      ∀ fault, (Interpretation.ahead 16 fault).parseWithin chunks
          (depthBound chunks ⟨#[1, 0x61, 5, 0x62], 16, {}⟩) (.ref ⟨0⟩)
            ⟨#[1, 0x61, 5, 0x62], 16, {}⟩ =
        (Rule.ref ⟨0⟩).parse chunks ⟨#[1, 0x61, 5, 0x62], 16, {}⟩ := by
  have noSeek : ∀ offset anchor, ¬ chunks.Reaches (.ref ⟨0⟩) (.seek offset anchor) := by
    intro offset anchor h
    rcases chunks_reaches h with h | h | h | h | h | h | h | ⟨count, h⟩ <;> cases h
  have h : (⟨#[1, 0x61, 5, 0x62], 16, {}⟩ : Cursor).WellFormed := by
    show 16 ≤ 8 * 4
    decide
  exact ⟨noSeek, h, rfl, (parse_forward chunks (.ref ⟨0⟩) noSeek _ h).2.2⟩

end Rule

end BitGrammar
