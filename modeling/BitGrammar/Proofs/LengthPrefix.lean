import BitGrammar.Hook
import BitGrammar.Proofs.Concatenation

/-!
# Items behind their count

Items that are counted in front can be matched in two ways: by a rule for a count and items, or by a
rule for the count alone, behind which a counted repetition is chosen by the number that was read.
Both make the same match, fail in the same way and meet the same misuse, as long as there can be
room for as many items, which a counted repetition asks for in advance. They differ in one record,
which a counted repetition leaves of the round that fails.

## What decides the design

Both ways are a sequence of copies behind the count. The first one is so round by round
(`Parser.collectCounted_eq`). For the second one this is what is known about counted repetitions,
with the record as a part of the equation.

The value of the count reaches a continuation as `Value.unit` when it is elided, and reaches the
other rule as it is. An elided value is no count either way.

## Main definitions

* `Parser.stopRecord?`: the record of the item that fails

## Main results

* `Parser.collectCounted_eq`: items that are counted are a list of copies
* `Rule.parse_lengthValue`: the two ways are the same, up to that record
-/

namespace BitGrammar

namespace Parser

variable {p q : Parser} {c : Cursor} {m : Match} {n : Nat}

/-- Items that are counted are collected as a list of copies is. -/
theorem collectCounted_eq (q : Parser) (n : Nat) (c : Cursor) :
    collectCounted q n c = collect (List.replicate n q) c := by
  induction n generalizing c with
  | zero => rfl
  | succ n ih => simp only [collectCounted, List.replicate_succ, collect, ih]

/-- The record that a counted repetition leaves behind a count, when an item fails. -/
def stopRecord? (p q : Parser) (c : Cursor) : Option Record :=
  match (p c).outcome with
  | .ok m => (m.value.bind Value.asCount).bind fun n =>
      (failedRound? q n m.next).map fun stop => .repeatStopped stop.1 n stop.2
  | _ => none

theorem stopRecord?_eq_some_iff {r : Record} : stopRecord? p q c = some r ↔
    ∃ m n i e, (p c).outcome = .ok m ∧ m.value.bind Value.asCount = some n ∧
      q.FailsInRound n m.next i e ∧ r = .repeatStopped i n e := by
  rw [stopRecord?]
  constructor
  · intro h
    split at h
    · next m matched =>
      obtain ⟨n, counts, hstop⟩ := Option.bind_eq_some_iff.mp h
      obtain ⟨⟨i, e⟩, round, rfl⟩ := Option.map_eq_some_iff.mp hstop
      exact ⟨m, n, i, e, matched, counts, failedRound?_eq_some_iff.mp round, rfl⟩
    · cases h
  · rintro ⟨m, n, i, e, matched, counts, round, rfl⟩
    simp only [matched, counts, Option.bind_some, failedRound?_eq_some_iff.mpr round,
      Option.map_some]

/-- A value that is a count is not elided. -/
theorem asCount_shown (counts : m.value.bind Value.asCount = some n) :
    m.shown.asCount = some n := by
  obtain ⟨v, hv, hn⟩ := Option.bind_eq_some_iff.mp counts
  rw [Match.shown, hv]
  exact hn

/-- **A count and items are a count and a counted repetition**, up to the record of the item that
fails, if there can be room for as many items. -/
theorem andThen_times_eq (counts : ∀ m, (p c).outcome = .ok m →
      (m.value.bind Value.asCount).isSome)
    (room : ∀ m n, (p c).outcome = .ok m → m.value.bind Value.asCount = some n → n < capacity) :
    andThen none (fun v => v.asCount.map (times q)) p c =
      ⟨(lengthValue p q c).trace ++ (stopRecord? p q c).toList,
        (lengthValue p q c).outcome⟩ := by
  rw [andThen, lengthValue, stopRecord?]
  generalize p c = x at counts room
  obtain ⟨t, o⟩ := x
  cases o with
  | ok m =>
    obtain ⟨n, hn⟩ := Option.isSome_iff_exists.mp (counts m rfl)
    simp only [Run.bind_ok, recordCall, Run.pure_bind, asCount_shown hn, hn, Option.map_some,
      Option.bind_some, collectCounted_eq, bind_pure_comp, ← sequence_eq,
      times_eq q (room m n rfl hn), List.append_assoc]
  | _ => exact Run.ext (List.append_nil t).symm rfl

end Parser

/-! ### Rules -/

namespace Rule

variable {c : Cursor}

theorem lengthValue_parse_eq (cells : Cells) (length rule : Rule) (hc : c.WellFormed) :
    (Rule.lengthValue length rule).parse cells c =
      Parser.lengthValue (length.parse cells) (rule.parse cells) c := by
  show Parser.lengthValue (length.parseWithin cells (depthBound cells c))
    (rule.parseWithin cells (depthBound cells c)) c = _
  exact eq_of_related (.lengthValue trivial (related_parse cells length c)
    (related_parse cells rule c)) hc

theorem andThen_times_parse_eq (cells : Cells) (length rule : Rule) (hc : c.WellFormed) :
    (Rule.andThen none (Continuation.times rule) length).parse cells c =
      Parser.andThen none (fun v => v.asCount.map (Parser.times (rule.parse cells)))
        (length.parse cells) c := by
  have chosen : ∀ v, Option.Rel ((Invariant.within c.input 0).same False).Related
      ((Continuation.times rule v).map (Rule.parseWithin cells (depthBound cells c)))
      (v.asCount.map (Parser.times (rule.parse cells))) := by
    intro v
    rw [Continuation.times]
    cases v.asCount with
    | none => exact .none
    | some n => exact .some (.times (related_parse cells rule c) n)
  rw [parse, parseWithin_andThen]
  exact eq_of_related (.andThen trivial none chosen (related_parse cells length c)) hc

/-- **Items behind their count are a counted repetition.** Where a rule yields counts only, for
which there can be room, it can be followed by as many items, or by a counted repetition chosen by
the count. Value, end, failure and misuse are the same. The records are, too, up to one that a
repetition leaves when an item fails: it comes last and says how many items came before that one,
and the count. -/
theorem parse_lengthValue (cells : Cells) (length rule : Rule) (c : Cursor) (hc : c.WellFormed)
    (counts : ∀ m, (length.parse cells c).outcome = .ok m →
      (m.value.bind Value.asCount).isSome)
    (room : ∀ m n, (length.parse cells c).outcome = .ok m →
      m.value.bind Value.asCount = some n → n < Parser.capacity) :
    ((Rule.andThen none (Continuation.times rule) length).parse cells c).outcome =
      ((Rule.lengthValue length rule).parse cells c).outcome ∧
    ∃ stopped : Option Record,
      ((Rule.andThen none (Continuation.times rule) length).parse cells c).trace =
        ((Rule.lengthValue length rule).parse cells c).trace ++ stopped.toList ∧
      ∀ r, stopped = some r ↔ ∃ m n i e, (length.parse cells c).outcome = .ok m ∧
        m.value.bind Value.asCount = some n ∧
        (rule.parse cells).FailsInRound n m.next i e ∧
        r = .repeatStopped i n e ∧
        r.message = "repeat_n stopped after " ++ toString i ++ " of " ++ toString n ++ ": " ++
          e.text := by
  rw [andThen_times_parse_eq cells length rule hc, lengthValue_parse_eq cells length rule hc,
    Parser.andThen_times_eq counts room]
  refine ⟨rfl, Parser.stopRecord? (length.parse cells) (rule.parse cells) c, rfl, fun r => ?_⟩
  rw [Parser.stopRecord?_eq_some_iff]
  constructor
  · rintro ⟨m, n, i, e, matched, hn, round, rfl⟩
    exact ⟨m, n, i, e, matched, hn, round, rfl, rfl⟩
  · rintro ⟨m, n, i, e, matched, hn, round, hr, -⟩
    exact ⟨m, n, i, e, matched, hn, round, hr⟩

/-- A count of three, of which the third item is missing. -/
theorem parse_lengthValue_letters :
    (∀ m, (Rule.uint8.parse .empty ⟨#[0x03, 0x61, 0x61], 0, {}⟩).outcome = .ok m →
      (m.value.bind Value.asCount).isSome) ∧
    (∀ m n, (Rule.uint8.parse .empty ⟨#[0x03, 0x61, 0x61], 0, {}⟩).outcome = .ok m →
      m.value.bind Value.asCount = some n → n < Parser.capacity) ∧
    ∃ e : Failure, e.position = 24 ∧
      ((Rule.andThen none (Continuation.times (.byte 0x61)) .uint8).parse .empty
        ⟨#[0x03, 0x61, 0x61], 0, {}⟩).outcome = .failed e ∧
      ((Rule.andThen none (Continuation.times (.byte 0x61)) .uint8).parse .empty
        ⟨#[0x03, 0x61, 0x61], 0, {}⟩).trace = [.repeatStopped 2 3 e] := by
  have counts : ∀ m, (Rule.uint8.parse .empty ⟨#[0x03, 0x61, 0x61], 0, {}⟩).outcome = .ok m →
      (m.value.bind Value.asCount).isSome := by
    intro m hm
    cases hm
    rfl
  have room : ∀ m n, (Rule.uint8.parse .empty ⟨#[0x03, 0x61, 0x61], 0, {}⟩).outcome = .ok m →
      m.value.bind Value.asCount = some n → n < Parser.capacity := by
    intro m n hm hn
    cases hm
    cases hn
    decide
  obtain ⟨same, stopped, trace, hstopped⟩ :=
    parse_lengthValue .empty .uint8 (.byte 0x61) ⟨#[0x03, 0x61, 0x61], 0, {}⟩ (Nat.zero_le _)
      counts room
  have turn : Permutation.InTurn (List.replicate 2 ((Rule.byte 0x61).parse .empty))
      [some (.char 0x61), some (.char 0x61)] ⟨#[0x03, 0x61, 0x61], 8, {}⟩
      ⟨#[0x03, 0x61, 0x61], 24, {}⟩ :=
    .cons (m := ⟨some (.char 0x61), ⟨#[0x03, 0x61, 0x61], 16, {}⟩⟩) rfl
      (.cons (m := ⟨some (.char 0x61), ⟨#[0x03, 0x61, 0x61], 24, {}⟩⟩) rfl (.nil _))
  have third := (hstopped _).mpr ⟨⟨some (.uint 3), ⟨#[0x03, 0x61, 0x61], 8, {}⟩⟩, 3, 2, _, rfl, rfl,
    ⟨by decide, _, _, turn, rfl⟩, rfl, rfl⟩
  rw [third] at trace
  exact ⟨counts, room, _, rfl, same.trans rfl, trace.trans rfl⟩

end Rule

end BitGrammar
