import BitGrammar.Proofs.ChoiceLaws
import BitGrammar.Proofs.LongestRepetition
import BitGrammar.Proofs.PermutationSequence

/-!
# Sequences and their parts

A sequence of two lists of parsers is the sequence of the one and then the sequence of the other. It
makes no difference to where it ends and how it fails whether the two are written as sequences of
their own, as a chain of pairs does; only the value is nested then. A counted repetition for which
there can be room is the sequence of as many copies, and so can be split in the same way. One for
which there cannot is a misuse, though as many copies would run up to the first that fails.

The first part that does not match is the last one to be run. Its failure is the failure of the
whole, and what is written behind it does not matter.

## What decides the design

`Parser.collect` turns concatenation of lists into the composition of runs
(`Parser.collect_append`), records included. Both ways of writing a sequence are then one run of two
halves, of which they make different values. So they are compared outcome by outcome, with the two
lists of items as a result of their own, and misuse and endlessness need no cases.

A counted repetition leaves one record more than the copies do, which names the round that fails.
`Parser.failedRound?` finds that round in one pass, and `Parser.FailsInRound` says what it finds.

## Main definitions

* `Parser.SplitsInto`: one sequence of two lists of items, and a sequence of the two
* `Parser.FailsInRound`: the round in which a counted repetition fails

## Main results

* `Parser.collect_append`: to collect from two lists is to collect from one after the other
* `Parser.times_eq`: a counted repetition with room is a sequence of copies, up to a record
* `Rule.parse_sequence_append`: sequences and counted repetitions of rules can be split
-/

namespace BitGrammar

open Permutation (InTurn)

/-- The items of two stretches as those of one, which ends where the second does. -/
def Items.append (items further : Items) : Items :=
  (items.1 ++ further.1, further.2)

theorem Match.consTo_append (m : Match) (items further : Items) :
    (m.consTo items).append further = m.consTo (items.append further) := by
  simp [Match.consTo, Items.append]

namespace Parser

variable {p : Parser} {ps qs before after : List Parser} {c d : Cursor} {e : Failure}
  {values : List (Option Value)} {count i : Nat}

/-! ### Lists one after another -/

/-- **To collect from two lists is to collect from one after the other**, records included. -/
theorem collect_append (ps qs : List Parser) (c : Cursor) :
    collect (ps ++ qs) c = collect ps c >>= fun items =>
      collect qs items.2 >>= fun further => pure (items.append further) := by
  induction ps generalizing c with
  | nil =>
    rw [collect, Run.pure_bind]
    exact (bind_pure _).symm
  | cons p ps ih =>
    simp only [List.cons_append, collect, ih, Run.bind_assoc, Run.pure_bind, Match.consTo_append,
      Match.consTo_snd]

/-- Two runs that go over two stretches of items in the same way. The first one gives all the items
as a sequence, and the second one gives a sequence of the items of each stretch. -/
def SplitsInto (flat nested : Run Match) : Prop :=
  ∃ halves : Outcome (Items × Items),
    flat.outcome = halves.map (fun h => ⟨some (.sequence (h.1.1 ++ h.2.1)), h.2.2⟩) ∧
    nested.outcome =
      halves.map fun h => ⟨some (.sequence [.sequence h.1.1, .sequence h.2.1]), h.2.2⟩

/-- A sequence is split into two. The records of both are the same. -/
theorem splitsInto_sequence (ps qs : List Parser) (c : Cursor) :
    SplitsInto (sequence (ps ++ qs) c) (sequence [sequence ps, sequence qs] c) ∧
      (sequence (ps ++ qs) c).trace = (sequence [sequence ps, sequence qs] c).trace := by
  let halves : Run (Items × Items) := collect ps c >>= fun items =>
    collect qs items.2 >>= fun further => pure (items, further)
  have flat : sequence (ps ++ qs) c = (fun h => (h.1.append h.2).toMatch) <$> halves := by
    simp only [halves, sequence_eq, collect_append, map_bind, map_pure]
  have nested : sequence [sequence ps, sequence qs] c =
      (fun h => h.1.toMatch.pair h.2.toMatch) <$> halves := by
    rw [sequence_pair]
    simp only [halves, sequence_eq, bind_map_left, map_bind, map_pure, Items.toMatch]
  rw [flat, nested, Run.map_eq, Run.map_eq]
  exact ⟨⟨halves.outcome, rfl, rfl⟩, rfl⟩

/-! ### The first part that does not match -/

/-- A part that does not match ends the run, and nothing behind it is run. -/
theorem collect_of_failed (h : InTurn before values c d) (failure : (p d).outcome = .failed e)
    (after : List Parser) :
    collect (before ++ p :: after) c = ⟨(collect before c).trace ++ (p d).trace, .failed e⟩ := by
  have stops : collect (p :: after) d = ⟨(p d).trace, .failed e⟩ := Run.bind_of_failed failure
  rw [collect_append, Run.bind_of_ok h.collect]
  simp only [stops, Run.bind_failed]

/-- The failure is that of a part, where those before it lead. -/
theorem collect_failed_iff : (collect ps c).outcome = .failed e ↔
    ∃ before p after values d, ps = before ++ p :: after ∧ InTurn before values c d ∧
      (p d).outcome = .failed e := by
  constructor
  · intro h
    induction ps generalizing c with
    | nil => cases h
    | cons p ps ih =>
      rw [collect] at h
      rcases Run.failed_of_bind h with failure | ⟨m, matched, rest⟩
      · exact ⟨[], p, ps, [], c, rfl, .nil c, failure⟩
      · rcases Run.failed_of_bind rest with failure | ⟨items, -, impossible⟩
        · obtain ⟨before, q, after, values, d, rfl, turn, hq⟩ := ih failure
          exact ⟨p :: before, q, after, m.value :: values, d, rfl, .cons matched turn, hq⟩
        · cases impossible
  · rintro ⟨before, p, after, values, d, rfl, turn, failure⟩
    rw [collect_of_failed turn failure]

theorem sequence_of_failed (h : InTurn before values c d) (failure : (p d).outcome = .failed e)
    (after : List Parser) :
    sequence (before ++ p :: after) c =
      ⟨(sequence before c).trace ++ (p d).trace, .failed e⟩ := by
  rw [sequence_eq, sequence_eq, Run.map_eq, Run.map_eq, collect_of_failed h failure]
  rfl

theorem sequence_failed_iff : (sequence ps c).outcome = .failed e ↔
    ∃ before p after values d, ps = before ++ p :: after ∧ InTurn before values c d ∧
      (p d).outcome = .failed e := by
  rw [← collect_failed_iff, sequence_eq, Run.map_eq]
  cases (collect ps c).outcome <;> simp [Outcome.map]

/-! ### Copies -/

/-- A number of rounds of a counted repetition match, and the next one fails. -/
def FailsInRound (p : Parser) (count : Nat) (c : Cursor) (i : Nat) (e : Failure) : Prop :=
  i < count ∧ ∃ values d, InTurn (List.replicate i p) values c d ∧ (p d).outcome = .failed e

/-- The number of the round that fails, and its failure. -/
def failedRound? (p : Parser) : Nat → Cursor → Option (Nat × Failure)
  | 0, _ => none
  | count + 1, c =>
    match (p c).outcome with
    | .ok m => (failedRound? p count m.next).map fun stop => (stop.1 + 1, stop.2)
    | .failed e => some (0, e)
    | _ => none

theorem failedRound?_eq_some_iff :
    failedRound? p count c = some (i, e) ↔ p.FailsInRound count c i e := by
  induction count generalizing c i with
  | zero => simp [failedRound?, FailsInRound]
  | succ count ih =>
    rw [failedRound?]
    constructor
    · intro h
      split at h
      · next m matched =>
        obtain ⟨⟨j, f⟩, hstop, heq⟩ := Option.map_eq_some_iff.mp h
        obtain ⟨rfl, rfl⟩ := Prod.mk.inj heq
        obtain ⟨hlt, values, d, turn, failure⟩ := ih.mp hstop
        exact ⟨Nat.succ_lt_succ hlt, m.value :: values, d, .cons matched turn, failure⟩
      · next f failure =>
        obtain ⟨rfl, rfl⟩ := Prod.mk.inj (Option.some.inj h)
        exact ⟨Nat.succ_pos count, [], c, .nil c, failure⟩
      · cases h
    · rintro ⟨hlt, values, d, turn, failure⟩
      cases i with
      | zero =>
        cases turn
        rw [failure]
      | succ i =>
        rw [List.replicate_succ] at turn
        cases turn with
        | cons matched rest =>
          rw [matched]
          exact Option.map_eq_some_iff.mpr
            ⟨(i, e), ih.mpr ⟨Nat.lt_of_succ_lt_succ hlt, _, d, rest, failure⟩, rfl⟩

/-- The copies, and one record more when a round fails. The rounds that are left are counted from
the total. -/
theorem collectTimes_eq (p : Parser) {total left : Nat} (h : left ≤ total) (c : Cursor) :
    collectTimes p total left c =
      ⟨(collect (List.replicate left p) c).trace ++ ((failedRound? p left c).map fun stop =>
          .repeatStopped (total - left + stop.1) total stop.2).toList,
        (collect (List.replicate left p) c).outcome⟩ := by
  induction left generalizing c with
  | zero => rfl
  | succ left ih =>
    rw [collectTimes, List.replicate_succ, collect, failedRound?]
    generalize p c = x
    obtain ⟨t, o⟩ := x
    cases o with
    | ok m =>
      have shift : ∀ i, total - (left + 1) + (i + 1) = total - left + i := by omega
      simp only [Run.recordFailure, Run.bind_ok, ih (Nat.le_of_succ_le h), Option.map_map,
        Function.comp_def, shift, bind_pure_comp, Run.map_eq, List.append_assoc]
    | failed e => rfl
    | _ => exact Run.ext (List.append_nil t).symm rfl

/-- **A counted repetition with room is a sequence of copies**, with one record more when a round
fails. -/
theorem times_eq (p : Parser) (room : count < capacity) (c : Cursor) :
    times p count c =
      ⟨(sequence (List.replicate count p) c).trace ++ ((failedRound? p count c).map fun stop =>
          .repeatStopped stop.1 count stop.2).toList,
        (sequence (List.replicate count p) c).outcome⟩ := by
  rw [times_of_lt p room, exactly, bind_pure_comp, Run.map_eq,
    collectTimes_eq p (Nat.le_refl count), sequence_eq, Run.map_eq, Nat.sub_self]
  simp only [Nat.zero_add]

theorem outcome_times (p : Parser) (room : count < capacity) (c : Cursor) :
    (times p count c).outcome = (sequence (List.replicate count p) c).outcome := by
  rw [times_eq p room]

/-- A round that fails is the last one, and is put on record. -/
theorem times_of_failed (room : count < capacity) (h : InTurn (List.replicate i p) values c d)
    (failure : (p d).outcome = .failed e) (hlt : i < count) :
    times p count c = ⟨(sequence (List.replicate i p) c).trace ++ (p d).trace ++
      [.repeatStopped i count e], .failed e⟩ := by
  have copies : List.replicate count p =
      List.replicate i p ++ p :: List.replicate (count - (i + 1)) p := by
    rw [← List.replicate_succ, ← List.replicate_add]
    congr 1
    omega
  have round : failedRound? p count c = some (i, e) :=
    failedRound?_eq_some_iff.mpr ⟨hlt, values, d, h, failure⟩
  rw [times_eq p room, round, copies, sequence_of_failed h failure]
  rfl

/-- A counted repetition with room is split into two. -/
theorem splitsInto_times (p : Parser) {m n : Nat} (room : m + n < capacity) (c : Cursor) :
    SplitsInto (times p (m + n) c) (sequence [times p m, times p n] c) := by
  have first : m < capacity := Nat.lt_of_le_of_lt (Nat.le_add_right m n) room
  have second : n < capacity := Nat.lt_of_le_of_lt (Nat.le_add_left n m) room
  obtain ⟨⟨halves, flat, nested⟩, -⟩ :=
    splitsInto_sequence (List.replicate m p) (List.replicate n p) c
  refine ⟨halves, ?_, ?_⟩
  · rw [outcome_times p room, List.replicate_add]
    exact flat
  · rw [← nested, outcome_sequence_pair, outcome_sequence_pair, outcome_times p first]
    simp only [outcome_times p second]

end Parser

/-! ### Rules -/

namespace Rule

variable {cells : Cells} {c : Cursor}

theorem sequence_parse_failed_iff (hc : c.WellFormed) {rules : List Rule} {e : Failure} :
    ((Rule.sequence rules).parse cells c).outcome = .failed e ↔
      ∃ before rule after values d, rules = before ++ rule :: after ∧
        InTurn (before.map (Rule.parse cells)) values c d ∧
        (rule.parse cells d).outcome = .failed e := by
  rw [Permutation.sequence_parse_eq cells rules hc, Parser.sequence_failed_iff]
  constructor
  · rintro ⟨before, p, after, values, d, hsplit, turn, failure⟩
    obtain ⟨before, others, rfl, rfl, hothers⟩ := List.map_eq_append_iff.mp hsplit
    obtain ⟨rule, after, rfl, rfl, -⟩ := List.map_eq_cons_iff.mp hothers
    exact ⟨before, rule, after, values, d, rfl, turn, failure⟩
  · rintro ⟨before, rule, after, values, d, rfl, turn, failure⟩
    exact ⟨before.map (Rule.parse cells), rule.parse cells, after.map (Rule.parse cells), values, d,
      by rw [List.map_append, List.map_cons], turn, failure⟩

/-- **Sequences can be split.** A sequence of two lists of rules ends where the sequence of the two
sequences does, with the items in one list and not in two, and fails and leaves records as that one
does. A counted repetition for which there can be room has the outcome of a sequence of as many
copies and can be split at any number of rounds; without room it is a misuse before its first round.
The failure of a sequence is that of the first rule that fails, at the place to which those before
it lead; no rule behind that one is run, and no further round of a counted repetition. -/
theorem parse_sequence_append (cells : Cells) (c : Cursor) (hc : c.WellFormed) :
    (∀ ps qs : List Rule,
      Parser.SplitsInto ((Rule.sequence (ps ++ qs)).parse cells c)
        ((Rule.sequence [.sequence ps, .sequence qs]).parse cells c) ∧
      ((Rule.sequence (ps ++ qs)).parse cells c).trace =
        ((Rule.sequence [.sequence ps, .sequence qs]).parse cells c).trace) ∧
    (∀ (rule : Rule) (n : Nat), n < Parser.capacity →
      ((Rule.times rule n).parse cells c).outcome =
        ((Rule.sequence (List.replicate n rule)).parse cells c).outcome) ∧
    (∀ (rule : Rule) (m n : Nat), m + n < Parser.capacity →
      Parser.SplitsInto ((Rule.times rule (m + n)).parse cells c)
        ((Rule.sequence [.times rule m, .times rule n]).parse cells c)) ∧
    (∀ (rule : Rule) (n : Nat), Parser.capacity ≤ n →
      (Rule.times rule n).parse cells c = Run.misuse .capacityOverflow) ∧
    (∀ (rules : List Rule) (e : Failure),
      ((Rule.sequence rules).parse cells c).outcome = .failed e ↔
        ∃ before rule after values d, rules = before ++ rule :: after ∧
          InTurn (before.map (Rule.parse cells)) values c d ∧
          (rule.parse cells d).outcome = .failed e) ∧
    (∀ (before : List Rule) (rule : Rule) (values : List (Option Value)) (d : Cursor) (e : Failure),
      InTurn (before.map (Rule.parse cells)) values c d →
      (rule.parse cells d).outcome = .failed e → ∀ after : List Rule,
        (Rule.sequence (before ++ rule :: after)).parse cells c =
          ⟨((Rule.sequence before).parse cells c).trace ++ (rule.parse cells d).trace,
            .failed e⟩) ∧
    ∀ (rule : Rule) (i n : Nat) (values : List (Option Value)) (d : Cursor) (e : Failure), i < n →
      n < Parser.capacity → InTurn (List.replicate i (rule.parse cells)) values c d →
      (rule.parse cells d).outcome = .failed e →
        (Rule.times rule n).parse cells c =
          ⟨((Rule.sequence (List.replicate i rule)).parse cells c).trace ++
            (rule.parse cells d).trace ++ [.repeatStopped i n e], .failed e⟩ := by
  refine ⟨fun ps qs => ?_, fun rule n room => ?_, fun rule m n room => ?_, fun rule n noRoom => ?_,
    fun rules e => sequence_parse_failed_iff hc,
    fun before rule values d e turn failure after => ?_,
    fun rule i n values d e hlt room turn failure => ?_⟩
  · simp only [parse, parseWithin_sequence, List.map_append, List.map_cons, List.map_nil]
    exact Parser.splitsInto_sequence _ _ c
  · rw [times_parse_eq cells rule n hc, Permutation.sequence_parse_eq cells _ hc,
      List.map_replicate]
    exact Parser.outcome_times _ room c
  · have within : ∀ k, (Rule.times rule k).parseWithin cells (depthBound cells c) =
        Parser.times (rule.parseWithin cells (depthBound cells c)) k := fun _ => rfl
    simp only [parse, parseWithin_sequence, within, List.map_cons, List.map_nil]
    exact Parser.splitsInto_times _ room c
  · rw [times_parse_eq cells rule n hc, Parser.times_of_le _ noRoom]
  · rw [Permutation.sequence_parse_eq cells _ hc, Permutation.sequence_parse_eq cells _ hc,
      List.map_append, List.map_cons]
    exact Parser.sequence_of_failed turn failure _
  · rw [times_parse_eq cells rule n hc, Permutation.sequence_parse_eq cells _ hc,
      List.map_replicate]
    exact Parser.times_of_failed room turn failure hlt

/-- Two letters as one list and as two, and a third one that is not there. -/
theorem parse_sequence_append_letters :
    Parser.SplitsInto
      ((Rule.sequence [.byte 0x61, .byte 0x61]).parse .empty ⟨#[0x61, 0x61, 0x62], 0, {}⟩)
      ((Rule.sequence [.sequence [.byte 0x61], .sequence [.byte 0x61]]).parse .empty
        ⟨#[0x61, 0x61, 0x62], 0, {}⟩) ∧
    ((Rule.sequence [.byte 0x61, .byte 0x61]).parse .empty ⟨#[0x61, 0x61, 0x62], 0, {}⟩).outcome =
      .ok ⟨some (.sequence [.char 0x61, .char 0x61]), ⟨#[0x61, 0x61, 0x62], 16, {}⟩⟩ ∧
    ∃ e : Failure, e.position = 16 ∧
      (Rule.times (.byte 0x61) 5).parse .empty ⟨#[0x61, 0x61, 0x62], 0, {}⟩ =
        ⟨[.repeatStopped 2 5 e], .failed e⟩ := by
  obtain ⟨splits, -, -, -, -, -, stops⟩ :=
    parse_sequence_append .empty ⟨#[0x61, 0x61, 0x62], 0, {}⟩ (Nat.zero_le _)
  have turn : InTurn (List.replicate 2 ((Rule.byte 0x61).parse .empty))
      [some (.char 0x61), some (.char 0x61)] ⟨#[0x61, 0x61, 0x62], 0, {}⟩
      ⟨#[0x61, 0x61, 0x62], 16, {}⟩ :=
    .cons (m := ⟨some (.char 0x61), ⟨#[0x61, 0x61, 0x62], 8, {}⟩⟩) rfl
      (.cons (m := ⟨some (.char 0x61), ⟨#[0x61, 0x61, 0x62], 16, {}⟩⟩) rfl (.nil _))
  exact ⟨(splits [.byte 0x61] [.byte 0x61]).1, rfl, _, rfl,
    stops (.byte 0x61) 2 5 _ _ _ (by decide) (by decide) turn rfl⟩

end Rule

end BitGrammar
