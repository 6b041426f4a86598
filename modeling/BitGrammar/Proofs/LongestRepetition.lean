import BitGrammar.Proofs.Permutation
import Mathlib.Order.Bounds.Basic

/-!
# The longest repetition

A repetition takes rounds until one fails or does not move, and a round that does not move is kept.
So it is a repetition of a fixed number of rounds, for the least number after which the parser fails
or the last round has not moved. As every other round moves on, that number is at most one more than
the number of bits that remain.

## What decides the design

`Repetition` lists the matches of a repetition along its rounds, in the three ways in which a round
can go. Everything else is read off such a list by induction: the number of rounds at which it stops
(`Repetition.isLeast`), the repetition of that number of rounds (`Repetition.collectTimes`), and the
loop, for every bound on its rounds (`Repetition.exists_repeatWhile`). So the bound that the loop is
given takes nothing away, and nothing but termination depends on moving forward.

## Main definitions

* `Parser.afterRounds?`: where a number of successive matches lead
* `Parser.StopsAfter`: the parser fails there, or the last match has not moved
* `Parser.Repetition`: the matches of a repetition

## Main results

* `Parser.exists_repetition`: a parser that answers and moves forward only has a repetition
* `Parser.exists_repetition_of_answers`: a loop that answers has found one
* `Rule.parse_many_longest`: repetitions of rules take the least number of rounds, and end
-/

namespace BitGrammar

/-- The values of matches one after another, without the elided ones. -/
def Match.values (ms : List Match) : List Value :=
  ms.flatMap fun m => m.value.toList

namespace Parser

variable {p : Parser} {c d finish : Cursor} {m : Match} {ms : List Match} {rounds k : Nat}

/-! ### Rounds -/

/-- Where a number of successive matches lead, each of them from the end of the one before. -/
def afterRounds? (p : Parser) : Nat → Cursor → Option Cursor
  | 0, c => some c
  | k + 1, c =>
    match (p c).outcome with
    | .ok m => afterRounds? p k m.next
    | _ => none

/-- After a number of rounds the parser fails, or the last of them has not moved. -/
def StopsAfter (p : Parser) (c : Cursor) (k : Nat) : Prop :=
  ∃ d, p.afterRounds? k c = some d ∧ ((∃ e, (p d).outcome = .failed e) ∨
    ∃ j b, k = j + 1 ∧ p.afterRounds? j c = some b ∧ d.position = b.position)

theorem afterRounds?_succ (matched : (p c).outcome = .ok m) (k : Nat) :
    p.afterRounds? (k + 1) c = p.afterRounds? k m.next := by
  rw [afterRounds?, matched]

theorem not_stopsAfter_zero (matched : (p c).outcome = .ok m) : ¬ p.StopsAfter c 0 := by
  rintro ⟨d, hd, ⟨e, he⟩ | ⟨j, b, hj, -⟩⟩
  · obtain rfl := Option.some.inj hd
    rw [matched] at he
    cases he
  · cases hj

/-- A round that moves is followed by what a repetition from there on does. -/
theorem stopsAfter_succ_iff (matched : (p c).outcome = .ok m)
    (moves : m.next.position ≠ c.position) (k : Nat) :
    p.StopsAfter c (k + 1) ↔ p.StopsAfter m.next k := by
  constructor
  · rintro ⟨d, hd, hstop⟩
    rw [afterRounds?_succ matched] at hd
    refine ⟨d, hd, hstop.imp_right ?_⟩
    rintro ⟨j, b, hj, hb, hstall⟩
    obtain rfl := Nat.succ.inj hj
    cases k with
    | zero =>
      obtain rfl := Option.some.inj hd
      obtain rfl := Option.some.inj hb
      exact absurd hstall moves
    | succ k =>
      rw [afterRounds?_succ matched] at hb
      exact ⟨k, b, rfl, hb, hstall⟩
  · rintro ⟨d, hd, hstop⟩
    refine ⟨d, (afterRounds?_succ matched k).trans hd, hstop.imp_right ?_⟩
    rintro ⟨j, b, rfl, hb, hstall⟩
    exact ⟨j + 1, b, rfl, (afterRounds?_succ matched j).trans hb, hstall⟩

/-! ### Repetitions -/

/-- The matches of a repetition from a cursor, and the cursor where it ends. A round fails and is
the end, or does not move and is the last one, or moves and is followed by others. -/
inductive Repetition (p : Parser) : Cursor → List Match → Cursor → Prop where
  | failed {c : Cursor} {e : Failure} (failure : (p c).outcome = .failed e) : Repetition p c [] c
  | stalled {c : Cursor} {m : Match} (matched : (p c).outcome = .ok m)
    (stalls : m.next.position = c.position) : Repetition p c [m] m.next
  | moved {c finish : Cursor} {m : Match} {ms : List Match} (matched : (p c).outcome = .ok m)
    (moves : m.next.position ≠ c.position) (rest : Repetition p m.next ms finish) :
    Repetition p c (m :: ms) finish

/-- A repetition stops after as few rounds as possible. -/
theorem Repetition.isLeast (h : Repetition p c ms finish) :
    IsLeast {k | p.StopsAfter c k} ms.length := by
  have positive : ∀ {c : Cursor} {m : Match}, (p c).outcome = .ok m → ∀ k, p.StopsAfter c k →
      ∃ j, k = j + 1 := by
    intro c m matched k hk
    refine Nat.exists_eq_succ_of_ne_zero fun hzero => not_stopsAfter_zero matched ?_
    rwa [hzero] at hk
  induction h with
  | @failed c e failure => exact ⟨⟨c, rfl, .inl ⟨e, failure⟩⟩, fun k _ => Nat.zero_le k⟩
  | @stalled c m matched stalls =>
    -- the round that does not move counts, as its match is kept
    refine ⟨⟨m.next, afterRounds?_succ matched 0, .inr ⟨0, c, rfl, rfl, stalls⟩⟩, fun k hk => ?_⟩
    obtain ⟨j, rfl⟩ := positive matched k hk
    exact Nat.le_add_left 1 j
  | moved matched moves _ ih =>
    refine ⟨(stopsAfter_succ_iff matched moves _).mpr ih.1, fun k hk => ?_⟩
    obtain ⟨j, rfl⟩ := positive matched k hk
    exact Nat.succ_le_succ (ih.2 ((stopsAfter_succ_iff matched moves j).mp hk))

/-- A repetition ends where the parser fails, or with a match that does not move. -/
theorem Repetition.ends (h : Repetition p c ms finish) :
    (∃ e, (p finish).outcome = .failed e) ∨
      ∃ moving d m, ms = moving ++ [m] ∧ (p d).outcome = .ok m ∧ m.next = finish ∧
        finish.position = d.position := by
  induction h with
  | failed failure => exact .inl ⟨_, failure⟩
  | @stalled c m matched stalls => exact .inr ⟨[], c, m, rfl, matched, rfl, stalls⟩
  | @moved c finish m ms _ _ _ ih =>
    refine ih.imp_right ?_
    rintro ⟨moving, d, last, rfl, hlast⟩
    exact ⟨m :: moving, d, last, rfl, hlast⟩

/-! ### Loops -/

theorem outcome_collectTimes_succ (matched : (p c).outcome = .ok m) (total k : Nat) :
    (collectTimes p total (k + 1) c).outcome =
      (collectTimes p total k m.next).outcome.map m.consTo := by
  rw [collectTimes]
  generalize p c = x at matched
  obtain ⟨t, o⟩ := x
  cases matched
  rw [Run.outcome_bind_ok rfl]
  generalize collectTimes p total k m.next = y
  obtain ⟨u, o⟩ := y
  cases o <;> rfl

/-- As many rounds as a repetition has can be run one by one. -/
theorem Repetition.collectTimes (h : Repetition p c ms finish) (total : Nat) :
    (collectTimes p total ms.length c).outcome = .ok (Match.values ms, finish) := by
  induction h with
  | failed => rfl
  | stalled matched => rw [List.length_singleton, outcome_collectTimes_succ matched]; rfl
  | moved matched _ _ ih => rw [List.length_cons, outcome_collectTimes_succ matched, ih]; rfl

theorem Repetition.outcome_exactly (h : Repetition p c ms finish) :
    (exactly p ms.length c).outcome = .ok ⟨some (.sequence (Match.values ms)), finish⟩ :=
  Run.outcome_bind_ok (h.collectTimes ms.length)

theorem repeatWhile_of_failed {e : Failure} (failure : (p c).outcome = .failed e) (rounds : Nat) :
    repeatWhile p (rounds + 1) 0 c = ⟨(p c).trace, .ok ([], c)⟩ := by
  rw [repeatWhile, Run.attempt_bind_of_failed failure]
  exact Run.ext (List.append_nil _) rfl

theorem repeatWhile_of_stalls (matched : (p c).outcome = .ok m)
    (stalls : m.next.position = c.position) (rounds required : Nat) :
    repeatWhile p (rounds + 1) required c = ⟨(p c).trace, .ok (m.consTo ([], m.next))⟩ := by
  rw [repeatWhile, Run.attempt_bind_of_ok matched]
  simp only [if_pos stalls]
  exact Run.ext (List.append_nil _) rfl

theorem repeatWhile_of_moves (matched : (p c).outcome = .ok m)
    (moves : m.next.position ≠ c.position) (rounds required : Nat) :
    repeatWhile p (rounds + 1) required c =
      ⟨(p c).trace ++ (repeatWhile p rounds (required - 1) m.next).trace,
        (repeatWhile p rounds (required - 1) m.next).outcome.map m.consTo⟩ := by
  rw [repeatWhile, Run.attempt_bind_of_ok matched]
  simp only [if_neg moves, bind_pure_comp, Run.map_eq]

/-- A loop that is allowed more rounds than a repetition has runs through it, and what it does does
not depend on how many more. -/
theorem Repetition.exists_repeatWhile (h : Repetition p c ms finish) :
    ∃ t, ∀ rounds, ms.length < rounds →
      repeatWhile p rounds 0 c = ⟨t, .ok (Match.values ms, finish)⟩ := by
  have more : ∀ {n rounds : Nat}, n < rounds → ∃ left, rounds = left + 1 ∧ n ≤ left :=
    fun {_ rounds} hn => ⟨rounds - 1, by omega, by omega⟩
  induction h with
  | @failed c e failure =>
    refine ⟨(p c).trace, fun rounds hr => ?_⟩
    obtain ⟨left, rfl, -⟩ := more hr
    exact repeatWhile_of_failed failure left
  | @stalled c m matched stalls =>
    refine ⟨(p c).trace, fun rounds hr => ?_⟩
    obtain ⟨left, rfl, -⟩ := more hr
    exact repeatWhile_of_stalls matched stalls left 0
  | @moved c finish m ms matched moves _ ih =>
    obtain ⟨t, ht⟩ := ih
    refine ⟨(p c).trace ++ t, fun rounds hr => ?_⟩
    obtain ⟨left, rfl, hleft⟩ := more hr
    rw [repeatWhile_of_moves matched moves, ht left hleft]
    rfl

/-- A loop that is allowed fewer rounds is cut off. -/
theorem Repetition.repeatWhile_endless (h : Repetition p c ms finish) (hr : rounds < ms.length) :
    (repeatWhile p rounds 0 c).outcome = .endless := by
  induction h generalizing rounds with
  | failed => cases hr
  | stalled =>
    obtain rfl := Nat.lt_one_iff.mp hr
    rfl
  | moved matched moves _ ih =>
    cases rounds with
    | zero => rfl
    | succ rounds =>
      rw [repeatWhile_of_moves matched moves, Nat.zero_sub, ih (Nat.lt_of_succ_lt_succ hr)]
      rfl

/-- **A loop that answers has found a repetition**, and succeeds. -/
theorem exists_repetition_of_answers (h : (repeatWhile p rounds 0 c).Answers) :
    ∃ ms finish, Repetition p c ms finish ∧
      (repeatWhile p rounds 0 c).outcome = .ok (Match.values ms, finish) := by
  induction rounds generalizing c with
  | zero => rcases h with ⟨items, h⟩ | ⟨e, h⟩ <;> cases h
  | succ rounds ih =>
    have answers : (p c).Answers := by
      rw [repeatWhile] at h
      exact .of_attempt_bind h
    rcases answers with ⟨m, hm⟩ | ⟨e, he⟩
    · by_cases stalls : m.next.position = c.position
      · rw [repeatWhile_of_stalls hm stalls]
        exact ⟨[m], m.next, .stalled hm stalls, rfl⟩
      · rw [repeatWhile_of_moves hm stalls, Nat.zero_sub] at h ⊢
        obtain ⟨ms, finish, hrep, hrest⟩ := ih ((Run.answers_map _ _).mp h)
        rw [hrest]
        exact ⟨m :: ms, finish, .moved hm stalls hrep, rfl⟩
    · rw [repeatWhile_of_failed he]
      exact ⟨[], c, .failed he, rfl⟩

/-- Only required rounds can make a loop fail. -/
theorem repeatWhile_ne_failed (p : Parser) (rounds : Nat) (c : Cursor) (e : Failure) :
    (repeatWhile p rounds 0 c).outcome ≠ .failed e := by
  intro h
  obtain ⟨ms, finish, -, hok⟩ := exists_repetition_of_answers (.inr ⟨e, h⟩)
  rw [hok] at h
  cases h

theorem many_eq (p : Parser) (c : Cursor) :
    many p c = ⟨(repeatWhile p (c.positions + 1) 0 c).trace,
      (repeatWhile p (c.positions + 1) 0 c).outcome.map Items.toMatch⟩ := by
  rw [many, atLeast, bind_pure_comp, Run.map_eq]

/-- A round that is required makes a difference only where the parser fails. -/
theorem repeatWhile_one (h : ∀ e, (p c).outcome ≠ .failed e) (rounds : Nat) :
    repeatWhile p rounds 1 c = repeatWhile p rounds 0 c := by
  cases rounds with
  | zero => rfl
  | succ rounds =>
    rw [repeatWhile, repeatWhile]
    generalize p c = x at h
    obtain ⟨t, o⟩ := x
    cases o with
    | failed e => exact absurd rfl (h e)
    | _ => rfl

theorem many1_eq_many (h : ∀ e, (p c).outcome ≠ .failed e) : many1 p c = many p c := by
  rw [many1, many, atLeast, atLeast, repeatWhile_one h]

/-- One or more rounds fail as the first round does. -/
theorem many1_failed_iff (p : Parser) (c : Cursor) (e : Failure) :
    (many1 p c).outcome = .failed e ↔ (p c).outcome = .failed e := by
  have first : ∀ f, (p c).outcome = .failed f → (many1 p c).outcome = .failed f := by
    intro f hf
    refine Run.outcome_bind_failed ?_
    rw [repeatWhile]
    exact Run.outcome_attempt_bind_failed hf
  refine ⟨fun h => ?_, first e⟩
  by_cases failure : ∃ f, (p c).outcome = .failed f
  · obtain ⟨f, hf⟩ := failure
    rw [hf, ← first f hf, h]
  · rw [many1_eq_many fun f hf => failure ⟨f, hf⟩, many_eq] at h
    cases hloop : (repeatWhile p (c.positions + 1) 0 c).outcome with
    | failed f => exact absurd hloop (repeatWhile_ne_failed p _ c f)
    | _ =>
      rw [hloop] at h
      cases h

/-! ### Moving forward -/

/-- **A parser that answers and moves forward only has a repetition**, with at most one round more
than bits remain. The induction is on those. -/
theorem exists_repetition (hc : c.WellFormed) (answers : ∀ d, c.Ahead d → (p d).Answers)
    (ahead : ∀ d m, c.Ahead d → (p d).outcome = .ok m → d.Ahead m.next) :
    ∃ ms finish, Repetition p c ms finish ∧ ms.length ≤ c.remaining + 1 := by
  induction hbits : c.remaining using Nat.strong_induction_on generalizing c with
  | _ bits ih =>
    rcases answers c hc.ahead with ⟨m, hm⟩ | ⟨e, he⟩
    · by_cases stalls : m.next.position = c.position
      · exact ⟨[m], m.next, .stalled hm stalls, Nat.le_add_left 1 _⟩
      · have hnext : c.Ahead m.next := ahead c m hc.ahead hm
        have fewer : m.next.remaining < bits := by
          have hadd := hnext.remaining_add
          have hle := hnext.first_le
          omega
        obtain ⟨ms, finish, hrep, hms⟩ := ih _ fewer hnext.wellFormed
          (fun d hd => answers d (hnext.trans hd)) (fun d n hd => ahead d n (hnext.trans hd)) rfl
        exact ⟨m :: ms, finish, .moved hm stalls hrep, Nat.succ_le_succ (hms.trans fewer)⟩
    · exact ⟨[], c, .failed he, Nat.zero_le _⟩

/-- The loop is allowed more rounds than such a repetition has, and more of them change nothing. -/
theorem Repetition.many_eq (h : Repetition p c ms finish) (hms : ms.length ≤ c.remaining + 1)
    (hr : ms.length < rounds) :
    many p c = repeatWhile p rounds 0 c >>= fun items => pure items.toMatch := by
  have enough : ms.length < c.positions + 1 := by
    rw [Cursor.remaining] at hms
    rw [Cursor.positions]
    omega
  obtain ⟨t, ht⟩ := h.exists_repeatWhile
  rw [many, atLeast, ht _ enough, ht rounds hr]

theorem Repetition.outcome_many (h : Repetition p c ms finish)
    (hms : ms.length ≤ c.remaining + 1) :
    (many p c).outcome = .ok ⟨some (.sequence (Match.values ms)), finish⟩ := by
  obtain ⟨t, ht⟩ := h.exists_repeatWhile
  rw [h.many_eq hms (Nat.lt_succ_self _), ht _ (Nat.lt_succ_self _)]
  rfl

/-- All rounds but the last one move forward. -/
theorem Repetition.advances (h : Repetition p c ms finish) (hc : c.WellFormed)
    (ahead : ∀ d m, c.Ahead d → (p d).outcome = .ok m → d.Ahead m.next) {j : Nat}
    (hj : j + 1 < ms.length) :
    ∃ b d, p.afterRounds? j c = some b ∧ p.afterRounds? (j + 1) c = some d ∧
      b.position < d.position := by
  induction h generalizing j with
  | failed => cases hj
  | stalled => cases Nat.lt_of_succ_lt_succ hj
  | @moved c finish m ms matched moves _ ih =>
    have hnext : c.Ahead m.next := ahead c m hc.ahead matched
    cases j with
    | zero =>
      exact ⟨c, m.next, rfl, afterRounds?_succ matched 0,
        Nat.lt_of_le_of_ne hnext.first_le moves.symm⟩
    | succ j =>
      obtain ⟨b, d, hb, hd, hlt⟩ := ih hnext.wellFormed (fun d n hd => ahead d n (hnext.trans hd))
        (Nat.lt_of_succ_lt_succ hj)
      exact ⟨b, d, (afterRounds?_succ matched j).trans hb,
        (afterRounds?_succ matched (j + 1)).trans hd, hlt⟩

end Parser

/-! ### Rules -/

namespace Rule

variable {cells : Cells} {rule : Rule} {c : Cursor}

theorem many_parse_eq (cells : Cells) (rule : Rule) (hc : c.WellFormed) :
    (Rule.many rule).parse cells c = Parser.many (rule.parse cells) c := by
  show Parser.many (rule.parseWithin cells (depthBound cells c)) c = _
  exact eq_of_related (.many (related_parse cells rule c)) hc

theorem many1_parse_eq (cells : Cells) (rule : Rule) (hc : c.WellFormed) :
    (Rule.many1 rule).parse cells c = Parser.many1 (rule.parse cells) c := by
  show Parser.many1 (rule.parseWithin cells (depthBound cells c)) c = _
  exact eq_of_related (.many1 (related_parse cells rule c)) hc

theorem times_parse_eq (cells : Cells) (rule : Rule) (count : Nat) (hc : c.WellFormed) :
    (Rule.times rule count).parse cells c = Parser.times (rule.parse cells) count c := by
  show Parser.times (rule.parseWithin cells (depthBound cells c)) count c = _
  exact eq_of_related (.times (related_parse cells rule c) count) hc

/-- A rule that does not move back stays ahead. -/
theorem ahead_of_onward (onward : ∀ d m, c.Ahead d → (rule.parse cells d).outcome = .ok m →
    d.position ≤ m.next.position) (d : Cursor) (m : Match) (hd : c.Ahead d)
    (hm : (rule.parse cells d).outcome = .ok m) : d.Ahead m.next := by
  have hnext := (within_of_parse (hd.wellFormed.within (Nat.zero_le _)) hm).1
  exact ⟨hnext.input_eq, onward d m hd hm, hnext.wellFormed⟩

/-- **A repetition is the longest one, and ends.** A rule that answers and does not move back is
matched up to the first round that does not move, which is kept, or to the first failure. The number
of rounds is the least one after which that is so, and at most one more than the number of bits that
remain. A loop that is allowed fewer rounds is cut off, and for one that is allowed more it does not
matter how many. The match is that of as many rounds run one by one, and of a counted repetition if
there can be room for as many values. With one round required, a repetition fails exactly as the
rule does and is the same otherwise. -/
theorem parse_many_longest (cells : Cells) (rule : Rule) (c : Cursor) (hc : c.WellFormed)
    (answers : ∀ d, c.Ahead d → (rule.parse cells d).Answers)
    (onward : ∀ d m, c.Ahead d → (rule.parse cells d).outcome = .ok m →
      d.position ≤ m.next.position) :
    (∃ k m, IsLeast {k | (rule.parse cells).StopsAfter c k} k ∧ k ≤ c.remaining + 1 ∧
      (∀ j, j + 1 < k → ∃ b d, (rule.parse cells).afterRounds? j c = some b ∧
        (rule.parse cells).afterRounds? (j + 1) c = some d ∧ b.position < d.position) ∧
      (∀ rounds < k, (Parser.repeatWhile (rule.parse cells) rounds 0 c).outcome = .endless) ∧
      (∀ rounds > k, (Rule.many rule).parse cells c =
        Parser.repeatWhile (rule.parse cells) rounds 0 c >>= fun items => pure items.toMatch) ∧
      ((Rule.many rule).parse cells c).outcome = .ok m ∧
      (Parser.exactly (rule.parse cells) k c).outcome = .ok m ∧
      (k < Parser.capacity → ((Rule.times rule k).parse cells c).outcome = .ok m)) ∧
    (∀ e, ((Rule.many1 rule).parse cells c).outcome = .failed e ↔
      (rule.parse cells c).outcome = .failed e) ∧
    ((∀ e, (rule.parse cells c).outcome ≠ .failed e) →
      (Rule.many1 rule).parse cells c = (Rule.many rule).parse cells c) := by
  have ahead := ahead_of_onward onward
  rw [many_parse_eq cells rule hc, many1_parse_eq cells rule hc]
  refine ⟨?_, Parser.many1_failed_iff _ c, Parser.many1_eq_many⟩
  obtain ⟨ms, finish, hrep, hms⟩ := Parser.exists_repetition hc answers ahead
  refine ⟨ms.length, ⟨some (.sequence (Match.values ms)), finish⟩, hrep.isLeast, hms,
    fun j => hrep.advances hc ahead, fun rounds => hrep.repeatWhile_endless,
    fun rounds => hrep.many_eq hms, hrep.outcome_many hms, hrep.outcome_exactly, fun room => ?_⟩
  rw [times_parse_eq cells rule _ hc, Parser.times_of_lt _ room]
  exact hrep.outcome_exactly

/-- Two letters that may be missing, and a third round that does not move. -/
theorem parse_many_longest_letters :
    (∀ d, (⟨#[0x61, 0x61, 0x62], 0, {}⟩ : Cursor).Ahead d →
      ((Rule.optional (.byte 0x61)).parse .empty d).Answers) ∧
    (∀ d m, (⟨#[0x61, 0x61, 0x62], 0, {}⟩ : Cursor).Ahead d →
      ((Rule.optional (.byte 0x61)).parse .empty d).outcome = .ok m →
        d.position ≤ m.next.position) ∧
    ∃ k, IsLeast {k | ((Rule.optional (.byte 0x61)).parse .empty).StopsAfter
        ⟨#[0x61, 0x61, 0x62], 0, {}⟩ k} k ∧ k ≤ 25 ∧
      ((Rule.times (.optional (.byte 0x61)) k).parse .empty
        ⟨#[0x61, 0x61, 0x62], 0, {}⟩).outcome =
          .ok ⟨some (.sequence [.char 0x61, .char 0x61, .absent]),
            ⟨#[0x61, 0x61, 0x62], 16, {}⟩⟩ := by
  have letter : ∀ d : Cursor, d.WellFormed → ((Rule.byte 0x61).parse .empty).SettlesAt d :=
    fun d hd => Parser.settlesAt_leaf hd rfl (fun _ _ h => by cases h) _
  have answers : ∀ d, (⟨#[0x61, 0x61, 0x62], 0, {}⟩ : Cursor).Ahead d →
      ((Rule.optional (.byte 0x61)).parse .empty d).Answers := by
    intro d _
    rcases Permutation.answers_byte .empty 0x61 d with ⟨m, hm⟩ | ⟨e, he⟩
    · exact .inl ⟨m, Run.outcome_attempt_bind_ok hm⟩
    · exact .inl ⟨_, Run.outcome_attempt_bind_failed he⟩
  have onward : ∀ d m, (⟨#[0x61, 0x61, 0x62], 0, {}⟩ : Cursor).Ahead d →
      ((Rule.optional (.byte 0x61)).parse .empty d).outcome = .ok m →
        d.position ≤ m.next.position := fun d m hd hm =>
    ((Parser.settlesAt_optional hd.wellFormed (letter d hd.wellFormed)).of_ok hm).first_le
  obtain ⟨⟨k, m, least, hk, -, -, -, hmany, -, htimes⟩, -⟩ :=
    parse_many_longest .empty (.optional (.byte 0x61)) ⟨#[0x61, 0x61, 0x62], 0, {}⟩
      (Nat.zero_le _) answers onward
  have room : k < Parser.capacity := Nat.lt_of_le_of_lt hk (by decide)
  exact ⟨answers, onward, k, least, hk, (htimes room).trans (hmany.symm.trans rfl)⟩

end Rule

end BitGrammar
