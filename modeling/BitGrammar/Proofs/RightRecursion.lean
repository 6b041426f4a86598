import BitGrammar.Proofs.ChoiceLaws
import BitGrammar.Proofs.DepthBound
import BitGrammar.Proofs.LongestRepetition
import BitGrammar.Proofs.Termination

/-!
# Recursion on the right

A repetition can be written with a reference to itself: a rule and the whole again, or nothing. For
a rule that yields a value and moves forward whenever it matches, that is the same repetition. Both
end in the same place, and where the one has a sequence of values, the other has them nested, each
in front of the nested values that follow it.

## What decides the design

A repetition of such a rule has no round that does not move, and there is one entry into the cell
for each round and one for the end. The induction is on the rounds, at a bound on the depth that
leaves room for all of them; that the bound of `Rule.parse` does so as well follows from the fact
that it takes nothing away. The rule itself runs alike at all these depths as it answers. It may
refer to whatever it likes.

## Main definitions

* `Rule.rightRecursion`: a rule and a reference, or nothing

## Main results

* `Rule.outcome_rightRecursion`: one entry into the cell for each round
* `Rule.parse_rightRecursion`: recursion on the right is repetition
-/

namespace BitGrammar

namespace Rule

variable {cells : Cells} {cell : Cell} {rule start : Rule} {c finish : Cursor} {ms : List Match}
  {m : Match} {depth : Nat}

/-- A rule and what a cell stands for, or nothing. -/
def rightRecursion (rule : Rule) (cell : Cell) : Rule :=
  .choice [.sequence [rule, .ref cell], .epsilon]

/-- Values in pairs, each with the pairs of those that follow it, and the unit behind the last. -/
def nestedPairs (values : List Value) : Value :=
  values.foldr (fun v rest => .sequence [v, rest]) .unit

/-- A rule that answers does so at every depth that is not below the bound. -/
theorem parseWithin_eq_parse (hc : c.WellFormed) (answers : (rule.parse cells c).Answers)
    (deep : depthBound cells c ≤ depth) : rule.parseWithin cells depth c = rule.parse cells c := by
  rcases parseWithin_mono cells deep rule hc with heq | hendless
  · exact heq.symm
  · rcases answers with ⟨m, hm⟩ | ⟨e, he⟩
    · exact absurd (hm.symm.trans hendless) nofun
    · exact absurd (he.symm.trans hendless) nofun

theorem parseWithin_rightRecursion (cells : Cells) (depth : Nat) (rule : Rule) (cell : Cell) :
    (rightRecursion rule cell).parseWithin cells depth =
      Parser.choice [Parser.sequence [rule.parseWithin cells depth,
        (Rule.ref cell).parseWithin cells depth], Parser.epsilon] := by
  have nothing : Rule.epsilon.parseWithin cells depth = Parser.epsilon := by cases depth <;> rfl
  rw [rightRecursion, parseWithin_choice]
  simp only [List.map_cons, List.map_nil, parseWithin_sequence, nothing]

/-- **One entry into the cell for each round.** The induction is on the rounds of the repetition. -/
theorem outcome_rightRecursion (bound : cells.target? cell = some (rightRecursion rule cell))
    (h : Parser.Repetition (rule.parse cells) c ms finish) (hc : c.WellFormed)
    (onward : ∀ d m, c.Ahead d → (rule.parse cells d).outcome = .ok m →
      m.value.isSome ∧ d.position < m.next.position)
    (deep : depthBound cells c + ms.length ≤ depth) :
    ((rightRecursion rule cell).parseWithin cells depth c).outcome =
      .ok ⟨some (nestedPairs (Match.values ms)), finish⟩ := by
  induction h generalizing depth with
  | @failed c e failure =>
    have first : (rule.parseWithin cells depth c).outcome = .failed e := by
      rw [parseWithin_eq_parse hc (.inr ⟨e, failure⟩) deep, failure]
    rw [parseWithin_rightRecursion]
    refine Parser.outcome_choice_epsilon_failed (e := e) ?_
    rw [Parser.outcome_sequence_pair, first]
    rfl
  | @stalled c m matched stalls =>
    exact absurd stalls (Nat.ne_of_gt (onward c m hc.ahead matched).2)
  | @moved c finish m ms matched moves _ ih =>
    obtain ⟨hvalue, hlt⟩ := onward c m hc.ahead matched
    obtain ⟨v, hv⟩ := Option.isSome_iff_exists.mp hvalue
    have there : c.Ahead m.next :=
      ahead_of_onward (fun d n hd hn => Nat.le_of_lt (onward d n hd hn).2) c m hc.ahead matched
    have same : depthBound cells m.next = depthBound cells c := depthBound_eq cells there.input_eq
    -- the round uses up one entry into the cell, and the rounds behind it are one fewer
    rw [List.length_cons] at deep
    obtain ⟨inner, rfl⟩ : ∃ inner, depth = inner + 1 := ⟨depth - 1, by omega⟩
    have first : (rule.parseWithin cells (inner + 1) c).outcome = .ok m := by
      rw [parseWithin_eq_parse hc (.inl ⟨m, matched⟩) (by omega), matched]
    have rest : ((Rule.ref cell).parseWithin cells (inner + 1) m.next).outcome =
        .ok ⟨some (nestedPairs (Match.values ms)), finish⟩ := by
      rw [parseWithin_ref bound]
      exact ih there.wellFormed (fun d n hd => onward d n (there.trans hd)) (by omega)
    rw [parseWithin_rightRecursion]
    refine Parser.outcome_choice_epsilon_ok ?_
    rw [Parser.outcome_sequence_pair, first, Outcome.bind, rest, Outcome.map, Match.pair, hv]
    simp [Match.values, nestedPairs, hv]

/-- **Recursion on the right is repetition.** A rule that answers, and yields a value and moves
forward when it matches, is matched by the recursion as often as by the repetition. Neither fails,
both end in the same place, and the values are nested in the one and in sequence in the other. The
recursion can be started at itself or at a reference to it. -/
theorem parse_rightRecursion (cells : Cells) (cell : Cell) (rule start : Rule) (c : Cursor)
    (bound : cells.target? cell = some (rightRecursion rule cell))
    (hs : start = rightRecursion rule cell ∨ start = .ref cell) (hc : c.WellFormed)
    (answers : ∀ d, c.Ahead d → (rule.parse cells d).Answers)
    (onward : ∀ d m, c.Ahead d → (rule.parse cells d).outcome = .ok m →
      m.value.isSome ∧ d.position < m.next.position) :
    ∃ values finish,
      ((Rule.many rule).parse cells c).outcome = .ok ⟨some (.sequence values), finish⟩ ∧
      (start.parse cells c).outcome = .ok ⟨some (nestedPairs values), finish⟩ := by
  have ahead := ahead_of_onward fun d m hd hm => Nat.le_of_lt (onward d m hd hm).2
  obtain ⟨ms, finish, hrep, hms⟩ := Parser.exists_repetition hc answers ahead
  have recursion : ∀ depth, depthBound cells c + ms.length ≤ depth →
      ((rightRecursion rule cell).parseWithin cells depth c).outcome =
        .ok ⟨some (nestedPairs (Match.values ms)), finish⟩ :=
    fun depth deep => outcome_rightRecursion bound hrep hc onward deep
  have started : (start.parseWithin cells (depthBound cells c + ms.length + 1) c).outcome =
      .ok ⟨some (nestedPairs (Match.values ms)), finish⟩ := by
    rcases hs with rfl | rfl
    · exact recursion _ (Nat.le_succ _)
    · rw [parseWithin_ref bound]
      exact recursion _ (Nat.le_refl _)
  have ends : (start.parseWithin cells (depthBound cells c + ms.length + 1) c).outcome ≠
      .endless := by
    rw [started]
    exact nofun
  refine ⟨Match.values ms, finish, ?_, ?_⟩
  · rw [many_parse_eq cells rule hc]
    exact hrep.outcome_many hms
  · rw [parse_eq_parseWithin hc ends, started]

/-- Letters, one in front of the others. -/
def letters : Cells where
  count := 1
  bindings := [(⟨0⟩, rightRecursion (.byte 0x61) ⟨0⟩)]

theorem onward_byte (cells : Cells) (b : UInt8) (hc : c.WellFormed)
    (hm : ((Rule.byte b).parse cells c).outcome = .ok m) :
    m.value.isSome ∧ c.position < m.next.position := by
  refine ⟨?_, consumes_byte cells b c m hc hm⟩
  obtain ⟨next, -, rfl⟩ := Parser.outcome_byte_eq_ok_iff.mp hm
  rfl

/-- Two letters and something else behind them. -/
theorem parse_rightRecursion_letters :
    letters.target? ⟨0⟩ = some (rightRecursion (.byte 0x61) ⟨0⟩) ∧
    (∀ d, (⟨#[0x61, 0x61, 0x62], 0, {}⟩ : Cursor).Ahead d →
      ((Rule.byte 0x61).parse letters d).Answers) ∧
    (∀ d m, (⟨#[0x61, 0x61, 0x62], 0, {}⟩ : Cursor).Ahead d →
      ((Rule.byte 0x61).parse letters d).outcome = .ok m →
        m.value.isSome ∧ d.position < m.next.position) ∧
    ((Rule.ref ⟨0⟩).parse letters ⟨#[0x61, 0x61, 0x62], 0, {}⟩).outcome =
      .ok ⟨some (.sequence [.char 0x61, .sequence [.char 0x61, .unit]]),
        ⟨#[0x61, 0x61, 0x62], 16, {}⟩⟩ := by
  have bound : letters.target? ⟨0⟩ = some (rightRecursion (.byte 0x61) ⟨0⟩) := rfl
  have answers : ∀ d, (⟨#[0x61, 0x61, 0x62], 0, {}⟩ : Cursor).Ahead d →
      ((Rule.byte 0x61).parse letters d).Answers :=
    fun d _ => Permutation.answers_byte letters 0x61 d
  have onward : ∀ d m, (⟨#[0x61, 0x61, 0x62], 0, {}⟩ : Cursor).Ahead d →
      ((Rule.byte 0x61).parse letters d).outcome = .ok m →
        m.value.isSome ∧ d.position < m.next.position :=
    fun d m hd hm => onward_byte letters 0x61 hd.wellFormed hm
  obtain ⟨values, finish, hmany, hrecursion⟩ := parse_rightRecursion letters ⟨0⟩ (.byte 0x61)
    (.ref ⟨0⟩) ⟨#[0x61, 0x61, 0x62], 0, {}⟩ bound (.inr rfl) (Nat.zero_le _) answers onward
  have repeated : (⟨some (.sequence [.char 0x61, .char 0x61]), ⟨#[0x61, 0x61, 0x62], 16, {}⟩⟩ :
      Match) = ⟨some (.sequence values), finish⟩ := Outcome.ok.inj hmany
  cases repeated
  exact ⟨bound, answers, onward, hrecursion⟩

end Rule

end BitGrammar
