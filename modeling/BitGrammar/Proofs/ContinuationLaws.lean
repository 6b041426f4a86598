import BitGrammar.Proofs.ChoiceLaws

/-!
# Rules that are chosen by values

A continuation chooses the rule that goes on behind a match by the value of the match. Two
continuations can be put together in two ways: the second one behind the whole of the first, or
around every rule that the first one chooses. Both run the same parsers from the same cursors with
the same values. They differ in one thing only. When the second continuation rejects a value, the
failure is where the rule in front of it started, and this is the first rule or the chosen one.

## What decides the design

That one thing is made a parameter. `Parser.goOn` is what a continuation does with a match, and gets
the place of its failures as an argument of its own. Then both ways of putting two continuations
together are one term with two different places in it (`Parser.andThen_andThen`), by the laws of
runs alone, and it remains to say when a place matters (`Parser.goOn_eq`).

The value of a match is passed on as `Match.shown`, so that an elided one counts as `Value.unit` for
either continuation.

## Main definitions

* `Parser.goOn`: what a continuation does with a match
* `Rule.RejectsBehind`: the second of two continuations rejects a value

## Main results

* `Parser.andThen_andThen`: one continuation behind another as a continuation of the first
* `Rule.parse_andThen`: continuations are associative up to the place of one failure
-/

namespace BitGrammar

namespace Parser

variable {name name' : Option String} {choose next : Value → Option Parser} {p : Parser}
  {c d : Cursor} {m : Match}

/-- Goes on behind a match with the parser that is chosen by its value, or fails at some place. -/
def goOn (name : Option String) (choose : Value → Option Parser) (start : Cursor) (m : Match) :
    Run Match := do
  recordCall .continuation name m.shown
  match choose m.shown with
  | some q => q m.next
  | none => Run.fail (start.rejection (.noContinuation m.shown))

theorem andThen_eq (name : Option String) (choose : Value → Option Parser) (p : Parser)
    (c : Cursor) : andThen name choose p c = p c >>= goOn name choose c :=
  rfl

/-- **The place matters for a rejected value only.** -/
theorem goOn_eq (h : choose m.shown ≠ none) (c d : Cursor) :
    goOn name choose c m = goOn name choose d m := by
  obtain ⟨q, hq⟩ := Option.ne_none_iff_exists'.mp h
  rw [goOn, goOn, hq]

/-- Whatever follows a continuation follows every parser that it chooses. -/
theorem goOn_bind (f : Match → Run Match) : goOn name choose c m >>= f =
    goOn name (fun v => (choose v).map fun q d => q d >>= f) c m := by
  rw [goOn, goOn, Run.bind_assoc]
  refine congrArg _ (funext fun _ => ?_)
  cases choose m.shown with
  | some q => rfl
  | none => rfl

/-- Parsers that are put around a chosen one matter for how it runs behind the match. -/
theorem goOn_map_congr {around around' : Parser → Parser}
    (h : ∀ q, choose m.shown = some q → around q m.next = around' q m.next) :
    goOn name (fun v => (choose v).map around) c m =
      goOn name (fun v => (choose v).map around') c m := by
  rw [goOn, goOn]
  refine congrArg _ (funext fun _ => ?_)
  cases hq : choose m.shown with
  | some q => exact h q hq
  | none => rfl

/-- **One continuation behind another**, as a continuation of the first parser. Its failures are
where the first parser started. -/
theorem andThen_andThen : andThen name' next (andThen name choose p) c =
    andThen name (fun v => (choose v).map fun q d => q d >>= goOn name' next c) p c := by
  rw [andThen_eq, andThen_eq, andThen_eq, Run.bind_assoc]
  exact congrArg _ (funext fun m => goOn_bind (goOn name' next c))

/-- Where the second continuation rejects no value, the two ways are one. -/
theorem andThen_assoc (accepts : ∀ m q n, (p c).outcome = .ok m → choose m.shown = some q →
      (q m.next).outcome = .ok n → next n.shown ≠ none) :
    andThen name' next (andThen name choose p) c =
      andThen name (fun v => (choose v).map (andThen name' next)) p c := by
  rw [andThen_andThen, andThen_eq, andThen_eq]
  refine Run.bind_congr_of_outcome fun m hm => goOn_map_congr fun q hq => ?_
  rw [andThen_eq]
  exact Run.bind_congr_of_outcome fun n hn => goOn_eq (accepts m q n hm hq hn) c m.next

/-- Where the second continuation rejects a value, the two ways fail at different places. -/
theorem outcome_andThen_of_rejected {q : Parser} {n : Match} (hm : (p c).outcome = .ok m)
    (hq : choose m.shown = some q) (hn : (q m.next).outcome = .ok n)
    (hnone : next n.shown = none) :
    (andThen name' next (andThen name choose p) c).outcome =
      .failed (c.rejection (.noContinuation n.shown)) ∧
    (andThen name (fun v => (choose v).map (andThen name' next)) p c).outcome =
      .failed (m.next.rejection (.noContinuation n.shown)) := by
  have first : (andThen name choose p c).outcome = .ok n :=
    (outcome_andThen_of_ok hm hq).trans hn
  have around : (choose m.shown).map (andThen name' next) = some (andThen name' next q) :=
    congrArg _ hq
  refine ⟨outcome_andThen_of_none first hnone, ?_⟩
  rw [outcome_andThen_of_ok hm around, outcome_andThen_of_none hn hnone]

/-- A continuation that does not look at the value is the second of two parsers in order. -/
theorem outcome_right_eq (p q : Parser) (c : Cursor) :
    (right p q c).outcome = (andThen name (fun _ => some q) p c).outcome := by
  rw [right, andThen, Run.outcome_bind, Run.outcome_bind]
  refine congrArg _ (funext fun m => ?_)
  rw [outcome_recordCall_bind]

end Parser

namespace Rule

variable {cells : Cells} {rule : Rule} {choose next : Value → Option Rule} {c : Cursor}
  {m n : Match}

/-- Behind a match, a rule runs as it does by itself. -/
theorem parse_next_eq (hc : c.WellFormed) (hm : (rule.parse cells c).outcome = .ok m)
    (chosen : Rule) :
    chosen.parse cells m.next = chosen.parseWithin cells (depthBound cells c) m.next := by
  obtain ⟨within, -⟩ := within_of_parse (hc.within (Nat.zero_le _)) hm
  rw [parse, depthBound_eq cells within.input_eq]

/-- The first of two continuations chooses a rule, and the second one rejects its value. -/
def RejectsBehind (cells : Cells) (rule : Rule) (choose next : Value → Option Rule) (c : Cursor)
    (m n : Match) : Prop :=
  (rule.parse cells c).outcome = .ok m ∧ ∃ chosen, choose m.shown = some chosen ∧
    (chosen.parse cells m.next).outcome = .ok n ∧ next n.shown = none

/-- **Continuations are associative up to the place of one failure.** One continuation behind
another, and one around every rule that the other chooses, are the same run from every cursor: the
same match, the same failure, the same misuse, or none of these. The exception is that the second
continuation rejects the value of the chosen rule. Both then fail for this one reason, the first
where the first rule started and the second where the chosen one did. And to keep the second of two
matches in order is to continue with it whatever the first value is. -/
theorem parse_andThen (cells : Cells) (rule : Rule) (choose next : Value → Option Rule)
    (name name' : Option String) (c : Cursor) (hc : c.WellFormed) :
    (∀ m n, RejectsBehind cells rule choose next c m n →
      ((Rule.andThen name' next (.andThen name choose rule)).parse cells c).outcome =
        .failed (c.rejection (.noContinuation n.shown)) ∧
      ((Rule.andThen name (fun v => (choose v).map (.andThen name' next)) rule).parse
        cells c).outcome = .failed (m.next.rejection (.noContinuation n.shown))) ∧
    ((∀ m n, ¬ RejectsBehind cells rule choose next c m n) →
      (Rule.andThen name' next (.andThen name choose rule)).parse cells c =
        (Rule.andThen name (fun v => (choose v).map (.andThen name' next)) rule).parse cells c) ∧
    ∀ second : Rule, ((Rule.right rule second).parse cells c).outcome =
      ((Rule.andThen name (fun _ => some second) rule).parse cells c).outcome := by
  -- both ways in terms of parsers, at one depth
  have behind : (Rule.andThen name' next (.andThen name choose rule)).parse cells c =
      Parser.andThen name' (fun v => (next v).map (parseWithin cells (depthBound cells c)))
        (Parser.andThen name (fun v => (choose v).map (parseWithin cells (depthBound cells c)))
          (rule.parseWithin cells (depthBound cells c))) c := by
    rw [parse, parseWithin_andThen, parseWithin_andThen]
  have around : (Rule.andThen name (fun v => (choose v).map (.andThen name' next)) rule).parse
      cells c = Parser.andThen name (fun v => ((choose v).map
          (parseWithin cells (depthBound cells c))).map (Parser.andThen name' fun v =>
            (next v).map (parseWithin cells (depthBound cells c))))
        (rule.parseWithin cells (depthBound cells c)) c := by
    rw [parse, parseWithin_andThen]
    simp only [Option.map_map, Function.comp_def, parseWithin_andThen]
  rw [behind, around]
  refine ⟨?_, fun accepts => ?_, fun second => ?_⟩
  · rintro m n ⟨hm, chosen, hchosen, hn, hnone⟩
    rw [parse_next_eq hc hm] at hn
    exact Parser.outcome_andThen_of_rejected hm (congrArg (Option.map _) hchosen) hn
      (congrArg (Option.map _) hnone)
  · refine Parser.andThen_assoc fun m q n hm hq hn hnone => ?_
    obtain ⟨chosen, hchosen, rfl⟩ := Option.map_eq_some_iff.mp hq
    rw [← parse_next_eq hc hm] at hn
    exact accepts m n ⟨hm, chosen, hchosen, hn, Option.map_eq_none_iff.mp hnone⟩
  · exact Parser.outcome_right_eq _ _ c

/-- Two letters whose values are elided. The first continuation chooses the second letter, and the
second one rejects what that yields. -/
theorem parse_andThen_elided :
    Cursor.WellFormed ⟨#[0x61, 0x62], 0, {}⟩ ∧
    ((Rule.andThen none (fun _ => none) (.andThen none (fun _ => some (.ignore (.byte 0x62)))
      (.ignore (.byte 0x61)))).parse .empty ⟨#[0x61, 0x62], 0, {}⟩).outcome =
        .failed ⟨.rejection (.noContinuation .unit), ⟨#[0x61, 0x62], 0⟩⟩ ∧
    ((Rule.andThen none (fun _ => some (.andThen none (fun _ => none) (.ignore (.byte 0x62))))
      (.ignore (.byte 0x61))).parse .empty ⟨#[0x61, 0x62], 0, {}⟩).outcome =
        .failed ⟨.rejection (.noContinuation .unit), ⟨#[0x61, 0x62], 8⟩⟩ :=
  have start : Cursor.WellFormed ⟨#[0x61, 0x62], 0, {}⟩ := Nat.zero_le _
  ⟨start, (parse_andThen .empty (.ignore (.byte 0x61)) (fun _ => some (.ignore (.byte 0x62)))
    (fun _ => none) none none ⟨#[0x61, 0x62], 0, {}⟩ start).1
      ⟨none, ⟨#[0x61, 0x62], 8, {}⟩⟩ ⟨none, ⟨#[0x61, 0x62], 16, {}⟩⟩
      ⟨rfl, .ignore (.byte 0x62), rfl, rfl, rfl⟩⟩

end Rule

end BitGrammar
