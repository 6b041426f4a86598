import BitGrammar.Proofs.LongestRepetition

/-!
# Lists with separators

A list with separators is a first item and then a repetition of pairs, each of a separator and an
item behind it. The loop for the list is not the loop for repetitions, but round for round it does
the same, and leaves the same records. So what is known of repetitions holds of lists: a pair that
does not move is kept and is the last one, and a pair of which the item does not match is not taken,
so that its separator is left alone.

## Main definitions

* `Parser.ListEnd`: the ways in which a list ends

## Main results

* `Parser.furtherItems_eq`: the items behind the first one are a repetition of pairs
* `Rule.parse_sepBy`: a list is an item and a repetition of pairs
-/

namespace BitGrammar

namespace Parser

variable {item separator : Parser} {c finish : Cursor} {m : Match} {ms : List Match}

/-! ### The loop -/

/-- **The items behind the first one are a repetition of pairs**, records included. -/
theorem furtherItems_eq (item separator : Parser) (rounds : Nat) (c : Cursor) :
    furtherItems item separator rounds c = repeatWhile (right separator item) rounds 0 c := by
  induction rounds generalizing c with
  | zero => rfl
  | succ rounds ih =>
    rw [furtherItems, repeatWhile, right]
    generalize separator c = x
    obtain ⟨t, o⟩ := x
    cases o with
    | ok between =>
      simp only [Run.attempt_ok, Run.bind_ok]
      generalize item between.next = y
      obtain ⟨u, o⟩ := y
      cases o with
      | ok m =>
        simp only [Run.attempt_ok, Run.bind_ok, ih]
        rw [List.append_assoc]
      | failed e =>
        -- the separator has matched, but the pair has not, and both loops end in front of it
        exact Run.ext (List.append_assoc _ _ _).symm rfl
      | misused what => rfl
      | endless => rfl
    | failed e => rfl
    | misused what => rfl
    | endless => rfl

/-- A list that has a first item is that item and a repetition of pairs. -/
theorem separated_of_ok (required : Bool) (matched : (item c).outcome = .ok m) :
    separated required item separator c =
      let loop := repeatWhile (right separator item) (m.next.positions + 1) 0 m.next
      ⟨(item c).trace ++ loop.trace, loop.outcome.map fun items => (m.consTo items).toMatch⟩ := by
  rw [separated, Run.attempt_bind_of_ok matched]
  simp only [furtherItems_eq, bind_pure_comp, Run.map_eq]

/-- Without a first item there is nothing else to a list. -/
theorem separated_of_failed {e : Failure} (required : Bool)
    (failure : (item c).outcome = .failed e) : separated required item separator c =
      ⟨(item c).trace, if required then .failed e else .ok ⟨some (.sequence []), c⟩⟩ := by
  rw [separated, Run.attempt_bind_of_failed failure]
  cases required <;> exact Run.ext (List.append_nil _) rfl

/-- A list fails only where an item is required and missing. -/
theorem failed_of_separated {e : Failure} {required : Bool}
    (h : (separated required item separator c).outcome = .failed e) :
    (item c).outcome = .failed e := by
  have answers : (item c).Answers := by
    rw [separated] at h
    exact .of_attempt_bind (.inr ⟨e, h⟩)
  rcases answers with ⟨m, hm⟩ | ⟨f, hf⟩
  · rw [separated_of_ok required hm] at h
    cases hloop : (repeatWhile (right separator item) (m.next.positions + 1) 0 m.next).outcome with
    | failed f => exact absurd hloop (repeatWhile_ne_failed _ _ _ f)
    | _ =>
      dsimp only at h
      rw [hloop] at h
      cases h
  · rw [separated_of_failed required hf] at h
    cases required with
    | false => cases h
    | true => rwa [hf]

/-! ### The end of a list -/

/-- A list ends where no separator comes, in front of a separator that no item follows, or behind a
separator and an item that do not move. Those are kept, as the last ones. -/
inductive ListEnd (item separator : Parser) (ms : List Match) (finish : Cursor) : Prop where
  | noSeparator {e : Failure} (failure : (separator finish).outcome = .failed e)
  | noItem {between : Match} {e : Failure} (matched : (separator finish).outcome = .ok between)
    (failure : (item between.next).outcome = .failed e)
  | stalled {before : List Match} {between last : Match} {d : Cursor} (kept : ms = before ++ [last])
    (matched : (separator d).outcome = .ok between)
    (follows : (item between.next).outcome = .ok last) (ends : last.next = finish)
    (stalls : finish.position = d.position)

theorem Repetition.listEnd (h : Repetition (right separator item) c ms finish) :
    ListEnd item separator ms finish := by
  rcases h.ends with ⟨e, he⟩ | ⟨before, d, last, rfl, hlast, hfinish, stalls⟩
  · rcases Run.failed_of_bind he with hseparator | ⟨between, hbetween, hitem⟩
    · exact .noSeparator hseparator
    · exact .noItem hbetween hitem
  · obtain ⟨between, hbetween, hitem⟩ := Run.ok_of_bind hlast
    exact .stalled rfl hbetween hitem hfinish stalls

end Parser

/-! ### Rules -/

namespace Rule

variable {cells : Cells} {item separator : Rule} {c : Cursor}

theorem sepBy_parse_eq (cells : Cells) (item separator : Rule) (hc : c.WellFormed) :
    (Rule.sepBy item separator).parse cells c =
      Parser.sepBy (item.parse cells) (separator.parse cells) c := by
  show Parser.sepBy (item.parseWithin cells (depthBound cells c))
    (separator.parseWithin cells (depthBound cells c)) c = _
  exact eq_of_related (.sepBy (related_parse cells item c) (related_parse cells separator c)) hc

theorem sepBy1_parse_eq (cells : Cells) (item separator : Rule) (hc : c.WellFormed) :
    (Rule.sepBy1 item separator).parse cells c =
      Parser.sepBy1 (item.parse cells) (separator.parse cells) c := by
  show Parser.sepBy1 (item.parseWithin cells (depthBound cells c))
    (separator.parseWithin cells (depthBound cells c)) c = _
  exact eq_of_related (.sepBy1 (related_parse cells item c) (related_parse cells separator c)) hc

theorem many_right_parse_eq (cells : Cells) (item separator : Rule) (hc : c.WellFormed) :
    (Rule.many (.right separator item)).parse cells c =
      Parser.many (Parser.right (separator.parse cells) (item.parse cells)) c := by
  show Parser.many (Parser.right (separator.parseWithin cells (depthBound cells c))
    (item.parseWithin cells (depthBound cells c))) c = _
  exact eq_of_related (.many (.right (related_parse cells separator c)
    (related_parse cells item c))) hc

/-- **A list is an item and a repetition of pairs**, each of a separator and an item behind it. It
fails, where one item is required, as the first item does, and is empty without it otherwise. Behind
a first item it answers where the repetition does, with the same end and records and the value of
the first item, unless it is elided, in front of the others. -/
theorem parse_sepBy (cells : Cells) (item separator : Rule) (c : Cursor) (hc : c.WellFormed) :
    (∀ e, ((Rule.sepBy1 item separator).parse cells c).outcome = .failed e ↔
      (item.parse cells c).outcome = .failed e) ∧
    (∀ e, (item.parse cells c).outcome = .failed e →
      (Rule.sepBy1 item separator).parse cells c = item.parse cells c ∧
      (Rule.sepBy item separator).parse cells c =
        ⟨(item.parse cells c).trace, .ok ⟨some (.sequence []), c⟩⟩) ∧
    ∀ m, (item.parse cells c).outcome = .ok m →
      (Rule.sepBy1 item separator).parse cells c = (Rule.sepBy item separator).parse cells c ∧
      (((Rule.sepBy item separator).parse cells c).Answers ↔
        ((Rule.many (.right separator item)).parse cells m.next).Answers) ∧
      (((Rule.many (.right separator item)).parse cells m.next).Answers →
        ∃ pairs finish,
          Parser.Repetition (Parser.right (separator.parse cells) (item.parse cells)) m.next pairs
            finish ∧
          Parser.ListEnd (item.parse cells) (separator.parse cells) pairs finish ∧
          ((Rule.many (.right separator item)).parse cells m.next).outcome =
            .ok ⟨some (.sequence (Match.values pairs)), finish⟩ ∧
          (Rule.sepBy item separator).parse cells c =
            ⟨(item.parse cells c).trace ++
                ((Rule.many (.right separator item)).parse cells m.next).trace,
              .ok ⟨some (.sequence (m.value.toList ++ Match.values pairs)),
                finish⟩⟩) := by
  rw [sepBy_parse_eq cells item separator hc, sepBy1_parse_eq cells item separator hc]
  refine ⟨fun e => ⟨Parser.failed_of_separated, fun he => ?_⟩, fun e he => ⟨?_, ?_⟩, fun m hm => ?_⟩
  · rw [Parser.sepBy1, Parser.separated_of_failed true he, if_pos rfl]
  · rw [Parser.sepBy1, Parser.separated_of_failed true he]
    exact Run.ext rfl he.symm
  · exact Parser.separated_of_failed false he
  have there : m.next.WellFormed := (within_of_parse (hc.within (Nat.zero_le _)) hm).1.wellFormed
  rw [many_right_parse_eq cells item separator there, Parser.sepBy, Parser.sepBy1,
    Parser.separated_of_ok true hm, Parser.separated_of_ok false hm]
  refine ⟨rfl, ?_, fun answers => ?_⟩
  · rw [Parser.many_eq]
    exact (Run.answers_map _ _).trans (Run.answers_map _ _).symm
  · rw [Parser.many_eq] at answers ⊢
    obtain ⟨pairs, finish, hrep, hloop⟩ :=
      Parser.exists_repetition_of_answers ((Run.answers_map _ _).mp answers)
    dsimp only
    rw [hloop]
    exact ⟨pairs, finish, hrep, hrep.listEnd, rfl, rfl⟩

/-- Two letters with a comma between them, and a comma that no letter follows. -/
theorem parse_sepBy_letters :
    ((Rule.byte 0x61).parse .empty ⟨#[0x61, 0x2c, 0x61, 0x2c, 0x62], 0, {}⟩).outcome =
      .ok ⟨some (.char 0x61), ⟨#[0x61, 0x2c, 0x61, 0x2c, 0x62], 8, {}⟩⟩ ∧
    ∃ pairs, Parser.ListEnd ((Rule.byte 0x61).parse .empty) ((Rule.byte 0x2c).parse .empty) pairs
        ⟨#[0x61, 0x2c, 0x61, 0x2c, 0x62], 24, {}⟩ ∧
      ((Rule.sepBy (.byte 0x61) (.byte 0x2c)).parse .empty
        ⟨#[0x61, 0x2c, 0x61, 0x2c, 0x62], 0, {}⟩).outcome =
          .ok ⟨some (.sequence (.char 0x61 :: Match.values pairs)),
            ⟨#[0x61, 0x2c, 0x61, 0x2c, 0x62], 24, {}⟩⟩ := by
  have first : ((Rule.byte 0x61).parse .empty ⟨#[0x61, 0x2c, 0x61, 0x2c, 0x62], 0, {}⟩).outcome =
      .ok ⟨some (.char 0x61), ⟨#[0x61, 0x2c, 0x61, 0x2c, 0x62], 8, {}⟩⟩ := rfl
  obtain ⟨-, -, behind⟩ := parse_sepBy .empty (.byte 0x61) (.byte 0x2c)
    ⟨#[0x61, 0x2c, 0x61, 0x2c, 0x62], 0, {}⟩ (Nat.zero_le _)
  obtain ⟨-, -, list⟩ := behind _ first
  obtain ⟨pairs, finish, -, hend, hmany, hlist⟩ := list (.inl ⟨_, rfl⟩)
  obtain rfl : (⟨#[0x61, 0x2c, 0x61, 0x2c, 0x62], 24, {}⟩ : Cursor) = finish :=
    congrArg Match.next (Outcome.ok.inj hmany)
  exact ⟨first, pairs, hend, congrArg Run.outcome hlist⟩

end Rule

end BitGrammar
