import BitGrammar.Proofs.ChoiceLaws
import BitGrammar.Proofs.Permutation
import Mathlib.Algebra.Ring.Parity

/-!
# Exclusive or, and looking ahead

An exclusive or of two rules matches when exactly one of them does. Of several rules, joined two at
a time in any shape, it matches when an odd number of them do: what a part of the tree hands on is
whether it has matched, and not how many of its leaves have. The match is then one of a leaf.

Written out with negative lookahead, an exclusive or is a choice: the first rule where the second
one does not match, or the second one where the first one does not. And to look ahead twice for what
does not follow is to look ahead for what does.

## What decides the design

There are four cases for the outcomes of two rules that answer, and each parser of two rules has an
equation for each case. All laws compare equations, case by case, and only the law of parity needs
an induction, which is on the tree.

## Main definitions

* `ExclusiveTree`: rules joined by exclusive or, two at a time
* `Outcome.AgreesUpTo`: the same match, or two failures that are related

## Main results

* `ExclusiveTree.isOk_iff_odd`: a tree matches when an odd number of its leaves do
* `Rule.parse_exclusiveOr`: parity, negative lookahead, the order of the two rules, and double
  negation
-/

namespace BitGrammar

/-! ### Outcomes -/

/-- Two answers are the same match, or failures that have to do with each other. -/
inductive Outcome.AgreesUpTo {α : Type} (related : Failure → Failure → Prop) :
    Outcome α → Outcome α → Prop where
  | ok (a : α) : AgreesUpTo related (.ok a) (.ok a)
  | failed {e f : Failure} (h : related e f) : AgreesUpTo related (.failed e) (.failed f)

/-- True of a success. -/
def Outcome.isOk {α : Type} : Outcome α → Bool
  | .ok _ => true
  | _ => false

theorem Outcome.isOk_iff {α : Type} {o : Outcome α} : o.isOk = true ↔ ∃ a, o = .ok a := by
  cases o <;> simp [isOk]

namespace Parser

variable {p q : Parser} {c : Cursor} {m n : Match} {e f : Failure}

/-! ### Exclusive or, case by case -/

theorem outcome_exclusiveOr_of_ok_ok (hp : (p c).outcome = .ok m) (hq : (q c).outcome = .ok n) :
    (exclusiveOr p q c).outcome = .failed (c.rejection .bothMatched) := by
  rw [exclusiveOr, Run.outcome_attempt_bind_ok hp, Run.outcome_attempt_bind_ok hq]
  rfl

theorem outcome_exclusiveOr_of_ok_failed (hp : (p c).outcome = .ok m)
    (hq : (q c).outcome = .failed f) : (exclusiveOr p q c).outcome = .ok m := by
  rw [exclusiveOr, Run.outcome_attempt_bind_ok hp, Run.outcome_attempt_bind_failed hq]
  rfl

theorem outcome_exclusiveOr_of_failed_ok (hp : (p c).outcome = .failed e)
    (hq : (q c).outcome = .ok n) : (exclusiveOr p q c).outcome = .ok n := by
  rw [exclusiveOr, Run.outcome_attempt_bind_failed hp, Run.outcome_attempt_bind_ok hq]
  rfl

theorem outcome_exclusiveOr_of_failed_failed (hp : (p c).outcome = .failed e)
    (hq : (q c).outcome = .failed f) :
    (exclusiveOr p q c).outcome = .failed (e.furthest f) := by
  rw [exclusiveOr, Run.outcome_attempt_bind_failed hp, Run.outcome_attempt_bind_failed hq]
  rfl

/-! ### Looking ahead -/

/-- Where another parser does not match, one behind the test for it runs from the same cursor. -/
theorem outcome_guarded_of_failed (hq : (q c).outcome = .failed e) :
    (right (notFollowedBy q) p c).outcome = (p c).outcome :=
  Run.outcome_bind_ok (outcome_notFollowedBy_of_failed hq)

theorem outcome_guarded_of_ok (hq : (q c).outcome = .ok n) :
    (right (notFollowedBy q) p c).outcome = .failed (c.rejection .unexpectedMatch) :=
  Run.outcome_bind_failed (outcome_notFollowedBy_of_ok hq)

theorem outcome_notFollowedBy_eq_ok_iff : (notFollowedBy p c).outcome = .ok m ↔
    m = ⟨some .unit, c⟩ ∧ ∃ e, (p c).outcome = .failed e := by
  constructor
  · intro h
    rcases Run.Answers.of_attempt_bind (.inl ⟨m, h⟩) with ⟨n, hn⟩ | ⟨e, he⟩
    · rw [outcome_notFollowedBy_of_ok hn] at h
      cases h
    · rw [outcome_notFollowedBy_of_failed he] at h
      exact ⟨(Outcome.ok.inj h).symm, e, he⟩
  · rintro ⟨rfl, e, he⟩
    exact outcome_notFollowedBy_of_failed he

theorem exists_failed_notFollowedBy_iff :
    (∃ e, (notFollowedBy p c).outcome = .failed e) ↔ ∃ n, (p c).outcome = .ok n := by
  constructor
  · rintro ⟨e, h⟩
    rcases Run.Answers.of_attempt_bind (.inr ⟨e, h⟩) with ⟨n, hn⟩ | ⟨f, hf⟩
    · exact ⟨n, hn⟩
    · rw [outcome_notFollowedBy_of_failed hf] at h
      cases h
  · rintro ⟨n, hn⟩
    exact ⟨_, outcome_notFollowedBy_of_ok hn⟩

/-- **To look ahead twice for what does not follow** is to look ahead for what does. -/
theorem outcome_notFollowedBy_twice_eq_ok_iff :
    (notFollowedBy (notFollowedBy p) c).outcome = .ok m ↔ (followedBy p c).outcome = .ok m := by
  rw [outcome_notFollowedBy_eq_ok_iff, outcome_followedBy_eq_ok_iff,
    exists_failed_notFollowedBy_iff]

/-! ### Laws of exclusive or -/

/-- The four cases of two parsers that answer. -/
inductive BothAnswer (p q : Parser) (c : Cursor) : Prop where
  | okOk {m n : Match} (hp : (p c).outcome = .ok m) (hq : (q c).outcome = .ok n)
  | okFailed {m : Match} {f : Failure} (hp : (p c).outcome = .ok m) (hq : (q c).outcome = .failed f)
  | failedOk {e : Failure} {n : Match} (hp : (p c).outcome = .failed e) (hq : (q c).outcome = .ok n)
  | failedFailed {e f : Failure} (hp : (p c).outcome = .failed e) (hq : (q c).outcome = .failed f)

theorem bothAnswer (hp : (p c).Answers) (hq : (q c).Answers) : BothAnswer p q c := by
  rcases hp with ⟨m, hm⟩ | ⟨e, he⟩
  · rcases hq with ⟨n, hn⟩ | ⟨f, hf⟩
    · exact .okOk hm hn
    · exact .okFailed hm hf
  · rcases hq with ⟨n, hn⟩ | ⟨f, hf⟩
    · exact .failedOk he hn
    · exact .failedFailed he hf

theorem answers_exclusiveOr (hp : (p c).Answers) (hq : (q c).Answers) :
    (exclusiveOr p q c).Answers := by
  cases bothAnswer hp hq with
  | okOk hm hn => exact .inr ⟨_, outcome_exclusiveOr_of_ok_ok hm hn⟩
  | okFailed hm hf => exact .inl ⟨_, outcome_exclusiveOr_of_ok_failed hm hf⟩
  | failedOk he hn => exact .inl ⟨_, outcome_exclusiveOr_of_failed_ok he hn⟩
  | failedFailed he hf => exact .inr ⟨_, outcome_exclusiveOr_of_failed_failed he hf⟩

theorem isOk_exclusiveOr (hp : (p c).Answers) (hq : (q c).Answers) :
    (exclusiveOr p q c).outcome.isOk = ((p c).outcome.isOk ^^ (q c).outcome.isOk) := by
  cases bothAnswer hp hq with
  | okOk hm hn => rw [outcome_exclusiveOr_of_ok_ok hm hn, hm, hn]; rfl
  | okFailed hm hf => rw [outcome_exclusiveOr_of_ok_failed hm hf, hm, hf]; rfl
  | failedOk he hn => rw [outcome_exclusiveOr_of_failed_ok he hn, he, hn]; rfl
  | failedFailed he hf => rw [outcome_exclusiveOr_of_failed_failed he hf, he, hf]; rfl

/-- **The order of the two parsers** matters only for what a failure says. -/
theorem exclusiveOr_agrees_swap (hp : (p c).Answers) (hq : (q c).Answers) :
    (exclusiveOr p q c).outcome.AgreesUpTo (fun e f => e.position = f.position)
      (exclusiveOr q p c).outcome := by
  cases bothAnswer hp hq with
  | okOk hm hn =>
    rw [outcome_exclusiveOr_of_ok_ok hm hn, outcome_exclusiveOr_of_ok_ok hn hm]
    exact .failed rfl
  | okFailed hm hf =>
    rw [outcome_exclusiveOr_of_ok_failed hm hf, outcome_exclusiveOr_of_failed_ok hf hm]
    exact .ok _
  | failedOk he hn =>
    rw [outcome_exclusiveOr_of_failed_ok he hn, outcome_exclusiveOr_of_ok_failed hn he]
    exact .ok _
  | failedFailed he hf =>
    rw [outcome_exclusiveOr_of_failed_failed he hf, outcome_exclusiveOr_of_failed_failed hf he]
    refine .failed ?_
    rw [Failure.position_furthest, Failure.position_furthest, Nat.max_comm]

theorem outcome_choice_two (p q : Parser) (c : Cursor) :
    (choice [p, q] c).outcome = (p c).outcome.recover fun e =>
      (q c).outcome.recover fun f => .failed (e.furthest f) := by
  rw [choice, outcome_tryAll_cons]
  simp only [outcome_tryAll_cons]
  rfl

/-- **Exclusive or, written out with negative lookahead**, is a choice. -/
theorem exclusiveOr_agrees_choice (hp : (p c).Answers) (hq : (q c).Answers) :
    (exclusiveOr p q c).outcome.AgreesUpTo (fun _ _ => True)
      (choice [right (notFollowedBy q) p, right (notFollowedBy p) q] c).outcome := by
  rw [outcome_choice_two]
  cases bothAnswer hp hq with
  | okOk hm hn =>
    rw [outcome_exclusiveOr_of_ok_ok hm hn, outcome_guarded_of_ok hn, outcome_guarded_of_ok hm]
    exact .failed trivial
  | okFailed hm hf =>
    rw [outcome_exclusiveOr_of_ok_failed hm hf, outcome_guarded_of_failed hf, hm]
    exact .ok _
  | failedOk he hn =>
    rw [outcome_exclusiveOr_of_failed_ok he hn, outcome_guarded_of_ok hn,
      outcome_guarded_of_failed he, hn]
    exact .ok _
  | failedFailed he hf =>
    rw [outcome_exclusiveOr_of_failed_failed he hf, outcome_guarded_of_failed hf,
      outcome_guarded_of_failed he, he, hf]
    exact .failed trivial

end Parser

/-! ### Trees -/

/-- Rules joined by exclusive or, two at a time. -/
inductive ExclusiveTree where
  | leaf (rule : Rule)
  | node (first second : ExclusiveTree)

namespace ExclusiveTree

/-- The rule that a tree stands for. -/
def toRule : ExclusiveTree → Rule
  | .leaf rule => rule
  | .node first second => .exclusiveOr first.toRule second.toRule

/-- The rules at the leaves, from left to right. -/
def leaves : ExclusiveTree → List Rule
  | .leaf rule => [rule]
  | .node first second => first.leaves ++ second.leaves

variable {cells : Cells} {c : Cursor} {m : Match} {tree : ExclusiveTree}

theorem answers (h : ∀ leaf ∈ tree.leaves, (leaf.parse cells c).Answers) :
    (tree.toRule.parse cells c).Answers := by
  induction tree with
  | leaf rule => exact h rule (List.mem_singleton_self rule)
  | node first second ih ih' =>
    obtain ⟨hfirst, hsecond⟩ := List.forall_mem_append.mp h
    exact Parser.answers_exclusiveOr (ih hfirst) (ih' hsecond)

/-- **A tree matches when an odd number of its leaves do.** -/
theorem isOk_iff_odd (h : ∀ leaf ∈ tree.leaves, (leaf.parse cells c).Answers) :
    (tree.toRule.parse cells c).outcome.isOk = true ↔
      Odd (tree.leaves.countP fun leaf => (leaf.parse cells c).outcome.isOk) := by
  induction tree with
  | leaf rule =>
    rw [leaves, List.countP_singleton, toRule]
    cases (rule.parse cells c).outcome.isOk with
    | true => simp
    | false => simp
  | node first second ih ih' =>
    obtain ⟨hfirst, hsecond⟩ := List.forall_mem_append.mp h
    have both : ((Rule.exclusiveOr first.toRule second.toRule).parse cells c).outcome.isOk =
        ((first.toRule.parse cells c).outcome.isOk ^^ (second.toRule.parse cells c).outcome.isOk) :=
      Parser.isOk_exclusiveOr (answers hfirst) (answers hsecond)
    rw [toRule, both, leaves, List.countP_append, Nat.odd_add, ← Nat.not_odd_iff_even,
      ← ih hfirst, ← ih' hsecond]
    cases (first.toRule.parse cells c).outcome.isOk <;>
      cases (second.toRule.parse cells c).outcome.isOk <;> decide

/-- The match of a tree is that of a leaf. -/
theorem exists_leaf_of_ok (h : ∀ leaf ∈ tree.leaves, (leaf.parse cells c).Answers)
    (hm : (tree.toRule.parse cells c).outcome = .ok m) :
    ∃ leaf ∈ tree.leaves, (leaf.parse cells c).outcome = .ok m := by
  induction tree with
  | leaf rule => exact ⟨rule, List.mem_singleton_self rule, hm⟩
  | node first second ih ih' =>
    obtain ⟨hfirst, hsecond⟩ := List.forall_mem_append.mp h
    rcases Parser.ok_of_exclusiveOr hm with hm | hm
    · obtain ⟨leaf, hleaf, hmatch⟩ := ih hfirst hm
      exact ⟨leaf, List.mem_append_left _ hleaf, hmatch⟩
    · obtain ⟨leaf, hleaf, hmatch⟩ := ih' hsecond hm
      exact ⟨leaf, List.mem_append_right _ hleaf, hmatch⟩

end ExclusiveTree

/-! ### Rules -/

namespace Rule

/-- **Exclusive or counts parity, and is a choice by negative lookahead.** A tree of rules that
answer does so as well. It matches when an odd number of its leaves match from the cursor, and its
match is one of theirs. An exclusive or of two rules has the match of the choice of each of them
where the other one does not match, or both fail. In the other order it has the same match, or
both fail at one position. And what does not follow a cursor does not follow it exactly when
something follows, with nothing matched in either case. -/
theorem parse_exclusiveOr (cells : Cells) (c : Cursor) :
    (∀ tree : ExclusiveTree, (∀ leaf ∈ tree.leaves, (leaf.parse cells c).Answers) →
      (tree.toRule.parse cells c).Answers ∧
      ((∃ m, (tree.toRule.parse cells c).outcome = .ok m) ↔
        Odd (tree.leaves.countP fun leaf => (leaf.parse cells c).outcome.isOk)) ∧
      ∀ m, (tree.toRule.parse cells c).outcome = .ok m →
        ∃ leaf ∈ tree.leaves, (leaf.parse cells c).outcome = .ok m) ∧
    (∀ p q : Rule, (p.parse cells c).Answers → (q.parse cells c).Answers →
      ((Rule.exclusiveOr p q).parse cells c).outcome.AgreesUpTo (fun _ _ => True)
        ((Rule.choice [.right (.notFollowedBy q) p, .right (.notFollowedBy p) q]).parse cells
          c).outcome ∧
      ((Rule.exclusiveOr p q).parse cells c).outcome.AgreesUpTo
        (fun e f => e.position = f.position) ((Rule.exclusiveOr q p).parse cells c).outcome) ∧
    ∀ (p : Rule) (m : Match),
      (((Rule.notFollowedBy (.notFollowedBy p)).parse cells c).outcome = .ok m ↔
        ((Rule.followedBy p).parse cells c).outcome = .ok m) ∧
      (((Rule.followedBy p).parse cells c).outcome = .ok m ↔
        m = ⟨some .unit, c⟩ ∧ ∃ n, (p.parse cells c).outcome = .ok n) := by
  refine ⟨fun tree h => ⟨tree.answers h, ?_, fun m => tree.exists_leaf_of_ok h⟩,
    fun p q hp hq => ⟨?_, ?_⟩, fun p m => ⟨?_, ?_⟩⟩
  · rw [← Outcome.isOk_iff]
    exact tree.isOk_iff_odd h
  · exact Parser.exclusiveOr_agrees_choice hp hq
  · exact Parser.exclusiveOr_agrees_swap hp hq
  · exact Parser.outcome_notFollowedBy_twice_eq_ok_iff
  · exact Parser.outcome_followedBy_eq_ok_iff

/-- Three rules that all match two letters, or the first of them. -/
def threeMatches : ExclusiveTree :=
  .node (.leaf (.literal [0x61, 0x62])) (.node (.leaf (.byte 0x61)) (.leaf (.byteRange 0x61 0x7a)))

/-- All three leaves match, so that the tree does. Two of them by themselves do not. -/
theorem parse_exclusiveOr_threeMatches :
    (∀ leaf ∈ threeMatches.leaves, (leaf.parse .empty ⟨#[0x61, 0x62], 0, {}⟩).Answers) ∧
      (∃ m, (threeMatches.toRule.parse .empty ⟨#[0x61, 0x62], 0, {}⟩).outcome = .ok m) ∧
      ((Rule.exclusiveOr (.byte 0x61) (.byteRange 0x61 0x7a)).parse .empty
        ⟨#[0x61, 0x62], 0, {}⟩).outcome.AgreesUpTo (fun _ _ => True)
          ((Rule.choice [.right (.notFollowedBy (.byteRange 0x61 0x7a)) (.byte 0x61),
            .right (.notFollowedBy (.byte 0x61)) (.byteRange 0x61 0x7a)]).parse .empty
              ⟨#[0x61, 0x62], 0, {}⟩).outcome := by
  have answers : ∀ leaf ∈ threeMatches.leaves,
      (leaf.parse .empty ⟨#[0x61, 0x62], 0, {}⟩).Answers := by
    refine List.forall_mem_cons.mpr ⟨.inl ⟨_, rfl⟩, List.forall_mem_cons.mpr ⟨.inl ⟨_, rfl⟩, ?_⟩⟩
    exact List.forall_mem_singleton.mpr (.inl ⟨_, rfl⟩)
  obtain ⟨trees, pairs, -⟩ := parse_exclusiveOr .empty ⟨#[0x61, 0x62], 0, {}⟩
  obtain ⟨-, parity, -⟩ := trees threeMatches answers
  refine ⟨answers, parity.mpr ⟨1, rfl⟩, ?_⟩
  exact (pairs (.byte 0x61) (.byteRange 0x61 0x7a) (.inl ⟨_, rfl⟩) (.inl ⟨_, rfl⟩)).1

end Rule

end BitGrammar
