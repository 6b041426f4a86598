import BitGrammar.Proofs.FurthestFailure
import BitGrammar.Proofs.RecordLevels

/-!
# Choices regrouped and factored

Grammars are tidied up in two ways. A choice among the alternatives of another one is written out in
its place, which also makes every grouping of a chain of alternatives the same flat choice. And a
first part that all alternatives share is written once, in front of the choice. Neither changes the
outcome: the match, the failure, the misuse and the lack of an end stay what they were.

The records change. A choice inside another one counts its alternatives anew, and an alternative
that was run several times for its first part is run once.

## What decides the design

A choice hands its failures on to the alternatives behind it. What it does with a failure is the
same for all of them, so that outcomes of choices are put together by `Outcome.recover`, and
regrouping is the associativity of `recover`. That the failure kept is the same as well is the
associativity of `Failure.furthest`.

Both laws need an alternative. A choice without one fails at the cursor it is started from, and that
failure gets in the way of others, or lies behind the shared first part.

## Main definitions

* `Outcome.recover`: what a failure gives way to
* `Rule.Chain`: choices of two in any grouping, and the alternatives that they are put together from

## Main results

* `Parser.outcome_choice_flatten`: a choice inside a choice is written out
* `Parser.outcome_sequence_choice`: a shared first part is written once
* `Rule.parse_choice_regrouped`: both for rules, together with chains of alternatives
-/

namespace BitGrammar

/-! ### Outcomes one after another -/

namespace Outcome

variable {α β : Type}

/-- Puts something else in the place of a failure. Other outcomes stay. -/
def recover (o : Outcome α) (f : Failure → Outcome α) : Outcome α :=
  match o with
  | .failed e => f e
  | o => o

/-- Goes on with the result of a success. Other outcomes stay. -/
def bind (o : Outcome α) (f : α → Outcome β) : Outcome β :=
  match o with
  | .ok a => f a
  | .failed e => .failed e
  | .misused m => .misused m
  | .endless => .endless

theorem recover_recover (o : Outcome α) (f g : Failure → Outcome α) :
    (o.recover f).recover g = o.recover fun e => (f e).recover g := by
  cases o <;> rfl

theorem recover_failed (o : Outcome α) : o.recover .failed = o := by
  cases o <;> rfl

theorem map_recover (o : Outcome α) (f : Failure → Outcome α) (g : α → β) :
    (o.recover f).map g = (o.map g).recover fun e => (f e).map g := by
  cases o <;> rfl

end Outcome

theorem Run.outcome_bind {α β : Type} (x : Run α) (f : α → Run β) :
    (x >>= f).outcome = x.outcome.bind fun a => (f a).outcome := by
  obtain ⟨t, o⟩ := x
  cases o <;> rfl

theorem Failure.furthest_self (e : Failure) : e.furthest e = e :=
  if_neg (Nat.lt_irrefl _)

/-- Two matches in order as one, with the sequence of their values. -/
def Match.pair (first second : Match) : Match :=
  ⟨some (.sequence (first.value.toList ++ second.value.toList)), second.next⟩

namespace Parser

variable {c : Cursor} {p a : Parser} {ps qs qs' xs ys zs rs : List Parser} {index : Nat}
  {kept : Option Failure}

theorem outcome_tryAll_cons (c : Cursor) (p : Parser) (ps : List Parser) (index : Nat)
    (kept : Option Failure) :
    (tryAll c (p :: ps) index kept).outcome = (p c).outcome.recover fun e =>
      (tryAll c ps (index + 1) (some (Failure.keepFurthest kept e))).outcome := by
  rw [tryAll]
  generalize p c = x
  obtain ⟨t, o⟩ := x
  cases o <;> rfl

/-- How many alternatives were tried before matters for the records only. -/
theorem outcome_tryAll_index (c : Cursor) (ps : List Parser) (index index' : Nat)
    (kept : Option Failure) :
    (tryAll c ps index kept).outcome = (tryAll c ps index' kept).outcome := by
  induction ps generalizing index index' kept with
  | nil => rfl
  | cons p ps ih =>
    rw [outcome_tryAll_cons, outcome_tryAll_cons]
    exact congrArg _ (funext fun e => ih (index + 1) (index' + 1) _)

/-! ### Alternatives written out -/

/-- The alternatives behind others see the failure that those end with, provided that there is one:
that some alternative has been tried before or is tried now. -/
theorem outcome_tryAll_append (tried : kept = none → ps ≠ []) (qs : List Parser) :
    (tryAll c (ps ++ qs) index kept).outcome = (tryAll c ps index kept).outcome.recover fun e =>
      (tryAll c qs 0 (some e)).outcome := by
  induction ps generalizing index kept with
  | nil =>
    cases kept with
    | none => exact absurd rfl (tried rfl)
    | some seen => exact outcome_tryAll_index c qs index 0 (some seen)
  | cons p ps ih =>
    rw [List.cons_append, outcome_tryAll_cons, outcome_tryAll_cons, Outcome.recover_recover]
    exact congrArg _ (funext fun e => ih fun h => nomatch h)

/-- A failure that comes before all others can be compared with the furthest of them at the end. -/
theorem outcome_tryAll_furthest (c : Cursor) (ps : List Parser) (index : Nat)
    (first seen : Failure) :
    (tryAll c ps index (some (first.furthest seen))).outcome =
      (tryAll c ps index (some seen)).outcome.recover fun e => .failed (first.furthest e) := by
  induction ps generalizing index seen with
  | nil => rfl
  | cons p ps ih =>
    rw [outcome_tryAll_cons, outcome_tryAll_cons, Outcome.recover_recover]
    refine congrArg _ (funext fun e => ?_)
    rw [Failure.keepFurthest, Failure.keepFurthest, Failure.furthest_assoc]
    exact ih (index + 1) (seen.furthest e)

/-- The failure kept from before is compared with that of the alternatives as a whole. -/
theorem outcome_tryAll_kept (hps : ps ≠ []) (index : Nat) (kept : Option Failure) :
    (tryAll c ps index kept).outcome = (choice ps c).outcome.recover fun e =>
      .failed (Failure.keepFurthest kept e) := by
  rw [choice, outcome_tryAll_index c ps index 0]
  cases kept with
  | none => exact (Outcome.recover_failed _).symm
  | some first =>
    obtain ⟨p, ps, rfl⟩ := List.exists_cons_of_ne_nil hps
    rw [outcome_tryAll_cons, outcome_tryAll_cons, Outcome.recover_recover]
    exact congrArg _ (funext fun e => outcome_tryAll_furthest c ps 1 first e)

theorem outcome_tryAll_choice (hys : ys ≠ []) (zs : List Parser) (index : Nat)
    (kept : Option Failure) :
    (tryAll c (choice ys :: zs) index kept).outcome = (tryAll c (ys ++ zs) index kept).outcome := by
  rw [outcome_tryAll_cons, outcome_tryAll_append (fun _ => hys), outcome_tryAll_kept hys,
    Outcome.recover_recover]
  exact congrArg _ (funext fun e => outcome_tryAll_index c zs (index + 1) 0 _)

theorem outcome_tryAll_append_congr (xs : List Parser)
    (h : ∀ index kept, (tryAll c qs index kept).outcome = (tryAll c qs' index kept).outcome)
    (index : Nat) (kept : Option Failure) :
    (tryAll c (xs ++ qs) index kept).outcome = (tryAll c (xs ++ qs') index kept).outcome := by
  induction xs generalizing index kept with
  | nil => exact h index kept
  | cons x xs ih =>
    rw [List.cons_append, List.cons_append, outcome_tryAll_cons, outcome_tryAll_cons]
    exact congrArg _ (funext fun e => ih (index + 1) _)

/-- **A choice inside a choice is written out.** -/
theorem outcome_choice_flatten (hys : ys ≠ []) (xs zs : List Parser) (c : Cursor) :
    (choice (xs ++ [choice ys] ++ zs) c).outcome = (choice (xs ++ ys ++ zs) c).outcome := by
  rw [List.append_assoc, List.append_assoc]
  exact outcome_tryAll_append_congr xs (outcome_tryAll_choice hys zs) 0 none

/-- Alternatives that all come to one outcome come to it together. -/
theorem outcome_choice_same {o : Outcome Match} (hps : ps ≠ []) (h : ∀ p ∈ ps, (p c).outcome = o) :
    (choice ps c).outcome = o := by
  have again : ∀ e, o = .failed e → ∀ ps : List Parser, (∀ p ∈ ps, (p c).outcome = o) →
      ∀ index, (tryAll c ps index (some e)).outcome = o := by
    rintro e rfl ps h index
    induction ps generalizing index with
    | nil => rfl
    | cons p ps ih =>
      obtain ⟨hp, hps⟩ := List.forall_mem_cons.mp h
      rw [outcome_tryAll_cons, hp]
      show (tryAll c ps (index + 1) (some (e.furthest e))).outcome = .failed e
      rw [Failure.furthest_self]
      exact ih hps (index + 1)
  obtain ⟨p, ps, rfl⟩ := List.exists_cons_of_ne_nil hps
  obtain ⟨hp, hps⟩ := List.forall_mem_cons.mp h
  rw [choice, outcome_tryAll_cons, hp]
  cases o with
  | failed e => exact again e rfl ps hps 1
  | _ => rfl

/-- A choice of two is tried like one of all the alternatives that its two sides choose from. -/
theorem outcome_choice_pair {q : Parser} (hxs : xs ≠ []) (hys : ys ≠ [])
    (hp : (p c).outcome = (choice xs c).outcome) (hq : (q c).outcome = (choice ys c).outcome) :
    (choice [p, q] c).outcome = (choice (xs ++ ys) c).outcome := by
  have sides : (choice [p, q] c).outcome = (choice [choice xs, choice ys] c).outcome := by
    simp only [choice, outcome_tryAll_cons] at hp hq ⊢
    rw [hp, hq]
  calc (choice [p, q] c).outcome
      = (choice ([] ++ [choice xs] ++ [choice ys]) c).outcome := sides
    _ = (choice ([] ++ xs ++ [choice ys]) c).outcome := outcome_choice_flatten hxs [] _ c
    _ = (choice (xs ++ [choice ys] ++ []) c).outcome := by rw [List.nil_append, List.append_nil]
    _ = (choice (xs ++ ys ++ []) c).outcome := outcome_choice_flatten hys xs [] c
    _ = (choice (xs ++ ys) c).outcome := by rw [List.append_nil]

/-! ### Something or nothing -/

theorem outcome_choice_epsilon_ok {m : Match} (h : (p c).outcome = .ok m) :
    (choice [p, epsilon] c).outcome = .ok m := by
  rw [choice, tryAll, Run.outcome_attempt_bind_ok h]
  rfl

theorem outcome_choice_epsilon_failed {e : Failure} (h : (p c).outcome = .failed e) :
    (choice [p, epsilon] c).outcome = .ok ⟨some .unit, c⟩ := by
  rw [choice, tryAll, Run.outcome_attempt_bind_failed h]
  rfl

/-! ### A shared first part -/

theorem sequence_pair (a p : Parser) (c : Cursor) :
    sequence [a, p] c = a c >>= fun m => p m.next >>= fun n => pure (m.pair n) := by
  have together : ∀ m n : Match, (m.consTo (n.consTo ([], n.next))).toMatch = m.pair n := by
    intro m n
    rw [Match.pair, Match.consTo, Match.consTo, Items.toMatch, List.append_nil]
  simp only [sequence, collect, Run.bind_assoc, Run.pure_bind, together]

theorem outcome_sequence_pair (a p : Parser) (c : Cursor) :
    (sequence [a, p] c).outcome = (a c).outcome.bind fun m => (p m.next).outcome.map m.pair := by
  rw [sequence_pair, Run.outcome_bind]
  refine congrArg _ (funext fun m => ?_)
  rw [Run.outcome_bind]
  cases (p m.next).outcome <;> rfl

/-- Behind a first part that matches, the alternatives are tried where it ends. -/
theorem outcome_tryAll_sequence {m : Match} (h : (a c).outcome = .ok m)
    (tried : kept = none → rs ≠ []) :
    (tryAll c (rs.map fun r => sequence [a, r]) index kept).outcome =
      (tryAll m.next rs index kept).outcome.map m.pair := by
  induction rs generalizing index kept with
  | nil =>
    cases kept with
    | none => exact absurd rfl (tried rfl)
    | some seen => rfl
  | cons r rs ih =>
    rw [List.map_cons, outcome_tryAll_cons, outcome_tryAll_cons, outcome_sequence_pair, h,
      Outcome.map_recover]
    exact congrArg _ (funext fun e => ih fun h => nomatch h)

/-- **A shared first part is written once.** -/
theorem outcome_sequence_choice (hrs : rs ≠ []) (a : Parser) (c : Cursor) :
    (sequence [a, choice rs] c).outcome =
      (choice (rs.map fun r => sequence [a, r]) c).outcome := by
  have hmap : (rs.map fun r => sequence [a, r]) ≠ [] := mt List.map_eq_nil_iff.mp hrs
  have same : ∀ o, (∀ r, (sequence [a, r] c).outcome = o) →
      (sequence [a, choice rs] c).outcome =
        (choice (rs.map fun r => sequence [a, r]) c).outcome := by
    intro o ho
    rw [ho, outcome_choice_same hmap fun p hp => ?_]
    obtain ⟨r, -, rfl⟩ := List.mem_map.mp hp
    exact ho r
  cases h : (a c).outcome with
  | ok m =>
    rw [outcome_sequence_pair, h]
    exact (outcome_tryAll_sequence h fun _ => hrs).symm
  | failed e => exact same (.failed e) fun r => by rw [outcome_sequence_pair, h]; rfl
  | misused m => exact same (.misused m) fun r => by rw [outcome_sequence_pair, h]; rfl
  | endless => exact same .endless fun r => by rw [outcome_sequence_pair, h]; rfl

end Parser

/-! ### Rules -/

namespace Rule

variable {cells : Cells} {c : Cursor} {rule : Rule} {rules : List Rule}

/-- Choices of two, in any grouping, and the alternatives that they are put together from, in
order. -/
inductive Chain : Rule → List Rule → Prop where
  | one (rule : Rule) : Chain rule [rule]
  | or {first second : Rule} {xs ys : List Rule} (left : Chain first xs) (right : Chain second ys) :
    Chain (.choice [first, second]) (xs ++ ys)

theorem Chain.ne_nil (h : Chain rule rules) : rules ≠ [] := by
  induction h with
  | one rule => exact List.cons_ne_nil _ _
  | or _ _ ih _ => exact List.append_ne_nil_of_left_ne_nil ih _

/-- A chain of alternatives is the flat choice. The induction is on the grouping. -/
theorem Chain.outcome_parseWithin (h : Chain rule rules) (depth : Nat) :
    (rule.parseWithin cells depth c).outcome =
      ((Rule.choice rules).parseWithin cells depth c).outcome := by
  induction h with
  | one rule =>
    rw [parseWithin_choice]
    refine (Parser.outcome_choice_same (List.cons_ne_nil _ _) fun p hp => ?_).symm
    rw [List.mem_singleton.mp hp]
  | or left right ih ih' =>
    rw [parseWithin_choice] at ih ih' ⊢
    rw [parseWithin_choice, List.map_append]
    exact Parser.outcome_choice_pair (mt List.map_eq_nil_iff.mp left.ne_nil)
      (mt List.map_eq_nil_iff.mp right.ne_nil) ih ih'

/-- **Choices can be regrouped and factored.** A choice among the alternatives of another one, a
chain of choices in any grouping, and a first part that all alternatives share can be written out
without a change of the outcome: of the match, of the failure, of the misuse. What can change are
records of the level `trace`, as there are no others. -/
theorem parse_choice_regrouped (cells : Cells) (c : Cursor) :
    (∀ xs ys zs : List Rule, ys ≠ [] →
      ((Rule.choice (xs ++ [.choice ys] ++ zs)).parse cells c).outcome =
        ((Rule.choice (xs ++ ys ++ zs)).parse cells c).outcome) ∧
    (∀ chain rules, Chain chain rules →
      (chain.parse cells c).outcome = ((Rule.choice rules).parse cells c).outcome) ∧
    (∀ (a : Rule) (rs : List Rule), rs ≠ [] →
      ((Rule.sequence [a, .choice rs]).parse cells c).outcome =
        ((Rule.choice (rs.map fun r => .sequence [a, r])).parse cells c).outcome) ∧
    ∀ rule : Rule, ∀ r ∈ (rule.parse cells c).trace, r.level = .trace := by
  refine ⟨fun xs ys zs hys => ?_, fun chain rules h => h.outcome_parseWithin _,
    fun a rs hrs => ?_, fun rule => level_of_mem_trace cells rule c⟩
  · rw [parse, parse, parseWithin_choice, parseWithin_choice]
    simp only [List.map_append, List.map_cons, List.map_nil, parseWithin_choice]
    exact Parser.outcome_choice_flatten (mt List.map_eq_nil_iff.mp hys) _ _ c
  · have shared : (rs.map fun r => Rule.sequence [a, r]).map
          (parseWithin cells (depthBound cells c)) =
        (rs.map (parseWithin cells (depthBound cells c))).map fun p =>
          Parser.sequence [a.parseWithin cells (depthBound cells c), p] := by
      rw [List.map_map, List.map_map]
      exact List.map_congr_left fun r _ => parseWithin_sequence cells _ [a, r]
    rw [parse, parse, parseWithin_choice, parseWithin_sequence, shared]
    simp only [List.map_cons, List.map_nil, parseWithin_choice]
    exact Parser.outcome_sequence_choice (mt List.map_eq_nil_iff.mp hrs) _ c

/-- Two words with the same first letter. -/
def wordPair : List Rule :=
  [.literal [0x62, 0x79], .literal [0x62, 0x7a]]

/-- The failure of the first word at the third letter. -/
def wordPairFailure : Failure :=
  ⟨.mismatch (.literalByte 0x79 0x78 1 [0x62, 0x79]), ⟨#[0x61, 0x62, 0x78], 16⟩⟩

/-- Neither word matches and both get equally far, behind a choice of others and behind a letter. -/
theorem parse_choice_regrouped_wordPair :
    wordPair ≠ [] ∧ Chain (.choice [.literal [0x62, 0x79], .literal [0x62, 0x7a]]) wordPair ∧
      ((Rule.choice ([.finish] ++ [.choice wordPair] ++ [.nothing])).parse .empty
        ⟨#[0x61, 0x62, 0x78], 8, {}⟩).outcome = .failed wordPairFailure ∧
      ((Rule.choice [.literal [0x62, 0x79], .literal [0x62, 0x7a]]).parse .empty
        ⟨#[0x61, 0x62, 0x78], 8, {}⟩).outcome = .failed wordPairFailure ∧
      ((Rule.sequence [.byte 0x61, .choice wordPair]).parse .empty
        ⟨#[0x61, 0x62, 0x78], 0, {}⟩).outcome = .failed wordPairFailure := by
  have nonempty : wordPair ≠ [] := List.cons_ne_nil _ _
  have chain : Chain (.choice [.literal [0x62, 0x79], .literal [0x62, 0x7a]]) wordPair :=
    .or (.one _) (.one _)
  obtain ⟨flatten, flat, -⟩ := parse_choice_regrouped .empty ⟨#[0x61, 0x62, 0x78], 8, {}⟩
  obtain ⟨-, -, factor, -⟩ := parse_choice_regrouped .empty ⟨#[0x61, 0x62, 0x78], 0, {}⟩
  exact ⟨nonempty, chain, (flatten [.finish] wordPair [.nothing] nonempty).trans rfl,
    (flat _ wordPair chain).trans rfl, (factor (.byte 0x61) wordPair nonempty).trans rfl⟩

end Rule

end BitGrammar
