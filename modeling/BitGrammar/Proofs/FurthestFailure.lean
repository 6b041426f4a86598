import BitGrammar.Proofs.Permutation
import Mathlib.Data.List.MinMax

/-!
# The furthest failure of a choice

A choice tries its alternatives from one and the same cursor. The first one that matches decides,
and those behind it are not run. When all fail, the failure is that of the alternative that got
furthest, and of several that got equally far that of the first. The trace tells all of this: the
records of every alternative that was tried, and behind those of one that failed a record that
names it.

## What decides the design

The failure that a search keeps while it goes on is `List.argmax` of all failures seen so far, by
their positions (`Failure.some_keepFurthest_argmax`). What is kept in the end is then read off the
list of failures, without a second argument about the way there. Both `Parser.tryAll` and
`Parser.placeConsuming` keep failures in this way.

Alternatives that failed are listed with their failures. Such a list is also what their records are
read off.

## Main definitions

* `Failure.FirstFurthest`: the first of the furthest among several failures
* `Rule.AnswerInTurn`: the alternatives that a choice comes to answer
* `Rule.failedRecords`: the records that failed alternatives leave

## Main results

* `Rule.parse_choice`: a choice is its first match or its first furthest failure, with its trace
-/

namespace BitGrammar

/-! ### Keeping the furthest failure -/

namespace Failure

/-- One of several failures got furthest, and all before it less far. -/
def FirstFurthest (es : List Failure) (e : Failure) : Prop :=
  ∃ before after, es = before ++ e :: after ∧
    (∀ f ∈ before, f.position < e.position) ∧ ∀ f ∈ after, f.position ≤ e.position

theorem FirstFurthest.snoc_of_le {es : List Failure} {e f : Failure} (h : FirstFurthest es e)
    (hle : f.position ≤ e.position) : FirstFurthest (es ++ [f]) e := by
  obtain ⟨before, after, rfl, hbefore, hafter⟩ := h
  refine ⟨before, after ++ [f], by simp, hbefore, fun g hg => ?_⟩
  rcases List.mem_append.mp hg with hg | hg
  · exact hafter g hg
  · obtain rfl := List.mem_singleton.mp hg
    exact hle

/-- To keep one more failure is to take the first of the furthest again. -/
theorem some_keepFurthest_argmax (seen : List Failure) (e : Failure) :
    some (keepFurthest (seen.argmax position) e) = (seen ++ [e]).argmax position := by
  rw [List.argmax_concat]
  cases seen.argmax position with
  | none => rfl
  | some kept => exact apply_ite some _ _ _

theorem firstFurthest_of_mem_argmax {es : List Failure} {e : Failure}
    (h : e ∈ es.argmax position) : FirstFurthest es e := by
  induction es using List.reverseRecOn generalizing e with
  | nil => cases h
  | append_singleton es f ih =>
    rw [List.argmax_concat] at h
    cases hseen : es.argmax position with
    | none =>
      obtain rfl := List.argmax_eq_none.mp hseen
      obtain rfl : f = e := Option.some.inj h
      exact ⟨[], [], rfl, (fun g hg => nomatch hg), fun g hg => nomatch hg⟩
    | some kept =>
      rw [hseen] at h
      dsimp only at h
      split at h
      · next hlt =>
        obtain rfl : f = e := Option.some.inj h
        refine ⟨es, [], rfl, fun g hg => ?_, fun g hg => nomatch hg⟩
        exact Nat.lt_of_le_of_lt (List.le_of_mem_argmax hg hseen) hlt
      · next hle =>
        obtain rfl : kept = e := Option.some.inj h
        exact (ih hseen).snoc_of_le (Nat.le_of_not_lt hle)

end Failure

/-! ### Alternatives -/

namespace Parser

variable {c : Cursor} {p : Parser}

/-- Only what the alternatives do at the cursor matters. -/
theorem tryAll_congr {α : Type} (p q : α → Parser) {as : List α} (h : ∀ a ∈ as, p a c = q a c)
    (index : Nat) (kept : Option Failure) :
    tryAll c (as.map p) index kept = tryAll c (as.map q) index kept := by
  induction as generalizing index kept with
  | nil => rfl
  | cons a as ih =>
    have hrest := ih fun b hb => h b (List.mem_cons_of_mem a hb)
    simp only [List.map_cons, tryAll, h a (List.mem_cons_self ..), hrest]

/-- The first match is all that there is to a choice. -/
theorem tryAll_cons_of_ok {m : Match} (h : (p c).outcome = .ok m) (ps : List Parser) (index : Nat)
    (kept : Option Failure) : tryAll c (p :: ps) index kept = p c := by
  rw [tryAll, Run.attempt_bind_of_ok h]
  exact Run.ext (List.append_nil _) h.symm

/-- A failure is put on record, and the next alternative is tried. -/
theorem tryAll_cons_of_failed {e : Failure} (h : (p c).outcome = .failed e) (ps : List Parser)
    (index : Nat) (kept : Option Failure) :
    tryAll c (p :: ps) index kept =
      let rest := tryAll c ps (index + 1) (some (Failure.keepFurthest kept e))
      ⟨(p c).trace ++ .choiceFailed index c.position e :: rest.trace, rest.outcome⟩ := by
  rw [tryAll, Run.attempt_bind_of_failed h]
  rfl

end Parser

namespace Rule

variable {cells : Cells} {c : Cursor} {rules : List Rule}

/-- The first rule answers at a cursor, and if it fails so do those behind it in turn. These are the
alternatives that a choice comes to. -/
def AnswerInTurn (cells : Cells) (c : Cursor) : List Rule → Prop
  | [] => True
  | rule :: rules => (rule.parse cells c).Answers ∧
      ∀ e, (rule.parse cells c).outcome = .failed e → AnswerInTurn cells c rules

/-- Each of the rules fails at a cursor in the way that is listed with it. -/
def AllFailed (cells : Cells) (c : Cursor) (attempts : List (Rule × Failure)) : Prop :=
  ∀ attempt ∈ attempts, (attempt.1.parse cells c).outcome = .failed attempt.2

/-- The records of alternatives that failed, which are counted from an index on: of each its own
ones, and then the one that names it. -/
def failedRecords (cells : Cells) (c : Cursor) (attempts : List (Rule × Failure))
    (index : Nat := 0) : List Record :=
  (attempts.zipIdx index).flatMap fun (attempt, i) =>
    (attempt.1.parse cells c).trace ++ [.choiceFailed i c.position attempt.2]

theorem parse_choice_eq (cells : Cells) (rules : List Rule) (c : Cursor) :
    (Rule.choice rules).parse cells c =
      Parser.tryAll c (rules.map (Rule.parse cells)) 0 none := by
  rw [parse, parseWithin_choice, Parser.choice]
  exact Parser.tryAll_congr (parseWithin cells (depthBound cells c)) (parse cells)
    (fun _ _ => rfl) 0 none

/-- The alternatives that a choice comes to are those up to the first that matches, or all. -/
theorem AnswerInTurn.attempts (h : AnswerInTurn cells c rules) :
    (∃ attempts rule m after, rules = attempts.map Prod.fst ++ rule :: after ∧
      AllFailed cells c attempts ∧ (rule.parse cells c).outcome = .ok m) ∨
    ∃ attempts, rules = attempts.map Prod.fst ∧ AllFailed cells c attempts := by
  induction rules with
  | nil => exact .inr ⟨[], rfl, fun attempt hmem => nomatch hmem⟩
  | cons rule rules ih =>
    obtain ⟨⟨m, hm⟩ | ⟨e, he⟩, hrest⟩ := h
    · exact .inl ⟨[], rule, m, rules, rfl, (fun attempt hmem => nomatch hmem), hm⟩
    · have cons : ∀ {attempts : List (Rule × Failure)}, AllFailed cells c attempts →
          AllFailed cells c ((rule, e) :: attempts) :=
        fun hall => List.forall_mem_cons.mpr ⟨he, hall⟩
      rcases ih (hrest e he) with ⟨attempts, other, m, after, rfl, hall, hm⟩ | ⟨attempts, rfl, hall⟩
      · exact .inl ⟨(rule, e) :: attempts, other, m, after, rfl, cons hall, hm⟩
      · exact .inr ⟨(rule, e) :: attempts, rfl, cons hall⟩

/-- Alternatives that fail leave their records and their furthest failure. -/
theorem tryAll_attempts {attempts : List (Rule × Failure)} (h : AllFailed cells c attempts)
    (ps : List Parser) (index : Nat) (seen : List Failure) :
    Parser.tryAll c ((attempts.map Prod.fst).map (Rule.parse cells) ++ ps) index
        (seen.argmax Failure.position) =
      let rest := Parser.tryAll c ps (index + attempts.length)
        ((seen ++ attempts.map Prod.snd).argmax Failure.position)
      ⟨failedRecords cells c attempts index ++ rest.trace, rest.outcome⟩ := by
  induction attempts generalizing index seen with
  | nil => simp [failedRecords]
  | cons attempt attempts ih =>
    obtain ⟨rule, e⟩ := attempt
    obtain ⟨he, hall⟩ := List.forall_mem_cons.mp h
    rw [List.map_cons, List.map_cons, List.cons_append, Parser.tryAll_cons_of_failed he,
      Failure.some_keepFurthest_argmax, ih hall]
    simp [failedRecords, Nat.add_assoc, Nat.add_comm 1]

/-- A choice whose alternatives fail up to one that matches. -/
theorem parse_choice_of_match {attempts : List (Rule × Failure)} (h : AllFailed cells c attempts)
    {rule : Rule} {m : Match} (hm : (rule.parse cells c).outcome = .ok m) (later : List Rule) :
    (Rule.choice (attempts.map Prod.fst ++ rule :: later)).parse cells c =
      ⟨failedRecords cells c attempts ++ (rule.parse cells c).trace, .ok m⟩ := by
  rw [parse_choice_eq, List.map_append, List.map_cons]
  refine (tryAll_attempts h _ 0 []).trans ?_
  rw [Parser.tryAll_cons_of_ok hm, ← hm]

/-- A choice all of whose alternatives fail. -/
theorem parse_choice_of_failed {attempts : List (Rule × Failure)} (h : AllFailed cells c attempts) :
    (Rule.choice (attempts.map Prod.fst)).parse cells c =
      ⟨failedRecords cells c attempts,
        .failed (((attempts.map Prod.snd).argmax Failure.position).getD
          (c.rejection .noAlternatives))⟩ := by
  have hrun := tryAll_attempts h [] 0 []
  rw [List.append_nil] at hrun
  rw [parse_choice_eq]
  refine hrun.trans (Run.ext (List.append_nil _) rfl)

/-- **A choice is its first match, or else its first furthest failure.** Alternatives behind the
first match make no difference. The trace has, for each alternative that was tried and failed, its
own records and then one that names it, and in the end the records of the match. -/
theorem parse_choice (cells : Cells) (rules : List Rule) (c : Cursor)
    (tried : AnswerInTurn cells c rules) :
    ((∃ rule ∈ rules, ∃ m, (rule.parse cells c).outcome = .ok m) →
      ∃ attempts rule m after, rules = attempts.map Prod.fst ++ rule :: after ∧
        AllFailed cells c attempts ∧ (rule.parse cells c).outcome = .ok m ∧
        (Rule.choice rules).parse cells c =
          ⟨failedRecords cells c attempts ++ (rule.parse cells c).trace, .ok m⟩ ∧
        ∀ later, (Rule.choice (attempts.map Prod.fst ++ rule :: later)).parse cells c =
          (Rule.choice rules).parse cells c) ∧
    ((∀ rule ∈ rules, ∀ m, (rule.parse cells c).outcome ≠ .ok m) → rules ≠ [] →
      ∃ attempts e, rules = attempts.map Prod.fst ∧ AllFailed cells c attempts ∧
        Failure.FirstFurthest (attempts.map Prod.snd) e ∧
        (Rule.choice rules).parse cells c = ⟨failedRecords cells c attempts, .failed e⟩) ∧
    (rules = [] →
      (Rule.choice rules).parse cells c = ⟨[], .failed (c.rejection .noAlternatives)⟩) ∧
    ∀ index e, (Record.choiceFailed index c.position e).message =
      "choice alternative " ++ toString index ++ " failed at bit " ++ toString c.position ++ ": " ++
        e.text := by
  refine ⟨fun ⟨rule, hrule, m, hm⟩ => ?_, fun hnone hne => ?_, ?_, fun _ _ => rfl⟩
  · rcases tried.attempts with
      ⟨attempts, first, m', after, rfl, hall, hfirst⟩ | ⟨attempts, rfl, hall⟩
    · have hrun := parse_choice_of_match hall hfirst
      exact ⟨attempts, first, m', after, rfl, hall, hfirst, hrun after,
        fun later => (hrun later).trans (hrun after).symm⟩
    · obtain ⟨attempt, hmem, rfl⟩ := List.mem_map.mp hrule
      rw [hall attempt hmem] at hm
      cases hm
  · rcases tried.attempts with
      ⟨attempts, first, m, after, rfl, hall, hfirst⟩ | ⟨attempts, rfl, hall⟩
    · exact absurd hfirst (hnone first (List.mem_append_right _ (List.mem_cons_self ..)) m)
    · have hfailures : attempts.map Prod.snd ≠ [] := by simpa using hne
      obtain ⟨e, he⟩ : ∃ e, (attempts.map Prod.snd).argmax Failure.position = some e :=
        Option.ne_none_iff_exists'.mp (mt List.argmax_eq_none.mp hfailures)
      have hrun := parse_choice_of_failed hall
      rw [he] at hrun
      exact ⟨attempts, e, rfl, hall, Failure.firstFurthest_of_mem_argmax he, hrun⟩
  · rintro rfl
    rfl

/-- Alternatives of which the second and the third get equally far, the second one by a choice of
its own. -/
def tiedAlternatives : List Rule :=
  [.byte 0x7a, .choice [.literal [0x61, 0x62, 0x21], .byte 0x79], .literal [0x61, 0x62, 0x63],
    .byte 0x71]

/-- The second alternative is reported, and not the third one. -/
theorem parse_choice_tied :
    AnswerInTurn .empty ⟨#[0x61, 0x62, 0x78], 0, {}⟩ tiedAlternatives ∧
      ∃ attempts, tiedAlternatives = attempts.map Prod.fst ∧
        Failure.FirstFurthest (attempts.map Prod.snd)
          ⟨.mismatch (.literalByte 0x21 0x78 2 [0x61, 0x62, 0x21]), ⟨#[0x61, 0x62, 0x78], 16⟩⟩ ∧
        (Rule.choice tiedAlternatives).parse .empty ⟨#[0x61, 0x62, 0x78], 0, {}⟩ =
          ⟨failedRecords .empty ⟨#[0x61, 0x62, 0x78], 0, {}⟩ attempts,
            .failed ⟨.mismatch (.literalByte 0x21 0x78 2 [0x61, 0x62, 0x21]),
              ⟨#[0x61, 0x62, 0x78], 16⟩⟩⟩ := by
  have tried : AnswerInTurn .empty ⟨#[0x61, 0x62, 0x78], 0, {}⟩ tiedAlternatives :=
    ⟨.inr ⟨_, rfl⟩, fun _ _ => ⟨.inr ⟨_, rfl⟩, fun _ _ => ⟨.inr ⟨_, rfl⟩, fun _ _ =>
      ⟨.inr ⟨_, rfl⟩, fun _ _ => trivial⟩⟩⟩⟩
  have hfailed : ((Rule.choice tiedAlternatives).parse .empty
      ⟨#[0x61, 0x62, 0x78], 0, {}⟩).outcome = .failed
        ⟨.mismatch (.literalByte 0x21 0x78 2 [0x61, 0x62, 0x21]), ⟨#[0x61, 0x62, 0x78], 16⟩⟩ := rfl
  have hnone : ∀ rule ∈ tiedAlternatives, ∀ m,
      (rule.parse .empty ⟨#[0x61, 0x62, 0x78], 0, {}⟩).outcome ≠ .ok m := by
    intro rule hrule m hm
    simp only [tiedAlternatives, List.mem_cons, List.not_mem_nil, or_false] at hrule
    rcases hrule with rfl | rfl | rfl | rfl <;> cases hm
  obtain ⟨attempts, e, hrules, -, hfirst, hrun⟩ :=
    (parse_choice .empty tiedAlternatives _ tried).2.1 hnone (List.cons_ne_nil _ _)
  obtain rfl : ⟨.mismatch (.literalByte 0x21 0x78 2 [0x61, 0x62, 0x21]),
      ⟨#[0x61, 0x62, 0x78], 16⟩⟩ = e := by
    rw [hrun] at hfailed
    exact (Outcome.failed.inj hfailed).symm
  exact ⟨tried, attempts, hrules, hfirst, hrun⟩

end Rule

end BitGrammar
