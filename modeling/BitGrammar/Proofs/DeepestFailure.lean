import BitGrammar.Proofs.FailedSearch

/-!
# The deepest failure of a permutation

A permutation that fails reports the furthest failure of a child at any node of its search. It has a
failure of its own as well, for members that cannot be placed. That one is never needed.

## What decides the design

That a failure is not constructed cannot be read off an outcome. The search is written down once
more with a parameter in place of the fallback (`permutationOr`), and whatever is put there, runs
are the same. With the fallback itself it is the search of `Parser.permutation`.

The search stops at the first success. Another order may then run children that this one does not,
and only where those end does it succeed as well. Of a failed search nothing has to be asked: it has
run all children everywhere.

## Main definitions

* `permutationOr`: a permutation with something else to run in place of the fallback

## Main results

* `permutationOr_eq`: the fallback is never run
* `parse_permutation_failed`: the failure of a permutation is the deepest one, in every order
-/

namespace BitGrammar

namespace Run

variable {α β : Type} {x : Run α}

/-- Only what follows the outcome that there is matters. -/
theorem attempt_bind_congr {f g : Except Failure α → Run β}
    (ok : ∀ a, x.outcome = .ok a → f (.ok a) = g (.ok a))
    (error : ∀ e, x.outcome = .failed e → f (.error e) = g (.error e)) :
    (x.attempt >>= f) = (x.attempt >>= g) := by
  obtain ⟨t, o⟩ := x
  cases o with
  | ok a => rw [attempt_ok, bind_ok, bind_ok, ok a rfl]
  | failed e => rw [attempt_failed, bind_ok, bind_ok, error e rfl]
  | misused m => rfl
  | endless => rfl

theorem answers_of_ne (proper : ∀ what, x.outcome ≠ .misused what) (ends : x.outcome ≠ .endless) :
    x.Answers := by
  cases h : x.outcome with
  | ok a => exact .inl ⟨a, h⟩
  | failed e => exact .inr ⟨e, h⟩
  | misused what => exact absurd h (proper what)
  | endless => exact absurd h ends

theorem Answers.ne_misused (h : x.Answers) (what : Misuse) : x.outcome ≠ .misused what := by
  rcases h with ⟨a, h⟩ | ⟨e, h⟩ <;> rw [h] <;> rintro ⟨⟩

end Run

namespace Permutation

variable {ps : List Parser} {good : Cursor → Prop} {c : Cursor}

/-! ### The fallback -/

/-- Places all the members where they match empty input. Where one matches further on and no failure
is kept, `stuck` is run in place of a failure. -/
def placeEmptyOr (stuck : Run Parser.Slots) (c : Cursor) (furthest : Option Failure) :
    List (Nat × Parser) → Parser.Slots → Run Parser.Slots
  | [], slots => pure slots
  | (i, p) :: rest, slots => do
    match ← (p c).attempt with
    | .ok m =>
      if m.next.position = c.position then
        placeEmptyOr stuck c furthest rest (slots.set i (some m.value))
      else furthest.elim stuck Run.fail
    | .error e => Run.fail (Failure.keepFurthest furthest e)

/-- Fills the empty slots, with something else to run in place of the fallback. -/
def fillOr (stuck : Cursor → Run Parser.Slots) (ps : List Parser) :
    Nat → Parser.Slots → Cursor → Run (Parser.Slots × Cursor)
  | 0, slots, c => pure (slots, c)
  | count + 1, slots, c => do
    let members := Parser.unplaced ps slots
    match ← Parser.placeConsuming (fillOr stuck ps count) slots c members none with
    | .ok filled => pure filled
    | .error furthest => do
      let filled ← placeEmptyOr (stuck c) c furthest members slots
      pure (filled, c)

/-- Matches every parser exactly once, in any order, with something else to run in place of the
fallback. -/
def permutationOr (stuck : Cursor → Run Parser.Slots) (ps : List Parser) : Parser := fun c => do
  let (slots, finish) ← fillOr stuck ps ps.length (List.replicate ps.length none) c
  pure (Items.toMatch (Parser.slotValues slots, finish))

/-- The fallback of a permutation. -/
def unplaceable (c : Cursor) : Run Parser.Slots :=
  Run.fail (c.rejection .unplaceable)

theorem placeEmptyOr_unplaceable (c : Cursor) (kept : Option Failure)
    (members : List (Nat × Parser)) (slots : Parser.Slots) :
    placeEmptyOr (unplaceable c) c kept members slots = Parser.placeEmpty c kept members slots := by
  induction members generalizing slots with
  | nil => rfl
  | cons member members ih =>
    obtain ⟨i, p⟩ := member
    rw [placeEmptyOr, Parser.placeEmpty]
    refine Run.attempt_bind_congr (fun m _ => ?_) fun e _ => rfl
    dsimp only
    split
    · exact ih _
    · cases kept <;> rfl

theorem fillOr_unplaceable (ps : List Parser) (count : Nat) :
    fillOr unplaceable ps count = Parser.fill ps count := by
  induction count with
  | zero => rfl
  | succ count ih =>
    funext slots c
    rw [fillOr, Parser.fill, ih]
    refine Run.bind_congr_of_outcome fun placed _ => ?_
    cases placed with
    | ok filled => rfl
    | error kept =>
      dsimp only
      rw [placeEmptyOr_unplaceable]

/-- With the fallback in its place, the search is that of a permutation. -/
theorem permutationOr_unplaceable (ps : List Parser) :
    permutationOr unplaceable ps = Parser.permutation ps := by
  funext c
  rw [permutationOr, fillOr_unplaceable]
  rfl

/-- Members that are in the way of the empty matches, with a failure kept, do not come to the
fallback. -/
theorem placeEmptyOr_eq {stuck : Run Parser.Slots} {kept : Option Failure}
    {members : List (Nat × Parser)}
    (h : kept = none → ∀ member ∈ members, ∀ m, (member.2 c).outcome = .ok m →
      m.next.position = c.position) (slots : Parser.Slots) :
    placeEmptyOr stuck c kept members slots = Parser.placeEmpty c kept members slots := by
  induction members generalizing slots with
  | nil => rfl
  | cons member members ih =>
    obtain ⟨i, p⟩ := member
    rw [placeEmptyOr, Parser.placeEmpty]
    refine Run.attempt_bind_congr (fun m hm => ?_) fun e _ => rfl
    dsimp only
    split
    · exact ih (fun hnone later hmem => h hnone later (List.mem_cons_of_mem _ hmem)) _
    · next hmoved =>
      cases kept with
      | none => exact absurd (h rfl (i, p) (List.mem_cons_self ..) m hm) hmoved
      | some e => rfl

theorem placeConsuming_congr {place place' : Parser.Slots → Cursor → Run (Parser.Slots × Cursor)}
    (hplace : ∀ slots d, good d → place slots d = place' slots d) (hps : Onward good ps)
    (hc : good c) {members : List (Nat × Parser)} (hmembers : ∀ member ∈ members, member.2 ∈ ps)
    (slots : Parser.Slots) (kept : Option Failure) :
    Parser.placeConsuming place slots c members kept =
      Parser.placeConsuming place' slots c members kept := by
  induction members generalizing kept with
  | nil => rfl
  | cons member members ih =>
    obtain ⟨i, p⟩ := member
    obtain ⟨hp, hrest⟩ := List.forall_mem_cons.mp hmembers
    rw [Parser.placeConsuming, Parser.placeConsuming]
    refine Run.attempt_bind_congr (fun m hm => ?_) fun e _ => ih hrest _
    dsimp only
    split
    · rw [hplace _ m.next (hps p hp c hc m hm).1]
      exact Run.attempt_bind_congr (fun filled _ => rfl) fun e _ => ih hrest _
    · exact ih hrest _

/-- **The fallback is never run.** Whatever stands in its place, searches are the same. -/
theorem fillOr_eq (stuck : Cursor → Run Parser.Slots) (hps : Onward good ps) (count : Nat)
    (slots : Parser.Slots) (hc : good c) :
    fillOr stuck ps count slots c = Parser.fill ps count slots c := by
  induction count generalizing slots c with
  | zero => rfl
  | succ count ih =>
    have hplace : ∀ slots d, good d →
        fillOr stuck ps count slots d = Parser.fill ps count slots d :=
      fun slots d hd => ih slots hd
    rw [fillOr, Parser.fill, placeConsuming_congr hplace hps hc
      (fun member hmem => Parser.mem_of_mem_unplaced hmem)]
    refine Run.bind_congr_of_outcome fun placed hout => ?_
    cases placed with
    | ok filled => rfl
    | error kept =>
      dsimp only
      rw [placeEmptyOr_eq]
      -- With no failure kept, all members have matched here, and have neither moved on nor back.
      rintro rfl member hmem m hm
      obtain ⟨attempts, hmembers, tried, hkept⟩ := attempts_of_placeConsuming [] hout
      rw [List.nil_append] at hkept
      obtain ⟨attempt, hattempt, rfl⟩ := List.mem_map.mp (hmembers ▸ hmem)
      have hnone : attempt.2 = none :=
        List.filterMap_eq_nil_iff.mp (List.argmax_eq_none.mp hkept.symm) attempt hattempt
      have hstays := (hnone ▸ tried attempt hattempt).not_consumes hm
      have hforward := (hps _ (Parser.mem_of_mem_unplaced hmem) c hc m hm).2
      omega

theorem permutationOr_eq (stuck : Cursor → Run Parser.Slots) (hps : Onward good ps) (hc : good c) :
    permutationOr stuck ps c = Parser.permutation ps c := by
  rw [permutationOr, fillOr_eq stuck hps _ _ hc]
  rfl

/-! ### Rules -/

theorem onward_parse (cells : Cells) {rules : List Rule} {input : Array UInt8}
    (forward : ∀ rule ∈ rules, ∀ d : Cursor, d.input = input → d.WellFormed → ∀ m,
      (rule.parse cells d).outcome = .ok m → d.position ≤ m.next.position) :
    Onward (Cursor.Within input 0) (rules.map (Rule.parse cells)) := by
  intro p hp d hd m hm
  obtain ⟨rule, hrule, rfl⟩ := List.mem_map.mp hp
  exact ⟨(Rule.within_of_parse hd hm).1, forward rule hrule d hd.input_eq hd.wellFormed m hm⟩

/-- **A permutation reports the deepest failure of its search.** The failure is that of a child at a
node, and no child at any node fails further on. The fallback is never run. In another order the
children fail as well, just as far; and where they all end, they succeed as well. -/
theorem parse_permutation_failed (cells : Cells) (rules : List Rule) (c : Cursor)
    (hc : c.WellFormed)
    (forward : ∀ rule ∈ rules, ∀ d : Cursor, d.input = c.input → d.WellFormed → ∀ m,
      (rule.parse cells d).outcome = .ok m → d.position ≤ m.next.position)
    (proper : ∀ rule ∈ rules, ∀ d : Cursor, d.input = c.input → d.WellFormed → ∀ what,
      (rule.parse cells d).outcome ≠ .misused what) :
    (∀ e, ((Rule.permutation rules).parse cells c).outcome = .failed e →
      Raises (rules.map (Rule.parse cells)) c e ∧
        ∀ e', Raises (rules.map (Rule.parse cells)) c e' → e'.position ≤ e.position) ∧
    (∀ stuck, permutationOr stuck (rules.map (Rule.parse cells)) c =
      (Rule.permutation rules).parse cells c) ∧
    ∀ other, rules.Perm other →
      (∀ e, ((Rule.permutation rules).parse cells c).outcome = .failed e →
        ∃ e', ((Rule.permutation other).parse cells c).outcome = .failed e' ∧
          e'.position = e.position) ∧
      ((∀ rule ∈ rules, ∀ d : Cursor, d.input = c.input → d.WellFormed →
          (rule.parse cells d).outcome ≠ .endless) →
        ((∃ m, ((Rule.permutation rules).parse cells c).outcome = .ok m) ↔
          ∃ m, ((Rule.permutation other).parse cells c).outcome = .ok m)) := by
  have hgood : c.Within c.input 0 := hc.within (Nat.zero_le _)
  have hps := onward_parse cells forward
  rw [permutation_parse_eq cells rules hc]
  refine ⟨fun e he => raises_of_permutation_failed hps hgood he,
    fun stuck => permutationOr_eq stuck hps hgood, fun other hperm => ?_⟩
  have hother := onward_parse cells fun rule hrule => forward rule (hperm.mem_iff.mpr hrule)
  have hmap := hperm.map (Rule.parse cells)
  rw [permutation_parse_eq cells other hc]
  refine ⟨fun e he => permutation_failed_of_perm hps hother hgood hmap he, fun ends => ?_⟩
  have answers : ∀ rule ∈ rules, ∀ d : Cursor, d.input = c.input → d.WellFormed →
      (rule.parse cells d).Answers :=
    fun rule hrule d hinput hd => Run.answers_of_ne (proper rule hrule d hinput hd)
      (ends rule hrule d hinput hd)
  have hanswers := answering_parse cells answers
  have hanswers' := answering_parse cells fun rule hrule => answers rule (hperm.mem_iff.mpr hrule)
  constructor
  · rintro ⟨m, hm⟩
    exact permutation_ok_of_perm hps hother hgood hanswers' hmap hm
  · rintro ⟨m, hm⟩
    exact permutation_ok_of_perm hother hps hgood hanswers hmap.symm hm

/-- Three letters, of which the one in the middle may be missing. -/
def threeLetters : List Rule :=
  [.byte 0x61, .optional (.byte 0x63), .byte 0x62]

theorem mem_threeLetters {rule : Rule} (h : rule ∈ threeLetters) :
    (∃ b, rule = .byte b) ∨ rule = .optional (.byte 0x63) := by
  simp only [threeLetters, List.mem_cons, List.not_mem_nil, or_false] at h
  rcases h with rfl | rfl | rfl
  · exact .inl ⟨_, rfl⟩
  · exact .inr rfl
  · exact .inl ⟨_, rfl⟩

theorem optional_byte_ok (cells : Cells) (b : UInt8) (d : Cursor) :
    ∃ m, ((Rule.optional (.byte b)).parse cells d).outcome = .ok m := by
  rcases answers_byte cells b d with ⟨m, hm⟩ | ⟨e, he⟩
  · exact ⟨m, Run.outcome_attempt_bind_ok hm⟩
  · exact ⟨_, Run.outcome_attempt_bind_failed he⟩

theorem answers_threeLetters (cells : Cells) {rule : Rule} (h : rule ∈ threeLetters) (d : Cursor) :
    (rule.parse cells d).Answers := by
  rcases mem_threeLetters h with ⟨b, rfl⟩ | rfl
  · exact answers_byte cells b d
  · exact .inl (optional_byte_ok cells 0x63 d)

theorem forward_threeLetters (cells : Cells) {rule : Rule} (h : rule ∈ threeLetters) {d : Cursor}
    (hd : d.WellFormed) {m : Match} (hm : (rule.parse cells d).outcome = .ok m) :
    d.position ≤ m.next.position := by
  have letter : ∀ b, ((Rule.byte b).parse cells).SettlesAt d :=
    fun b => Parser.settlesAt_leaf hd rfl (fun _ _ h => by cases h) _
  rcases mem_threeLetters h with ⟨b, rfl⟩ | rfl
  · exact ((letter b).of_ok hm).first_le
  · exact ((Parser.settlesAt_optional hd (letter 0x63)).of_ok hm).first_le

/-- Behind the last two letters something else than the first one, which is reported there. -/
theorem parse_permutation_failed_threeLetters :
    (∀ rule ∈ threeLetters, ∀ d : Cursor, d.input = #[0x62, 0x63, 0x78] → d.WellFormed → ∀ m,
      (rule.parse .empty d).outcome = .ok m → d.position ≤ m.next.position) ∧
    (∀ rule ∈ threeLetters, ∀ d : Cursor, d.input = #[0x62, 0x63, 0x78] → d.WellFormed → ∀ what,
      (rule.parse .empty d).outcome ≠ .misused what) ∧
    Raises (threeLetters.map (Rule.parse .empty)) ⟨#[0x62, 0x63, 0x78], 0, {}⟩
      ⟨.mismatch (.byte 0x61 0x78), ⟨#[0x62, 0x63, 0x78], 16⟩⟩ ∧
    ∃ e, ((Rule.permutation threeLetters.reverse).parse .empty
        ⟨#[0x62, 0x63, 0x78], 0, {}⟩).outcome = .failed e ∧ e.position = 16 := by
  have forward : ∀ rule ∈ threeLetters, ∀ d : Cursor, d.input = #[0x62, 0x63, 0x78] →
      d.WellFormed → ∀ m, (rule.parse .empty d).outcome = .ok m → d.position ≤ m.next.position :=
    fun rule hrule d _ hd m hm => forward_threeLetters .empty hrule hd hm
  have proper : ∀ rule ∈ threeLetters, ∀ d : Cursor, d.input = #[0x62, 0x63, 0x78] →
      d.WellFormed → ∀ what, (rule.parse .empty d).outcome ≠ .misused what :=
    fun rule hrule d _ _ what => (answers_threeLetters .empty hrule d).ne_misused what
  obtain ⟨hfailed, -, horder⟩ := parse_permutation_failed .empty threeLetters
    ⟨#[0x62, 0x63, 0x78], 0, {}⟩ (Nat.zero_le _) forward proper
  exact ⟨forward, proper, (hfailed _ rfl).1,
    (horder threeLetters.reverse (List.reverse_perm _).symm).1 _ rfl⟩

end Permutation

end BitGrammar
