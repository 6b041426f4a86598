import BitGrammar.Proofs.Permutation

/-!
# Exclusions around a rule

A match of a rule is taken back where another rule matches as well and its length says so: when it
is at least as long, or when it is exactly as long. Such exclusions can be put around a rule in any
number, each around what the ones before it have left. A match gets through when none of them takes
it back, so that neither their order nor their number matters. And the second kind of exclusion
takes back no match that the first kind would leave.

## What decides the design

An exclusion passes a match on as it is, or fails. So the cursor behind it is that of the rule at
the very inside, and every exclusion compares lengths with that one, wherever it stands. What
exclusions do to a match is therefore a condition on each of them by itself (`Exclusion.Spares`),
and the induction on their list adds one condition at a time.

The lengths that are compared stop at zero where a match ends before the cursor that it starts from.
They are the numbers of bits matched as long as no rule moves back.

## Main definitions

* `Exclusion`, `Rule.excludeAll`: exclusions, and a rule with a list of them around it
* `Exclusion.Spares`: the exclusion does not take back a match of a given length

## Main results

* `Parser.outcome_excluding_eq_ok_iff`: what gets through one exclusion
* `Rule.outcome_excludeAll_eq_ok_iff`: what gets through a list of them
* `Rule.parse_excludeAll`: the same, and that order, number and kind can be changed
-/

namespace BitGrammar

/-! ### One exclusion -/

namespace Parser

variable {p q : Parser} {c : Cursor} {m n : Match} {excludes : Nat → Nat → Bool}

theorem outcome_excluding_of_ok_ok (hp : (p c).outcome = .ok m) (hq : (q c).outcome = .ok n) :
    (excluding excludes p q c).outcome =
      if excludes (m.next.bitsSince c) (n.next.bitsSince c) then
        .failed (c.rejection (.excluded (n.next.bitsSince c) (m.next.bitsSince c)))
      else .ok m := by
  rw [excluding, Run.outcome_bind_ok hp, Run.outcome_attempt_bind_ok hq]
  dsimp only
  split <;> rfl

theorem outcome_excluding_of_ok_failed {e : Failure} (hp : (p c).outcome = .ok m)
    (hq : (q c).outcome = .failed e) : (excluding excludes p q c).outcome = .ok m := by
  rw [excluding, Run.outcome_bind_ok hp, Run.outcome_attempt_bind_failed hq]
  rfl

theorem outcome_excluding_of_failed {e : Failure} (hp : (p c).outcome = .failed e) :
    (excluding excludes p q c).outcome = .failed e :=
  Run.outcome_bind_failed hp

theorem answers_excluding (hp : (p c).Answers) (hq : (q c).Answers) :
    (excluding excludes p q c).Answers := by
  rcases hp with ⟨m, hm⟩ | ⟨e, he⟩
  · rcases hq with ⟨n, hn⟩ | ⟨f, hf⟩
    · rw [Run.Answers, outcome_excluding_of_ok_ok hm hn]
      split
      · exact .inr ⟨_, rfl⟩
      · exact .inl ⟨m, rfl⟩
    · exact .inl ⟨m, outcome_excluding_of_ok_failed hm hf⟩
  · exact .inr ⟨e, outcome_excluding_of_failed he⟩

/-- **What gets through an exclusion** is a match that is not taken back, as it is. -/
theorem outcome_excluding_eq_ok_iff (answers : (q c).Answers) :
    (excluding excludes p q c).outcome = .ok m ↔ (p c).outcome = .ok m ∧
      ∀ n, (q c).outcome = .ok n → excludes (m.next.bitsSince c) (n.next.bitsSince c) = false := by
  constructor
  · intro h
    have hm := ok_of_excluding h
    refine ⟨hm, fun n hn => ?_⟩
    rw [outcome_excluding_of_ok_ok hm hn] at h
    split at h
    · cases h
    · next spared => exact Bool.eq_false_iff.mpr spared
  · rintro ⟨hm, spared⟩
    rcases answers with ⟨n, hn⟩ | ⟨e, he⟩
    · rw [outcome_excluding_of_ok_ok hm hn, if_neg (Bool.not_eq_true _ ▸ spared n hn)]
    · exact outcome_excluding_of_ok_failed hm he

end Parser

/-! ### Lists of exclusions -/

/-- How much another rule has to match for a match to be taken back. -/
inductive Exclusion.Kind where
  | atLeastAsMuch
  | exactlyAsMuch

/-- A rule whose matches take back those of another one. -/
structure Exclusion where
  kind : Exclusion.Kind
  other : Rule

namespace Exclusion

/-- A match is taken back, given its own length and that of the other one. -/
def Kind.excludes : Kind → Nat → Nat → Bool
  | .atLeastAsMuch => fun own others => own ≤ others
  | .exactlyAsMuch => fun own others => own == others

/-- The other match is shorter, or of another length. -/
def Kind.Spares : Kind → Nat → Nat → Prop
  | .atLeastAsMuch => fun own others => others < own
  | .exactlyAsMuch => fun own others => others ≠ own

/-- A rule with an exclusion around it. -/
def around (e : Exclusion) (rule : Rule) : Rule :=
  match e.kind with
  | .atLeastAsMuch => .butNot rule e.other
  | .exactlyAsMuch => .difference rule e.other

/-- A match of a number of bits from a cursor is not taken back: whatever number the other rule
matches from there, it is smaller, or another one. -/
def Spares (e : Exclusion) (cells : Cells) (c : Cursor) (own : Nat) : Prop :=
  ∀ n others, (e.other.parse cells c).outcome = .ok n → n.next.position = c.position + others →
    e.kind.Spares own others

theorem Kind.excludes_eq_false_iff (kind : Kind) (own others : Nat) :
    kind.excludes own others = false ↔ kind.Spares own others := by
  cases kind with
  | atLeastAsMuch => simp [excludes, Spares]
  | exactlyAsMuch => exact beq_eq_false_iff_ne.trans ne_comm

/-- A shorter match is not one of the same length. -/
theorem Kind.Spares.exactly {kind : Kind} {own others : Nat} (h : kind.Spares own others) :
    Kind.exactlyAsMuch.Spares own others := by
  cases kind with
  | atLeastAsMuch => exact Nat.ne_of_lt h
  | exactlyAsMuch => exact h

end Exclusion

namespace Rule

/-- A rule with exclusions around it, the first of them innermost. -/
def excludeAll (rule : Rule) (exclusions : List Exclusion) : Rule :=
  exclusions.foldl (fun inner e => e.around inner) rule

/-- The run from a cursor answers, and a match does not end before the cursor. -/
structure AnswersOnward (cells : Cells) (rule : Rule) (c : Cursor) : Prop where
  answers : (rule.parse cells c).Answers
  onward : ∀ m, (rule.parse cells c).outcome = .ok m → c.position ≤ m.next.position

variable {cells : Cells} {rule : Rule} {c : Cursor} {m : Match} {e : Exclusion}
  {exclusions : List Exclusion}

theorem AnswersOnward.of_ok (hm : (rule.parse cells c).outcome = .ok m)
    (forward : c.position ≤ m.next.position) : rule.AnswersOnward cells c where
  answers := .inl ⟨m, hm⟩
  onward n hn := by
    obtain rfl := Outcome.ok.inj (hm.symm.trans hn)
    exact forward

theorem around_parse_eq (cells : Cells) (e : Exclusion) (rule : Rule) (c : Cursor) :
    (e.around rule).parse cells c =
      Parser.excluding e.kind.excludes (rule.parse cells) (e.other.parse cells) c := by
  obtain ⟨kind, other⟩ := e
  cases kind <;> rfl

/-- Where rules do not move back, lengths are numbers of bits. -/
theorem outcome_around_eq_ok_iff (hrule : rule.AnswersOnward cells c)
    (hother : e.other.AnswersOnward cells c) :
    ((e.around rule).parse cells c).outcome = .ok m ↔ (rule.parse cells c).outcome = .ok m ∧
      ∃ own, m.next.position = c.position + own ∧ e.Spares cells c own := by
  rw [around_parse_eq, Parser.outcome_excluding_eq_ok_iff hother.answers]
  refine and_congr_right fun hm => ?_
  have length : ∀ {d : Cursor} {count : Nat}, d.position = c.position + count →
      d.bitsSince c = count := by
    intro d count hd
    rw [Cursor.bitsSince, hd, Nat.add_sub_cancel_left]
  constructor
  · intro spared
    refine ⟨m.next.bitsSince c, (Nat.add_sub_of_le (hrule.onward m hm)).symm, ?_⟩
    intro n others hn hlength
    rw [← length hlength]
    exact (e.kind.excludes_eq_false_iff _ _).mp (spared n hn)
  · rintro ⟨own, hown, spares⟩ n hn
    rw [length hown, e.kind.excludes_eq_false_iff]
    exact spares n _ hn (Nat.add_sub_of_le (hother.onward n hn)).symm

theorem AnswersOnward.around (hrule : rule.AnswersOnward cells c)
    (hother : e.other.AnswersOnward cells c) : (e.around rule).AnswersOnward cells c where
  answers := by
    rw [around_parse_eq]
    exact Parser.answers_excluding hrule.answers hother.answers
  onward m hm := hrule.onward m ((outcome_around_eq_ok_iff hrule hother).mp hm).1

theorem AnswersOnward.excludeAll (hrule : rule.AnswersOnward cells c)
    (hothers : ∀ e ∈ exclusions, e.other.AnswersOnward cells c) :
    (rule.excludeAll exclusions).AnswersOnward cells c := by
  induction exclusions generalizing rule with
  | nil => exact hrule
  | cons e exclusions ih =>
    obtain ⟨hother, hothers⟩ := List.forall_mem_cons.mp hothers
    exact ih (hrule.around hother) hothers

/-- **What gets through a list of exclusions** is a match that none of them takes back. -/
theorem outcome_excludeAll_eq_ok_iff (hrule : rule.AnswersOnward cells c)
    (hothers : ∀ e ∈ exclusions, e.other.AnswersOnward cells c) :
    ((rule.excludeAll exclusions).parse cells c).outcome = .ok m ↔
      (rule.parse cells c).outcome = .ok m ∧
        ∃ own, m.next.position = c.position + own ∧ ∀ e ∈ exclusions, e.Spares cells c own := by
  induction exclusions generalizing rule with
  | nil =>
    refine ⟨fun hm => ⟨hm, ?_⟩, And.left⟩
    exact ⟨_, (Nat.add_sub_of_le (hrule.onward m hm)).symm, nofun⟩
  | cons e exclusions ih =>
    obtain ⟨hother, hothers⟩ := List.forall_mem_cons.mp hothers
    have step := ih (hrule.around hother) hothers
    rw [excludeAll, List.foldl_cons, ← excludeAll, step, outcome_around_eq_ok_iff hrule hother]
    constructor
    · rintro ⟨⟨hm, own, hown, spares⟩, own', hown', spare⟩
      obtain rfl : own = own' := by omega
      exact ⟨hm, own, hown, List.forall_mem_cons.mpr ⟨spares, spare⟩⟩
    · rintro ⟨hm, own, hown, spare⟩
      obtain ⟨spares, spare⟩ := List.forall_mem_cons.mp spare
      exact ⟨⟨hm, own, hown, spares⟩, own, hown, spare⟩

/-- **Exclusions around a rule, one inside the other.** Where neither the rule nor those excluded
move back, the whole answers. It matches what the rule matches, with the same value and end, when
each exclusion spares that many bits, and nothing else. So other lists of exclusions leave the same
matches when they have the same members, in whatever order and however often. And they leave every
match that is left by the first list when each of their members is one of that list, or takes back
at the same length only what a member of that list takes back from that length on. -/
theorem parse_excludeAll (cells : Cells) (rule : Rule) (exclusions : List Exclusion) (c : Cursor)
    (hrule : rule.AnswersOnward cells c)
    (hothers : ∀ e ∈ exclusions, e.other.AnswersOnward cells c) :
    ((rule.excludeAll exclusions).parse cells c).Answers ∧
    (∀ m, ((rule.excludeAll exclusions).parse cells c).outcome = .ok m ↔
      (rule.parse cells c).outcome = .ok m ∧
        ∃ own, m.next.position = c.position + own ∧ ∀ e ∈ exclusions, e.Spares cells c own) ∧
    (∀ exclusions', (∀ e, e ∈ exclusions' ↔ e ∈ exclusions) → ∀ m,
      ((rule.excludeAll exclusions').parse cells c).outcome = .ok m ↔
        ((rule.excludeAll exclusions).parse cells c).outcome = .ok m) ∧
    ∀ exclusions', (∀ e ∈ exclusions', e ∈ exclusions ∨
        e.kind = .exactlyAsMuch ∧ ⟨.atLeastAsMuch, e.other⟩ ∈ exclusions) → ∀ m,
      ((rule.excludeAll exclusions).parse cells c).outcome = .ok m →
        ((rule.excludeAll exclusions').parse cells c).outcome = .ok m := by
  have looser : ∀ exclusions', (∀ e ∈ exclusions', e ∈ exclusions ∨
        e.kind = .exactlyAsMuch ∧ ⟨.atLeastAsMuch, e.other⟩ ∈ exclusions) → ∀ m,
      ((rule.excludeAll exclusions).parse cells c).outcome = .ok m →
        ((rule.excludeAll exclusions').parse cells c).outcome = .ok m := by
    intro exclusions' among m hm
    have hothers' : ∀ e ∈ exclusions', e.other.AnswersOnward cells c := fun e he =>
      (among e he).elim (hothers e) fun ⟨_, hmem⟩ => hothers ⟨.atLeastAsMuch, e.other⟩ hmem
    rw [outcome_excludeAll_eq_ok_iff hrule hothers] at hm
    rw [outcome_excludeAll_eq_ok_iff hrule hothers']
    refine hm.imp_right fun ⟨own, hown, spare⟩ => ⟨own, hown, fun e he => ?_⟩
    rcases among e he with hmem | ⟨hkind, hmem⟩
    · exact spare e hmem
    · intro n others hn hlength
      rw [hkind]
      exact (spare _ hmem n others hn hlength).exactly
  refine ⟨(hrule.excludeAll hothers).answers, fun m => outcome_excludeAll_eq_ok_iff hrule hothers,
    fun exclusions' same m => ?_, looser⟩
  have hothers' : ∀ e ∈ exclusions', e.other.AnswersOnward cells c :=
    fun e he => hothers e ((same e).mp he)
  rw [outcome_excludeAll_eq_ok_iff hrule hothers, outcome_excludeAll_eq_ok_iff hrule hothers']
  simp only [same]

/-- Two letters, of which the first one alone is too short to take back both, and with a third one
behind them that makes another length. -/
def shorterAndLonger : List Exclusion :=
  [⟨.atLeastAsMuch, .byte 0x61⟩, ⟨.exactlyAsMuch, .literal [0x61, 0x62, 0x63]⟩]

/-- Both exclusions match and spare the two letters, in either order and with one of them twice. -/
theorem parse_excludeAll_letters :
    (Rule.literal [0x61, 0x62]).AnswersOnward .empty ⟨#[0x61, 0x62, 0x63], 0, {}⟩ ∧
    (∀ e ∈ shorterAndLonger, e.other.AnswersOnward .empty ⟨#[0x61, 0x62, 0x63], 0, {}⟩) ∧
    (((Rule.literal [0x61, 0x62]).excludeAll (shorterAndLonger.reverse ++ shorterAndLonger)).parse
      .empty ⟨#[0x61, 0x62, 0x63], 0, {}⟩).outcome =
        .ok ⟨some (.bytes [0x61, 0x62]), ⟨#[0x61, 0x62, 0x63], 16, {}⟩⟩ := by
  have hrule : (Rule.literal [0x61, 0x62]).AnswersOnward .empty ⟨#[0x61, 0x62, 0x63], 0, {}⟩ :=
    .of_ok rfl (Nat.zero_le _)
  have hothers : ∀ e ∈ shorterAndLonger,
      e.other.AnswersOnward .empty ⟨#[0x61, 0x62, 0x63], 0, {}⟩ := by
    refine List.forall_mem_cons.mpr ⟨.of_ok rfl (Nat.zero_le _), ?_⟩
    exact List.forall_mem_singleton.mpr (.of_ok rfl (Nat.zero_le _))
  obtain ⟨-, -, reordered, -⟩ := parse_excludeAll .empty (.literal [0x61, 0x62]) shorterAndLonger
    ⟨#[0x61, 0x62, 0x63], 0, {}⟩ hrule hothers
  refine ⟨hrule, hothers, (reordered _ (fun e => ?_) _).mpr rfl⟩
  rw [List.mem_append, List.mem_reverse, or_self]

end Rule

end BitGrammar
