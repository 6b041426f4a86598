import BitGrammar.Proofs.Settling

/-!
# What a permutation matches

A permutation is a search with slots that are filled and emptied again. Its meaning needs none of
that. Some of the children match one after another, each of them moving on, and where the last of
them ends all the others match without moving. Such an `Arrangement` is a list of distinct indices
together with one value for each child. A permutation succeeds when there is an arrangement, and
what it gives is the arrangement whose list of indices is the least in lexicographic order.

## What decides the design

In the middle of a search some slots are filled already. A `Completion` is an arrangement of the
children that are left, for given slots. It can be taken apart at its first index
(`completion_cons_iff`), which is how `Parser.fill` proceeds: `Parser.placeConsuming` goes through
the first indices in order, and `Parser.placeEmpty` is the completion without indices.

Trying to move on first, and stopping only when that fails, agrees with the lexicographic order.
Where all the children that are left match without moving, none of them moves on, as parsers are
functions. So the empty list of indices never competes with another one.

## Main definitions

* `Arrangement`: the declarative meaning of a permutation
* `Completion`: the same for a search with some slots filled

## Main results

* `completion_of_fill`: what a search fills in is a completion
* `solves_fill`: a search finds the least completion, or there is none
* `parse_permutation`: a permutation finds the least arrangement, or there is none
-/

namespace BitGrammar

namespace Run

/-- A run succeeds or fails; it does not meet a misuse, and it ends. -/
def Answers {α : Type} (x : Run α) : Prop :=
  (∃ a, x.outcome = .ok a) ∨ ∃ e, x.outcome = .failed e

/-- A run that looks at the outcome of another one answers only if that one does. -/
theorem Answers.of_attempt_bind {α β : Type} {x : Run α} {f : Except Failure α → Run β}
    (h : (x.attempt >>= f).Answers) : x.Answers := by
  obtain ⟨t, o⟩ := x
  cases o with
  | ok a => exact .inl ⟨a, rfl⟩
  | failed e => exact .inr ⟨e, rfl⟩
  | misused what => rcases h with ⟨b, hb⟩ | ⟨e, he⟩ <;> contradiction
  | endless => rcases h with ⟨b, hb⟩ | ⟨e, he⟩ <;> contradiction

/-- A run answers whatever is made of its result. -/
theorem answers_map {α β : Type} {x : Run α} (t : List Record) (f : α → β) :
    (⟨t, x.outcome.map f⟩ : Run β).Answers ↔ x.Answers := by
  obtain ⟨u, o⟩ := x
  cases o <;> simp [Answers, Outcome.map]

end Run

namespace Permutation

/-! ### Arrangements -/

/-- One list of indices comes before another one in lexicographic order, or is the same. -/
def Precedes (order other : List Nat) : Prop :=
  order = other ∨ List.Lex (· < ·) order other

theorem Precedes.cons {order other : List Nat} (h : Precedes order other) (i : Nat) :
    Precedes (i :: order) (i :: other) :=
  h.imp (congrArg (i :: ·)) .cons

theorem precedes_cons_of_lt {i j : Nat} (h : i < j) (order other : List Nat) :
    Precedes (i :: order) (j :: other) :=
  .inr (.rel h)

theorem nil_precedes (order : List Nat) : Precedes [] order := by
  cases order with
  | nil => exact .inl rfl
  | cons i order => exact .inr .nil

/-- The children at some indices match one after another, each of them moving on, with the values
that are given for them. -/
inductive Path (ps : List Parser) (values : List (Option Value)) :
    List Nat → Cursor → Cursor → Prop where
  | nil (c : Cursor) : Path ps values [] c c
  | cons {i : Nat} {order : List Nat} {p : Parser} {c finish : Cursor} {m : Match}
    (child : ps[i]? = some p) (matched : (p c).outcome = .ok m)
    (consumes : c.position < m.next.position) (value : values[i]? = some m.value)
    (rest : Path ps values order m.next finish) : Path ps values (i :: order) c finish

/-- A child matches without moving, with a given value. -/
def MatchesEmpty (p : Parser) (c : Cursor) (value : Option Value) : Prop :=
  ∃ m, (p c).outcome = .ok m ∧ m.next.position = c.position ∧ m.value = value

/-- The children at distinct indices match one after another, each moving on, and where the last of
them ends the others match without moving. There is one value for each child. -/
structure Arrangement (ps : List Parser) (c : Cursor) (order : List Nat)
    (values : List (Option Value)) (finish : Cursor) : Prop where
  nodup : order.Nodup
  length : values.length = ps.length
  path : Path ps values order c finish
  empty : ∀ (i : Nat) (p : Parser), ps[i]? = some p → i ∉ order →
    ∃ v, values[i]? = some v ∧ MatchesEmpty p finish v

/-- An arrangement of the children whose slots are empty. -/
structure Completion (ps : List Parser) (slots : Parser.Slots) (c : Cursor) (order : List Nat)
    (values : List (Option Value)) (finish : Cursor) : Prop where
  nodup : order.Nodup
  length : values.length = ps.length
  path : Path ps values order c finish
  free : ∀ i : Nat, i ∈ order → slots[i]? = some none
  kept : ∀ (i : Nat) (v : Option Value), slots[i]? = some (some v) → values[i]? = some v
  empty : ∀ (i : Nat) (p : Parser), ps[i]? = some p → slots[i]? = some none → i ∉ order →
    ∃ v, values[i]? = some v ∧ MatchesEmpty p finish v

variable {ps : List Parser} {slots : Parser.Slots} {c finish : Cursor} {order : List Nat}
  {values : List (Option Value)}

theorem Path.mem_lt (h : Path ps values order c finish) : ∀ i ∈ order, i < ps.length := by
  induction h with
  | nil c => exact fun i hi => nomatch hi
  | @cons i _ _ _ _ _ child _ _ _ _ ih =>
    intro j hj
    rcases List.mem_cons.mp hj with rfl | hj
    · exact (List.getElem?_eq_some_iff.mp child).1
    · exact ih j hj

/-- With all slots empty, completions are arrangements. -/
theorem completion_replicate_iff :
    Completion ps (List.replicate ps.length none) c order values finish ↔
      Arrangement ps c order values finish := by
  have hnone : ∀ {i}, i < ps.length →
      (List.replicate ps.length (none : Option (Option Value)))[i]? = some none :=
    fun hi => by rw [List.getElem?_replicate, if_pos hi]
  constructor
  · intro h
    refine ⟨h.nodup, h.length, h.path, fun i p hp hi => h.empty i p hp ?_ hi⟩
    exact hnone (List.getElem?_eq_some_iff.mp hp).1
  · intro h
    refine ⟨h.nodup, h.length, h.path, fun i hi => hnone (h.path.mem_lt i hi), fun i v hv => ?_,
      fun i p hp _ hi => h.empty i p hp hi⟩
    rw [List.getElem?_replicate] at hv
    split at hv <;> cases hv

/-- The search stops here. -/
theorem completion_nil_iff : Completion ps slots c [] values finish ↔
    finish = c ∧ values.length = ps.length ∧
      (∀ (i : Nat) (v : Option Value), slots[i]? = some (some v) → values[i]? = some v) ∧
      ∀ (i : Nat) (p : Parser), ps[i]? = some p → slots[i]? = some none →
        ∃ v, values[i]? = some v ∧ MatchesEmpty p c v := by
  constructor
  · intro h
    cases h.path with
    | nil =>
      exact ⟨rfl, h.length, h.kept, fun i p hp hslot => h.empty i p hp hslot List.not_mem_nil⟩
  · rintro ⟨rfl, hlength, hkept, hempty⟩
    exact ⟨List.nodup_nil, hlength, .nil finish, (fun i hi => nomatch hi), hkept,
      fun i p hp hslot _ => hempty i p hp hslot⟩

/-- Filling a slot leaves the other slots that are empty. -/
theorem getElem?_set_eq_none_iff {i j : Nat} {v : Option Value} :
    (slots.set i (some v))[j]? = some none ↔ j ≠ i ∧ slots[j]? = some none := by
  rw [List.getElem?_set]
  split
  · next same => simp [same]
  · next other => simp [Ne.symm other]

/-- Filling an empty slot adds one value to those that are there. -/
theorem getElem?_set_eq_some_iff {i j : Nat} {v w : Option Value} (h : slots[i]? = some none) :
    (slots.set i (some v))[j]? = some (some w) ↔
      (j = i ∧ w = v) ∨ slots[j]? = some (some w) := by
  obtain ⟨hlt, empty⟩ := List.getElem?_eq_some_iff.mp h
  rw [List.getElem?_set]
  split
  · next same =>
    subst same
    simp [hlt, empty, eq_comm]
  · next other => simp [Ne.symm other]

/-- The search goes on with a child that moves on, and fills its slot. -/
theorem completion_cons_iff {i : Nat} : Completion ps slots c (i :: order) values finish ↔
    slots[i]? = some none ∧ ∃ p m, ps[i]? = some p ∧ (p c).outcome = .ok m ∧
      c.position < m.next.position ∧
      Completion ps (slots.set i (some m.value)) m.next order values finish := by
  constructor
  · intro h
    have hslot := h.free i (List.mem_cons_self ..)
    obtain ⟨hnot, hnodup⟩ := List.nodup_cons.mp h.nodup
    cases h.path with
    | @cons _ _ p _ _ m child matched consumes value rest =>
      refine ⟨hslot, p, m, child, matched, consumes, hnodup, h.length, rest, ?_, ?_, ?_⟩
      · intro j hj
        have hne : j ≠ i := fun heq => hnot (heq ▸ hj)
        exact getElem?_set_eq_none_iff.mpr ⟨hne, h.free j (List.mem_cons_of_mem i hj)⟩
      · intro j v hv
        rcases (getElem?_set_eq_some_iff hslot).mp hv with ⟨rfl, rfl⟩ | hv
        · exact value
        · exact h.kept j v hv
      · intro j q hq hj hnotin
        obtain ⟨hne, hj⟩ := getElem?_set_eq_none_iff.mp hj
        exact h.empty j q hq hj fun hmem => (List.mem_cons.mp hmem).elim hne hnotin
  · rintro ⟨hslot, p, m, child, matched, consumes, h⟩
    have hnot : i ∉ order := fun hi => (getElem?_set_eq_none_iff.mp (h.free i hi)).1 rfl
    have value := h.kept i _ ((getElem?_set_eq_some_iff hslot).mpr (.inl ⟨rfl, rfl⟩))
    refine ⟨List.nodup_cons.mpr ⟨hnot, h.nodup⟩, h.length,
      .cons child matched consumes value h.path, ?_, ?_, ?_⟩
    · intro j hj
      rcases List.mem_cons.mp hj with rfl | hj
      · exact hslot
      · exact (getElem?_set_eq_none_iff.mp (h.free j hj)).2
    · intro j v hv
      exact h.kept j v ((getElem?_set_eq_some_iff hslot).mpr (.inr hv))
    · intro j q hq hj hnotin
      have hne : j ≠ i := fun heq => hnotin (heq ▸ List.mem_cons_self ..)
      exact h.empty j q hq (getElem?_set_eq_none_iff.mpr ⟨hne, hj⟩) fun hmem =>
        hnotin (List.mem_cons_of_mem i hmem)

/-! ### Full slots -/

/-- The number of empty slots. -/
def emptySlots (slots : Parser.Slots) : Nat :=
  slots.countP Option.isNone

theorem emptySlots_set {i : Nat} (h : slots[i]? = some none) (v : Option Value) :
    emptySlots (slots.set i (some v)) + 1 = emptySlots slots := by
  induction slots generalizing i with
  | nil => cases h
  | cons slot slots ih =>
    cases i with
    | zero =>
      obtain rfl : slot = none := Option.some.inj h
      simp [emptySlots]
    | succ i =>
      have hrest := ih (i := i) h
      simp only [emptySlots, List.set_cons_succ, List.countP_cons] at hrest ⊢
      omega

theorem emptySlots_replicate_le (count : Nat) : emptySlots (List.replicate count none) ≤ count := by
  have hle := List.countP_le_length (p := Option.isNone)
    (l := List.replicate count (none : Option (Option Value)))
  rwa [List.length_replicate] at hle

theorem full_of_emptySlots (h : emptySlots slots = 0) (i : Nat) : slots[i]? ≠ some none := by
  intro hi
  exact List.countP_eq_zero.mp h none (List.mem_of_getElem? hi) rfl

/-- Slots without an empty one hold one value each. -/
theorem exists_values_of_full (hfull : ∀ i : Nat, slots[i]? ≠ some none) :
    ∃ values : List (Option Value), slots = values.map some := by
  have hsome : ∀ slot ∈ slots, (some ∘ Option.join) slot = id slot := by
    intro slot hmem
    obtain ⟨i, hi⟩ := List.getElem?_of_mem hmem
    cases slot with
    | none => exact absurd hi (hfull i)
    | some v => rfl
  refine ⟨slots.map Option.join, ?_⟩
  rw [List.map_map, List.map_congr_left hsome, List.map_id]

/-! ### The members left -/

theorem pairwise_unplaced (ps : List Parser) (slots : Parser.Slots) :
    (Parser.unplaced ps slots).Pairwise fun member later => member.1 < later.1 := by
  have hindices : ((ps.zip slots).zipIdx).Pairwise fun a b => a.2 < b.2 := by
    rw [← List.pairwise_map (f := Prod.snd), List.zipIdx_map_snd]
    exact List.pairwise_lt_range'
  refine List.pairwise_filterMap.mpr (hindices.imp fun {a b} hlt member hm later hl => ?_)
  have index : ∀ {entry : (Parser × Option (Option Value)) × Nat} {member : Nat × Parser},
      (if entry.1.2.isNone then some (entry.2, entry.1.1) else none) = some member →
        member.1 = entry.2 := by
    intro entry member h
    split at h
    · cases h
      rfl
    · cases h
  rw [index hm, index hl]
  exact hlt

theorem lt_of_mem_unplaced {member : Nat × Parser} (h : member ∈ Parser.unplaced ps slots) :
    member.1 < slots.length :=
  (List.getElem?_eq_some_iff.mp (Parser.mem_unplaced.mp h).2).1

/-! ### What a search does -/

/-- Children that answer from the cursors with a property, and lead to such cursors again. -/
def Answering (good : Cursor → Prop) (ps : List Parser) : Prop :=
  ∀ p ∈ ps, ∀ d, good d →
    (∃ m, (p d).outcome = .ok m ∧ good m.next) ∨ ∃ e, (p d).outcome = .failed e

/-- A run of a search finds the least completion, or fails where there is none. -/
def Solves (ps : List Parser) (slots : Parser.Slots) (c : Cursor)
    (x : Run (Parser.Slots × Cursor)) : Prop :=
  match x.outcome with
  | .ok filled => ∃ order values, filled.1 = values.map some ∧
      Completion ps slots c order values filled.2 ∧
      ∀ other values' finish', Completion ps slots c other values' finish' → Precedes order other
  | .failed _ => ∀ order values finish, ¬ Completion ps slots c order values finish
  | .misused _ | .endless => False

/-- A run of a search finds the least completion among those that go on with one of the members, or
no filled slots where there is none. -/
def SolvesConsuming (ps : List Parser) (slots : Parser.Slots) (c : Cursor)
    (members : List (Nat × Parser))
    (x : Run (Except (Option Failure) (Parser.Slots × Cursor))) : Prop :=
  match x.outcome with
  | .ok (.ok filled) => ∃ i order values, filled.1 = values.map some ∧
      Completion ps slots c (i :: order) values filled.2 ∧
      ∀ member ∈ members, ∀ other values' finish',
        Completion ps slots c (member.1 :: other) values' finish' →
          Precedes (i :: order) (member.1 :: other)
  | .ok (.error _) => ∀ member ∈ members, ∀ order values finish,
      ¬ Completion ps slots c (member.1 :: order) values finish
  | .failed _ | .misused _ | .endless => False

/-- A run places the members where they match without moving, or fails as one does not. -/
def PlacesEmpty (c : Cursor) (members : List (Nat × Parser)) (slots : Parser.Slots)
    (x : Run Parser.Slots) : Prop :=
  match x.outcome with
  | .ok out =>
    out.length = slots.length ∧
      (∀ member ∈ members, ∃ v, out[member.1]? = some (some v) ∧ MatchesEmpty member.2 c v) ∧
      ∀ j : Nat, (∀ member ∈ members, j ≠ member.1) → out[j]? = slots[j]?
  | .failed _ => ∃ member ∈ members, ∀ v, ¬ MatchesEmpty member.2 c v
  | .misused _ | .endless => False

theorem Solves.cases {x : Run (Parser.Slots × Cursor)} (h : Solves ps slots c x) :
    (∃ order values finish, x.outcome = .ok (values.map some, finish) ∧
      Completion ps slots c order values finish ∧
      ∀ other values' finish', Completion ps slots c other values' finish' →
        Precedes order other) ∨
    (∃ e, x.outcome = .failed e) ∧
      ∀ order values finish, ¬ Completion ps slots c order values finish := by
  obtain ⟨t, o⟩ := x
  cases o with
  | ok filled =>
    obtain ⟨filled, finish⟩ := filled
    obtain ⟨order, values, rfl, hcomp, hleast⟩ := h
    exact .inl ⟨order, values, finish, rfl, hcomp, hleast⟩
  | failed e => exact .inr ⟨⟨e, rfl⟩, h⟩
  | misused m => exact h.elim
  | endless => exact h.elim

theorem SolvesConsuming.cases {members : List (Nat × Parser)}
    {x : Run (Except (Option Failure) (Parser.Slots × Cursor))}
    (h : SolvesConsuming ps slots c members x) :
    (∃ i order values finish, x.outcome = .ok (.ok (values.map some, finish)) ∧
      Completion ps slots c (i :: order) values finish ∧
      ∀ member ∈ members, ∀ other values' finish',
        Completion ps slots c (member.1 :: other) values' finish' →
          Precedes (i :: order) (member.1 :: other)) ∨
    (∃ kept, x.outcome = .ok (.error kept)) ∧
      ∀ member ∈ members, ∀ order values finish,
        ¬ Completion ps slots c (member.1 :: order) values finish := by
  obtain ⟨t, o⟩ := x
  cases o with
  | ok placed =>
    cases placed with
    | ok filled =>
      obtain ⟨filled, finish⟩ := filled
      obtain ⟨i, order, values, rfl, hcomp, hleast⟩ := h
      exact .inl ⟨i, order, values, finish, rfl, hcomp, hleast⟩
    | error kept => exact .inr ⟨⟨kept, rfl⟩, h⟩
  | failed e => exact h.elim
  | misused m => exact h.elim
  | endless => exact h.elim

theorem PlacesEmpty.cases {members : List (Nat × Parser)} {x : Run Parser.Slots}
    (h : PlacesEmpty c members slots x) :
    (∃ out, x.outcome = .ok out ∧ out.length = slots.length ∧
      (∀ member ∈ members, ∃ v, out[member.1]? = some (some v) ∧ MatchesEmpty member.2 c v) ∧
      ∀ j : Nat, (∀ member ∈ members, j ≠ member.1) → out[j]? = slots[j]?) ∨
    (∃ e, x.outcome = .failed e) ∧ ∃ member ∈ members, ∀ v, ¬ MatchesEmpty member.2 c v := by
  obtain ⟨t, o⟩ := x
  cases o with
  | ok out => exact .inl ⟨out, rfl, h⟩
  | failed e => exact .inr ⟨⟨e, rfl⟩, h⟩
  | misused m => exact h.elim
  | endless => exact h.elim

/-- Members that are all placed without moving have their slots filled, and no others. -/
theorem placed_of_placeEmpty {members : List (Nat × Parser)} {kept : Option Failure}
    (hbounds : ∀ member ∈ members, member.1 < slots.length)
    (hsorted : members.Pairwise fun member later => member.1 < later.1) {out : Parser.Slots}
    (h : (Parser.placeEmpty c kept members slots).outcome = .ok out) :
    out.length = slots.length ∧
      (∀ member ∈ members, ∃ v, out[member.1]? = some (some v) ∧ MatchesEmpty member.2 c v) ∧
      ∀ j : Nat, (∀ member ∈ members, j ≠ member.1) → out[j]? = slots[j]? := by
  induction members generalizing slots with
  | nil =>
    cases h
    exact ⟨rfl, (fun member hmem => nomatch hmem), fun j _ => rfl⟩
  | cons member members ih =>
    obtain ⟨i, p⟩ := member
    obtain ⟨hfirst, hsorted⟩ := List.pairwise_cons.mp hsorted
    obtain ⟨hi, hbounds⟩ := List.forall_mem_cons.mp hbounds
    rw [Parser.placeEmpty] at h
    rcases Run.Answers.of_attempt_bind (.inl ⟨_, h⟩) with ⟨m, hm⟩ | ⟨e, he⟩
    · rw [Run.outcome_attempt_bind_ok hm] at h
      dsimp only at h
      split at h
      · next hstay =>
        obtain ⟨hlength, hplaced, hothers⟩ := ih (by simpa using hbounds) hsorted h
        refine ⟨hlength.trans (List.length_set ..), List.forall_mem_cons.mpr ⟨?_, hplaced⟩,
          fun j hj => ?_⟩
        · refine ⟨m.value, ?_, m, hm, hstay, rfl⟩
          rw [hothers i fun later hlater => Nat.ne_of_lt (hfirst later hlater)]
          exact List.getElem?_set_self hi
        · obtain ⟨hne, hrest⟩ := List.forall_mem_cons.mp hj
          rw [hothers j hrest]
          exact List.getElem?_set_ne hne.symm
      · cases h
    · rw [Run.outcome_attempt_bind_failed he] at h
      cases h

/-- A member that does not match empty input is in the way of placing them all so. The failure is
the one kept, or else that of the member or the fallback. -/
theorem exists_of_placeEmpty_failed {members : List (Nat × Parser)} {kept : Option Failure}
    {e : Failure}
    (h : (Parser.placeEmpty c kept members slots).outcome = .failed e) :
    ∃ member ∈ members, (∀ v, ¬ MatchesEmpty member.2 c v) ∧
      ((∃ e', (member.2 c).outcome = .failed e' ∧ e = Failure.keepFurthest kept e') ∨
        e = kept.getD (c.rejection .unplaceable)) := by
  induction members generalizing slots with
  | nil => cases h
  | cons member members ih =>
    obtain ⟨i, p⟩ := member
    rw [Parser.placeEmpty] at h
    rcases Run.Answers.of_attempt_bind (.inr ⟨_, h⟩) with ⟨m, hm⟩ | ⟨e', he'⟩
    · rw [Run.outcome_attempt_bind_ok hm] at h
      dsimp only at h
      split at h
      · obtain ⟨later, hmem, hlater⟩ := ih h
        exact ⟨later, List.mem_cons_of_mem _ hmem, hlater⟩
      · next hmoved =>
        refine ⟨(i, p), List.mem_cons_self .., ?_, .inr (Outcome.failed.inj h).symm⟩
        rintro v ⟨n, hn, hstay, -⟩
        obtain rfl : n = m := Outcome.ok.inj (hn.symm.trans hm)
        exact hmoved hstay
    · rw [Run.outcome_attempt_bind_failed he'] at h
      refine ⟨(i, p), List.mem_cons_self .., ?_, .inl ⟨e', he', (Outcome.failed.inj h).symm⟩⟩
      rintro v ⟨n, hn, -⟩
      cases hn.symm.trans he'

/-- Members that answer are placed without moving, or one of them fails. -/
theorem answers_placeEmpty {members : List (Nat × Parser)}
    (answers : ∀ member ∈ members, (member.2 c).Answers) (kept : Option Failure)
    (slots : Parser.Slots) : (Parser.placeEmpty c kept members slots).Answers := by
  induction members generalizing slots with
  | nil => exact .inl ⟨slots, rfl⟩
  | cons member members ih =>
    obtain ⟨i, p⟩ := member
    obtain ⟨hfirst, hrest⟩ := List.forall_mem_cons.mp answers
    rw [Run.Answers, Parser.placeEmpty]
    rcases hfirst with ⟨m, hm⟩ | ⟨e, he⟩
    · rw [Run.outcome_attempt_bind_ok hm]
      dsimp only
      split
      · exact ih hrest _
      · exact .inr ⟨_, rfl⟩
    · rw [Run.outcome_attempt_bind_failed he]
      exact .inr ⟨_, rfl⟩

theorem placesEmpty_placeEmpty {members : List (Nat × Parser)}
    (answers : ∀ member ∈ members, (member.2 c).Answers)
    (hbounds : ∀ member ∈ members, member.1 < slots.length)
    (hsorted : members.Pairwise fun member later => member.1 < later.1) (kept : Option Failure) :
    PlacesEmpty c members slots (Parser.placeEmpty c kept members slots) := by
  rw [PlacesEmpty]
  rcases answers_placeEmpty answers kept slots with ⟨out, hout⟩ | ⟨e, he⟩
  · rw [hout]
    exact placed_of_placeEmpty hbounds hsorted hout
  · rw [he]
    obtain ⟨member, hmem, blocked, -⟩ := exists_of_placeEmpty_failed he
    exact ⟨member, hmem, blocked⟩

theorem SolvesConsuming.cons {members : List (Nat × Parser)}
    {x : Run (Except (Option Failure) (Parser.Slots × Cursor))}
    (h : SolvesConsuming ps slots c members x) {member : Nat × Parser}
    (hnone : ∀ order values finish, ¬ Completion ps slots c (member.1 :: order) values finish) :
    SolvesConsuming ps slots c (member :: members) x := by
  obtain ⟨t, o⟩ := x
  cases o with
  | ok placed =>
    cases placed with
    | ok filled =>
      obtain ⟨i, order, values, hfilled, hcomp, hleast⟩ := h
      refine ⟨i, order, values, hfilled, hcomp, fun later hmem other values' finish' hother => ?_⟩
      rcases List.mem_cons.mp hmem with rfl | hmem
      · exact absurd hother (hnone other values' finish')
      · exact hleast later hmem other values' finish' hother
    | error kept =>
      intro later hmem
      rcases List.mem_cons.mp hmem with rfl | hmem
      · exact hnone
      · exact h later hmem
  | failed e => exact h
  | misused m => exact h
  | endless => exact h

/-- The members are tried in the order of their indices, so that the first one to lead to a
completion leads to the least. -/
theorem solvesConsuming_placeConsuming {good : Cursor → Prop} (hps : Answering good ps)
    {place : Parser.Slots → Cursor → Run (Parser.Slots × Cursor)} {members : List (Nat × Parser)}
    (hplace : ∀ (i : Nat) v d, slots[i]? = some none → good d →
      Solves ps (slots.set i (some v)) d (place (slots.set i (some v)) d))
    (hmembers : ∀ member ∈ members, ps[member.1]? = some member.2 ∧ slots[member.1]? = some none)
    (hsorted : members.Pairwise fun member later => member.1 < later.1) (hc : good c)
    (kept : Option Failure) :
    SolvesConsuming ps slots c members (Parser.placeConsuming place slots c members kept) := by
  induction members generalizing kept with
  | nil => exact fun member hmem => nomatch hmem
  | cons member members ih =>
    obtain ⟨i, p⟩ := member
    obtain ⟨hp, hslot⟩ := hmembers (i, p) (List.mem_cons_self ..)
    obtain ⟨hfirst, hsorted⟩ := List.pairwise_cons.mp hsorted
    have hrest := ih (fun member hmem => hmembers member (List.mem_cons_of_mem _ hmem)) hsorted
    -- what a completion that goes on with this member says about its run
    have hgoes : ∀ order values finish, Completion ps slots c (i :: order) values finish →
        ∃ m, (p c).outcome = .ok m ∧ c.position < m.next.position ∧
          Completion ps (slots.set i (some m.value)) m.next order values finish := by
      intro order values finish h
      obtain ⟨-, q, m, hq, hm, hlt, hcomp⟩ := completion_cons_iff.mp h
      obtain rfl : p = q := Option.some.inj (hp.symm.trans hq)
      exact ⟨m, hm, hlt, hcomp⟩
    rw [SolvesConsuming, Parser.placeConsuming]
    rcases hps p (List.mem_of_getElem? hp) c hc with ⟨m, hm, hgood⟩ | ⟨e, he⟩
    · have hsame : ∀ {n}, (p c).outcome = .ok n → n = m :=
        fun hn => Outcome.ok.inj (hn.symm.trans hm)
      rw [Run.outcome_attempt_bind_ok hm]
      dsimp only
      by_cases hlt : c.position < m.next.position
      · rw [if_pos hlt]
        rcases (hplace i m.value m.next hslot hgood).cases with
          ⟨order, values, finish, hout, hcomp, hleast⟩ | ⟨⟨e, hout⟩, hnone⟩
        · rw [Run.outcome_attempt_bind_ok hout]
          refine ⟨i, order, values, rfl,
            completion_cons_iff.mpr ⟨hslot, p, m, hp, hm, hlt, hcomp⟩, ?_⟩
          intro later hmem other values' finish' hother
          rcases List.mem_cons.mp hmem with rfl | hmem
          · obtain ⟨n, hn, -, hcomp'⟩ := hgoes other values' finish' hother
            obtain rfl := hsame hn
            exact (hleast other values' finish' hcomp').cons i
          · exact precedes_cons_of_lt (hfirst later hmem) order other
        · rw [Run.outcome_attempt_bind_failed hout]
          refine (hrest _).cons fun order values finish h => ?_
          obtain ⟨n, hn, -, hcomp⟩ := hgoes order values finish h
          obtain rfl := hsame hn
          exact hnone order values finish hcomp
      · rw [if_neg hlt]
        refine (hrest _).cons fun order values finish h => ?_
        obtain ⟨n, hn, hlt', -⟩ := hgoes order values finish h
        obtain rfl := hsame hn
        exact hlt hlt'
    · rw [Run.outcome_attempt_bind_failed he]
      refine (hrest _).cons fun order values finish h => ?_
      obtain ⟨n, hn, -⟩ := hgoes order values finish h
      rw [he] at hn
      cases hn

/-- Where all empty slots can be filled without moving, nothing can be filled by moving on. -/
theorem Completion.not_cons_of_nil {i : Nat} {values' : List (Option Value)} {finish' : Cursor}
    (h : Completion ps slots c [] values finish) :
    ¬ Completion ps slots c (i :: order) values' finish' := by
  intro h'
  obtain ⟨-, -, -, hempty⟩ := completion_nil_iff.mp h
  obtain ⟨hslot, p, m, hp, hm, hlt, -⟩ := completion_cons_iff.mp h'
  obtain ⟨v, -, n, hn, hstay, -⟩ := hempty i p hp hslot
  obtain rfl : n = m := Outcome.ok.inj (hn.symm.trans hm)
  omega

theorem getElem?_map_some {i : Nat} {v : Option Value} :
    (values.map some)[i]? = some (some v) ↔ values[i]? = some v := by
  rw [List.getElem?_map, Option.map_eq_some_iff]
  constructor
  · rintro ⟨w, hw, heq⟩
    rwa [← Option.some.inj heq]
  · intro hv
    exact ⟨v, hv, rfl⟩

/-- An empty slot is that of a member that is left. -/
theorem exists_mem_unplaced (hlength : slots.length = ps.length) {i : Nat}
    (hslot : slots[i]? = some none) : ∃ p, ps[i]? = some p ∧ (i, p) ∈ Parser.unplaced ps slots := by
  have hlt : i < ps.length := hlength ▸ (List.getElem?_eq_some_iff.mp hslot).1
  exact ⟨ps[i], List.getElem?_eq_getElem hlt,
    Parser.mem_unplaced.mpr ⟨List.getElem?_eq_getElem hlt, hslot⟩⟩

/-- Members that are placed where they match without moving complete the slots. -/
theorem completion_of_placesEmpty (hlength : slots.length = ps.length) {out : Parser.Slots}
    (hout : out.length = slots.length)
    (hplaced : ∀ member ∈ Parser.unplaced ps slots,
      ∃ v, out[member.1]? = some (some v) ∧ MatchesEmpty member.2 c v)
    (hothers : ∀ j : Nat, (∀ member ∈ Parser.unplaced ps slots, j ≠ member.1) →
      out[j]? = slots[j]?) :
    ∃ values, out = values.map some ∧ Completion ps slots c [] values c := by
  have hfilled : ∀ {i : Nat}, slots[i]? ≠ some none → out[i]? = slots[i]? := by
    refine fun {i} hne => hothers i fun member hmem heq => hne ?_
    rw [heq]
    exact (Parser.mem_unplaced.mp hmem).2
  have hfull : ∀ i : Nat, out[i]? ≠ some none := by
    intro i hi
    by_cases hslot : slots[i]? = some none
    · obtain ⟨p, -, hmem⟩ := exists_mem_unplaced hlength hslot
      obtain ⟨v, hv, -⟩ := hplaced (i, p) hmem
      rw [hi] at hv
      cases hv
    · exact hslot ((hfilled hslot).symm.trans hi)
  obtain ⟨values, rfl⟩ := exists_values_of_full hfull
  refine ⟨values, rfl, completion_nil_iff.mpr ⟨rfl, ?_, ?_, ?_⟩⟩
  · rw [← hlength, ← hout, List.length_map]
  · intro i v hv
    rw [← getElem?_map_some, hfilled (by rw [hv]; exact nofun)]
    exact hv
  · intro i p hp hslot
    obtain ⟨v, hv, hempty⟩ := hplaced (i, p) (Parser.mem_unplaced.mpr ⟨hp, hslot⟩)
    exact ⟨v, getElem?_map_some.mp hv, hempty⟩

/-- Full slots are complete. -/
theorem completion_of_full (hlength : slots.length = ps.length)
    (hfull : ∀ i : Nat, slots[i]? ≠ some none) (c : Cursor) :
    ∃ values, slots = values.map some ∧ Completion ps slots c [] values c := by
  obtain ⟨values, rfl⟩ := exists_values_of_full hfull
  rw [List.length_map] at hlength
  exact ⟨values, rfl, completion_nil_iff.mpr ⟨rfl, hlength, fun i v hv => getElem?_map_some.mp hv,
    fun i p _ hslot => absurd hslot (hfull i)⟩⟩

/-- Slots that are found by moving on come from a member that does so. -/
theorem exists_of_placeConsuming
    {place : Parser.Slots → Cursor → Run (Parser.Slots × Cursor)} {members : List (Nat × Parser)}
    {kept : Option Failure} {filled : Parser.Slots × Cursor}
    (h : (Parser.placeConsuming place slots c members kept).outcome = .ok (.ok filled)) :
    ∃ member ∈ members, ∃ m, (member.2 c).outcome = .ok m ∧ c.position < m.next.position ∧
      (place (slots.set member.1 (some m.value)) m.next).outcome = .ok filled := by
  induction members generalizing kept with
  | nil => cases h
  | cons member members ih =>
    obtain ⟨i, p⟩ := member
    refine (List.exists_mem_cons_iff _ _ _).mpr ?_
    rw [Parser.placeConsuming] at h
    rcases Run.Answers.of_attempt_bind (.inl ⟨_, h⟩) with ⟨m, hm⟩ | ⟨e, he⟩
    · rw [Run.outcome_attempt_bind_ok hm] at h
      dsimp only at h
      split at h
      · next hlt =>
        rcases Run.Answers.of_attempt_bind (.inl ⟨_, h⟩) with ⟨found, hfound⟩ | ⟨e, he⟩
        · rw [Run.outcome_attempt_bind_ok hfound] at h
          cases h
          exact .inl ⟨m, hm, hlt, hfound⟩
        · rw [Run.outcome_attempt_bind_failed he] at h
          exact .inr (ih h)
      · exact .inr (ih h)
    · rw [Run.outcome_attempt_bind_failed he] at h
      exact .inr (ih h)

/-- **What a search fills in is a completion**, also where it would not end from other slots or
cursors. The induction is on the number of empty slots that the search allows for. -/
theorem completion_of_fill {count : Nat} (hlength : slots.length = ps.length)
    (hcount : emptySlots slots ≤ count) {filled : Parser.Slots × Cursor}
    (h : (Parser.fill ps count slots c).outcome = .ok filled) :
    ∃ order values, filled.1 = values.map some ∧
      Completion ps slots c order values filled.2 := by
  induction count generalizing slots c with
  | zero =>
    cases h
    exact ⟨[], completion_of_full hlength (full_of_emptySlots (Nat.le_zero.mp hcount)) c⟩
  | succ count ih =>
    obtain ⟨placed, hplaced, hrest⟩ := Run.ok_of_bind h
    cases placed with
    | ok found =>
      cases hrest
      obtain ⟨member, hmem, m, hm, hlt, hfill⟩ := exists_of_placeConsuming hplaced
      obtain ⟨hp, hslot⟩ := Parser.mem_unplaced.mp hmem
      have hset := emptySlots_set hslot m.value
      obtain ⟨order, values, hfilled, hcomp⟩ :=
        ih (by rw [List.length_set, hlength]) (by omega) hfill
      exact ⟨member.1 :: order, values, hfilled,
        completion_cons_iff.mpr ⟨hslot, member.2, m, hp, hm, hlt, hcomp⟩⟩
    | error kept =>
      obtain ⟨out, hout, heq⟩ := Run.ok_of_bind hrest
      cases heq
      obtain ⟨hsame, hmembers, hothers⟩ := placed_of_placeEmpty
        (fun _ => lt_of_mem_unplaced)
        (pairwise_unplaced ps slots) hout
      exact ⟨[], completion_of_placesEmpty hlength hsame hmembers hothers⟩

/-- **A search finds the least completion, or there is none.** The induction is on the number of
empty slots that the search allows for. -/
theorem solves_fill {good : Cursor → Prop} (hps : Answering good ps) {count : Nat}
    (hlength : slots.length = ps.length) (hcount : emptySlots slots ≤ count) (hc : good c) :
    Solves ps slots c (Parser.fill ps count slots c) := by
  induction count generalizing slots c with
  | zero =>
    obtain ⟨values, hvalues, hcomp⟩ :=
      completion_of_full hlength (full_of_emptySlots (Nat.le_zero.mp hcount)) c
    exact ⟨[], values, hvalues, hcomp, fun other _ _ _ => nil_precedes other⟩
  | succ count ih =>
    have hplace : ∀ (i : Nat) v d, slots[i]? = some none → good d →
        Solves ps (slots.set i (some v)) d (Parser.fill ps count (slots.set i (some v)) d) := by
      intro i v d hi hd
      have hset := emptySlots_set hi v
      exact ih (by rw [List.length_set, hlength]) (by omega) hd
    have hcons := solvesConsuming_placeConsuming hps hplace
      (fun member hmem => Parser.mem_unplaced.mp hmem) (pairwise_unplaced ps slots) hc none
    have answers : ∀ member ∈ Parser.unplaced ps slots, (member.2 c).Answers :=
      fun member hmem => (hps member.2 (Parser.mem_of_mem_unplaced hmem) c hc).imp_left
        fun hm => hm.imp fun _ => And.left
    rw [Solves, Parser.fill]
    rcases hcons.cases with
      ⟨i, order, values, finish, hout, hcomp, hleast⟩ | ⟨⟨kept, hout⟩, hnone⟩
    · rw [Run.outcome_bind_ok hout]
      refine ⟨i :: order, values, rfl, hcomp, fun other values' finish' hother => ?_⟩
      cases other with
      | nil => exact absurd hcomp hother.not_cons_of_nil
      | cons j other =>
        obtain ⟨p, -, hmem⟩ := exists_mem_unplaced hlength (completion_cons_iff.mp hother).1
        exact hleast (j, p) hmem other values' finish' hother
    · rw [Run.outcome_bind_ok hout]
      dsimp only
      rcases (placesEmpty_placeEmpty answers (fun _ => lt_of_mem_unplaced)
          (pairwise_unplaced ps slots) kept).cases with
        ⟨out, hstop, hfilled, hplaced, hothers⟩ | ⟨⟨e, hstop⟩, member, hmem, blocked⟩
      · rw [Run.outcome_bind_ok hstop]
        obtain ⟨values, hvalues, hcomp⟩ := completion_of_placesEmpty hlength hfilled hplaced hothers
        exact ⟨[], values, hvalues, hcomp, fun other _ _ _ => nil_precedes other⟩
      · rw [Run.outcome_bind_failed hstop]
        intro order values finish h
        cases order with
        | nil =>
          obtain ⟨hp, hslot⟩ := Parser.mem_unplaced.mp hmem
          obtain ⟨-, -, -, hall⟩ := completion_nil_iff.mp h
          obtain ⟨v, -, hv⟩ := hall member.1 member.2 hp hslot
          exact blocked v hv
        | cons j order =>
          obtain ⟨p, -, hmem⟩ := exists_mem_unplaced hlength (completion_cons_iff.mp h).1
          exact hnone (j, p) hmem order values finish h

/-! ### Permutations -/

theorem slotValues_map_some (values : List (Option Value)) :
    Parser.slotValues (values.map some) = values.reduceOption := by
  rw [Parser.slotValues, List.filterMap_map]
  rfl

/-- **A permutation finds the least arrangement, or there is none.** -/
theorem outcome_permutation {good : Cursor → Prop} (hps : Answering good ps) (hc : good c) :
    (∃ order values finish, Arrangement ps c order values finish ∧
      (∀ other values' finish', Arrangement ps c other values' finish' → Precedes order other) ∧
      (Parser.permutation ps c).outcome = .ok ⟨some (.sequence values.reduceOption), finish⟩) ∨
    (∃ e, (Parser.permutation ps c).outcome = .failed e) ∧
      ∀ order values finish, ¬ Arrangement ps c order values finish := by
  rw [Parser.permutation]
  rcases (solves_fill hps List.length_replicate (emptySlots_replicate_le ps.length) hc).cases with
    ⟨order, values, finish, hout, hcomp, hleast⟩ | ⟨⟨e, hout⟩, hnone⟩
  · refine .inl ⟨order, values, finish, completion_replicate_iff.mp hcomp, ?_, ?_⟩
    · intro other values' finish' hother
      exact hleast other values' finish' (completion_replicate_iff.mpr hother)
    · rw [Run.outcome_bind_ok hout, ← slotValues_map_some]
      rfl
  · refine .inr ⟨⟨e, Run.outcome_bind_failed hout⟩, fun order values finish h => ?_⟩
    exact hnone order values finish (completion_replicate_iff.mpr h)

/-- A parser that is put together from a list of rules does not tell how they run within it from how
they run by themselves. -/
theorem map_parseWithin_eq (cells : Cells) (rules : List Rule) (hc : c.WellFormed)
    {combine : List Parser → Parser}
    (related : ∀ {ps qs : List Parser},
      List.Forall₂ ((Invariant.within c.input 0).same False).Related ps qs →
        ((Invariant.within c.input 0).same False).Related (combine ps) (combine qs)) :
    combine (rules.map (Rule.parseWithin cells (Rule.depthBound cells c))) c =
      combine (rules.map (Rule.parse cells)) c :=
  Rule.eq_of_related (related (Interpretation.forall₂_map fun rule _ =>
    Rule.related_parse cells rule c)) hc

/-- Children run within a permutation as they do by themselves. -/
theorem permutation_parse_eq (cells : Cells) (rules : List Rule) (hc : c.WellFormed) :
    (Rule.permutation rules).parse cells c =
      Parser.permutation (rules.map (Rule.parse cells)) c := by
  rw [Rule.parse, Rule.parseWithin_permutation]
  exact map_parseWithin_eq cells rules hc .permutation

theorem answering_parse (cells : Cells) {rules : List Rule} {input : Array UInt8}
    (answers : ∀ rule ∈ rules, ∀ d : Cursor, d.input = input → d.WellFormed →
      (rule.parse cells d).Answers) :
    Answering (Cursor.Within input 0) (rules.map (Rule.parse cells)) := by
  intro p hp d hd
  obtain ⟨rule, hrule, rfl⟩ := List.mem_map.mp hp
  rcases answers rule hrule d hd.input_eq hd.wellFormed with ⟨m, hm⟩ | hfailed
  · exact .inl ⟨m, hm, (Rule.within_of_parse hd hm).1⟩
  · exact .inr hfailed

/-- **A permutation is its declarative meaning.** Children that answer from every cursor match in
any order exactly when they can be arranged. The match is that of the arrangement whose indices come
first, with the values in the order of the children. -/
theorem parse_permutation (cells : Cells) (rules : List Rule) (c : Cursor) (hc : c.WellFormed)
    (answers : ∀ rule ∈ rules, ∀ d : Cursor, d.input = c.input → d.WellFormed →
      (rule.parse cells d).Answers) :
    ((∃ m, ((Rule.permutation rules).parse cells c).outcome = .ok m) ↔
      ∃ order values finish, Arrangement (rules.map (Rule.parse cells)) c order values finish) ∧
    ∀ m, ((Rule.permutation rules).parse cells c).outcome = .ok m →
      ∃ order values finish, Arrangement (rules.map (Rule.parse cells)) c order values finish ∧
        (∀ other values' finish',
          Arrangement (rules.map (Rule.parse cells)) c other values' finish' →
            Precedes order other) ∧
        m = ⟨some (.sequence values.reduceOption), finish⟩ := by
  rw [permutation_parse_eq cells rules hc]
  rcases outcome_permutation (answering_parse cells answers) (hc.within (Nat.zero_le _)) with
    ⟨order, values, finish, harranged, hleast, hok⟩ | ⟨⟨e, hfailed⟩, hnone⟩
  · refine ⟨⟨fun _ => ⟨order, values, finish, harranged⟩, fun _ => ⟨_, hok⟩⟩, fun m hm => ?_⟩
    refine ⟨order, values, finish, harranged, hleast, ?_⟩
    exact Outcome.ok.inj (hm.symm.trans hok)
  · refine ⟨⟨?_, ?_⟩, ?_⟩
    · rintro ⟨m, hm⟩
      rw [hfailed] at hm
      cases hm
    · rintro ⟨order, values, finish, harranged⟩
      exact absurd harranged (hnone order values finish)
    · intro m hm
      rw [hfailed] at hm
      cases hm

theorem answers_test (accepts : UInt8 → Bool) (expected : UInt8 → Mismatch) (c : Cursor) :
    (Parser.test accepts expected c).Answers := by
  rcases Parser.test_cases accepts expected c with ⟨b, next, -, -, found⟩ | ⟨e, failed⟩
  · rw [found]
    exact .inl ⟨_, rfl⟩
  · rw [failed]
    exact .inr ⟨_, rfl⟩

theorem answers_byte (cells : Cells) (expected : UInt8) (c : Cursor) :
    ((Rule.byte expected).parse cells c).Answers :=
  answers_test (· == expected) (.byte expected) c

/-- Two letters in the order opposite to that of the children. -/
theorem parse_permutation_twoLetters :
    (∀ rule ∈ [Rule.byte 0x61, .byte 0x62], ∀ d : Cursor, d.input = #[0x62, 0x61] →
      d.WellFormed → (rule.parse .empty d).Answers) ∧
    ∃ order values finish,
      Arrangement ([Rule.byte 0x61, .byte 0x62].map (Rule.parse .empty))
        ⟨#[0x62, 0x61], 0, {}⟩ order values finish ∧
      values.reduceOption = [.char 0x61, .char 0x62] ∧ finish.position = 16 := by
  have answers : ∀ rule ∈ [Rule.byte 0x61, .byte 0x62], ∀ d : Cursor, d.input = #[0x62, 0x61] →
      d.WellFormed → (rule.parse .empty d).Answers := by
    intro rule hrule d _ _
    rcases List.mem_pair.mp hrule with rfl | rfl
    · exact answers_byte .empty _ d
    · exact answers_byte .empty _ d
  refine ⟨answers, ?_⟩
  obtain ⟨order, values, finish, harranged, -, hm⟩ :=
    (parse_permutation .empty [.byte 0x61, .byte 0x62] ⟨#[0x62, 0x61], 0, {}⟩ (Nat.zero_le _)
      answers).2 ⟨some (.sequence [.char 0x61, .char 0x62]), ⟨#[0x62, 0x61], 16, {}⟩⟩ rfl
  obtain ⟨hvalues, hfinish⟩ := Match.mk.inj hm
  refine ⟨order, values, finish, harranged, ?_, ?_⟩
  · exact (Value.sequence.inj (Option.some.inj hvalues)).symm
  · rw [← hfinish]

end Permutation

end BitGrammar
