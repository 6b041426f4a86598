import BitGrammar.Proofs.FurthestFailure

/-!
# Failed searches for a permutation

The failure of a permutation is gathered in nested runs. A member that fails leaves its failure, so
does one that is placed and taken back, and where all members have to match empty input, the first
that does not ends the attempt. None of this loses the failure that lies furthest: at each cursor
that the search comes to, every child left has been run, and the failure of the whole is as far as
the furthest of theirs.

## What decides the design

The nodes of a search are described without slots (`Visits`). A node is a cursor and the list of the
children left there, of which the order does not matter. So the nodes are the same for all orders of
the children, and what is said about nodes alone holds of another order as well. `leftOver` reads
the children left off the slots.

The empty matches do not have to be looked at for failures of their own. Their members have been
tried at the same cursor before, and those that do not match empty input have left a failure then,
provided that they do not move back (`Tried.exists_failure`). So a failure is kept already, and none
that comes up now lies further (`mem_argmax_of_placeEmpty_failed`).

`Exhausted` is what remains of a failed run of `Parser.fill`. All that follows is by induction on
nodes or on the number of empty slots, and goes from one `Exhausted` to the next.

## Main definitions

* `Visits`: the nodes that a search comes to
* `Raises`: a failure of a child at a node
* `DeadEnd`: at no node do all the children left match empty input
* `Exhausted`: all members were tried in vain

## Main results

* `exhausted_of_fill_failed`: what a failed search has done at its first node
* `Visits.exhausted`: behind a failed search, the search of every node fails
* `raises_of_permutation_failed`: the failure of a permutation is the furthest at any node
* `permutation_failed_iff`: a permutation fails at dead ends, and nowhere else
* `permutation_failed_of_perm`: neither depends on the order of the children
-/

namespace BitGrammar

namespace Permutation

variable {ps left left' other : List Parser} {slots : Parser.Slots} {c d : Cursor}

/-! ### Nodes of a search -/

/-- A search that has some children left at a cursor comes to a node, which is a cursor and the
children left there: one after another, children match and move on, and are left no longer. -/
inductive Visits : List Parser → Cursor → List Parser → Cursor → Prop where
  | here {left left' : List Parser} (c : Cursor) (same : left.Perm left') : Visits left c left' c
  | place {left rest left' : List Parser} {p : Parser} {c d : Cursor} {m : Match}
    (child : left.Perm (p :: rest)) (matched : (p c).outcome = .ok m)
    (consumes : c.position < m.next.position) (onwards : Visits rest m.next left' d) :
    Visits left c left' d

/-- A child that is left at a node fails there. -/
def Raises (left : List Parser) (c : Cursor) (e : Failure) : Prop :=
  ∃ left' d, Visits left c left' d ∧ ∃ p ∈ left', (p d).outcome = .failed e

/-- At every node all children that are left answer, and one of them does not match empty input. -/
def DeadEnd (left : List Parser) (c : Cursor) : Prop :=
  ∀ left' d, Visits left c left' d →
    (∀ p ∈ left', (p d).Answers) ∧ ∃ p ∈ left', ∀ v, ¬ MatchesEmpty p d v

theorem Visits.of_perm (h : Visits left c left' d) (hperm : left.Perm other) :
    Visits other c left' d := by
  cases h with
  | here _ same => exact .here c (hperm.symm.trans same)
  | place child matched consumes onwards =>
    exact .place (hperm.symm.trans child) matched consumes onwards

theorem Raises.of_perm {e : Failure} (h : Raises left c e) (hperm : left.Perm other) :
    Raises other c e := by
  obtain ⟨left', d, hvisits, hraised⟩ := h
  exact ⟨left', d, hvisits.of_perm hperm, hraised⟩

theorem DeadEnd.of_perm (h : DeadEnd left c) (hperm : left.Perm other) : DeadEnd other c :=
  fun left' d hvisits => h left' d (hvisits.of_perm hperm.symm)

/-- A child that is placed leads from a dead end to a dead end. -/
theorem DeadEnd.place {p : Parser} {rest : List Parser} {m : Match} (h : DeadEnd left c)
    (child : left.Perm (p :: rest)) (matched : (p c).outcome = .ok m)
    (consumes : c.position < m.next.position) : DeadEnd rest m.next :=
  fun left' d hvisits => h left' d (.place child matched consumes hvisits)

/-! ### The children left -/

/-- The children whose slots are empty. -/
def leftOver (ps : List Parser) (slots : Parser.Slots) : List Parser :=
  (Parser.unplaced ps slots).map Prod.snd

theorem mem_leftOver {p : Parser} :
    p ∈ leftOver ps slots ↔ ∃ i, (i, p) ∈ Parser.unplaced ps slots := by
  simp [leftOver]

theorem nodup_unplaced (ps : List Parser) (slots : Parser.Slots) :
    (Parser.unplaced ps slots).Nodup :=
  (pairwise_unplaced ps slots).imp fun hlt heq => by
    rw [heq] at hlt
    exact Nat.lt_irrefl _ hlt

/-- A child is left until its slot is filled. -/
theorem unplaced_perm_cons {i : Nat} {p : Parser} (h : (i, p) ∈ Parser.unplaced ps slots)
    (v : Option Value) :
    (Parser.unplaced ps slots).Perm ((i, p) :: Parser.unplaced ps (slots.set i (some v))) := by
  obtain ⟨hp, hslot⟩ := Parser.mem_unplaced.mp h
  have hnot : (i, p) ∉ Parser.unplaced ps (slots.set i (some v)) := fun hmem =>
    (getElem?_set_eq_none_iff.mp (Parser.mem_unplaced.mp hmem).2).1 rfl
  refine (List.perm_ext_iff_of_nodup (nodup_unplaced ..)
    (List.nodup_cons.mpr ⟨hnot, nodup_unplaced ..⟩)).mpr fun ⟨j, q⟩ => ?_
  rw [List.mem_cons, Parser.mem_unplaced, Parser.mem_unplaced, getElem?_set_eq_none_iff]
  by_cases hij : j = i
  · subst hij
    simp [hp, hslot, eq_comm]
  · simp [hij]

theorem leftOver_perm_cons {i : Nat} {p : Parser} (h : (i, p) ∈ Parser.unplaced ps slots)
    (v : Option Value) : (leftOver ps slots).Perm (p :: leftOver ps (slots.set i (some v))) :=
  (unplaced_perm_cons h v).map Prod.snd

/-- At the start all children are left. -/
theorem leftOver_replicate (ps : List Parser) :
    leftOver ps (List.replicate ps.length none) = ps := by
  have hnone : ∀ entry ∈ (ps.zip (List.replicate ps.length (none : Option (Option Value)))).zipIdx,
      entry.1.2 = none := fun entry hmem =>
    List.eq_of_mem_replicate (List.of_mem_zip (List.fst_mem_of_mem_zipIdx hmem)).2
  calc leftOver ps (List.replicate ps.length none)
      = (ps.zip (List.replicate ps.length none)).zipIdx.filterMap fun entry => some entry.1.1 := by
        rw [leftOver, Parser.unplaced, List.map_filterMap]
        refine List.filterMap_congr fun entry hmem => ?_
        obtain ⟨⟨p, slot⟩, i⟩ := entry
        obtain rfl : slot = none := hnone _ hmem
        rfl
    _ = (((ps.zip (List.replicate ps.length none)).zipIdx).map Prod.fst).map Prod.fst := by
        rw [List.map_map, List.filterMap_eq_map']
        rfl
    _ = ps := by
        rw [List.zipIdx_map_fst, List.map_fst_zip]
        rw [List.length_replicate]

/-! ### Members tried in vain -/

section Tried

variable {place : Parser.Slots → Cursor → Run (Parser.Slots × Cursor)}
  {member : Nat × Parser} {members : List (Nat × Parser)} {found kept : Option Failure}

/-- What comes of trying to place a member in vain: its failure, the failure of placing the others
behind it, or no failure at all where it matches without moving on. -/
inductive Tried (place : Parser.Slots → Cursor → Run (Parser.Slots × Cursor))
    (slots : Parser.Slots) (c : Cursor) : Nat × Parser → Option Failure → Prop where
  | failed {i : Nat} {p : Parser} {e : Failure} (failed : (p c).outcome = .failed e) :
    Tried place slots c (i, p) (some e)
  | stays {i : Nat} {p : Parser} {m : Match} (matched : (p c).outcome = .ok m)
    (stays : ¬ c.position < m.next.position) : Tried place slots c (i, p) none
  | deadEnd {i : Nat} {p : Parser} {m : Match} {e : Failure} (matched : (p c).outcome = .ok m)
    (consumes : c.position < m.next.position)
    (failed : (place (slots.set i (some m.value)) m.next).outcome = .failed e) :
    Tried place slots c (i, p) (some e)

theorem Tried.answers (h : Tried place slots c member found) : (member.2 c).Answers := by
  cases h with
  | failed failed => exact .inr ⟨_, failed⟩
  | stays matched => exact .inl ⟨_, matched⟩
  | deadEnd matched => exact .inl ⟨_, matched⟩

theorem Tried.eq_of_failed {e : Failure} (h : Tried place slots c member found)
    (failed : (member.2 c).outcome = .failed e) : found = some e := by
  cases h with
  | failed h => rw [Outcome.failed.inj (failed.symm.trans h)]
  | stays matched => cases failed.symm.trans matched
  | deadEnd matched => cases failed.symm.trans matched

theorem Tried.failed_of_consumes {m : Match} (h : Tried place slots c member found)
    (matched : (member.2 c).outcome = .ok m) (consumes : c.position < m.next.position) :
    ∃ e, found = some e ∧
      (place (slots.set member.1 (some m.value)) m.next).outcome = .failed e := by
  cases h with
  | failed h => cases matched.symm.trans h
  | @stays i p n h stays =>
    obtain rfl : m = n := Outcome.ok.inj (matched.symm.trans h)
    exact absurd consumes stays
  | @deadEnd i p n e h _ failed =>
    obtain rfl : m = n := Outcome.ok.inj (matched.symm.trans h)
    exact ⟨e, rfl, failed⟩

theorem Tried.not_consumes {m : Match} (h : Tried place slots c member none)
    (matched : (member.2 c).outcome = .ok m) : ¬ c.position < m.next.position := by
  intro consumes
  obtain ⟨e, hfound, -⟩ := h.failed_of_consumes matched consumes
  cases hfound

/-- What is in the way of the empty matches and does not move back leaves a failure. -/
theorem Tried.exists_failure (h : Tried place slots c member found)
    (forward : ∀ m, (member.2 c).outcome = .ok m → c.position ≤ m.next.position)
    (blocked : ∀ v, ¬ MatchesEmpty member.2 c v) : ∃ e, found = some e := by
  cases h with
  | @failed i p e failed => exact ⟨e, rfl⟩
  | @stays i p m matched stays =>
    have hle : c.position ≤ m.next.position := forward m matched
    exact absurd ⟨m, matched, by omega, rfl⟩ (blocked m.value)
  | @deadEnd i p m e matched consumes failed => exact ⟨e, rfl⟩

/-- A member that is tried in vain leaves its failure to the others. -/
theorem placeConsuming_cons_of_tried (h : Tried place slots c member found)
    (members : List (Nat × Parser)) (seen : List Failure) :
    (Parser.placeConsuming place slots c (member :: members)
        (seen.argmax Failure.position)).outcome =
      (Parser.placeConsuming place slots c members
        ((seen ++ found.toList).argmax Failure.position)).outcome := by
  cases h with
  | failed failed =>
    rw [Parser.placeConsuming, Run.outcome_attempt_bind_failed failed]
    dsimp only
    rw [Failure.some_keepFurthest_argmax]
    rfl
  | stays matched stays =>
    rw [Parser.placeConsuming, Run.outcome_attempt_bind_ok matched]
    dsimp only
    rw [if_neg stays, Option.toList_none, List.append_nil]
  | deadEnd matched consumes failed =>
    rw [Parser.placeConsuming, Run.outcome_attempt_bind_ok matched]
    dsimp only
    rw [if_pos consumes, Run.outcome_attempt_bind_failed failed]
    dsimp only
    rw [Failure.some_keepFurthest_argmax]
    rfl

/-- Without a placement of the members, the first of them is tried in vain. -/
theorem exists_tried_of_placeConsuming {kept' : Option Failure}
    (h : (Parser.placeConsuming place slots c (member :: members) kept).outcome =
      .ok (.error kept')) : ∃ found, Tried place slots c member found := by
  obtain ⟨i, p⟩ := member
  rw [Parser.placeConsuming] at h
  rcases Run.Answers.of_attempt_bind (.inl ⟨_, h⟩) with ⟨m, hm⟩ | ⟨e, he⟩
  · by_cases hlt : c.position < m.next.position
    · rw [Run.outcome_attempt_bind_ok hm] at h
      dsimp only at h
      rw [if_pos hlt] at h
      rcases Run.Answers.of_attempt_bind (.inl ⟨_, h⟩) with ⟨filled, hfilled⟩ | ⟨e, he⟩
      · rw [Run.outcome_attempt_bind_ok hfilled] at h
        cases h
      · exact ⟨some e, .deadEnd hm hlt he⟩
    · exact ⟨none, .stays hm hlt⟩
  · exact ⟨some e, .failed he⟩

/-- When no member can be placed where it moves on, each was tried in vain, and the furthest of all
the failures is kept. -/
theorem attempts_of_placeConsuming (seen : List Failure)
    (h : (Parser.placeConsuming place slots c members (seen.argmax Failure.position)).outcome =
      .ok (.error kept)) :
    ∃ attempts : List ((Nat × Parser) × Option Failure), attempts.map Prod.fst = members ∧
      (∀ attempt ∈ attempts, Tried place slots c attempt.1 attempt.2) ∧
      kept = (seen ++ attempts.filterMap Prod.snd).argmax Failure.position := by
  induction members generalizing seen with
  | nil =>
    refine ⟨[], rfl, (fun attempt hmem => nomatch hmem), ?_⟩
    rw [List.filterMap_nil, List.append_nil]
    exact (Except.error.inj (Outcome.ok.inj h)).symm
  | cons member members ih =>
    obtain ⟨found, hfound⟩ := exists_tried_of_placeConsuming h
    rw [placeConsuming_cons_of_tried hfound] at h
    obtain ⟨attempts, rfl, htried, rfl⟩ := ih _ h
    refine ⟨(member, found) :: attempts, rfl, List.forall_mem_cons.mpr ⟨hfound, htried⟩, ?_⟩
    cases found with
    | none => simp
    | some e => simp

theorem placeConsuming_of_tried (h : ∀ member ∈ members, ∃ found, Tried place slots c member found)
    (seen : List Failure) :
    ∃ kept, (Parser.placeConsuming place slots c members (seen.argmax Failure.position)).outcome =
      .ok (.error kept) := by
  induction members generalizing seen with
  | nil => exact ⟨_, rfl⟩
  | cons member members ih =>
    obtain ⟨⟨found, hfound⟩, hrest⟩ := List.forall_mem_cons.mp h
    rw [placeConsuming_cons_of_tried hfound]
    exact ih hrest _

theorem placeConsuming_ne_failed (members : List (Nat × Parser)) (kept : Option Failure)
    (e : Failure) : (Parser.placeConsuming place slots c members kept).outcome ≠ .failed e := by
  intro h
  induction members generalizing kept with
  | nil => cases h
  | cons member members ih =>
    obtain ⟨i, p⟩ := member
    rw [Parser.placeConsuming] at h
    rcases Run.Answers.of_attempt_bind (.inr ⟨_, h⟩) with ⟨m, hm⟩ | ⟨e', he'⟩
    · rw [Run.outcome_attempt_bind_ok hm] at h
      dsimp only at h
      split at h
      · rcases Run.Answers.of_attempt_bind (.inr ⟨_, h⟩) with ⟨filled, hfilled⟩ | ⟨e', he'⟩
        · rw [Run.outcome_attempt_bind_ok hfilled] at h
          cases h
        · rw [Run.outcome_attempt_bind_failed he'] at h
          exact ih _ h
      · exact ih _ h
    · rw [Run.outcome_attempt_bind_failed he'] at h
      exact ih _ h

/-- A member that is left and in the way of the empty matches makes the placing of them fail. -/
theorem placeEmpty_failed {i : Nat} {p : Parser}
    (answers : ∀ member ∈ Parser.unplaced ps slots, (member.2 c).Answers)
    (hmem : (i, p) ∈ Parser.unplaced ps slots) (blocked : ∀ v, ¬ MatchesEmpty p c v)
    (kept : Option Failure) :
    ∃ e, (Parser.placeEmpty c kept (Parser.unplaced ps slots) slots).outcome = .failed e := by
  refine (answers_placeEmpty answers kept slots).resolve_left fun ⟨out, hout⟩ => ?_
  obtain ⟨-, placed, -⟩ := placed_of_placeEmpty (fun _ => lt_of_mem_unplaced)
    (pairwise_unplaced ps slots) hout
  obtain ⟨v, -, hempty⟩ := placed (i, p) hmem
  exact blocked v hempty

end Tried

/-! ### Failed searches -/

/-- Children that from a cursor with a property lead to such cursors again, and never back. -/
def Onward (good : Cursor → Prop) (ps : List Parser) : Prop :=
  ∀ p ∈ ps, ∀ d, good d → ∀ m, (p d).outcome = .ok m → good m.next ∧ d.position ≤ m.next.position

/-- Every member that is left was tried in vain, a failure is the furthest that came of it, and not
all members match empty input. -/
structure Exhausted (ps : List Parser) (count : Nat) (slots : Parser.Slots) (c : Cursor)
    (e : Failure) : Prop where
  tried : ∀ member ∈ Parser.unplaced ps slots, ∃ found,
    Tried (Parser.fill ps count) slots c member found ∧ ∀ e' ∈ found, e'.position ≤ e.position
  reported : ∃ member ∈ Parser.unplaced ps slots,
    Tried (Parser.fill ps count) slots c member (some e)
  blocked : ∃ member ∈ Parser.unplaced ps slots, ∀ v, ¬ MatchesEmpty member.2 c v

variable {good : Cursor → Prop} {count : Nat} {e : Failure}

/-- When no member can be placed in the one way or the other, the failure is the furthest that came
of trying the first way. The second way adds nothing, and the fallback is not needed. -/
theorem mem_argmax_of_placeEmpty_failed
    {place : Parser.Slots → Cursor → Run (Parser.Slots × Cursor)}
    {attempts : List ((Nat × Parser) × Option Failure)}
    (tried : ∀ attempt ∈ attempts, Tried place slots c attempt.1 attempt.2)
    (forward : ∀ attempt ∈ attempts, ∀ m, (attempt.1.2 c).outcome = .ok m →
      c.position ≤ m.next.position)
    (h : (Parser.placeEmpty c ((attempts.filterMap Prod.snd).argmax Failure.position)
      (attempts.map Prod.fst) slots).outcome = .failed e) :
    e ∈ (attempts.filterMap Prod.snd).argmax Failure.position := by
  obtain ⟨member, hmem, hblocked, hreason⟩ := exists_of_placeEmpty_failed h
  obtain ⟨⟨member, found⟩, hattempt, rfl⟩ := List.mem_map.mp hmem
  -- What is in the way now was tried before, and left a failure then.
  have htried : Tried place slots c member found := tried _ hattempt
  obtain ⟨e₁, rfl⟩ := htried.exists_failure (forward _ hattempt) hblocked
  have he₁ : e₁ ∈ attempts.filterMap Prod.snd := List.mem_filterMap.mpr ⟨_, hattempt, rfl⟩
  cases hkept : (attempts.filterMap Prod.snd).argmax Failure.position with
  | none => simp [List.argmax_eq_none.mp hkept] at he₁
  | some kept =>
    rw [hkept] at hreason
    rcases hreason with ⟨e', he', rfl⟩ | rfl
    · obtain rfl : e₁ = e' := Option.some.inj (htried.eq_of_failed he')
      have hle : e₁.position ≤ kept.position := List.le_of_mem_argmax he₁ hkept
      exact congrArg some (if_neg (Nat.not_lt.mpr hle)).symm
    · rfl

/-- The search of a node fails: no member can be placed in the one way or the other. -/
theorem exhausted_of_attempts {attempts : List ((Nat × Parser) × Option Failure)}
    (hmembers : attempts.map Prod.fst = Parser.unplaced ps slots)
    (tried : ∀ attempt ∈ attempts, Tried (Parser.fill ps count) slots c attempt.1 attempt.2)
    (hps : Onward good ps) (hc : good c)
    (h : (Parser.placeEmpty c ((attempts.filterMap Prod.snd).argmax Failure.position)
      (attempts.map Prod.fst) slots).outcome = .failed e) : Exhausted ps count slots c e := by
  have hmem : ∀ {attempt}, attempt ∈ attempts → attempt.1 ∈ Parser.unplaced ps slots :=
    fun hattempt => hmembers ▸ List.mem_map_of_mem hattempt
  have forward : ∀ attempt ∈ attempts, ∀ m, (attempt.1.2 c).outcome = .ok m →
      c.position ≤ m.next.position :=
    fun attempt hattempt m hm =>
      (hps _ (Parser.mem_of_mem_unplaced (hmem hattempt)) c hc m hm).2
  have hmax := mem_argmax_of_placeEmpty_failed tried forward h
  constructor
  · rw [← hmembers]
    intro member hmember
    obtain ⟨attempt, hattempt, rfl⟩ := List.mem_map.mp hmember
    refine ⟨attempt.2, tried attempt hattempt, fun e' he' => ?_⟩
    exact List.le_of_mem_argmax (List.mem_filterMap.mpr ⟨attempt, hattempt, he'⟩) hmax
  · obtain ⟨attempt, hattempt, he⟩ := List.mem_filterMap.mp (List.argmax_mem hmax)
    refine ⟨attempt.1, hmem hattempt, ?_⟩
    rw [← he]
    exact tried attempt hattempt
  · obtain ⟨member, hmember, hblocked, -⟩ := exists_of_placeEmpty_failed h
    exact ⟨member, hmembers ▸ hmember, hblocked⟩

/-- **A search that fails has tried everything in vain.** -/
theorem exhausted_of_fill_failed (hps : Onward good ps) (hc : good c)
    (h : (Parser.fill ps count slots c).outcome = .failed e) :
    ∃ rest, count = rest + 1 ∧ Exhausted ps rest slots c e := by
  cases count with
  | zero => cases h
  | succ rest =>
    refine ⟨rest, rfl, ?_⟩
    rw [Parser.fill] at h
    rcases Run.failed_of_bind h with hfailed | ⟨placed, hout, hstop⟩
    · exact absurd hfailed (placeConsuming_ne_failed _ _ e)
    · cases placed with
      | ok filled => cases hstop
      | error kept =>
        obtain ⟨attempts, hmembers, tried, rfl⟩ := attempts_of_placeConsuming [] hout
        rw [List.nil_append, ← hmembers] at hstop
        rcases Run.failed_of_bind hstop with hempty | ⟨filled, -, hne⟩
        · exact exhausted_of_attempts hmembers tried hps hc hempty
        · cases hne

/-- **Behind a search that fails, the search of every node fails,** and no further on. -/
theorem Visits.exhausted (hps : Onward good ps) (h : Visits left c left' d) (hc : good c)
    (hleft : left.Perm (leftOver ps slots))
    (hfailed : (Parser.fill ps count slots c).outcome = .failed e) :
    ∃ count' slots' e', left'.Perm (leftOver ps slots') ∧ Exhausted ps count' slots' d e' ∧
      e'.position ≤ e.position := by
  induction h generalizing slots count e with
  | here c same =>
    obtain ⟨rest, -, hexhausted⟩ := exhausted_of_fill_failed hps hc hfailed
    exact ⟨rest, slots, e, same.symm.trans hleft, hexhausted, Nat.le_refl _⟩
  | @place left rest left' p c d m child matched consumes onwards ih =>
    -- The child has been placed, and the search behind it has failed.
    obtain ⟨count', -, hexhausted⟩ := exhausted_of_fill_failed hps hc hfailed
    obtain ⟨i, hmem⟩ := mem_leftOver.mp ((child.symm.trans hleft).subset (List.mem_cons_self ..))
    obtain ⟨found, htried, hle⟩ := hexhausted.tried (i, p) hmem
    obtain ⟨e', rfl, hplace⟩ := htried.failed_of_consumes matched consumes
    have hrest : rest.Perm (leftOver ps (slots.set i (some m.value))) :=
      (child.symm.trans (hleft.trans (leftOver_perm_cons hmem m.value))).cons_inv
    obtain ⟨count'', slots', e'', hperm, hex, hle'⟩ :=
      ih (hps p (Parser.mem_of_mem_unplaced hmem) c hc m matched).1 hrest hplace
    exact ⟨count'', slots', e'', hperm, hex, Nat.le_trans hle' (hle e' rfl)⟩

/-- The failure of a search is that of a child at a node. -/
theorem raises_of_fill_failed (hps : Onward good ps) (hc : good c)
    (h : (Parser.fill ps count slots c).outcome = .failed e) : Raises (leftOver ps slots) c e := by
  induction count generalizing slots c with
  | zero => cases h
  | succ count ih =>
    obtain ⟨rest, heq, hexhausted⟩ := exhausted_of_fill_failed hps hc h
    obtain rfl := Nat.succ.inj heq
    obtain ⟨⟨i, p⟩, hmem, htried⟩ := hexhausted.reported
    cases htried with
    | failed failed =>
      exact ⟨leftOver ps slots, c, .here c (.refl _), p, mem_leftOver.mpr ⟨i, hmem⟩, failed⟩
    | @deadEnd _ _ m _ matched consumes failed =>
      obtain ⟨left', d, hvisits, hraised⟩ :=
        ih (hps p (Parser.mem_of_mem_unplaced hmem) c hc m matched).1 failed
      exact ⟨left', d, .place (leftOver_perm_cons hmem m.value) matched consumes hvisits, hraised⟩

/-- No child at a node fails further on than the search. -/
theorem position_le_of_raises (hps : Onward good ps) (hc : good c)
    (h : (Parser.fill ps count slots c).outcome = .failed e) {e' : Failure}
    (hraises : Raises (leftOver ps slots) c e') : e'.position ≤ e.position := by
  obtain ⟨left', d, hvisits, p, hp, hraised⟩ := hraises
  obtain ⟨count', slots', e'', hleft, hexhausted, hle⟩ := hvisits.exhausted hps hc (.refl _) h
  obtain ⟨i, hmem⟩ := mem_leftOver.mp (hleft.subset hp)
  obtain ⟨found, htried, hfound⟩ := hexhausted.tried (i, p) hmem
  exact Nat.le_trans (hfound e' (htried.eq_of_failed hraised)) hle

theorem deadEnd_of_fill_failed (hps : Onward good ps) (hc : good c)
    (h : (Parser.fill ps count slots c).outcome = .failed e) : DeadEnd (leftOver ps slots) c := by
  intro left' d hvisits
  obtain ⟨count', slots', e', hleft, hexhausted, -⟩ := hvisits.exhausted hps hc (.refl _) h
  refine ⟨fun p hp => ?_, ?_⟩
  · obtain ⟨i, hmem⟩ := mem_leftOver.mp (hleft.subset hp)
    obtain ⟨found, htried, -⟩ := hexhausted.tried (i, p) hmem
    exact htried.answers
  · obtain ⟨⟨i, p⟩, hmem, hblocked⟩ := hexhausted.blocked
    exact ⟨p, hleft.symm.subset (mem_leftOver.mpr ⟨i, hmem⟩), hblocked⟩

/-- A search fails from where every node is a dead end. The induction is on the number of empty
slots that the search allows for. -/
theorem fill_failed_of_deadEnd (hcount : emptySlots slots ≤ count)
    (h : DeadEnd (leftOver ps slots) c) :
    ∃ e, (Parser.fill ps count slots c).outcome = .failed e := by
  induction count generalizing slots c with
  | zero =>
    obtain ⟨-, p, hp, -⟩ := h _ c (.here c (.refl _))
    obtain ⟨i, hmem⟩ := mem_leftOver.mp hp
    exact absurd (Parser.mem_unplaced.mp hmem).2 (full_of_emptySlots (Nat.le_zero.mp hcount) i)
  | succ count ih =>
    obtain ⟨answers, p, hp, blocked⟩ := h _ c (.here c (.refl _))
    obtain ⟨i, hmem⟩ := mem_leftOver.mp hp
    have hanswers : ∀ member ∈ Parser.unplaced ps slots, (member.2 c).Answers :=
      fun member hmember => answers member.2 (mem_leftOver.mpr ⟨member.1, hmember⟩)
    -- A member that moves on leads to dead ends again, so that the search behind it fails.
    have tried : ∀ member ∈ Parser.unplaced ps slots,
        ∃ found, Tried (Parser.fill ps count) slots c member found := by
      rintro ⟨j, q⟩ hmember
      rcases hanswers (j, q) hmember with ⟨m, hm⟩ | ⟨e, he⟩
      · by_cases hlt : c.position < m.next.position
        · have hset := emptySlots_set (Parser.mem_unplaced.mp hmember).2 m.value
          obtain ⟨e, he⟩ := ih (by omega) (h.place (leftOver_perm_cons hmember m.value) hm hlt)
          exact ⟨some e, .deadEnd hm hlt he⟩
        · exact ⟨none, .stays hm hlt⟩
      · exact ⟨some e, .failed he⟩
    obtain ⟨kept, hkept⟩ := placeConsuming_of_tried tried []
    obtain ⟨e, he⟩ := placeEmpty_failed hanswers hmem blocked kept
    refine ⟨e, ?_⟩
    rw [Parser.fill]
    exact (Run.outcome_bind_ok hkept).trans (Run.outcome_bind_failed he)

/-! ### Failed permutations -/

theorem fill_failed_of_permutation (h : (Parser.permutation ps c).outcome = .failed e) :
    (Parser.fill ps ps.length (List.replicate ps.length none) c).outcome = .failed e := by
  rcases Run.failed_of_bind h with hfill | ⟨filled, -, hne⟩
  · exact hfill
  · cases hne

/-- The failure of a permutation is that of a child at a node, and no child at a node fails further
on. -/
theorem raises_of_permutation_failed (hps : Onward good ps) (hc : good c)
    (h : (Parser.permutation ps c).outcome = .failed e) :
    Raises ps c e ∧ ∀ e', Raises ps c e' → e'.position ≤ e.position := by
  have hfill := fill_failed_of_permutation h
  have hraises := raises_of_fill_failed hps hc hfill
  have hle : ∀ e', Raises (leftOver ps (List.replicate ps.length none)) c e' →
      e'.position ≤ e.position :=
    fun e' => position_le_of_raises hps hc hfill
  rw [leftOver_replicate] at hraises hle
  exact ⟨hraises, hle⟩

/-- A permutation fails where every node is a dead end, and nowhere else. -/
theorem permutation_failed_iff (hps : Onward good ps) (hc : good c) :
    (∃ e, (Parser.permutation ps c).outcome = .failed e) ↔ DeadEnd ps c := by
  constructor
  · rintro ⟨e, he⟩
    have hdead := deadEnd_of_fill_failed hps hc (fill_failed_of_permutation he)
    rwa [leftOver_replicate] at hdead
  · intro hdead
    rw [← leftOver_replicate ps] at hdead
    obtain ⟨e, he⟩ := fill_failed_of_deadEnd (emptySlots_replicate_le ps.length) hdead
    exact ⟨e, Run.outcome_bind_failed he⟩

/-- The order of the children matters neither for failing nor for how far the failure lies. -/
theorem permutation_failed_of_perm (hps : Onward good ps) (hother : Onward good other) (hc : good c)
    (hperm : ps.Perm other) (h : (Parser.permutation ps c).outcome = .failed e) :
    ∃ e', (Parser.permutation other c).outcome = .failed e' ∧ e'.position = e.position := by
  have hdead := ((permutation_failed_iff hps hc).mp ⟨e, h⟩).of_perm hperm
  obtain ⟨e', he'⟩ := (permutation_failed_iff hother hc).mpr hdead
  obtain ⟨hraises, hle⟩ := raises_of_permutation_failed hps hc h
  obtain ⟨hraises', hle'⟩ := raises_of_permutation_failed hother hc he'
  exact ⟨e', he', Nat.le_antisymm (hle e' (hraises'.of_perm hperm.symm))
    (hle' e (hraises.of_perm hperm))⟩

/-- Where the children answer, the order does not matter for success either. -/
theorem permutation_ok_of_perm (hps : Onward good ps) (hother : Onward good other) (hc : good c)
    (answers : Answering good other) (hperm : ps.Perm other) {m : Match}
    (h : (Parser.permutation ps c).outcome = .ok m) :
    ∃ m, (Parser.permutation other c).outcome = .ok m := by
  rcases outcome_permutation answers hc with ⟨order, values, finish, -, -, hok⟩ | ⟨⟨e, he⟩, -⟩
  · exact ⟨_, hok⟩
  · obtain ⟨e', he', -⟩ := permutation_failed_of_perm hother hps hc hperm.symm he
    cases h.symm.trans he'

end Permutation

end BitGrammar
