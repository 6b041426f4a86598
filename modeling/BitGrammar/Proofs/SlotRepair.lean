import BitGrammar.Proofs.FailedSearch

/-!
# A search that writes into its slots

The search for a permutation needs no slots but one vector that it writes into. A member that moves
on is written down before the others are placed behind it, and is erased again where that fails. The
members that have to match empty input are all run first, and written down only when none of them is
in the way. So a failure is left with the slots as they were, on every level of the recursion. If it
were not, a later attempt would pass over a child and report what an attempt that was given up has
found.

`Parser.fill` writes nothing: each attempt has slots of its own, and a failure has none. The two are
the same search (`fillInPlace_eq`), down to the traces.

## What decides the design

A search in place has slots also where it fails, so that a failure is a result here and not the end
of the run (`Searched`). `Searched.ofExcept` makes such a result from that of a search which does
not write; behind a failure it has the slots from the start. The equation between the two searches
is therefore the invariant of the repair, and the induction on the depth uses it for the slots with
one member written down, where erasing the member gives back the slots before
(`set_none_set_of_isFree`).

The depth of the recursion is a bound that the search is given. At the bound it is endless. Nothing
absorbs that in a run, so a search that has a result has not come to the bound.

## Main definitions

* `fillInPlace`: the search in place, up to a depth
* `FilledAlong`: slots that are filled with what the children gave on a path

## Main results

* `fillInPlace_eq`: it is the search that does not write
* `permutation_eq_fillInPlace`: a permutation is the search in place from empty slots
* `fillInPlace_consistent`: it ends, leaves the slots as they were or fills all of them
-/

namespace BitGrammar

namespace Permutation

variable {ps : List Parser} {slots : Parser.Slots} {c finish : Cursor} {order : List Nat}
  {values : List (Option Value)}

/-! ### The search in place -/

/-- What a search in place comes to: the last cursor or a failure, and the slots that it leaves. -/
structure Searched (ε : Type) where
  result : Except ε Cursor
  slots : Parser.Slots

/-- The slot of a member is empty. -/
def isFree (slots : Parser.Slots) (i : Nat) : Bool :=
  slots[i]?.any Option.isNone

/-- Tries the members in turn, passing over those whose slots are set by then. One that consumes
input is written down, the others are placed behind it by `search`, and if they cannot be it is
erased. -/
def placeInPlace (search : Parser.Slots → Cursor → Run (Searched Failure)) (c : Cursor) :
    List (Parser × Nat) → Parser.Slots → Option Failure → Run (Searched (Option Failure))
  | [], slots, furthest => pure ⟨.error furthest, slots⟩
  | member :: rest, slots, furthest =>
    if isFree slots member.2 then do
      match ← (member.1 c).attempt with
      | .ok m =>
        if c.position < m.next.position then do
          let found ← search (slots.set member.2 (some m.value)) m.next
          match found.result with
          | .ok finish => pure ⟨.ok finish, found.slots⟩
          | .error e =>
            placeInPlace search c rest (found.slots.set member.2 none)
              (some (Failure.keepFurthest furthest e))
        else placeInPlace search c rest slots furthest
      | .error e => placeInPlace search c rest slots (some (Failure.keepFurthest furthest e))
    else placeInPlace search c rest slots furthest

/-- The values of the members with empty slots, which all have to match empty input. -/
def emptyValues (c : Cursor) (furthest : Option Failure) (slots : Parser.Slots) :
    List (Parser × Nat) → Run (List (Nat × Option Value))
  | [] => pure []
  | member :: rest =>
    if isFree slots member.2 then do
      match ← (member.1 c).attempt with
      | .ok m =>
        if m.next.position = c.position then do
          let values ← emptyValues c furthest slots rest
          pure ((member.2, m.value) :: values)
        else Run.fail (furthest.getD (c.rejection .unplaceable))
      | .error e => Run.fail (Failure.keepFurthest furthest e)
    else emptyValues c furthest slots rest

/-- Writes values into their slots. -/
def store (slots : Parser.Slots) (values : List (Nat × Option Value)) : Parser.Slots :=
  values.foldl (fun slots entry => slots.set entry.1 (some entry.2)) slots

/-- Fills the empty slots from a cursor on, with a recursion that goes no deeper than a bound. -/
def fillInPlace (ps : List Parser) : Nat → Parser.Slots → Cursor → Run (Searched Failure)
  | 0, _, _ => Run.endless
  | depth + 1, slots, c => do
    let placed ← placeInPlace (fillInPlace ps depth) c ps.zipIdx slots none
    match placed.result with
    | .ok finish => pure ⟨.ok finish, placed.slots⟩
    | .error furthest => do
      match ← (emptyValues c furthest placed.slots ps.zipIdx).attempt with
      | .ok values => pure ⟨.ok c, store placed.slots values⟩
      | .error e => pure ⟨.error e, placed.slots⟩

/-! ### Empty slots -/

theorem isFree_iff {i : Nat} : isFree slots i = true ↔ slots[i]? = some none := by
  rw [isFree, Option.any_eq_true]
  constructor
  · rintro ⟨slot, hslot, empty⟩
    rwa [Option.isNone_iff_eq_none.mp empty] at hslot
  · intro h
    exact ⟨none, h, rfl⟩

/-- Erasing what was written into an empty slot gives back the slots. -/
theorem set_none_set_of_isFree {i : Nat} (h : isFree slots i = true) (v : Option Value) :
    (slots.set i (some v)).set i none = slots := by
  obtain ⟨hlt, empty⟩ := List.getElem?_eq_some_iff.mp (isFree_iff.mp h)
  rw [List.set_set, ← empty, List.set_getElem_self]

/-- The members with empty slots. -/
def freeMembers (slots : Parser.Slots) (members : List (Parser × Nat)) : List (Nat × Parser) :=
  members.filterMap fun member => if isFree slots member.2 then some member.swap else none

theorem freeMembers_cons_of_isFree {member : Parser × Nat} (h : isFree slots member.2 = true)
    (members : List (Parser × Nat)) :
    freeMembers slots (member :: members) = (member.2, member.1) :: freeMembers slots members := by
  rw [freeMembers, List.filterMap_cons, if_pos h]
  rfl

theorem freeMembers_cons_of_not {member : Parser × Nat} (h : ¬ isFree slots member.2 = true)
    (members : List (Parser × Nat)) :
    freeMembers slots (member :: members) = freeMembers slots members := by
  rw [freeMembers, List.filterMap_cons, if_neg h]
  rfl

/-- The members with empty slots are those that are not placed. -/
theorem freeMembers_zipIdx (hlength : slots.length = ps.length) :
    freeMembers slots ps.zipIdx = Parser.unplaced ps slots := by
  have members : ps.zipIdx = (ps.zip slots).zipIdx.map (Prod.map Prod.fst id) := by
    rw [← List.zipIdx_map, List.map_fst_zip hlength.ge]
  rw [freeMembers, members, List.filterMap_map, Parser.unplaced]
  refine List.filterMap_congr fun entry hmem => ?_
  obtain ⟨⟨p, slot⟩, i⟩ := entry
  have hslot : slots[i]? = some slot :=
    (List.getElem?_zip_eq_some.mp (List.mem_zipIdx_iff_getElem?.mp hmem)).2
  simp [isFree, hslot]

/-! ### The search that does not write -/

/-- What a search comes to that does not write: behind a failure the slots are those from the
start. -/
def Searched.ofExcept {ε : Type} (slots : Parser.Slots) :
    Except ε (Parser.Slots × Cursor) → Searched ε
  | .ok filled => ⟨.ok filled.2, filled.1⟩
  | .error e => ⟨.error e, slots⟩

/-- Where placing the others behind a member is the same, so is trying the members in turn. -/
theorem placeInPlace_eq {search : Parser.Slots → Cursor → Run (Searched Failure)}
    {place : Parser.Slots → Cursor → Run (Parser.Slots × Cursor)}
    (hsearch : ∀ (i : Nat) v d, slots[i]? = some none →
      search (slots.set i (some v)) d =
        Searched.ofExcept (slots.set i (some v)) <$> (place (slots.set i (some v)) d).attempt)
    (members : List (Parser × Nat)) (furthest : Option Failure) :
    placeInPlace search c members slots furthest =
      Searched.ofExcept slots <$>
        Parser.placeConsuming place slots c (freeMembers slots members) furthest := by
  induction members generalizing furthest with
  | nil => rfl
  | cons member members ih =>
    rw [placeInPlace]
    by_cases free : isFree slots member.2 = true
    · rw [if_pos free, freeMembers_cons_of_isFree free, Parser.placeConsuming, map_bind]
      refine bind_congr fun answer => ?_
      cases answer with
      | error e => exact ih _
      | ok m =>
        dsimp only
        by_cases consumes : c.position < m.next.position
        · rw [if_pos consumes, if_pos consumes, hsearch _ _ _ (isFree_iff.mp free), bind_map_left,
            map_bind]
          refine bind_congr fun found => ?_
          cases found with
          | ok filled => rfl
          | error e =>
            dsimp only [Searched.ofExcept]
            rw [set_none_set_of_isFree free]
            exact ih _
        · rw [if_neg consumes, if_neg consumes]
          exact ih furthest
    · rw [if_neg free, freeMembers_cons_of_not free]
      exact ih furthest

/-- Writing the values of empty matches down one by one is the same as writing them all at the
end. -/
theorem placeEmpty_eq (furthest : Option Failure) (members : List (Parser × Nat))
    (out : Parser.Slots) :
    Parser.placeEmpty c furthest (freeMembers slots members) out =
      store out <$> emptyValues c furthest slots members := by
  induction members generalizing out with
  | nil => rfl
  | cons member members ih =>
    rw [emptyValues]
    by_cases free : isFree slots member.2 = true
    · rw [if_pos free, freeMembers_cons_of_isFree free, Parser.placeEmpty, map_bind]
      refine bind_congr fun answer => ?_
      cases answer with
      | error e => rfl
      | ok m =>
        dsimp only
        by_cases stays : m.next.position = c.position
        · rw [if_pos stays, if_pos stays, ih, map_bind, map_eq_pure_bind]
          rfl
        · rw [if_neg stays, if_neg stays]
          rfl
    · rw [if_neg free, freeMembers_cons_of_not free]
      exact ih out

/-- Without empty slots it does not matter whether a search looks for one. -/
theorem fill_zero_eq (h : emptySlots slots = 0) :
    Parser.fill ps 0 slots c = Parser.fill ps 1 slots c := by
  have none : Parser.unplaced ps slots = [] := by
    refine List.eq_nil_iff_forall_not_mem.mpr fun member hmem => ?_
    exact full_of_emptySlots h _ (Parser.mem_unplaced.mp hmem).2
  rw [Parser.fill, Parser.fill, none]
  rfl

/-- **A search that writes into its slots is one that does not write.** A failure leaves the slots
as they were, and a recursion one deeper than there are empty slots is deep enough. The induction is
on the depth. -/
theorem fillInPlace_eq {depth count : Nat} (hlength : slots.length = ps.length)
    (hdepth : emptySlots slots < depth) (hcount : emptySlots slots ≤ count) :
    fillInPlace ps depth slots c =
      Searched.ofExcept slots <$> (Parser.fill ps count slots c).attempt := by
  induction depth generalizing count slots c with
  | zero => exact absurd hdepth (Nat.not_lt_zero _)
  | succ depth ih =>
    obtain ⟨bound, hbound, hfill⟩ : ∃ bound, emptySlots slots ≤ bound + 1 ∧
        Parser.fill ps count slots c = Parser.fill ps (bound + 1) slots c := by
      cases count with
      | zero => exact ⟨0, by omega, fill_zero_eq (by omega)⟩
      | succ count => exact ⟨count, hcount, rfl⟩
    have hsearch : ∀ (i : Nat) v d, slots[i]? = some none →
        fillInPlace ps depth (slots.set i (some v)) d =
          Searched.ofExcept (slots.set i (some v)) <$>
            (Parser.fill ps bound (slots.set i (some v)) d).attempt := by
      intro i v d hslot
      have hset := emptySlots_set hslot v
      exact ih (by rw [List.length_set, hlength]) (by omega) (by omega)
    rw [fillInPlace, hfill, Parser.fill, placeInPlace_eq hsearch, freeMembers_zipIdx hlength,
      bind_map_left, Run.attempt_bind_of_ne_failed (placeConsuming_ne_failed _ _), map_bind]
    refine bind_congr fun placed => ?_
    cases placed with
    | ok filled => rfl
    | error furthest =>
      dsimp only [Searched.ofExcept]
      rw [← freeMembers_zipIdx hlength, placeEmpty_eq, bind_map_left, ← map_eq_pure_bind,
        Run.attempt_map, map_eq_pure_bind, bind_map_left]
      refine bind_congr fun found => ?_
      cases found with
      | ok values => rfl
      | error e => rfl

/-- A permutation is the search in place from empty slots, of which the values are reported. -/
theorem permutation_eq_fillInPlace (ps : List Parser) (c : Cursor) :
    Parser.permutation ps c = (do
      let found ← fillInPlace ps (ps.length + 1) (List.replicate ps.length none) c
      let finish ← Run.ofExcept found.result
      pure (Items.toMatch (Parser.slotValues found.slots, finish))) := by
  have bound := emptySlots_replicate_le ps.length
  rw [fillInPlace_eq List.length_replicate (Nat.lt_succ_of_le bound) bound, bind_map_left,
    Parser.permutation]
  obtain ⟨trace, outcome⟩ := Parser.fill ps ps.length (List.replicate ps.length none) c
  cases outcome with
  | ok filled => rfl
  | failed e => simp [Searched.ofExcept, Run.ofExcept, Run.fail]
  | misused what => rfl
  | endless => rfl

/-! ### What is written -/

/-- A child gives a value at a cursor on a path. -/
def YieldsOn (ps : List Parser) (values : List (Option Value)) (order : List Nat)
    (c finish : Cursor) (i : Nat) (v : Option Value) : Prop :=
  ∃ before after d p m, order = before ++ after ∧ Path ps values before c d ∧
    Path ps values after d finish ∧ ps[i]? = some p ∧ (p d).outcome = .ok m ∧ m.value = v

/-- Slots are filled from a cursor up to another one: all of them are set, those that were set are
as they were, and the others hold what their children gave on one path, which goes through each
child at most once. -/
structure FilledAlong (ps : List Parser) (slots : Parser.Slots) (c : Cursor) (filled : Parser.Slots)
    (finish : Cursor) : Prop where
  length : filled.length = ps.length
  full : ∀ i, i < ps.length → ∃ v, filled[i]? = some (some v)
  kept : ∀ (i : Nat) (v : Option Value), slots[i]? = some (some v) → filled[i]? = some (some v)
  yielded : ∃ order values, order.Nodup ∧ (∀ i ∈ order, slots[i]? = some none) ∧
    Path ps values order c finish ∧
    ∀ (i : Nat) (v : Option Value), slots[i]? = some none → filled[i]? = some (some v) →
      YieldsOn ps values order c finish i v

/-- A child that moves on along a path gives its value where the path comes to it. -/
theorem Path.yieldsOn (h : Path ps values order c finish) {i : Nat} (hi : i ∈ order)
    {v : Option Value} (hv : values[i]? = some v) : YieldsOn ps values order c finish i v := by
  induction h with
  | nil c => cases hi
  | @cons j order p c finish m child matched consumes value rest ih =>
    rcases List.mem_cons.mp hi with rfl | hi
    · have same : m.value = v := Option.some.inj (value.symm.trans hv)
      exact ⟨[], i :: order, c, p, m, rfl, .nil c, .cons child matched consumes value rest, child,
        matched, same⟩
    · obtain ⟨before, after, d, q, n, rfl, hbefore, hafter, hq, hn, hvalue⟩ := ih hi
      exact ⟨j :: before, after, d, q, n, rfl, .cons child matched consumes value hbefore, hafter,
        hq, hn, hvalue⟩

/-- The values of a completion fill the slots. -/
theorem Completion.filledAlong (h : Completion ps slots c order values finish) :
    FilledAlong ps slots c (values.map some) finish where
  length := (List.length_map _).trans h.length
  full i hi := by
    have hlt : i < values.length := h.length.symm ▸ hi
    exact ⟨values[i], getElem?_map_some.mpr (List.getElem?_eq_getElem hlt)⟩
  kept i v hv := getElem?_map_some.mpr (h.kept i v hv)
  yielded := by
    refine ⟨order, values, h.nodup, h.free, h.path, fun i v hslot hv => ?_⟩
    rw [getElem?_map_some] at hv
    by_cases hi : i ∈ order
    · exact h.path.yieldsOn hi hv
    · -- the children off the path match without moving, where it ends
      have hlt : i < ps.length := h.length ▸ (List.getElem?_eq_some_iff.mp hv).1
      have child : ps[i]? = some ps[i] := List.getElem?_eq_getElem hlt
      obtain ⟨w, hw, m, matched, -, value⟩ := h.empty i _ child hslot hi
      obtain rfl : w = v := Option.some.inj (hw.symm.trans hv)
      exact ⟨order, [], finish, _, m, (List.append_nil order).symm, h.path, .nil finish, child,
        matched, value⟩

/-- **A search in place keeps its slots consistent.** For children that answer, from a cursor and
any slots, as many as there are children: a recursion that is one deeper than there are empty slots
comes to its end, with a result that a greater depth does not change. A failure leaves the slots as
they were. Otherwise all slots are set, those that were set are as they were, and each of the others
holds what its child gave at a cursor on the path to the last one. The search that does not write
comes to the same. -/
theorem fillInPlace_consistent {good : Cursor → Prop} (hps : Answering good ps)
    (hlength : slots.length = ps.length) (hc : good c) :
    ∃ found, (fillInPlace ps (emptySlots slots + 1) slots c).outcome = .ok found ∧
      (∀ depth, emptySlots slots < depth →
        fillInPlace ps depth slots c = fillInPlace ps (emptySlots slots + 1) slots c) ∧
      (∀ e, found.result = .error e → found.slots = slots) ∧
      (∀ finish, found.result = .ok finish → FilledAlong ps slots c found.slots finish) ∧
      ∀ count, emptySlots slots ≤ count →
        fillInPlace ps (emptySlots slots + 1) slots c =
          Searched.ofExcept slots <$> (Parser.fill ps count slots c).attempt := by
  have deep : ∀ depth, emptySlots slots < depth → ∀ count, emptySlots slots ≤ count →
      fillInPlace ps depth slots c =
        Searched.ofExcept slots <$> (Parser.fill ps count slots c).attempt :=
    fun depth hdepth count hcount => fillInPlace_eq hlength hdepth hcount
  have enough := deep _ (Nat.lt_succ_self _)
  have same : ∀ depth, emptySlots slots < depth →
      fillInPlace ps depth slots c = fillInPlace ps (emptySlots slots + 1) slots c :=
    fun depth hdepth => (deep depth hdepth _ le_rfl).trans (enough _ le_rfl).symm
  rcases (solves_fill hps hlength le_rfl hc).cases with
    ⟨order, values, finish, hfill, hcomp, -⟩ | ⟨⟨e, hfill⟩, -⟩
  · refine ⟨⟨.ok finish, values.map some⟩, ?_, same, ?_, ?_, enough⟩
    · rw [enough _ le_rfl, Run.map_eq, Run.attempt, hfill]
      rfl
    · rintro e ⟨⟩
    · rintro finish ⟨⟩
      exact hcomp.filledAlong
  · refine ⟨⟨.error e, slots⟩, ?_, same, fun _ _ => rfl, ?_, enough⟩
    · rw [enough _ le_rfl, Run.map_eq, Run.attempt, hfill]
      rfl
    · rintro finish ⟨⟩

/-- Of two children that both match the first letter, the first one is written down and erased
again. -/
theorem fillInPlace_consistent_sharedLetter :
    Answering (Cursor.Within #[0x61, 0x62] 0)
        ([Rule.byteRange 0x61 0x62, .byte 0x61].map (Rule.parse .empty)) ∧
      ∃ finish, finish.position = 16 ∧
        FilledAlong ([Rule.byteRange 0x61 0x62, .byte 0x61].map (Rule.parse .empty)) [none, none]
          ⟨#[0x61, 0x62], 0, {}⟩ [some (some (.char 0x62)), some (some (.char 0x61))] finish := by
  have answers : Answering (Cursor.Within #[0x61, 0x62] 0)
      ([Rule.byteRange 0x61 0x62, .byte 0x61].map (Rule.parse .empty)) := by
    refine answering_parse .empty fun rule hrule d _ _ => ?_
    rcases List.mem_pair.mp hrule with rfl | rfl
    · exact answers_test _ _ d
    · exact answers_test _ _ d
  have start : Cursor.WellFormed ⟨#[0x61, 0x62], 0, {}⟩ := Nat.zero_le _
  have slots : ([none, none] : Parser.Slots).length =
      ([Rule.byteRange 0x61 0x62, .byte 0x61].map (Rule.parse .empty)).length := rfl
  obtain ⟨found, hfound, -, -, filled, -⟩ :=
    fillInPlace_consistent answers slots (start.within (Nat.zero_le _))
  have run : (fillInPlace ([Rule.byteRange 0x61 0x62, .byte 0x61].map (Rule.parse .empty)) 3
      [none, none] ⟨#[0x61, 0x62], 0, {}⟩).outcome =
        .ok ⟨.ok ⟨#[0x61, 0x62], 16, {}⟩,
          [some (some (.char 0x62)), some (some (.char 0x61))]⟩ := rfl
  obtain rfl := Outcome.ok.inj (hfound.symm.trans run)
  exact ⟨answers, _, rfl, filled _ rfl⟩

end Permutation

end BitGrammar
