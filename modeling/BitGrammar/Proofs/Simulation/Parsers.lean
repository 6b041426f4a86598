import BitGrammar.Proofs.Simulation
import BitGrammar.Rule
import Mathlib.Data.List.Forall2

/-!
# Parsers built from corresponding parsers

For every parser of the library that has parts: if the parts correspond in a simulation, so do the
wholes. Nothing is said here about parsers without parts, as it is they that read the input; what
a simulation means is decided by which of those it relates.

Two kinds of parser ask for more. Those that hand values to a function need a simulation in which
the values of matches are equal. A change of the order of reading needs cursors that still
correspond afterwards. `Parser.whitespace` is not among them, as going over blanks reads the input.

## Main results

* `Related.sequence`, `Related.choice`, … : one theorem for each parser with parts
-/

namespace BitGrammar

namespace Simulation

variable {S : Simulation} {c d : Cursor} {p q p' q' : Parser} {ps qs : List Parser}

/-! ### Matches and items -/

theorem Matches.after {m n k l : Match} (h : S.Matches c d m n) (h' : S.Matches m.next n.next k l) :
    S.Matches c d k l :=
  ⟨h'.value, h.next.trans h'.next⟩

theorem Matches.shown_eq {m n : Match} (h : S.Matches c d m n) (hv : S.values) :
    m.shown = n.shown := by
  rw [Match.shown, Match.shown, h.value hv]

theorem Matches.consTo {m n : Match} {items items' : Items} (h : S.Matches c d m n)
    (h' : S.ItemsMatch m.next n.next items items') :
    S.ItemsMatch c d (m.consTo items) (n.consTo items') := by
  refine ⟨fun hv => ?_, h.next.trans h'.next⟩
  rw [Match.consTo, Match.consTo, h.value hv, h'.values hv]

theorem Matches.stay (hcd : S.cursor c d) (v : Option Value) : S.Matches c d ⟨v, c⟩ ⟨v, d⟩ :=
  ⟨fun _ => rfl, .refl hcd⟩

theorem ItemsMatch.nil (hcd : S.cursor c d) : S.ItemsMatch c d ([], c) ([], d) :=
  ⟨fun _ => rfl, .refl hcd⟩

theorem ItemsMatch.toMatch {items items' : Items} (h : S.ItemsMatch c d items items') :
    S.Matches c d items.toMatch items'.toMatch := by
  refine ⟨fun hv => ?_, h.next⟩
  rw [Items.toMatch, Items.toMatch, h.values hv]

/-- A match, and behind it further items. -/
theorem Runs.consTo {x y : Run Match} {f g : Cursor → Run Items}
    (h : S.Runs (S.Matches c d) x y)
    (hfg : ∀ {c' d' : Cursor}, S.cursor c' d' → S.Runs (S.ItemsMatch c' d') (f c') (g d')) :
    S.Runs (S.ItemsMatch c d)
      (x >>= fun m => f m.next >>= fun items => Pure.pure (m.consTo items))
      (y >>= fun n => g n.next >>= fun items => Pure.pure (n.consTo items)) := by
  refine h.bind fun m n hmn => ?_
  refine (hfg hmn.next.cursor).bind fun items items' hitems => ?_
  exact .pure (hmn.consTo hitems)

/-- All the items as one match. -/
theorem Runs.toMatch {x y : Run Items} (h : S.Runs (S.ItemsMatch c d) x y) :
    S.Runs (S.Matches c d) (x >>= fun items => Pure.pure items.toMatch)
      (y >>= fun items => Pure.pure items.toMatch) :=
  h.bind fun _ _ hitems => .pure hitems.toMatch

/-! ### One parser after another -/

theorem Related.misuse (m : Misuse) : S.Related (fun _ => Run.misuse m) fun _ => Run.misuse m :=
  fun _ _ _ => .misuse m

theorem Related.diverge : S.Related (fun _ => Run.endless) fun _ => Run.endless :=
  fun _ _ _ => .diverge

theorem Related.ofEndless (h : S.endless) : S.Related (fun _ => Run.endless) p :=
  fun _ _ _ => .ofEndless h

theorem Related.ofMisuse {m : Misuse} (h : S.misuse m) :
    S.Related (fun _ => Run.misuse m) p :=
  fun _ _ _ => .ofMisuse h

theorem runs_collect (h : List.Forall₂ S.Related ps qs) (hcd : S.cursor c d) :
    S.Runs (S.ItemsMatch c d) (Parser.collect ps c) (Parser.collect qs d) := by
  induction h generalizing c d with
  | nil => exact .pure (.nil hcd)
  | cons head _ ih => exact (head hcd).consTo ih

theorem Related.sequence (h : List.Forall₂ S.Related ps qs) :
    S.Related (Parser.sequence ps) (Parser.sequence qs) :=
  fun _ _ hcd => (runs_collect h hcd).toMatch

theorem Related.left (h : S.Related p q) (h' : S.Related p' q') :
    S.Related (Parser.left p p') (Parser.left q q') := by
  intro c d hcd
  refine (h hcd).bind fun m n hmn => ?_
  refine (h' hmn.next.cursor).bind fun k l hkl => ?_
  exact .pure ⟨hmn.value, hmn.next.trans hkl.next⟩

theorem Related.right (h : S.Related p q) (h' : S.Related p' q') :
    S.Related (Parser.right p p') (Parser.right q q') := by
  intro c d hcd
  refine (h hcd).bind fun m n hmn => ?_
  exact (h' hmn.next.cursor).mono fun _ _ hkl => hmn.after hkl

theorem Related.middle {p'' q'' : Parser} (h : S.Related p q) (h' : S.Related p' q')
    (h'' : S.Related p'' q'') : S.Related (Parser.middle p p' p'') (Parser.middle q q' q'') := by
  intro c d hcd
  refine (h hcd).bind fun m n hmn => ?_
  refine (h' hmn.next.cursor).bind fun m' n' hmn' => ?_
  refine (h'' hmn'.next.cursor).bind fun k l hkl => ?_
  exact .pure ⟨hmn'.value, hmn.next.trans (hmn'.next.trans hkl.next)⟩

theorem Related.ignore (h : S.Related p q) : S.Related (Parser.ignore p) (Parser.ignore q) :=
  fun _ _ hcd => (h hcd).bind fun _ _ hmn => .pure ⟨fun _ => rfl, hmn.next⟩

theorem runs_collectTimes (h : S.Related p q) (total left : Nat) (hcd : S.cursor c d) :
    S.Runs (S.ItemsMatch c d) (Parser.collectTimes p total left c)
      (Parser.collectTimes q total left d) := by
  induction left generalizing c d with
  | zero => exact .pure (.nil hcd)
  | succ left ih =>
    exact ((h hcd).recordFailure fun _ _ hef => S.trace_repeatStopped hef _ _).consTo ih

theorem Related.exactly (h : S.Related p q) (count : Nat) :
    S.Related (Parser.exactly p count) (Parser.exactly q count) :=
  fun _ _ hcd => (runs_collectTimes h count count hcd).toMatch

theorem Related.times (h : S.Related p q) (count : Nat) :
    S.Related (Parser.times p count) (Parser.times q count) := by
  rcases Nat.lt_or_ge count Parser.capacity with room | noRoom
  · rw [Parser.times_of_lt p room, Parser.times_of_lt q room]
    exact .exactly h count
  · rw [Parser.times_of_le p noRoom, Parser.times_of_le q noRoom]
    exact .misuse _

theorem runs_collectCounted (h : S.Related p q) (count : Nat) (hcd : S.cursor c d) :
    S.Runs (S.ItemsMatch c d) (Parser.collectCounted p count c)
      (Parser.collectCounted q count d) := by
  induction count generalizing c d with
  | zero => exact .pure (.nil hcd)
  | succ count ih => exact (h hcd).consTo ih

theorem Related.lengthValue (hv : S.values) (h : S.Related p q) (h' : S.Related p' q') :
    S.Related (Parser.lengthValue p p') (Parser.lengthValue q q') := by
  intro c d hcd
  refine (h hcd).bind fun m n hmn => ?_
  rw [hmn.value hv]
  cases n.value.bind Value.asCount with
  | none => exact .misuse _
  | some count =>
    refine (runs_collectCounted h' count hmn.next.cursor).toMatch.mono fun _ _ hkl => ?_
    exact hmn.after hkl

/-! ### One parser out of several -/

theorem runs_tryAll (h : List.Forall₂ S.Related ps qs) (hcd : S.cursor c d) (index : Nat)
    {kept kept' : Option Failure} (hk : S.Kept kept kept') :
    S.Runs (S.Matches c d) (Parser.tryAll c ps index kept) (Parser.tryAll d qs index kept') := by
  induction h generalizing index kept kept' with
  | nil => exact .fail (hk.getD_rejection hcd _)
  | cons head _ ih =>
    refine (head hcd).attempt_bind (fun m n hmn => .pure hmn) fun e f hef => ?_
    refine (Runs.record (S.trace_choiceFailed hcd hef index)).bind fun _ _ _ => ?_
    exact ih (index + 1) (.some (hk.keepFurthest hef))

theorem Related.choice (h : List.Forall₂ S.Related ps qs) :
    S.Related (Parser.choice ps) (Parser.choice qs) :=
  fun _ _ hcd => runs_tryAll h hcd 0 .none

theorem Related.optional (h : S.Related p q) :
    S.Related (Parser.optional p) (Parser.optional q) := by
  intro c d hcd
  exact (h hcd).attempt_bind (fun m n hmn => .pure hmn) fun _ _ _ => .pure (.stay hcd _)

theorem Related.exclusiveOr (h : S.Related p q) (h' : S.Related p' q') :
    S.Related (Parser.exclusiveOr p p') (Parser.exclusiveOr q q') := by
  intro c d hcd
  refine (h hcd).attempt_bind (fun m n hmn => ?_) fun e f hef => ?_
  · refine (h' hcd).attempt_bind (fun m' n' hmn' => ?_) fun e' f' hef' => ?_
    · exact .fail (S.rejection hcd _)
    · exact .pure hmn
  · refine (h' hcd).attempt_bind (fun m' n' hmn' => ?_) fun e' f' hef' => ?_
    · exact .pure hmn'
    · exact .fail (S.furthest hef hef')

/-! ### Looking ahead, and exclusion -/

theorem Related.followedBy (h : S.Related p q) :
    S.Related (Parser.followedBy p) (Parser.followedBy q) :=
  fun _ _ hcd => (h hcd).bind fun _ _ _ => .pure (.stay hcd _)

theorem Related.notFollowedBy (h : S.Related p q) :
    S.Related (Parser.notFollowedBy p) (Parser.notFollowedBy q) := by
  intro c d hcd
  refine (h hcd).attempt_bind (fun m n hmn => ?_) fun e f hef => ?_
  · exact .fail (S.rejection hcd _)
  · exact .pure (.stay hcd _)

/-- The lengths that decide on an exclusion are the same on both sides. -/
theorem Related.excluding (excludes : Nat → Nat → Bool) (h : S.Related p q)
    (h' : S.Related p' q') :
    S.Related (Parser.excluding excludes p p') (Parser.excluding excludes q q') := by
  intro c d hcd
  refine (h hcd).bind fun m n hmn => ?_
  refine (h' hcd).attempt_bind (fun m' n' hmn' => ?_) fun e f hef => .pure hmn
  dsimp only
  rw [bitsSince_eq hcd hmn.next.cursor, bitsSince_eq hcd hmn'.next.cursor]
  cases hx : excludes (n.next.bitsSince d) (n'.next.bitsSince d) with
  | true =>
    simp only [if_true]
    exact .fail (S.rejection hcd _)
  | false =>
    simp only [Bool.false_eq_true, if_false]
    exact .pure hmn

theorem Related.butNot (h : S.Related p q) (h' : S.Related p' q') :
    S.Related (Parser.butNot p p') (Parser.butNot q q') :=
  .excluding _ h h'

theorem Related.difference (h : S.Related p q) (h' : S.Related p' q') :
    S.Related (Parser.difference p p') (Parser.difference q q') :=
  .excluding _ h h'

/-! ### Repetition -/

/-- The right may go on for more rounds than the left where endless runs need no answer. -/
def Rounds (S : Simulation) (rounds rounds' : Nat) : Prop :=
  rounds ≤ rounds' ∧ (S.endless ∨ rounds = rounds')

theorem Rounds.of_succ {n rounds' : Nat} (h : S.Rounds (n + 1) rounds') :
    ∃ n', rounds' = n' + 1 ∧ S.Rounds n n' := by
  have hle := h.1
  refine ⟨rounds' - 1, by omega, by omega, ?_⟩
  exact h.2.imp_right fun heq => by omega

/-- The rounds that are left from a cursor on: the right may have more of them than the left where
endless runs need no answer, and any number of them is as good that reaches beyond the limit. -/
def Enough (S : Simulation) (c : Cursor) (rounds rounds' : Nat) : Prop :=
  S.Rounds rounds rounds' ∨ ∃ l ∈ S.limit, l < c.position + rounds ∧ l < c.position + rounds'

/-- There are as many rounds for one more than there are positions. -/
theorem enough_positions (hcd : S.cursor c d) :
    S.Enough c (c.positions + 1) (d.positions + 1) := by
  rcases S.positions hcd with ⟨hle, heq⟩ | ⟨l, hl, hc, hd⟩
  · exact .inl ⟨Nat.succ_le_succ hle, heq.imp_right (congrArg Nat.succ)⟩
  · exact .inr ⟨l, hl, by omega, by omega⟩

/-- A round that moves the cursor leaves enough rounds to go on from there. -/
theorem Enough.of_succ {n rounds' : Nat} (h : S.Enough c (n + 1) rounds') (hcd : S.cursor c d) :
    ∃ n', rounds' = n' + 1 ∧ ∀ {c' d' : Cursor}, S.Follows c d c' d' →
      c'.position ≠ c.position → S.Enough c' n n' := by
  rcases h with hr | ⟨l, hl, hc, hd⟩
  · obtain ⟨n', rfl, hr'⟩ := hr.of_succ
    exact ⟨n', rfl, fun _ _ => .inl hr'⟩
  · have hle := S.position_le_limit hcd l hl
    refine ⟨rounds' - 1, by omega, fun hf hmoved => .inr ⟨l, hl, ?_⟩⟩
    have := hf.forward (Option.isSome_of_mem hl)
    omega

theorem runs_noRounds {rounds' : Nat} (hr : S.Enough c 0 rounds') (hcd : S.cursor c d)
    {f : Nat → Run Items} (hf : f 0 = Run.endless) :
    S.Runs (S.ItemsMatch c d) Run.endless (f rounds') := by
  rcases hr with ⟨-, he | rfl⟩ | ⟨l, hl, hc, -⟩
  · exact .ofEndless he
  · rw [hf]
    exact .diverge
  · exact absurd (S.position_le_limit hcd l hl) (Nat.not_le.mpr hc)

theorem runs_repeatWhile (h : S.Related p q) {rounds rounds' : Nat}
    (hr : S.Enough c rounds rounds') (required : Nat) (hcd : S.cursor c d) :
    S.Runs (S.ItemsMatch c d) (Parser.repeatWhile p rounds required c)
      (Parser.repeatWhile q rounds' required d) := by
  induction rounds generalizing rounds' required c d with
  | zero => exact runs_noRounds hr hcd (f := fun n => Parser.repeatWhile q n required d) rfl
  | succ rounds ih =>
    obtain ⟨rounds', rfl, hr'⟩ := hr.of_succ hcd
    refine (h hcd).attempt_bind (fun m n hmn => ?_) fun e f hef => ?_
    · have hstay := position_eq_iff hcd hmn.next.cursor
      dsimp only
      by_cases hm : m.next.position = c.position
      · rw [if_pos hm, if_pos (hstay.mp hm)]
        exact .pure (hmn.consTo (.nil hmn.next.cursor))
      · rw [if_neg hm, if_neg (hm ∘ hstay.mpr)]
        refine (ih (hr' hmn.next hm) (required - 1) hmn.next.cursor).bind fun _ _ hitems => ?_
        exact .pure (hmn.consTo hitems)
    · dsimp only
      by_cases hreq : 0 < required
      · rw [if_pos hreq, if_pos hreq]
        exact .fail hef
      · rw [if_neg hreq, if_neg hreq]
        exact .pure (.nil hcd)

theorem Related.atLeast (required : Nat) (h : S.Related p q) :
    S.Related (Parser.atLeast required p) (Parser.atLeast required q) :=
  fun _ _ hcd => (runs_repeatWhile h (enough_positions hcd) required hcd).toMatch

theorem Related.many (h : S.Related p q) : S.Related (Parser.many p) (Parser.many q) :=
  .atLeast 0 h

theorem Related.many1 (h : S.Related p q) : S.Related (Parser.many1 p) (Parser.many1 q) :=
  .atLeast 1 h

theorem runs_furtherItems (h : S.Related p q) (h' : S.Related p' q') {rounds rounds' : Nat}
    (hr : S.Enough c rounds rounds') (hcd : S.cursor c d) :
    S.Runs (S.ItemsMatch c d) (Parser.furtherItems p p' rounds c)
      (Parser.furtherItems q q' rounds' d) := by
  induction rounds generalizing rounds' c d with
  | zero => exact runs_noRounds hr hcd (f := fun n => Parser.furtherItems q q' n d) rfl
  | succ rounds ih =>
    obtain ⟨rounds', rfl, hr'⟩ := hr.of_succ hcd
    refine (h' hcd).attempt_bind (fun between between' hb => ?_) fun _ _ _ => .pure (.nil hcd)
    refine (h hb.next.cursor).attempt_bind (fun m n hmn' => ?_) fun _ _ _ => .pure (.nil hcd)
    have hmn := hb.after hmn'
    have hstay := position_eq_iff hcd hmn.next.cursor
    dsimp only
    by_cases hm : m.next.position = c.position
    · rw [if_pos hm, if_pos (hstay.mp hm)]
      exact .pure (hmn.consTo (.nil hmn.next.cursor))
    · rw [if_neg hm, if_neg (hm ∘ hstay.mpr)]
      refine (ih (hr' hmn.next hm) hmn.next.cursor).bind fun _ _ hitems => ?_
      exact .pure (hmn.consTo hitems)

theorem Related.separated (required : Bool) (h : S.Related p q) (h' : S.Related p' q') :
    S.Related (Parser.separated required p p') (Parser.separated required q q') := by
  intro c d hcd
  refine (h hcd).attempt_bind (fun m n hmn => ?_) fun e f hef => ?_
  · have hm := hmn.next.cursor
    refine (runs_furtherItems h h' (enough_positions hm) hm).bind fun _ _ hitems => ?_
    exact .pure (hmn.consTo hitems).toMatch
  · cases required with
    | true => exact .fail hef
    | false => exact .pure (ItemsMatch.nil hcd).toMatch

theorem Related.sepBy (h : S.Related p q) (h' : S.Related p' q') :
    S.Related (Parser.sepBy p p') (Parser.sepBy q q') :=
  .separated false h h'

theorem Related.sepBy1 (h : S.Related p q) (h' : S.Related p' q') :
    S.Related (Parser.sepBy1 p p') (Parser.sepBy1 q q') :=
  .separated true h h'

/-! ### Looking at values -/

theorem runs_recordCall (kind : HookKind) (name : Option String) (v : Value) :
    S.Runs (fun _ _ => True) (Parser.recordCall kind name v) (Parser.recordCall kind name v) := by
  cases name with
  | none => exact .pure trivial
  | some name => exact .record (S.trace_hookCalled kind name v)

theorem Related.map (hv : S.values) (name : Option String) (f : Value → Value)
    (h : S.Related p q) : S.Related (Parser.map name f p) (Parser.map name f q) := by
  intro c d hcd
  refine (h hcd).bind fun m n hmn => ?_
  rw [hmn.shown_eq hv]
  refine (runs_recordCall _ _ _).bind fun _ _ _ => ?_
  exact .pure ⟨fun _ => rfl, hmn.next⟩

theorem Related.filter (hv : S.values) (name : Option String) (accept : Value → Bool)
    (h : S.Related p q) :
    S.Related (Parser.filter name accept p) (Parser.filter name accept q) := by
  intro c d hcd
  refine (h hcd).bind fun m n hmn => ?_
  rw [hmn.shown_eq hv]
  refine (runs_recordCall _ _ _).bind fun _ _ _ => ?_
  cases accept n.shown with
  | true => exact .pure hmn
  | false => exact .fail (S.rejection hcd _)

theorem Related.andThen (hv : S.values) (name : Option String)
    {continuation continuation' : Value → Option Parser}
    (hk : ∀ v, Option.Rel S.Related (continuation v) (continuation' v)) (h : S.Related p q) :
    S.Related (Parser.andThen name continuation p) (Parser.andThen name continuation' q) := by
  intro c d hcd
  refine (h hcd).bind fun m n hmn => ?_
  rw [hmn.shown_eq hv]
  refine (runs_recordCall _ _ _).bind fun _ _ _ => ?_
  have hn := hk n.shown
  generalize continuation n.shown = k, continuation' n.shown = k' at hn ⊢
  cases hn with
  | none => exact .fail (S.rejection hcd _)
  | some hpq => exact (hpq hmn.next.cursor).mono fun _ _ hkl => hmn.after hkl

theorem Related.inRange (hv : S.values) (lower upper : Int64) (h : S.Related p q) :
    S.Related (Parser.inRange lower upper p) (Parser.inRange lower upper q) := by
  intro c d hcd
  refine (h hcd).bind fun m n hmn => ?_
  rw [hmn.value hv]
  cases n.value.bind Value.asInteger with
  | none => exact .misuse _
  | some i =>
    by_cases hi : lower.toInt ≤ i ∧ i ≤ upper.toInt
    · simp only [if_pos hi]
      exact .pure hmn
    · simp only [if_neg hi]
      exact .fail (S.rejection hcd _)

/-- Parsers keep the order of reading, so that it can be put back on both sides. -/
theorem Related.withOrder (order : ReadOrder)
    (reorder : ∀ {c d : Cursor}, S.cursor c d → ∀ o, S.cursor (c.withOrder o) (d.withOrder o))
    (sameOrder : ∀ {c d : Cursor}, S.cursor c d → c.order = d.order) (h : S.Related p q) :
    S.Related (Parser.withOrder order p) (Parser.withOrder order q) := by
  intro c d hcd
  refine (h (reorder hcd order)).bind fun m n hmn => ?_
  refine .pure ⟨hmn.value, ?_, rfl, rfl, hmn.next.forward⟩
  rw [sameOrder hcd]
  exact reorder hmn.next.cursor d.order

/-! ### Parsers in any order -/

/-- Slots that correspond: the same ones are filled, with equal values if values are equal. -/
def Slot (S : Simulation) (slot slot' : Option (Option Value)) : Prop :=
  slot.isNone = slot'.isNone ∧ (S.values → slot = slot')

/-- Members that correspond, with the same index. -/
def Member (S : Simulation) (member member' : Nat × Parser) : Prop :=
  member.1 = member'.1 ∧ S.Related member.2 member'.2

/-- Slots and cursors that correspond, from two cursors. -/
structure Filled (S : Simulation) (c d : Cursor) (filled filled' : Parser.Slots × Cursor) : Prop
    where
  slots : List.Forall₂ S.Slot filled.1 filled'.1
  next : S.Follows c d filled.2 filled'.2

variable {slots slots' : Parser.Slots} {members members' : List (Nat × Parser)}
  {kept kept' : Option Failure}

theorem forall₂_set (h : List.Forall₂ S.Slot slots slots') {slot slot' : Option (Option Value)}
    (hs : S.Slot slot slot') (i : Nat) :
    List.Forall₂ S.Slot (slots.set i slot) (slots'.set i slot') := by
  induction h generalizing i with
  | nil => exact .nil
  | cons head tail ih =>
    cases i with
    | zero => exact .cons hs tail
    | succ i => exact .cons head (ih i)

theorem forall₂_unplaced (h : List.Forall₂ S.Related ps qs)
    (hs : List.Forall₂ S.Slot slots slots') :
    List.Forall₂ S.Member (Parser.unplaced ps slots) (Parser.unplaced qs slots') := by
  -- the index that the members are counted from moves along with the induction
  suffices ∀ k, List.Forall₂ S.Member
      (((ps.zip slots).zipIdx k).filterMap fun x =>
        if x.1.2.isNone then some (x.2, x.1.1) else none)
      (((qs.zip slots').zipIdx k).filterMap fun x =>
        if x.1.2.isNone then some (x.2, x.1.1) else none) from this 0
  intro k
  induction h generalizing slots slots' k with
  | nil => exact .nil
  | cons head tail ih =>
    cases hs with
    | nil => exact .nil
    | cons hslot hslots =>
      rename_i slot slot' _ _
      simp only [List.zip_cons_cons, List.zipIdx_cons, List.filterMap_cons, hslot.1]
      cases slot'.isNone with
      | true => exact .cons ⟨rfl, head⟩ (ih hslots (k + 1))
      | false => exact ih hslots (k + 1)

theorem slot_some {m n : Match} (h : S.Matches c d m n) :
    S.Slot (some m.value) (some n.value) :=
  ⟨rfl, fun hv => congrArg some (h.value hv)⟩

/-- What comes of trying to place a member corresponds: filled slots, or failures kept. -/
inductive Placed (S : Simulation) (c d : Cursor) :
    Except (Option Failure) (Parser.Slots × Cursor) →
      Except (Option Failure) (Parser.Slots × Cursor) → Prop where
  | ok {filled filled' : Parser.Slots × Cursor} (h : S.Filled c d filled filled') :
    Placed S c d (.ok filled) (.ok filled')
  | error {kept kept' : Option Failure} (h : S.Kept kept kept') :
    Placed S c d (.error kept) (.error kept')

theorem runs_placeConsuming {place place' : Parser.Slots → Cursor → Run (Parser.Slots × Cursor)}
    (hplace : ∀ {slots slots' : Parser.Slots} {c d : Cursor}, List.Forall₂ S.Slot slots slots' →
      S.cursor c d → S.Runs (S.Filled c d) (place slots c) (place' slots' d))
    (hs : List.Forall₂ S.Slot slots slots') (hcd : S.cursor c d)
    (hm : List.Forall₂ S.Member members members') (hk : S.Kept kept kept') :
    S.Runs (S.Placed c d) (Parser.placeConsuming place slots c members kept)
      (Parser.placeConsuming place' slots' d members' kept') := by
  induction hm generalizing kept kept' with
  | nil => exact .pure (.error hk)
  | @cons member member' _ _ head _ ih =>
    obtain ⟨i, p⟩ := member
    obtain ⟨_, q⟩ := member'
    obtain ⟨rfl, hpq⟩ : i = _ ∧ S.Related p q := head
    refine (hpq hcd).attempt_bind (fun m n hmn => ?_) fun e f hef => ?_
    · have hmoves := position_lt_iff hcd hmn.next.cursor
      by_cases hlt : c.position < m.next.position
      · simp only [if_pos hlt, if_pos (hmoves.mp hlt)]
        have hset := forall₂_set hs (slot_some hmn) i
        refine (hplace hset hmn.next.cursor).attempt_bind (fun filled filled' hf => ?_)
          fun e f hef => ?_
        · exact .pure (.ok ⟨hf.slots, hmn.next.trans hf.next⟩)
        · exact ih (.some (hk.keepFurthest hef))
      · simp only [if_neg hlt, if_neg (hlt ∘ hmoves.mpr)]
        exact ih hk
    · exact ih (.some (hk.keepFurthest hef))

theorem runs_placeEmpty (hs : List.Forall₂ S.Slot slots slots') (hcd : S.cursor c d)
    (hm : List.Forall₂ S.Member members members') (hk : S.Kept kept kept') :
    S.Runs (List.Forall₂ S.Slot) (Parser.placeEmpty c kept members slots)
      (Parser.placeEmpty d kept' members' slots') := by
  induction hm generalizing slots slots' with
  | nil => exact .pure hs
  | @cons member member' _ _ head _ ih =>
    obtain ⟨i, p⟩ := member
    obtain ⟨_, q⟩ := member'
    obtain ⟨rfl, hpq⟩ : i = _ ∧ S.Related p q := head
    refine (hpq hcd).attempt_bind (fun m n hmn => ?_) fun e f hef => .fail (hk.keepFurthest hef)
    have hstay := position_eq_iff hcd hmn.next.cursor
    by_cases heq : m.next.position = c.position
    · simp only [if_pos heq, if_pos (hstay.mp heq)]
      exact ih (forall₂_set hs (slot_some hmn) i)
    · simp only [if_neg heq, if_neg (heq ∘ hstay.mpr)]
      exact .fail (hk.getD_rejection hcd _)

theorem runs_fill (h : List.Forall₂ S.Related ps qs) (count : Nat)
    (hs : List.Forall₂ S.Slot slots slots') (hcd : S.cursor c d) :
    S.Runs (S.Filled c d) (Parser.fill ps count slots c) (Parser.fill qs count slots' d) := by
  induction count generalizing slots slots' c d with
  | zero => exact .pure ⟨hs, .refl hcd⟩
  | succ count ih =>
    have hm := forall₂_unplaced h hs
    refine (runs_placeConsuming ih hs hcd hm .none).bind fun placed placed' hplaced => ?_
    cases hplaced with
    | ok hf => exact .pure hf
    | error hk =>
      refine (runs_placeEmpty hs hcd hm hk).bind fun filled filled' hf => ?_
      exact .pure ⟨hf, .refl hcd⟩

theorem slotValues_eq (hv : S.values) (h : List.Forall₂ S.Slot slots slots') :
    Parser.slotValues slots = Parser.slotValues slots' := by
  have : slots = slots' := List.forall₂_eq_eq_eq ▸ h.imp fun _ _ hs => hs.2 hv
  rw [this]

theorem Related.permutation (h : List.Forall₂ S.Related ps qs) :
    S.Related (Parser.permutation ps) (Parser.permutation qs) := by
  intro c d hcd
  have hs : List.Forall₂ S.Slot (List.replicate ps.length none)
      (List.replicate qs.length none) := by
    rw [h.length_eq]
    exact List.forall₂_same.mpr fun _ _ => ⟨rfl, fun _ => rfl⟩
  rw [Parser.permutation, Parser.permutation, ← h.length_eq] at *
  refine (runs_fill h ps.length hs hcd).bind fun filled filled' hf => ?_
  refine .pure ⟨fun hv => ?_, hf.next⟩
  rw [Items.toMatch, Items.toMatch, slotValues_eq hv hf.slots]

end Simulation

end BitGrammar
