import BitGrammar.Proofs.Bounds

/-!
# Runs that end

A run settles when it is not endless, with a property of its result if it succeeds. A parser
settles at a cursor when its run from there does so and its match, if there is one, ends ahead of
the cursor. For every parser with parts it is said here at which cursors the parts have to settle
for the whole to settle.

## What decides the design

Where a part runs behind an earlier one, it has to settle at the ends of the earlier one's matches
and nowhere else. Arguments by the number of bits that remain need this, as an earlier part may be
known to consume. Repetitions run their part at cursors further and further ahead; that they
settle is the observation that a round either stalls, and is the last one, or leaves fewer bits.

## Main definitions

* `Run.Settles`: a run ends, with a property of its result
* `Cursor.Ahead`: on the same input, not behind, and not past the end
* `Parser.SettlesAt`: a parser ends from a cursor, ahead of it

## Main results

* `settlesAt_sequence`, `settlesAt_atLeast`, `settlesAt_permutation`, … : one theorem for each
  parser with parts
-/

namespace BitGrammar

/-! ### Runs -/

namespace Run

variable {α β : Type}

/-- A run is not endless, and a result that it gives has a property. -/
def Settles (R : α → Prop) (x : Run α) : Prop :=
  match x.outcome with
  | .ok a => R a
  | .failed _ | .misused _ => True
  | .endless => False

namespace Settles

variable {R R' : α → Prop} {Q : β → Prop} {x : Run α}

theorem ne_endless (h : x.Settles R) : x.outcome ≠ .endless := by
  intro hx
  rw [Settles, hx] at h
  exact h

theorem of_ok (h : x.Settles R) {a : α} (hx : x.outcome = .ok a) : R a := by
  rw [Settles, hx] at h
  exact h

theorem mono (h : x.Settles R) (hR : ∀ a, x.outcome = .ok a → R a → R' a) : x.Settles R' := by
  obtain ⟨t, o⟩ := x
  cases o with
  | ok a => exact hR a rfl h
  | failed e => trivial
  | misused m => trivial
  | endless => exact h

theorem pure {a : α} (h : R a) : (Pure.pure a : Run α).Settles R := h

theorem fail (e : Failure) : (Run.fail e : Run α).Settles R := trivial

theorem misuse (m : Misuse) : (Run.misuse m : Run α).Settles R := trivial

theorem record (r : Record) : (Run.record r).Settles fun _ => True := trivial

theorem bind {f : α → Run β} (h : x.Settles R)
    (hf : ∀ a, x.outcome = .ok a → R a → (f a).Settles Q) : (x >>= f).Settles Q := by
  obtain ⟨t, o⟩ := x
  cases o with
  | ok a => exact hf a rfl h
  | failed e => trivial
  | misused m => trivial
  | endless => exact h

/-- What follows an attempt has to settle both after a success and after a failure. -/
theorem attempt_bind {f : Except Failure α → Run β} (h : x.Settles R)
    (ok : ∀ a, x.outcome = .ok a → R a → (f (.ok a)).Settles Q)
    (error : ∀ e, x.outcome = .failed e → (f (.error e)).Settles Q) :
    (x.attempt >>= f).Settles Q := by
  obtain ⟨t, o⟩ := x
  cases o with
  | ok a => exact ok a rfl h
  | failed e => exact error e rfl
  | misused m => trivial
  | endless => exact h

theorem recordFailure (h : x.Settles R) (r : Failure → Record) :
    (x.recordFailure r).Settles R := by
  obtain ⟨t, o⟩ := x
  cases o with
  | ok a => exact h
  | failed e => trivial
  | misused m => trivial
  | endless => exact h

end Settles

end Run

/-! ### Parsers -/

/-- On the same input, not behind, and not past the end. -/
abbrev Cursor.Ahead (c d : Cursor) : Prop :=
  d.Within c.input c.position

namespace Cursor

variable {c d e : Cursor}

theorem WellFormed.ahead (h : c.WellFormed) : c.Ahead c :=
  ⟨rfl, Nat.le_refl _, h⟩

namespace Ahead

theorem trans (h : c.Ahead d) (h' : d.Ahead e) : c.Ahead e :=
  ⟨h'.input_eq.trans h.input_eq, Nat.le_trans h.first_le h'.first_le, h'.wellFormed⟩

theorem within {input : Array UInt8} {first : Nat} (h : c.Ahead d) (hc : c.Within input first) :
    d.Within input first :=
  ⟨h.input_eq.trans hc.input_eq, Nat.le_trans hc.first_le h.first_le, h.wellFormed⟩

theorem size_eq (h : c.Ahead d) : d.size = c.size := by
  rw [size, size, h.input_eq]

/-- Fewer bits remain further ahead. -/
theorem remaining_add (h : c.Ahead d) :
    d.remaining + (d.position - c.position) = c.remaining := by
  have hd := h.wellFormed.position_add_remaining
  have hsize := h.size_eq
  have hle := h.first_le
  rw [remaining, remaining] at *
  omega

end Ahead

end Cursor

namespace Parser

/-- The run from a cursor ends, and a match ends ahead of the cursor. -/
def SettlesAt (p : Parser) (c : Cursor) : Prop :=
  (p c).Settles fun m => c.Ahead m.next

/-- Parsers run one after another from a cursor each settle where they start. -/
def SettleInTurn : List Parser → Cursor → Prop
  | [], _ => True
  | p :: ps, c => p.SettlesAt c ∧ ∀ m, (p c).outcome = .ok m → SettleInTurn ps m.next

variable {p q : Parser} {ps : List Parser} {c : Cursor}

/-! ### Parsers without parts -/

theorem ne_endless_of_eq_ofRead {α : Type} {value : α → Option Value} {next : α → Cursor}
    {r : Except Failure α} {x : Run Match} (h : x = .ofRead value next r) :
    x.outcome ≠ .endless := by
  rw [h]
  cases r <;> exact nofun

theorem test_ne_endless (accept : UInt8 → Bool) (why : UInt8 → Mismatch) (c : Cursor) :
    (test accept why c).outcome ≠ .endless := by
  rcases test_cases accept why c with ⟨b, next, -, -, found⟩ | ⟨e, failed⟩
  · rw [found]
    rintro ⟨⟩
  · rw [failed]
    rintro ⟨⟩

theorem leaf_ne_endless {rule : Rule} (leaf : rule.isLeaf) (c : Cursor) :
    (Interpretation.plain.leaf rule c).outcome ≠ .endless := by
  cases rule with
  | byte | byteRange | byteIn => exact test_ne_endless _ _ c
  | literal bytes => exact ne_endless_of_eq_ofRead (literal_eq bytes c)
  | take count => exact ne_endless_of_eq_ofRead (take_eq count c)
  | bits width signed fits => exact ne_endless_of_eq_ofRead (bits_eq width signed c)
  | skip count => exact ne_endless_of_eq_ofRead (skip_eq count c)
  | seek offset anchor => exact ne_endless_of_eq_ofRead (seek_eq offset anchor c)
  | tell | epsilon | nothing => rintro ⟨⟩
  | finish =>
    show (finish c).outcome ≠ .endless
    rw [finish]
    split <;> rintro ⟨⟩
  | _ => cases leaf

theorem settlesAt_leaf (hc : c.WellFormed) {rule : Rule} (leaf : rule.isLeaf)
    (noSeek : ∀ offset anchor, rule ≠ .seek offset anchor) (call : Cell → Parser) :
    (rule.eval call).SettlesAt c := by
  have hkept := hc.ahead.keptBy_leaf leaf (.inr noSeek)
  have hends := leaf_ne_endless leaf c
  rw [SettlesAt, ← Interpretation.plain_leaf call leaf]
  generalize Interpretation.plain.leaf rule c = x at hkept hends
  obtain ⟨t, o⟩ := x
  cases o with
  | ok m => exact hkept.1
  | failed e => trivial
  | misused m => trivial
  | endless => exact hends rfl

/-! ### One parser after another -/

theorem settles_collect (hc : c.WellFormed) (h : SettleInTurn ps c) :
    (collect ps c).Settles fun items => c.Ahead items.2 := by
  induction ps generalizing c with
  | nil => exact .pure hc.ahead
  | cons p ps ih =>
    refine h.1.bind fun m hm ahead => ?_
    refine (ih ahead.wellFormed (h.2 m hm)).bind fun items _ ahead' => ?_
    exact .pure (ahead.trans ahead')

theorem settlesAt_sequence (hc : c.WellFormed) (h : SettleInTurn ps c) :
    (sequence ps).SettlesAt c :=
  (settles_collect hc h).bind fun _ _ ahead => .pure ahead

theorem settlesAt_left (hp : p.SettlesAt c)
    (hq : ∀ m, (p c).outcome = .ok m → q.SettlesAt m.next) : (left p q).SettlesAt c :=
  hp.bind fun m hm ahead => (hq m hm).bind fun _ _ ahead' => .pure (ahead.trans ahead')

theorem settlesAt_right (hp : p.SettlesAt c)
    (hq : ∀ m, (p c).outcome = .ok m → q.SettlesAt m.next) : (right p q).SettlesAt c :=
  hp.bind fun m hm ahead => (hq m hm).mono fun _ _ ahead' => ahead.trans ahead'

theorem settlesAt_middle {r : Parser} (hp : p.SettlesAt c)
    (hq : ∀ m, (p c).outcome = .ok m → q.SettlesAt m.next)
    (hr : ∀ m n, (p c).outcome = .ok m → (q m.next).outcome = .ok n → r.SettlesAt n.next) :
    (middle p q r).SettlesAt c := by
  refine hp.bind fun m hm ahead => (hq m hm).bind fun n hn ahead' => ?_
  exact (hr m n hm hn).bind fun _ _ ahead'' => .pure (ahead.trans (ahead'.trans ahead''))

theorem settlesAt_ignore (hp : p.SettlesAt c) : (ignore p).SettlesAt c :=
  hp.bind fun _ _ ahead => .pure ahead

theorem settles_collectTimes (hc : c.WellFormed) (hp : ∀ d, c.Ahead d → p.SettlesAt d)
    (total left : Nat) : (collectTimes p total left c).Settles fun items => c.Ahead items.2 := by
  induction left generalizing c with
  | zero => exact .pure hc.ahead
  | succ left ih =>
    refine ((hp c hc.ahead).recordFailure _).bind fun m _ ahead => ?_
    refine (ih ahead.wellFormed fun d hd => hp d (ahead.trans hd)).bind fun items _ ahead' => ?_
    exact .pure (ahead.trans ahead')

theorem settlesAt_times (hc : c.WellFormed) (hp : ∀ d, c.Ahead d → p.SettlesAt d) (count : Nat) :
    (times p count).SettlesAt c := by
  rcases Nat.lt_or_ge count capacity with room | noRoom
  · rw [times_of_lt p room]
    exact (settles_collectTimes hc hp count count).bind fun _ _ ahead => .pure ahead
  · rw [times_of_le p noRoom]
    exact .misuse _

theorem settles_collectCounted (hc : c.WellFormed) (hp : ∀ d, c.Ahead d → p.SettlesAt d)
    (count : Nat) : (collectCounted p count c).Settles fun items => c.Ahead items.2 := by
  induction count generalizing c with
  | zero => exact .pure hc.ahead
  | succ count ih =>
    refine (hp c hc.ahead).bind fun m _ ahead => ?_
    refine (ih ahead.wellFormed fun d hd => hp d (ahead.trans hd)).bind fun items _ ahead' => ?_
    exact .pure (ahead.trans ahead')

theorem settlesAt_lengthValue (hp : p.SettlesAt c)
    (hq : ∀ m, (p c).outcome = .ok m → ∀ d, m.next.Ahead d → q.SettlesAt d) :
    (lengthValue p q).SettlesAt c := by
  refine hp.bind fun m hm ahead => ?_
  cases m.value.bind Value.asCount with
  | none => exact .misuse _
  | some count =>
    refine (settles_collectCounted ahead.wellFormed (hq m hm) count).bind fun items _ ahead' => ?_
    exact .pure (ahead.trans ahead')

/-! ### One parser out of several -/

theorem settles_tryAll (h : ∀ p ∈ ps, p.SettlesAt c) (index : Nat) (kept : Option Failure) :
    (tryAll c ps index kept).Settles fun m => c.Ahead m.next := by
  induction ps generalizing index kept with
  | nil => exact .fail _
  | cons p ps ih =>
    refine (h p (List.mem_cons_self ..)).attempt_bind (fun m _ ahead => .pure ahead) fun e _ => ?_
    refine (Run.Settles.record _).bind fun _ _ _ => ?_
    exact ih (fun q hq => h q (List.mem_cons_of_mem p hq)) (index + 1) _

theorem settlesAt_choice (h : ∀ p ∈ ps, p.SettlesAt c) : (choice ps).SettlesAt c :=
  settles_tryAll h 0 none

theorem settlesAt_optional (hc : c.WellFormed) (hp : p.SettlesAt c) : (optional p).SettlesAt c :=
  hp.attempt_bind (fun _ _ ahead => .pure ahead) fun _ _ => .pure hc.ahead

theorem settlesAt_exclusiveOr (hp : p.SettlesAt c) (hq : q.SettlesAt c) :
    (exclusiveOr p q).SettlesAt c := by
  refine hp.attempt_bind (fun m _ ahead => ?_) fun e _ => ?_
  · exact hq.attempt_bind (fun _ _ _ => .fail _) fun _ _ => .pure ahead
  · exact hq.attempt_bind (fun _ _ ahead => .pure ahead) fun _ _ => .fail _

/-! ### Looking ahead, and exclusion -/

theorem settlesAt_followedBy (hc : c.WellFormed) (hp : p.SettlesAt c) :
    (followedBy p).SettlesAt c :=
  hp.bind fun _ _ _ => .pure hc.ahead

theorem settlesAt_notFollowedBy (hc : c.WellFormed) (hp : p.SettlesAt c) :
    (notFollowedBy p).SettlesAt c :=
  hp.attempt_bind (fun _ _ _ => .fail _) fun _ _ => .pure hc.ahead

theorem settlesAt_excluding (excludes : Nat → Nat → Bool) (hp : p.SettlesAt c)
    (hq : q.SettlesAt c) : (excluding excludes p q).SettlesAt c := by
  refine hp.bind fun m _ ahead => hq.attempt_bind (fun n _ _ => ?_) fun _ _ => .pure ahead
  dsimp only
  split
  · exact .fail _
  · exact .pure ahead

/-! ### Repetition -/

/-- Every round but the last one leaves fewer bits, so that there are enough rounds. -/
theorem settles_repeatWhile (hc : c.WellFormed) (hp : ∀ d, c.Ahead d → p.SettlesAt d)
    {rounds : Nat} (hr : c.remaining < rounds) (required : Nat) :
    (repeatWhile p rounds required c).Settles fun items => c.Ahead items.2 := by
  induction rounds generalizing c required with
  | zero => exact absurd hr (Nat.not_lt_zero _)
  | succ rounds ih =>
    refine (hp c hc.ahead).attempt_bind (fun m _ ahead => ?_) fun e _ => ?_
    · dsimp only
      by_cases hm : m.next.position = c.position
      · rw [if_pos hm]
        exact .pure ahead
      · rw [if_neg hm]
        have hrem := ahead.remaining_add
        have hle := ahead.first_le
        refine (ih ahead.wellFormed (fun d hd => hp d (ahead.trans hd)) (by omega) _).bind
          fun items _ ahead' => ?_
        exact .pure (ahead.trans ahead')
    · dsimp only
      split
      · exact .fail _
      · exact .pure hc.ahead

theorem remaining_lt_rounds (c : Cursor) : c.remaining < c.positions + 1 := by
  rw [Cursor.remaining, Cursor.positions]
  omega

theorem settlesAt_atLeast (hc : c.WellFormed) (hp : ∀ d, c.Ahead d → p.SettlesAt d)
    (required : Nat) : (atLeast required p).SettlesAt c :=
  (settles_repeatWhile hc hp (remaining_lt_rounds c) required).bind fun _ _ ahead => .pure ahead

/-- A separator runs behind an item, and an item behind a separator. -/
theorem settles_furtherItems (hc : c.WellFormed) (hp : ∀ d, c.Ahead d → p.SettlesAt d)
    (hq : q.SettlesAt c)
    (hpq : ∀ d m, c.Ahead d → (p d).outcome = .ok m → q.SettlesAt m.next)
    {rounds : Nat} (hr : c.remaining < rounds) :
    (furtherItems p q rounds c).Settles fun items => c.Ahead items.2 := by
  induction rounds generalizing c with
  | zero => exact absurd hr (Nat.not_lt_zero _)
  | succ rounds ih =>
    refine hq.attempt_bind (fun between _ behind => ?_) fun e _ => .pure hc.ahead
    refine (hp between.next behind).attempt_bind (fun m hm onward => ?_) fun e _ => .pure hc.ahead
    have ahead := behind.trans onward
    dsimp only
    by_cases hstall : m.next.position = c.position
    · rw [if_pos hstall]
      exact .pure ahead
    · rw [if_neg hstall]
      have hrem := ahead.remaining_add
      have hle := ahead.first_le
      refine (ih ahead.wellFormed (fun d hd => hp d (ahead.trans hd)) (hpq _ m behind hm)
        (fun d n hd => hpq d n (ahead.trans hd)) (by omega)).bind fun items _ ahead' => ?_
      exact .pure (ahead.trans ahead')

theorem settlesAt_separated (hc : c.WellFormed) (hp : ∀ d, c.Ahead d → p.SettlesAt d)
    (hpq : ∀ d m, c.Ahead d → (p d).outcome = .ok m → q.SettlesAt m.next) (required : Bool) :
    (separated required p q).SettlesAt c := by
  refine (hp c hc.ahead).attempt_bind (fun m hm ahead => ?_) fun e _ => ?_
  · refine (settles_furtherItems ahead.wellFormed (fun d hd => hp d (ahead.trans hd))
      (hpq c m hc.ahead hm) (fun d n hd => hpq d n (ahead.trans hd))
      (remaining_lt_rounds m.next)).bind fun items _ ahead' => ?_
    exact .pure (ahead.trans ahead')
  · cases required with
    | true => exact .fail _
    | false => exact .pure hc.ahead

theorem settlesAt_whitespace (hc : c.WellFormed) (hp : ∀ d, c.Ahead d → p.SettlesAt d) :
    (whitespace p).SettlesAt c := by
  have ahead : c.Ahead (skipBlanks (c.remaining / 8) c) := (hc.ahead.skipBlanks _).1
  exact (hp _ ahead).mono fun _ _ ahead' => ahead.trans ahead'

/-! ### Looking at values -/

theorem settles_recordCall (kind : HookKind) (name : Option String) (v : Value) :
    (recordCall kind name v).Settles fun _ => True := by
  cases name with
  | none => trivial
  | some name => exact .record _

theorem settlesAt_map (name : Option String) (f : Value → Value) (hp : p.SettlesAt c) :
    (map name f p).SettlesAt c := by
  refine hp.bind fun m _ ahead => ?_
  exact (settles_recordCall _ _ _).bind fun _ _ _ => .pure ahead

theorem settlesAt_filter (name : Option String) (accept : Value → Bool) (hp : p.SettlesAt c) :
    (filter name accept p).SettlesAt c := by
  refine hp.bind fun m _ ahead => (settles_recordCall _ _ _).bind fun _ _ _ => ?_
  split
  · exact .pure ahead
  · exact .fail _

theorem settlesAt_inRange (lower upper : Int64) (hp : p.SettlesAt c) :
    (inRange lower upper p).SettlesAt c := by
  refine hp.bind fun m _ ahead => ?_
  cases m.value.bind Value.asInteger with
  | none => exact .misuse _
  | some n =>
    dsimp only
    split
    · exact .pure ahead
    · exact .fail _

theorem settlesAt_withOrder (order : ReadOrder) (hp : p.SettlesAt (c.withOrder order)) :
    (withOrder order p).SettlesAt c :=
  hp.bind fun _ _ ahead => .pure (ahead.withOrder c.order)

/-! ### Parsers in any order -/

/-- The members to be placed are those at the indices of empty slots. -/
theorem mem_unplaced {slots : Slots} {i : Nat} :
    (i, p) ∈ unplaced ps slots ↔ ps[i]? = some p ∧ slots[i]? = some none := by
  rw [unplaced, List.mem_filterMap]
  constructor
  · rintro ⟨⟨⟨q, slot⟩, j⟩, hmem, hsome⟩
    obtain ⟨hq, hslot⟩ := List.getElem?_zip_eq_some.mp (List.mem_zipIdx_iff_getElem?.mp hmem)
    cases slot with
    | none =>
      cases hsome
      exact ⟨hq, hslot⟩
    | some v => cases hsome
  · rintro ⟨hp, hslot⟩
    refine ⟨((p, none), i), ?_, rfl⟩
    exact List.mem_zipIdx_iff_getElem?.mpr (List.getElem?_zip_eq_some.mpr ⟨hp, hslot⟩)

theorem mem_of_mem_unplaced {slots : Slots} {i : Nat} (h : (i, p) ∈ unplaced ps slots) :
    p ∈ ps :=
  List.mem_of_getElem? (mem_unplaced.mp h).1

variable {place : Slots → Cursor → Run (Slots × Cursor)} {members : List (Nat × Parser)}

theorem settles_placeConsuming
    (hplace : ∀ slots d, c.Ahead d → (place slots d).Settles fun filled => d.Ahead filled.2)
    (hm : ∀ member ∈ members, member.2.SettlesAt c) (slots : Slots) (kept : Option Failure) :
    (placeConsuming place slots c members kept).Settles fun placed =>
      ∀ filled, placed = .ok filled → c.Ahead filled.2 := by
  induction members generalizing kept with
  | nil =>
    refine .pure fun filled h => ?_
    cases h
  | cons member members ih =>
    obtain ⟨i, p⟩ := member
    have rest := ih fun member hmem => hm member (List.mem_cons_of_mem _ hmem)
    refine (hm (i, p) (List.mem_cons_self ..)).attempt_bind (fun m _ ahead => ?_) fun e _ => rest _
    dsimp only
    split
    · refine (hplace _ m.next ahead).attempt_bind (fun filled _ ahead' => ?_) fun e _ => rest _
      refine .pure fun filled' h => ?_
      cases h
      exact ahead.trans ahead'
    · exact rest _

theorem settles_placeEmpty (hm : ∀ member ∈ members, member.2.SettlesAt c) (slots : Slots)
    (kept : Option Failure) :
    (placeEmpty c kept members slots).Settles fun _ => True := by
  induction members generalizing slots with
  | nil => trivial
  | cons member members ih =>
    obtain ⟨i, p⟩ := member
    have rest := ih fun member hmem => hm member (List.mem_cons_of_mem _ hmem)
    refine (hm (i, p) (List.mem_cons_self ..)).attempt_bind (fun m _ ahead => ?_) fun e _ => .fail _
    dsimp only
    split
    · exact rest _
    · exact .fail _

theorem settles_fill (hc : c.WellFormed) (h : ∀ p ∈ ps, ∀ d, c.Ahead d → p.SettlesAt d)
    (count : Nat) (slots : Slots) :
    (fill ps count slots c).Settles fun filled => c.Ahead filled.2 := by
  induction count generalizing slots c with
  | zero => exact .pure hc.ahead
  | succ count ih =>
    have hm : ∀ member ∈ unplaced ps slots, member.2.SettlesAt c :=
      fun member hmem => h member.2 (mem_of_mem_unplaced hmem) c hc.ahead
    have hplace : ∀ slots d, c.Ahead d →
        (fill ps count slots d).Settles fun filled => d.Ahead filled.2 :=
      fun slots d hd => ih hd.wellFormed (fun p hp e he => h p hp e (hd.trans he)) slots
    refine (settles_placeConsuming hplace hm slots none).bind fun placed _ ahead => ?_
    cases placed with
    | ok filled => exact .pure (ahead filled rfl)
    | error kept =>
      exact (settles_placeEmpty hm slots kept).bind fun _ _ _ => .pure hc.ahead

theorem settlesAt_permutation (hc : c.WellFormed) (h : ∀ p ∈ ps, ∀ d, c.Ahead d → p.SettlesAt d) :
    (permutation ps).SettlesAt c :=
  (settles_fill hc h ps.length _).bind fun _ _ ahead => .pure ahead

end Parser

end BitGrammar
