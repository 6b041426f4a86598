import BitGrammar.Hook
import BitGrammar.Proofs.Settling

/-!
# Grammars that meet no misuse

A run can meet four mistakes of its grammar: a cell that is not bound, a range that is asked of
something that is no number, a length that is no count, and a counted repetition for which there
cannot be room. Which values a rule can yield is seen from how it is built, so that grammars can be
told that meet none of the first three, whatever the input is.

The fourth one is apart. A repetition asks for room before its first round, so that a well-typed
grammar can meet this mistake on an input on which it should fail. Nothing but the counts of
repetitions has to do with it, and those that a continuation reads from the input are as large as
the rule in front of it lets them be (`Cells.ComesTo`).

## What decides the design

Two properties of runs are kept apart. `Run.Proper` is about misuse and holds of a parser as soon as
it holds of its parts, but for the two parsers that look at numbers and for counted repetitions. The
misuse that is left free is a parameter of it, so that one induction says both what a grammar can
still meet and when it meets nothing. `Run.Gives` is about results only and says nothing of runs
without one, so that the values of a rule follow from those of the parts that it takes them from,
and from nothing else. Failures need no attention in either.

## Main definitions

* `Run.Proper`: a run meets no misuse but such as is left free
* `Run.Gives`: a result that a run gives has a property
* `Rule.Yields`: a rule yields integers, or counts
* `Cells.WellTyped`: cells are bound, and numbers are there where they are looked at
* `Cells.ComesTo`: the rules that a run comes to, with the values that rules can yield
* `Cells.WellTypedUpTo`: besides, repetitions have room or are left free to have none

## Main results

* `Rule.Yields.gives`: rules yield what they are said to
* `Rule.parse_proper`: a well-typed grammar meets no misuse on any input, but for repetitions
  without room
-/

namespace BitGrammar

/-! ### Runs -/

namespace Run

variable {α β : Type}

/-- A run meets no misuse but such as is left free. -/
def Proper (free : Misuse → Prop) (x : Run α) : Prop :=
  ∀ m, x.outcome = .misused m → free m

/-- A result that a run gives has a property. -/
def Gives (R : α → Prop) (x : Run α) : Prop :=
  ∀ a, x.outcome = .ok a → R a

section Proper

variable {free : Misuse → Prop} {x : Run α}

@[simp] theorem proper_ok (t : List Record) (a : α) : (⟨t, .ok a⟩ : Run α).Proper free := nofun

@[simp] theorem proper_failed (t : List Record) (e : Failure) :
    (⟨t, .failed e⟩ : Run α).Proper free := nofun

@[simp] theorem proper_fail (e : Failure) : (Run.fail e : Run α).Proper free := nofun

@[simp] theorem proper_endless : (Run.endless : Run α).Proper free := nofun

@[simp] theorem proper_record (r : Record) : (Run.record r).Proper free := nofun

@[simp] theorem proper_bind (f : α → Run β) :
    (x >>= f).Proper free ↔ x.Proper free ∧ ∀ a, x.outcome = .ok a → (f a).Proper free := by
  obtain ⟨t, o⟩ := x
  cases o <;> simp [Proper]

@[simp high] theorem proper_attempt_bind (f : Except Failure α → Run β) :
    (x.attempt >>= f).Proper free ↔
      x.Proper free ∧ (∀ a, x.outcome = .ok a → (f (.ok a)).Proper free) ∧
        ∀ e, x.outcome = .failed e → (f (.error e)).Proper free := by
  obtain ⟨t, o⟩ := x
  cases o <;> simp [Proper]

@[simp] theorem proper_recordFailure (r : Failure → Record) :
    (x.recordFailure r).Proper free ↔ x.Proper free := by
  obtain ⟨t, o⟩ := x
  cases o <;> simp [recordFailure]

end Proper

section Gives

variable {R : β → Prop} {x : Run α}

@[simp] theorem gives_ok (t : List Record) (b : β) : (⟨t, .ok b⟩ : Run β).Gives R ↔ R b := by
  simp [Gives]

@[simp] theorem gives_bind (f : α → Run β) :
    (x >>= f).Gives R ↔ ∀ a, x.outcome = .ok a → (f a).Gives R := by
  obtain ⟨t, o⟩ := x
  cases o <;> simp [Gives]

end Gives

end Run

/-! ### Parsers that meet no misuse -/

namespace Parser

/-- From any cursor, a parser meets no misuse but such as is left free. -/
def Proper (free : Misuse → Prop) (p : Parser) : Prop :=
  ∀ c, (p c).Proper free

/-- The values of a parser's matches have a property. -/
def Gives (R : Option Value → Prop) (p : Parser) : Prop :=
  ∀ c, (p c).Gives fun m => R m.value

namespace Proper

variable {free : Misuse → Prop} {p q r : Parser} {ps : List Parser}

theorem of_eq_ofRead {α : Type} {value : α → Option Value} {next : α → Cursor}
    {x : Except Failure α} {y : Run Match} (h : y = .ofRead value next x) : y.Proper free := by
  rw [h]
  cases x <;> exact nofun

theorem test (accept : UInt8 → Bool) (why : UInt8 → Mismatch) : (test accept why).Proper free := by
  intro c m
  rcases test_cases accept why c with ⟨b, next, -, -, found⟩ | ⟨e, failed⟩
  · rw [found]
    rintro ⟨⟩
  · rw [failed]
    rintro ⟨⟩

theorem finish : Parser.finish.Proper free := by
  intro c m
  rw [Parser.finish]
  split <;> rintro ⟨⟩

theorem leaf {rule : Rule} (leaf : rule.isLeaf) :
    Parser.Proper free (Interpretation.plain.leaf rule) := by
  cases rule with
  | byte | byteRange | byteIn => exact test _ _
  | literal bytes => exact fun c => of_eq_ofRead (literal_eq bytes c)
  | take count => exact fun c => of_eq_ofRead (take_eq count c)
  | bits width signed fits => exact fun c => of_eq_ofRead (bits_eq width signed c)
  | skip count => exact fun c => of_eq_ofRead (skip_eq count c)
  | seek offset anchor => exact fun c => of_eq_ofRead (seek_eq offset anchor c)
  | tell | epsilon | nothing => exact fun _ => nofun
  | finish => exact finish
  | _ => cases leaf

/-! #### One parser after another -/

theorem collect (h : ∀ p ∈ ps, p.Proper free) (c : Cursor) : (collect ps c).Proper free := by
  induction ps generalizing c with
  | nil => simp [Parser.collect]
  | cons p ps ih =>
    obtain ⟨hp, hps⟩ := List.forall_mem_cons.mp h
    simp [Parser.collect, hp c, ih hps]

theorem sequence (h : ∀ p ∈ ps, p.Proper free) : (sequence ps).Proper free := by
  intro c
  simp [Parser.sequence, collect h c]

theorem left (hp : p.Proper free) (hq : q.Proper free) : (left p q).Proper free := by
  intro c
  simp [Parser.left, hp c, hq _]

theorem right (hp : p.Proper free) (hq : q.Proper free) : (right p q).Proper free := by
  intro c
  simp [Parser.right, hp c, hq _]

theorem middle (hp : p.Proper free) (hq : q.Proper free) (hr : r.Proper free) :
    (middle p q r).Proper free := by
  intro c
  simp [Parser.middle, hp c, hq _, hr _]

theorem ignore (hp : p.Proper free) : (ignore p).Proper free := by
  intro c
  simp [Parser.ignore, hp c]

theorem collectTimes (hp : p.Proper free) (total left : Nat) (c : Cursor) :
    (collectTimes p total left c).Proper free := by
  induction left generalizing c with
  | zero => simp [Parser.collectTimes]
  | succ left ih => simp [Parser.collectTimes, hp c, ih]

/-- A repetition has to have room, or is left free to have none. -/
theorem times (hp : p.Proper free) {count : Nat}
    (room : capacity ≤ count → free .capacityOverflow) : (times p count).Proper free := by
  intro c
  rcases Nat.lt_or_ge count capacity with hroom | noRoom
  · rw [times_of_lt p hroom]
    simp [Parser.exactly, collectTimes hp]
  · rw [times_of_le p noRoom]
    rintro m ⟨⟩
    exact room noRoom

theorem collectCounted (hp : p.Proper free) (count : Nat) (c : Cursor) :
    (collectCounted p count c).Proper free := by
  induction count generalizing c with
  | zero => simp [Parser.collectCounted]
  | succ count ih => simp [Parser.collectCounted, hp c, ih]

/-- A length has to be a count. -/
theorem lengthValue (hp : p.Proper free) (hcount : p.Gives fun v => (v.bind Value.asCount).isSome)
    (hq : q.Proper free) : (lengthValue p q).Proper free := by
  intro c
  simp only [Parser.lengthValue, Run.proper_bind]
  refine ⟨hp c, fun m hm => ?_⟩
  obtain ⟨count, hcount⟩ := Option.isSome_iff_exists.mp (hcount c m hm)
  simp [hcount, collectCounted hq]

/-! #### One parser out of several -/

theorem tryAll (h : ∀ p ∈ ps, p.Proper free) (c : Cursor) (index : Nat) (kept : Option Failure) :
    (tryAll c ps index kept).Proper free := by
  induction ps generalizing index kept with
  | nil => simp [Parser.tryAll]
  | cons p ps ih =>
    obtain ⟨hp, hps⟩ := List.forall_mem_cons.mp h
    simp [Parser.tryAll, hp c, ih hps]

theorem choice (h : ∀ p ∈ ps, p.Proper free) : (choice ps).Proper free :=
  fun c => tryAll h c 0 none

theorem optional (hp : p.Proper free) : (optional p).Proper free := by
  intro c
  simp [Parser.optional, hp c]

theorem exclusiveOr (hp : p.Proper free) (hq : q.Proper free) :
    (exclusiveOr p q).Proper free := by
  intro c
  simp [Parser.exclusiveOr, hp c, hq c]

/-! #### Looking ahead, and exclusion -/

theorem followedBy (hp : p.Proper free) : (followedBy p).Proper free := by
  intro c
  simp [Parser.followedBy, hp c]

theorem notFollowedBy (hp : p.Proper free) : (notFollowedBy p).Proper free := by
  intro c
  simp [Parser.notFollowedBy, hp c]

theorem excluding (excludes : Nat → Nat → Bool) (hp : p.Proper free) (hq : q.Proper free) :
    (excluding excludes p q).Proper free := by
  intro c
  rw [Parser.excluding, Run.proper_bind]
  refine ⟨hp c, fun m _ => ?_⟩
  rw [Run.proper_attempt_bind]
  refine ⟨hq c, fun n _ => ?_, fun _ _ => by simp⟩
  dsimp only
  split <;> simp

/-! #### Repetition -/

theorem repeatWhile (hp : p.Proper free) (rounds required : Nat) (c : Cursor) :
    (repeatWhile p rounds required c).Proper free := by
  induction rounds generalizing required c with
  | zero => simp [Parser.repeatWhile]
  | succ rounds ih =>
    simp only [Parser.repeatWhile, Run.proper_attempt_bind]
    refine ⟨hp c, fun m _ => ?_, fun e _ => ?_⟩
    · split <;> simp [ih]
    · split <;> simp

theorem atLeast (required : Nat) (hp : p.Proper free) : (atLeast required p).Proper free := by
  intro c
  simp [Parser.atLeast, repeatWhile hp]

theorem furtherItems (hp : p.Proper free) (hq : q.Proper free) (rounds : Nat) (c : Cursor) :
    (furtherItems p q rounds c).Proper free := by
  induction rounds generalizing c with
  | zero => simp [Parser.furtherItems]
  | succ rounds ih =>
    simp only [Parser.furtherItems, Run.proper_attempt_bind]
    refine ⟨hq c, fun between _ => ⟨hp _, fun m _ => ?_, fun _ _ => by simp⟩, fun _ _ => by simp⟩
    split <;> simp [ih]

theorem separated (required : Bool) (hp : p.Proper free) (hq : q.Proper free) :
    (separated required p q).Proper free := by
  intro c
  simp only [Parser.separated, Run.proper_attempt_bind]
  refine ⟨hp c, fun m _ => by simp [furtherItems hp hq], fun e _ => ?_⟩
  split <;> simp

theorem whitespace (hp : p.Proper free) : (whitespace p).Proper free :=
  fun _ => hp _

/-! #### Looking at values -/

theorem recordCall (kind : HookKind) (name : Option String) (v : Value) :
    (recordCall kind name v).Proper free := by
  cases name <;> simp [Parser.recordCall]

theorem map (name : Option String) (f : Value → Value) (hp : p.Proper free) :
    (map name f p).Proper free := by
  intro c
  simp [Parser.map, hp c, recordCall]

theorem filter (name : Option String) (accept : Value → Bool) (hp : p.Proper free) :
    (filter name accept p).Proper free := by
  intro c
  simp only [Parser.filter, Run.proper_bind]
  refine ⟨hp c, fun m _ => ⟨recordCall _ _ _, fun _ _ => ?_⟩⟩
  split <;> simp

/-- A continuation is asked about the values of matches only. -/
theorem andThen (name : Option String) {continuation : Value → Option Parser}
    (hk : ∀ c m q, (p c).outcome = .ok m → continuation m.shown = some q → q.Proper free)
    (hp : p.Proper free) : (andThen name continuation p).Proper free := by
  intro c
  simp only [Parser.andThen, Run.proper_bind]
  refine ⟨hp c, fun m hm => ⟨recordCall _ _ _, fun _ _ => ?_⟩⟩
  cases hq : continuation m.shown with
  | none => simp
  | some q => exact hk c m q hm hq m.next

/-- What is to lie in a range has to be an integer. -/
theorem inRange (lower upper : Int64) (hp : p.Proper free)
    (hinteger : p.Gives fun v => (v.bind Value.asInteger).isSome) :
    (inRange lower upper p).Proper free := by
  intro c
  simp only [Parser.inRange, Run.proper_bind]
  refine ⟨hp c, fun m hm => ?_⟩
  obtain ⟨n, hn⟩ := Option.isSome_iff_exists.mp (hinteger c m hm)
  rw [hn]
  dsimp only
  split <;> simp

theorem withOrder (order : ReadOrder) (hp : p.Proper free) : (withOrder order p).Proper free := by
  intro c
  simp [Parser.withOrder, hp _]

/-! #### Parsers in any order -/

variable {place : Slots → Cursor → Run (Slots × Cursor)} {members : List (Nat × Parser)}

theorem placeConsuming (hplace : ∀ slots c, (place slots c).Proper free)
    (hm : ∀ member ∈ members, member.2.Proper free) (slots : Slots) (c : Cursor)
    (kept : Option Failure) : (placeConsuming place slots c members kept).Proper free := by
  induction members generalizing kept with
  | nil => simp [Parser.placeConsuming]
  | cons member members ih =>
    obtain ⟨i, p⟩ := member
    obtain ⟨hp, hrest⟩ := List.forall_mem_cons.mp hm
    simp only [Parser.placeConsuming, Run.proper_attempt_bind]
    refine ⟨hp c, fun m _ => ?_, fun e _ => ih hrest _⟩
    split
    · simp [hplace, ih hrest]
    · exact ih hrest _

theorem placeEmpty (hm : ∀ member ∈ members, member.2.Proper free) (slots : Slots) (c : Cursor)
    (kept : Option Failure) : (placeEmpty c kept members slots).Proper free := by
  induction members generalizing slots with
  | nil => simp [Parser.placeEmpty]
  | cons member members ih =>
    obtain ⟨i, p⟩ := member
    obtain ⟨hp, hrest⟩ := List.forall_mem_cons.mp hm
    simp only [Parser.placeEmpty, Run.proper_attempt_bind]
    refine ⟨hp c, fun m _ => ?_, fun e _ => by simp⟩
    split
    · exact ih hrest _
    · simp

theorem fill (h : ∀ p ∈ ps, p.Proper free) (count : Nat) (slots : Slots) (c : Cursor) :
    (fill ps count slots c).Proper free := by
  have hm : ∀ slots, ∀ member ∈ unplaced ps slots, member.2.Proper free :=
    fun slots member hmem => h member.2 (mem_of_mem_unplaced hmem)
  induction count generalizing slots c with
  | zero => simp [Parser.fill]
  | succ count ih =>
    simp only [Parser.fill, Run.proper_bind]
    refine ⟨placeConsuming ih (hm slots) slots c none, fun placed _ => ?_⟩
    cases placed with
    | ok filled => simp
    | error kept => simp [placeEmpty (hm slots)]

theorem permutation (h : ∀ p ∈ ps, p.Proper free) : (permutation ps).Proper free := by
  intro c
  simp [Parser.permutation, fill h]

end Proper

/-! ### The values of parsers -/

namespace Gives

variable {R : Option Value → Prop} {p q : Parser} {ps : List Parser}

theorem of_eq_ofRead {α : Type} {value : α → Option Value} {next : α → Cursor}
    {x : Except Failure α} {y : Run Match} (h : y = .ofRead value next x)
    (hvalue : ∀ a, x = .ok a → R (value a)) : y.Gives fun m => R m.value := by
  rw [h]
  cases x with
  | ok a =>
    intro m hm
    cases hm
    exact hvalue a rfl
  | error e => exact nofun

theorem test (hchar : ∀ b, R (some (.char b))) (accept : UInt8 → Bool) (why : UInt8 → Mismatch) :
    (test accept why).Gives R := by
  intro c m hm
  obtain ⟨b, next, -, -, rfl⟩ := outcome_test_eq_ok_iff.mp hm
  exact hchar b

theorem bits (width : Nat) (signed : Bool) (hint : signed → ∀ n, R (some (.int n)))
    (huint : ∀ n, R (some (.uint n))) : (bits width signed).Gives R := by
  intro c
  refine of_eq_ofRead (bits_eq width signed c) fun r hr => ?_
  rw [Cursor.readInteger] at hr
  split at hr
  · cases hr
    cases signed with
    | true => exact hint rfl _
    | false => exact huint _
  · cases hr

theorem left (hp : p.Gives R) (q : Parser) : (left p q).Gives R := by
  intro c
  simp only [Parser.left, Run.pure_eq, Run.gives_bind, Run.gives_ok]
  exact fun m hm _ _ => hp c m hm

theorem right (p : Parser) (hq : q.Gives R) : (right p q).Gives R := by
  intro c
  simp only [Parser.right, Run.gives_bind]
  exact fun m _ => hq m.next

theorem middle (p r : Parser) (hq : q.Gives R) : (middle p q r).Gives R := by
  intro c
  simp only [Parser.middle, Run.pure_eq, Run.gives_bind, Run.gives_ok]
  exact fun m _ n hn _ _ => hq m.next n hn

theorem choice (h : ∀ p ∈ ps, p.Gives R) : (choice ps).Gives R := by
  intro c m hm
  obtain ⟨p, hp, hone⟩ := exists_ok_of_tryAll hm
  exact h p hp c m hone

theorem exclusiveOr (hp : p.Gives R) (hq : q.Gives R) : (exclusiveOr p q).Gives R :=
  fun c m hm => (ok_of_exclusiveOr hm).elim (hp c m) (hq c m)

theorem excluding (excludes : Nat → Nat → Bool) (hp : p.Gives R) (q : Parser) :
    (excluding excludes p q).Gives R :=
  fun c m hm => hp c m (ok_of_excluding hm)

theorem filter (name : Option String) (accept : Value → Bool) (hp : p.Gives R) :
    (filter name accept p).Gives R :=
  fun c m hm => hp c m (outcome_filter_eq_ok_iff.mp hm).1

/-- What lies in a range is an integer between its bounds. -/
theorem inRange (lower upper : Int64) (hp : p.Gives R) :
    (inRange lower upper p).Gives fun v =>
      R v ∧ ∃ n, v.bind Value.asInteger = some n ∧ lower.toInt ≤ n ∧ n ≤ upper.toInt := by
  intro c m hm
  obtain ⟨hinner, hbetween⟩ := outcome_inRange_eq_ok_iff.mp hm
  exact ⟨hp c m hinner, hbetween⟩

theorem whitespace (hp : p.Gives R) : (whitespace p).Gives R :=
  fun _ => hp _

theorem withOrder (order : ReadOrder) (hp : p.Gives R) : (withOrder order p).Gives R := by
  intro c
  simp only [Parser.withOrder, Run.pure_eq, Run.gives_bind, Run.gives_ok]
  exact fun m hm => hp _ m hm

end Gives

end Parser

/-! ### The numbers that rules yield -/

/-- The kinds of numbers that parsers look at: any integer, and counts, which are not negative. -/
inductive NumberKind where
  | integer
  | count
  deriving DecidableEq, Repr, Inhabited

/-- A value is a number of a kind. An elided value is none. -/
def NumberKind.Admits : NumberKind → Option Value → Prop
  | .integer, v => (v.bind Value.asInteger).isSome
  | .count, v => (v.bind Value.asCount).isSome

namespace NumberKind

variable {v : Option Value} {n : Int}

theorem admits_count (h : v.bind Value.asInteger = some n) (nonneg : 0 ≤ n) :
    count.Admits v := by
  cases v with
  | none => cases h
  | some v =>
    change v.asInteger = some n at h
    simp [Admits, Value.asCount, h, nonneg]

/-- A number that is not negative is one of every kind. -/
theorem admits_of_nonneg (kind : NumberKind) (h : v.bind Value.asInteger = some n)
    (nonneg : 0 ≤ n) : kind.Admits v := by
  cases kind with
  | integer => simp [Admits, h]
  | count => exact admits_count h nonneg

theorem admits_char (kind : NumberKind) (b : UInt8) : kind.Admits (some (.char b)) :=
  kind.admits_of_nonneg rfl (Int.natCast_nonneg _)

theorem admits_uint (kind : NumberKind) (n : UInt64) : kind.Admits (some (.uint n)) :=
  kind.admits_of_nonneg rfl (Int.natCast_nonneg _)

end NumberKind

/-- A rule yields numbers of a kind, whatever the input. Signed fields are no counts, but a range
without negative numbers makes counts out of any integers. -/
inductive Rule.Yields : NumberKind → Rule → Prop where
  | byte {kind} (expected) : Yields kind (.byte expected)
  | byteRange {kind} (lower upper) : Yields kind (.byteRange lower upper)
  | byteIn {kind} (set) : Yields kind (.byteIn set)
  | bits {kind} (width signed fits) (unsigned : kind = .count → signed = false) :
    Yields kind (.bits width signed fits)
  | tell {kind} : Yields kind .tell
  | seek {kind} (offset anchor) : Yields kind (.seek offset anchor)
  | inRange {kind rule} (lower upper nonempty) (number : Yields kind rule) :
    Yields kind (.inRange lower upper nonempty rule)
  | countInRange {rule} (lower upper nonempty) (nonneg : 0 ≤ lower.toInt)
    (number : Yields .integer rule) : Yields .count (.inRange lower upper nonempty rule)
  | choice {kind rules} (numbers : ∀ rule ∈ rules, Yields kind rule) : Yields kind (.choice rules)
  | exclusiveOr {kind first second} (number : Yields kind first) (number' : Yields kind second) :
    Yields kind (.exclusiveOr first second)
  | butNot {kind rule} (other) (number : Yields kind rule) : Yields kind (.butNot rule other)
  | difference {kind rule} (other) (number : Yields kind rule) :
    Yields kind (.difference rule other)
  | left {kind keep} (drop) (number : Yields kind keep) : Yields kind (.left keep drop)
  | right {kind keep} (drop) (number : Yields kind keep) : Yields kind (.right drop keep)
  | middle {kind content} (opening closing) (number : Yields kind content) :
    Yields kind (.middle opening content closing)
  | filter {kind rule} (name accept) (number : Yields kind rule) :
    Yields kind (.filter name accept rule)
  | whitespace {kind rule} (number : Yields kind rule) : Yields kind (.whitespace rule)
  | withOrder {kind rule} (order) (number : Yields kind rule) : Yields kind (.withOrder order rule)

/-- **Rules yield what they are said to**, whatever stands behind their references. -/
theorem Rule.Yields.gives {kind : NumberKind} {rule : Rule} (h : rule.Yields kind)
    (call : Cell → Parser) : (rule.eval call).Gives kind.Admits := by
  induction h with
  | byte | byteRange | byteIn => exact .test (NumberKind.admits_char _) _ _
  | @bits kind width signed fits unsigned =>
    refine .bits width signed (fun hsigned n => ?_) kind.admits_uint
    cases kind with
    | integer => rfl
    | count => cases hsigned.symm.trans (unsigned rfl)
  | tell =>
    intro c m hm
    cases hm
    exact NumberKind.admits_uint _ _
  | seek offset anchor =>
    exact fun c => Parser.Gives.of_eq_ofRead (Parser.seek_eq offset anchor c) fun _ _ =>
      NumberKind.admits_uint _ _
  | inRange lower upper _ _ ih => exact fun c m hm => (Parser.Gives.inRange lower upper ih c m hm).1
  | countInRange lower upper _ nonneg _ ih =>
    intro c m hm
    obtain ⟨-, n, hn, hlower, -⟩ := Parser.Gives.inRange lower upper ih c m hm
    exact NumberKind.admits_count hn (Int.le_trans nonneg hlower)
  | choice _ ih =>
    rw [Rule.eval, Rule.evalList_eq_map]
    refine .choice fun p hp => ?_
    obtain ⟨rule, hrule, rfl⟩ := List.mem_map.mp hp
    exact ih rule hrule
  | exclusiveOr _ _ ih ih' => exact ih.exclusiveOr ih'
  | butNot _ _ ih | difference _ _ ih =>
    rw [Rule.eval]
    exact ih.excluding _ _
  | left _ _ ih => exact ih.left _
  | right _ _ ih => exact ih.right _
  | middle _ _ _ ih => exact ih.middle _ _
  | filter name accept _ ih => exact ih.filter name accept
  | whitespace _ ih => exact ih.whitespace
  | withOrder order _ ih => exact ih.withOrder order

/-! ### Well-typed grammars -/

/-- A grammar whose cells are bound, whose ranges are about integers, and whose lengths are counts,
everywhere that a run can come to. No continuation makes a rule that is itself a mistake. -/
structure Cells.WellTyped (cells : Cells) (rule : Rule) : Prop where
  bound : ∀ cell, cells.Reaches rule (.ref cell) → cells.isBound cell
  ranges : ∀ lower upper nonempty inner,
    cells.Reaches rule (.inRange lower upper nonempty inner) → inner.Yields .integer
  lengths : ∀ length inner, cells.Reaches rule (.lengthValue length inner) → length.Yields .count
  correct : ∀ what, ¬ cells.Reaches rule (.misuse what)

/-- One step further in a run: a continuation is asked only about values that the rule in front of
it can yield. -/
def Cells.LeadsOn (cells : Cells) (rule next : Rule) : Prop :=
  match rule with
  | .andThen _ continuation first => next = first ∨ ∃ depth c m,
      (first.parseWithin cells depth c).outcome = .ok m ∧ continuation m.shown = some next
  | rule => cells.Leads rule next

/-- The rules that a run can come to, with the values that rules yield taken into account. -/
def Cells.ComesTo (cells : Cells) : Rule → Rule → Prop :=
  Relation.ReflTransGen cells.LeadsOn

theorem Cells.LeadsOn.leads {cells : Cells} {rule next : Rule} (h : cells.LeadsOn rule next) :
    cells.Leads rule next := by
  cases rule with
  | andThen name continuation first =>
    rcases h with rfl | ⟨depth, c, m, -, hnext⟩
    · exact .inl (.inl rfl)
    · exact .inl (.inr ⟨m.shown, hnext⟩)
  | _ => exact h

theorem Cells.ComesTo.reaches {cells : Cells} {rule next : Rule} (h : cells.ComesTo rule next) :
    cells.Reaches rule next :=
  Relation.ReflTransGen.mono (fun _ _ => LeadsOn.leads) _ _ h

/-- A well-typed grammar in which repetitions have room, or are left free to have none. -/
structure Cells.WellTypedUpTo (cells : Cells) (free : Misuse → Prop) (rule : Rule) : Prop
    extends cells.WellTyped rule where
  room : ∀ inner count, cells.ComesTo rule (.times inner count) → Parser.capacity ≤ count →
    free .capacityOverflow

namespace Cells.WellTypedUpTo

variable {cells : Cells} {free : Misuse → Prop} {rule next : Rule}

theorem step (h : cells.WellTypedUpTo free rule) (hnext : cells.LeadsOn rule next) :
    cells.WellTypedUpTo free next where
  bound cell hi := h.bound cell (.head hnext.leads hi)
  ranges lower upper nonempty inner hi := h.ranges lower upper nonempty inner (.head hnext.leads hi)
  lengths length inner hi := h.lengths length inner (.head hnext.leads hi)
  correct what hi := h.correct what (.head hnext.leads hi)
  room inner count hi := h.room inner count (.head hnext hi)

/-- A well-typed rule meets no misuse but what is left free, if its references do not. -/
theorem proper_eval (h : cells.WellTypedUpTo free rule) (depth : Nat) {call : Cell → Parser}
    (hrun : ∀ rule : Rule, rule.eval call = rule.parseWithin cells depth)
    (hcall : ∀ cell target, cells.target? cell = some target → cells.WellTypedUpTo free target →
      (call cell).Proper free) : (rule.eval call).Proper free := by
  have list : ∀ {rules : List Rule}, (∀ rule ∈ rules, (rule.eval call).Proper free) →
      ∀ p ∈ Rule.evalList call rules, p.Proper free := by
    intro rules hrules p hp
    rw [Rule.evalList_eq_map] at hp
    obtain ⟨rule, hrule, rfl⟩ := List.mem_map.mp hp
    exact hrules rule hrule
  induction rule with
  | sequence rules ih => exact .sequence (list fun rule hr => ih rule hr (h.step (.inl hr)))
  | choice rules ih => exact .choice (list fun rule hr => ih rule hr (h.step (.inl hr)))
  | permutation rules ih => exact .permutation (list fun rule hr => ih rule hr (h.step (.inl hr)))
  | left _ _ ih ih' => exact (ih (h.step (.inl (.inl rfl)))).left (ih' (h.step (.inl (.inr rfl))))
  | right _ _ ih ih' => exact (ih (h.step (.inl (.inl rfl)))).right (ih' (h.step (.inl (.inr rfl))))
  | middle _ _ _ ih ih' ih'' =>
    exact (ih (h.step (.inl (.inl rfl)))).middle (ih' (h.step (.inl (.inr (.inl rfl)))))
      (ih'' (h.step (.inl (.inr (.inr rfl)))))
  | ignore _ ih => exact (ih (h.step (.inl rfl))).ignore
  | optional _ ih => exact (ih (h.step (.inl rfl))).optional
  | followedBy _ ih => exact (ih (h.step (.inl rfl))).followedBy
  | notFollowedBy _ ih => exact (ih (h.step (.inl rfl))).notFollowedBy
  | butNot _ _ ih ih' | difference _ _ ih ih' =>
    rw [Rule.eval]
    exact (ih (h.step (.inl (.inl rfl)))).excluding _ (ih' (h.step (.inl (.inr rfl))))
  | exclusiveOr _ _ ih ih' =>
    exact (ih (h.step (.inl (.inl rfl)))).exclusiveOr (ih' (h.step (.inl (.inr rfl))))
  | many _ ih | many1 _ ih => exact (ih (h.step (.inl rfl))).atLeast _
  | times inner count ih => exact (ih (h.step (.inl rfl))).times (h.room inner count .refl)
  | sepBy _ _ ih ih' | sepBy1 _ _ ih ih' =>
    exact (ih (h.step (.inl (.inl rfl)))).separated _ (ih' (h.step (.inl (.inr rfl))))
  | lengthValue length inner ih ih' =>
    have hcount := (h.lengths length inner .refl).gives call
    exact (ih (h.step (.inl (.inl rfl)))).lengthValue hcount (ih' (h.step (.inl (.inr rfl))))
  | whitespace _ ih => exact (ih (h.step (.inl rfl))).whitespace
  | withOrder order _ ih => exact (ih (h.step (.inl rfl))).withOrder order
  | map name f _ ih => exact (ih (h.step (.inl rfl))).map name f
  | filter name accept _ ih => exact (ih (h.step (.inl rfl))).filter name accept
  | andThen name continuation first ihk ih =>
    refine (ih (h.step (.inl rfl))).andThen name (fun c m q hm hq => ?_)
    rw [Rule.evalOption_eq_map] at hq
    obtain ⟨next, hnext, rfl⟩ := Option.map_eq_some_iff.mp hq
    rw [hrun first] at hm
    exact ihk m.shown next hnext (h.step (.inr ⟨depth, c, m, hm, hnext⟩))
  | inRange lower upper nonempty inner ih =>
    have hinteger := (h.ranges lower upper nonempty inner .refl).gives call
    exact (ih (h.step (.inl rfl))).inRange lower upper hinteger
  | ref cell =>
    obtain ⟨target, ht⟩ := Option.isSome_iff_exists.mp (h.bound cell .refl)
    exact hcall cell target ht (h.step (.inr ⟨cell, rfl, ht⟩))
  | misuse what => exact absurd .refl (h.correct what)
  | _ =>
    rw [← Interpretation.plain_leaf call rfl]
    exact .leaf rfl

/-- At every depth, a well-typed rule meets no misuse but what is left free. -/
theorem proper_parseWithin (h : cells.WellTypedUpTo free rule) (depth : Nat) :
    (rule.parseWithin cells depth).Proper free := by
  induction depth generalizing rule with
  | zero => exact h.proper_eval 0 (fun _ => rfl) fun _ _ _ _ _ => Run.proper_endless
  | succ depth ih =>
    refine h.proper_eval (depth + 1) (fun _ => rfl) fun cell target ht htarget => ?_
    simp only [ht]
    exact ih htarget

end Cells.WellTypedUpTo

namespace Rule

/-- **A well-typed grammar meets one misuse at most**, from any cursor on any input: a counted
repetition for which there cannot be room. Where no repetition that a run can come to asks for so
much, with the counts that rules in front of continuations yield, it meets none, and its runs end in
a match or a failure, if they end. -/
theorem parse_proper (cells : Cells) (rule : Rule) (h : cells.WellTyped rule) (c : Cursor) :
    (∀ m, (rule.parse cells c).outcome = .misused m → m = .capacityOverflow) ∧
      ((∀ inner count, cells.ComesTo rule (.times inner count) → count < Parser.capacity) →
        ∀ m, (rule.parse cells c).outcome ≠ .misused m) := by
  have typed : cells.WellTypedUpTo (fun m => m = .capacityOverflow ∧
      ∃ inner count, cells.ComesTo rule (.times inner count) ∧ Parser.capacity ≤ count) rule :=
    ⟨h, fun inner count comes noRoom => ⟨rfl, inner, count, comes, noRoom⟩⟩
  have only := typed.proper_parseWithin (depthBound cells c) c
  refine ⟨fun m hm => (only m hm).1, fun room m hm => ?_⟩
  obtain ⟨-, inner, count, comes, noRoom⟩ := only m hm
  exact absurd (room inner count comes) (Nat.not_lt.mpr noRoom)

/-- A repetition without room is not begun, though its first round would fail. -/
example : ((Rule.times (.byte 0x62) (1 <<< 64 - 1)).parse .empty ⟨#[0x61], 0, {}⟩).outcome =
    .misused .capacityOverflow := rfl

/-- The number of branches of a tree, read with a sign. -/
def branchCount : Rule :=
  .inRange 0 9 (by decide) int8

/-- A tree behind its indentation: how far it is indented, as many blanks, the number of branches
and then the branches. -/
def tree : Rule :=
  .right (.andThen none (Continuation.times (.byte 0x20)) (.byteRange 0 9))
    (.lengthValue branchCount (.ref ⟨0⟩))

/-- The grammar of trees. -/
def trees : Cells where
  count := 1
  bindings := [(⟨0⟩, tree)]

theorem target?_trees {cell : Cell} {target : Rule} (h : trees.target? cell = some target) :
    target = tree := by
  have hmem := Cells.mem_bindings_of_target? h
  simp only [trees, List.mem_singleton, Prod.mk.injEq] at hmem
  exact hmem.2

theorem trees_reaches {rule : Rule} (h : trees.Reaches (.ref ⟨0⟩) rule) :
    rule = .ref ⟨0⟩ ∨ rule = tree ∨
      rule = .andThen none (Continuation.times (.byte 0x20)) (.byteRange 0 9) ∨
      rule = .byteRange 0 9 ∨ (∃ count, rule = .times (.byte 0x20) count) ∨ rule = .byte 0x20 ∨
      rule = .lengthValue branchCount (.ref ⟨0⟩) ∨ rule = branchCount ∨ rule = int8 := by
  induction h with
  | refl => exact .inl rfl
  | tail _ step ih =>
    rcases step with hpart | ⟨cell, -, ht⟩
    · rcases ih with rfl | rfl | rfl | rfl | ⟨count, rfl⟩ | rfl | rfl | rfl | rfl
      · cases hpart
      · rcases hpart with rfl | rfl <;> simp
      · rcases hpart with rfl | ⟨v, chosen⟩
        · simp
        · obtain ⟨count, -, rfl⟩ := Option.map_eq_some_iff.mp chosen
          simp
      · cases hpart
      · cases hpart
        simp
      · cases hpart
      · rcases hpart with rfl | rfl <;> simp
      · cases hpart
        simp
      · cases hpart
    · exact .inr (.inl (target?_trees ht))

/-- A tree is indented by no more than a byte can say. -/
theorem count_lt_of_trees_comesTo {inner : Rule} {count : Nat}
    (h : trees.ComesTo (.ref ⟨0⟩) (.times inner count)) : count < 256 := by
  rcases Relation.ReflTransGen.cases_tail h with h | ⟨rule, before, last⟩
  · cases h
  have chooses : rule = .andThen none (Continuation.times (.byte 0x20)) (.byteRange 0 9) := by
    rcases trees_reaches (Cells.ComesTo.reaches before) with
      rfl | rfl | h | rfl | ⟨n, rfl⟩ | rfl | rfl | rfl | rfl
    · rcases last with last | ⟨cell, -, ht⟩
      · cases last
      · cases target?_trees ht
    · simp [Cells.LeadsOn, Cells.Leads, tree, HasPart] at last
    · exact h
    all_goals simp [Cells.LeadsOn, Cells.Leads, branchCount, int8, HasPart] at last
  subst chooses
  rcases last with last | ⟨depth, c, m, hm, chosen⟩
  · cases last
  obtain ⟨b, hb⟩ : ∃ b, m.value = some (.char b) := by
    cases depth <;> exact Parser.Gives.test (R := fun v => ∃ b, v = some (.char b))
      (fun b => ⟨b, rfl⟩) _ _ c m hm
  rw [Match.shown, hb] at chosen
  cases chosen
  exact b.toNat_lt

/-- A tree that announces a negative number of branches for its only branch. -/
theorem parse_proper_trees :
    trees.WellTyped (.ref ⟨0⟩) ∧
      (∀ inner count, trees.ComesTo (.ref ⟨0⟩) (.times inner count) → count < Parser.capacity) ∧
      ((Rule.ref ⟨0⟩).parse trees ⟨#[0, 1, 2, 0x20, 0x20, 0xff], 0, {}⟩).outcome =
        .failed ⟨.rejection (.outOfRange (-1) 0 9), ⟨#[0, 1, 2, 0x20, 0x20, 0xff], 40⟩⟩ ∧
      ∀ m, ((Rule.ref ⟨0⟩).parse trees ⟨#[0, 1, 2, 0x20, 0x20, 0xff], 0, {}⟩).outcome ≠
        .misused m := by
  have typed : trees.WellTyped (.ref ⟨0⟩) := by
    refine ⟨fun cell h => ?_, fun lower upper nonempty inner h => ?_, fun length inner h => ?_,
      fun what h => ?_⟩
    · rcases trees_reaches h with h | h | h | h | ⟨_, h⟩ | h | h | h | h <;> cases h
      rfl
    · rcases trees_reaches h with h | h | h | h | ⟨_, h⟩ | h | h | h | h <;> cases h
      exact .bits 8 true _ nofun
    · rcases trees_reaches h with h | h | h | h | ⟨_, h⟩ | h | h | h | h <;> cases h
      exact .countInRange 0 9 _ (by decide) (.bits 8 true _ nofun)
    · rcases trees_reaches h with h | h | h | h | ⟨_, h⟩ | h | h | h | h <;> cases h
  have room : ∀ inner count, trees.ComesTo (.ref ⟨0⟩) (.times inner count) →
      count < Parser.capacity := fun _ _ h =>
    Nat.lt_trans (count_lt_of_trees_comesTo h) (by decide)
  exact ⟨typed, room, rfl, (parse_proper trees (.ref ⟨0⟩) typed
    ⟨#[0, 1, 2, 0x20, 0x20, 0xff], 0, {}⟩).2 room⟩

end Rule

end BitGrammar
