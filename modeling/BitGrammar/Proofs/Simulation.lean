import BitGrammar.Parser

/-!
# Comparing runs

Many facts about grammars compare two runs: of one rule from two cursors, over two stores of
cells, on two inputs, or of a rule and a changed one. Each of them says which cursors, failures
and traces count as corresponding, and then that corresponding starts lead to corresponding
results. A `Simulation` is such a choice together with what the parsers of this library need of
it. That every parser built from corresponding parts is one is then proved once, for all choices.

A fact about single runs is the special case in which a run is compared with itself: cursors
correspond when they are equal and some invariant holds of them.

## What is asked of corresponding runs

A success is to answer a success, and a failure a failure. For the two other outcomes the
simulation says whether they are to be answered in kind; `misuse` and `endless` name those on the
left after which nothing is asked of the right. A bound on the depth of a run is raised that way,
and a run can be left out of the comparison by a misuse that stands for what it has done.

Repetitions are given as many rounds as there are positions. Where the inputs of the two sides have
different sizes, this is enough on both sides when runs move forward only, up to a `limit`.

## Main definitions

* `Simulation`: what corresponds, and the laws that parsers need
* `Simulation.Runs`: two runs correspond
* `Simulation.Related`: two parsers lead corresponding cursors to corresponding runs
* `Invariant.same`: cursors that have a property correspond to themselves
-/

namespace BitGrammar

/-- What counts as the same on two sides of a comparison of runs. -/
structure Simulation where
  /-- Cursors that correspond. -/
  cursor : Cursor → Cursor → Prop
  /-- Failures that correspond. -/
  failure : Failure → Failure → Prop
  /-- Traces that correspond. -/
  trace : List Record → List Record → Prop
  /-- The values of matches are to be equal. -/
  values : Prop
  /-- Misuses on the left after which nothing is asked of the right. -/
  misuse : Misuse → Prop
  /-- Nothing is asked of the right after an endless run on the left. -/
  endless : Prop
  /-- A position on the left that no run gets past, when all runs are to move forward. -/
  limit : Option Nat
  /-- Two cursors lie as far apart as the cursors that correspond to them. -/
  distance : ∀ {c d c' d' : Cursor}, cursor c d → cursor c' d' →
    c'.position + d.position = d'.position + c.position
  /-- The right has as many positions as the left, and no more if it must answer endless runs; or
  both have enough of them for all positions up to the limit. -/
  positions : ∀ {c d : Cursor}, cursor c d →
    (c.positions ≤ d.positions ∧ (endless ∨ c.positions = d.positions)) ∨
      ∃ l ∈ limit, l < c.positions ∧ l < d.positions
  position_le_limit : ∀ {c d : Cursor}, cursor c d → ∀ l ∈ limit, c.position ≤ l
  rejection : ∀ {c d : Cursor}, cursor c d → ∀ r, failure (c.rejection r) (d.rejection r)
  furthest : ∀ {e f e' f' : Failure}, failure e f → failure e' f' →
    failure (e.furthest e') (f.furthest f')
  trace_nil : trace [] []
  trace_append : ∀ {t u t' u' : List Record}, trace t u → trace t' u' → trace (t ++ t') (u ++ u')
  trace_choiceFailed : ∀ {c d : Cursor} {e f : Failure}, cursor c d → failure e f →
    ∀ index, trace [.choiceFailed index c.position e] [.choiceFailed index d.position f]
  trace_repeatStopped : ∀ {e f : Failure}, failure e f →
    ∀ done total, trace [.repeatStopped done total e] [.repeatStopped done total f]
  trace_hookCalled : ∀ kind name v, trace [.hookCalled kind name v] [.hookCalled kind name v]

namespace Simulation

variable {S : Simulation} {α β γ δ : Type}

/-- Two runs correspond, with results that are related. -/
inductive Runs (S : Simulation) (A : α → β → Prop) : Run α → Run β → Prop where
  | ok {t u : List Record} {a : α} {b : β} (trace : S.trace t u) (result : A a b) :
    Runs S A ⟨t, .ok a⟩ ⟨u, .ok b⟩
  | failed {t u : List Record} {e f : Failure} (trace : S.trace t u) (failure : S.failure e f) :
    Runs S A ⟨t, .failed e⟩ ⟨u, .failed f⟩
  | misused {t u : List Record} {m : Misuse} (trace : S.trace t u) :
    Runs S A ⟨t, .misused m⟩ ⟨u, .misused m⟩
  | endless {t u : List Record} (trace : S.trace t u) : Runs S A ⟨t, .endless⟩ ⟨u, .endless⟩
  | ofMisuse {t : List Record} {m : Misuse} {y : Run β} (free : S.misuse m) :
    Runs S A ⟨t, .misused m⟩ y
  | ofEndless {t : List Record} {y : Run β} (free : S.endless) : Runs S A ⟨t, .endless⟩ y

/-- Cursors that correspond, reached from two others with the order of reading as it was, and
moving forward if all runs are to. -/
structure Follows (S : Simulation) (c d c' d' : Cursor) : Prop where
  cursor : S.cursor c' d'
  left : c'.order = c.order
  right : d'.order = d.order
  forward : S.limit.isSome → c.position ≤ c'.position

theorem Follows.refl {c d : Cursor} (h : S.cursor c d) : S.Follows c d c d :=
  ⟨h, rfl, rfl, fun _ => Nat.le_refl _⟩

theorem Follows.trans {c d c' d' c'' d'' : Cursor} (h : S.Follows c d c' d')
    (h' : S.Follows c' d' c'' d'') : S.Follows c d c'' d'' :=
  ⟨h'.cursor, h'.left.trans h.left, h'.right.trans h.right,
    fun hl => Nat.le_trans (h.forward hl) (h'.forward hl)⟩

/-- Matches that correspond, from two cursors. -/
structure Matches (S : Simulation) (c d : Cursor) (m n : Match) : Prop where
  value : S.values → m.value = n.value
  next : S.Follows c d m.next n.next

/-- Items that correspond, from two cursors. -/
structure ItemsMatch (S : Simulation) (c d : Cursor) (items items' : Items) : Prop where
  values : S.values → items.1 = items'.1
  next : S.Follows c d items.2 items'.2

/-- Two parsers lead corresponding cursors to corresponding runs. -/
def Related (S : Simulation) (p q : Parser) : Prop :=
  ∀ ⦃c d : Cursor⦄, S.cursor c d → S.Runs (S.Matches c d) (p c) (q d)

/-- Results that correspond, where a failure is one of the results. -/
inductive Attempts (S : Simulation) (A : α → β → Prop) :
    Except Failure α → Except Failure β → Prop where
  | ok {a : α} {b : β} (result : A a b) : Attempts S A (.ok a) (.ok b)
  | error {e f : Failure} (failure : S.failure e f) : Attempts S A (.error e) (.error f)

/-! ### Runs step by step -/

theorem Runs.mono {A B : α → β → Prop} {x : Run α} {y : Run β} (h : S.Runs A x y)
    (hAB : ∀ a b, A a b → B a b) : S.Runs B x y := by
  cases h with
  | ok trace result => exact .ok trace (hAB _ _ result)
  | failed trace failure => exact .failed trace failure
  | misused trace => exact .misused trace
  | endless trace => exact .endless trace
  | ofMisuse free => exact .ofMisuse free
  | ofEndless free => exact .ofEndless free

theorem Runs.pure {A : α → β → Prop} {a : α} {b : β} (h : A a b) :
    S.Runs A (Pure.pure a) (Pure.pure b) :=
  .ok S.trace_nil h

theorem Runs.fail {A : α → β → Prop} {e f : Failure} (h : S.failure e f) :
    S.Runs A (Run.fail e) (Run.fail f) :=
  .failed S.trace_nil h

theorem Runs.misuse {A : α → β → Prop} (m : Misuse) : S.Runs A (Run.misuse m) (Run.misuse m) :=
  .misused S.trace_nil

theorem Runs.diverge {A : α → β → Prop} : S.Runs A Run.endless Run.endless :=
  .endless S.trace_nil

theorem Runs.record {r s : Record} (h : S.trace [r] [s]) :
    S.Runs (fun _ _ => True) (Run.record r) (Run.record s) :=
  .ok h trivial

/-- What ran before comes in front of both traces. -/
theorem Runs.prepend {A : α → β → Prop} {t u : List Record} (h : S.trace t u) {x : Run α}
    {y : Run β} (hxy : S.Runs A x y) :
    S.Runs A ⟨t ++ x.trace, x.outcome⟩ ⟨u ++ y.trace, y.outcome⟩ := by
  cases hxy with
  | ok trace result => exact .ok (S.trace_append h trace) result
  | failed trace failure => exact .failed (S.trace_append h trace) failure
  | misused trace => exact .misused (S.trace_append h trace)
  | endless trace => exact .endless (S.trace_append h trace)
  | ofMisuse free => exact .ofMisuse free
  | ofEndless free => exact .ofEndless free

/-- Corresponding runs stay so when both go on in corresponding ways. -/
theorem Runs.bind {A : α → β → Prop} {B : γ → δ → Prop} {x : Run α} {y : Run β} {f : α → Run γ}
    {g : β → Run δ} (h : S.Runs A x y) (hfg : ∀ a b, A a b → S.Runs B (f a) (g b)) :
    S.Runs B (x >>= f) (y >>= g) := by
  cases h with
  | ok trace result => exact (hfg _ _ result).prepend trace
  | failed trace failure => exact .failed trace failure
  | misused trace => exact .misused trace
  | endless trace => exact .endless trace
  | ofMisuse free => exact .ofMisuse free
  | ofEndless free => exact .ofEndless free

theorem Runs.attempt {A : α → β → Prop} {x : Run α} {y : Run β} (h : S.Runs A x y) :
    S.Runs (S.Attempts A) x.attempt y.attempt := by
  cases h with
  | ok trace result => exact .ok trace (.ok result)
  | failed trace failure => exact .ok trace (.error failure)
  | misused trace => exact .misused trace
  | endless trace => exact .endless trace
  | ofMisuse free => exact .ofMisuse free
  | ofEndless free => exact .ofEndless free

/-- Both go on after an attempt, one way after a success and another after a failure. -/
theorem Runs.attempt_bind {A : α → β → Prop} {B : γ → δ → Prop} {x : Run α} {y : Run β}
    {f : Except Failure α → Run γ} {g : Except Failure β → Run δ} (h : S.Runs A x y)
    (ok : ∀ a b, A a b → S.Runs B (f (.ok a)) (g (.ok b)))
    (error : ∀ e e', S.failure e e' → S.Runs B (f (.error e)) (g (.error e'))) :
    S.Runs B (x.attempt >>= f) (y.attempt >>= g) := by
  refine h.attempt.bind fun a b hab => ?_
  cases hab with
  | ok result => exact ok _ _ result
  | error failure => exact error _ _ failure

theorem Runs.recordFailure {A : α → β → Prop} {x : Run α} {y : Run β} {r s : Failure → Record}
    (h : S.Runs A x y) (hrs : ∀ e f, S.failure e f → S.trace [r e] [s f]) :
    S.Runs A (x.recordFailure r) (y.recordFailure s) := by
  cases h with
  | ok trace result => exact .ok trace result
  | failed trace failure => exact .failed (S.trace_append trace (hrs _ _ failure)) failure
  | misused trace => exact .misused trace
  | endless trace => exact .endless trace
  | ofMisuse free => exact .ofMisuse free
  | ofEndless free => exact .ofEndless free

/-! ### What corresponding cursors agree on -/

section Cursors

variable {c d c' d' : Cursor}

theorem position_lt_iff (h : S.cursor c d) (h' : S.cursor c' d') :
    c.position < c'.position ↔ d.position < d'.position := by
  have := S.distance h h'
  omega

theorem position_eq_iff (h : S.cursor c d) (h' : S.cursor c' d') :
    c'.position = c.position ↔ d'.position = d.position := by
  have := S.distance h h'
  omega

theorem bitsSince_eq (h : S.cursor c d) (h' : S.cursor c' d') :
    c'.bitsSince c = d'.bitsSince d := by
  have := S.distance h h'
  rw [Cursor.bitsSince, Cursor.bitsSince]
  omega

end Cursors

/-- Failures kept so far that correspond. -/
inductive Kept (S : Simulation) : Option Failure → Option Failure → Prop where
  | none : Kept S none none
  | some {e f : Failure} (failure : S.failure e f) : Kept S (some e) (some f)

theorem Kept.keepFurthest {kept kept' : Option Failure} (h : S.Kept kept kept') {e f : Failure}
    (hef : S.failure e f) :
    S.failure (Failure.keepFurthest kept e) (Failure.keepFurthest kept' f) := by
  cases h with
  | none => exact hef
  | some failure => exact S.furthest failure hef

theorem Kept.getD_rejection {kept kept' : Option Failure} (h : S.Kept kept kept') {c d : Cursor}
    (hcd : S.cursor c d) (r : Rejection) :
    S.failure (kept.getD (c.rejection r)) (kept'.getD (d.rejection r)) := by
  cases h with
  | none => exact S.rejection hcd r
  | some failure => exact failure

end Simulation

/-! ### Runs compared with themselves -/

/-- A property of cursors and one of failures, such that failing at a cursor that has the one gives
a failure that has the other. -/
structure Invariant where
  cursor : Cursor → Prop
  failure : Failure → Prop
  rejection : ∀ c, cursor c → ∀ r, failure (c.rejection r)

namespace Invariant

/-- No property at all. -/
def none : Invariant where
  cursor _ := True
  failure _ := True
  rejection _ _ _ := trivial

/-- A run from a cursor ends at a cursor with the property and the same order of reading, or with a
failure with the property. -/
def KeptBy (V : Invariant) (c : Cursor) (x : Run Match) : Prop :=
  match x.outcome with
  | .ok m => V.cursor m.next ∧ m.next.order = c.order
  | .failed e => V.failure e
  | .misused _ | .endless => True

/-- Cursors and failures correspond to themselves, as far as they have the properties. The traces
are equal, or are not compared. -/
def same (V : Invariant) (endless : Prop) (misuse : Misuse → Prop := fun _ => False)
    (traces : Prop := True) : Simulation where
  cursor c d := c = d ∧ V.cursor c
  failure e f := e = f ∧ V.failure e
  trace t u := traces → t = u
  values := True
  misuse := misuse
  endless := endless
  limit := Option.none
  distance h h' := by rw [h.1, h'.1]
  positions h := by
    rw [h.1]
    exact .inl ⟨Nat.le_refl _, .inr rfl⟩
  position_le_limit _ _ h := nomatch h
  rejection := by
    rintro c _ ⟨rfl, hc⟩ r
    exact ⟨rfl, V.rejection c hc r⟩
  furthest := by
    rintro e _ e' _ ⟨rfl, he⟩ ⟨rfl, he'⟩
    refine ⟨rfl, ?_⟩
    rw [Failure.furthest]
    split
    · exact he'
    · exact he
  trace_nil _ := rfl
  trace_append h h' ht := by rw [h ht, h' ht]
  trace_choiceFailed := by
    rintro c _ e _ ⟨rfl, -⟩ ⟨rfl, -⟩ index -
    rfl
  trace_repeatStopped := by
    rintro e _ ⟨rfl, -⟩ done total -
    rfl
  trace_hookCalled _ _ _ _ := rfl

variable {V : Invariant} {endless : Prop} {misuse : Misuse → Prop} {traces : Prop} {p q : Parser}
  {c : Cursor}

theorem follows {d : Cursor} (hd : V.cursor d) (order : d.order = c.order) :
    (V.same endless misuse traces).Follows c c d d :=
  ⟨⟨rfl, hd⟩, order, order, nofun⟩

theorem sameOrder {d : Cursor} (h : (V.same endless misuse traces).cursor c d) :
    c.order = d.order :=
  congrArg Cursor.order h.1

theorem KeptBy.runs {x : Run Match} (h : V.KeptBy c x) :
    (V.same endless misuse traces).Runs ((V.same endless misuse traces).Matches c c) x x := by
  obtain ⟨t, o⟩ := x
  cases o with
  | ok m => exact .ok (fun _ => rfl) ⟨fun _ => rfl, follows h.1 h.2⟩
  | failed e => exact .failed (fun _ => rfl) ⟨rfl, h⟩
  | misused m => exact .misused fun _ => rfl
  | endless => exact .endless fun _ => rfl

theorem related_same (h : ∀ c, V.cursor c → p c = q c ∧ V.KeptBy c (q c)) :
    (V.same endless misuse traces).Related p q := by
  rintro c _ ⟨rfl, hc⟩
  obtain ⟨heq, hk⟩ := h c hc
  rw [heq]
  exact hk.runs

/-- Two runs that correspond in this way are one run, if they end and meet no misuse for which
nothing is asked. -/
theorem eq_or_free (h : (V.same endless misuse).Related p q) (hc : V.cursor c) :
    p c = q c ∧ V.KeptBy c (q c) ∨ endless ∧ (p c).outcome = .endless ∨
      ∃ m, misuse m ∧ (p c).outcome = .misused m := by
  have hpq := h (c := c) (d := c) ⟨rfl, hc⟩
  generalize p c = x, q c = y at hpq
  cases hpq with
  | @ok t u m n trace result =>
    obtain ⟨hvalue, ⟨hnext, hm⟩, horder, -⟩ := result
    obtain rfl : t = u := trace trivial
    obtain rfl : m = n := by
      cases m
      cases n
      exact Match.mk.injEq .. |>.mpr ⟨hvalue trivial, hnext⟩
    exact .inl ⟨rfl, hm, horder⟩
  | @failed t u e f trace failure =>
    obtain ⟨rfl, he⟩ : e = f ∧ V.failure e := failure
    obtain rfl : t = u := trace trivial
    exact .inl ⟨rfl, he⟩
  | @misused t u m trace =>
    obtain rfl : t = u := trace trivial
    exact .inl ⟨rfl, trivial⟩
  | @endless t u trace =>
    obtain rfl : t = u := trace trivial
    exact .inl ⟨rfl, trivial⟩
  | @ofMisuse t m y free => exact .inr (.inr ⟨m, free, rfl⟩)
  | ofEndless free => exact .inr (.inl ⟨free, rfl⟩)

/-- Two runs that correspond in this way are one run, if they end. -/
theorem eq_or_endless (h : (V.same endless).Related p q) (hc : V.cursor c) :
    p c = q c ∧ V.KeptBy c (q c) ∨ endless ∧ (p c).outcome = .endless := by
  rcases eq_or_free h hc with heq | hendless | ⟨m, hfalse, -⟩
  · exact .inl heq
  · exact .inr hendless
  · exact hfalse.elim

/-- Two runs that correspond in this way are one run, when endless runs are compared as well. -/
theorem eq_and_kept (h : (V.same False).Related p q) (hc : V.cursor c) :
    p c = q c ∧ V.KeptBy c (q c) :=
  (eq_or_endless h hc).resolve_right And.left

end Invariant

end BitGrammar
