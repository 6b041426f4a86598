import BitGrammar.Proofs.Bounds
import Mathlib.Data.Finset.Card
import Mathlib.Data.Finset.Dedup
import Mathlib.Data.Finset.Prod

/-!
# The bound on the depth of runs

`Rule.parse` allows a run only so many nested entries into cells. That bound takes nothing away: a
run that it cuts off is cut off by every bound, however high, and a run that some bound lets end
has the same trace and outcome in `Rule.parse`. Runs with different bounds, over different stores
and on different inputs can therefore be compared at any one depth.

## What decides the design

An entry into a cell is given by the cell, a position and an order of reading, and there are only
so many of them on an input. With a higher bound fewer of them hang. When one step up changes
nothing, all entries behave alike below both bounds, and so do all rules, so that the next step
changes nothing either. A chain of finite sets that shrinks until it stands still does so within as
many steps as its first set has members, and `Rule.depthBound` leaves room for that many.

The entries at depth zero are left out of the count, as unbound cells hang there and meet a misuse
from then on.

## Main definitions

* `Cells.places`: the entries into cells that are possible on an input
* `Cells.hanging`: those that a bound on the depth cuts off

## Main results

* `Rule.parse_endless_iff`: `Rule.parse` is cut off only where every bound cuts off
* `Rule.parse_eq_parseWithin`: it agrees with every bound that does not cut off
-/

namespace BitGrammar

/-! ### Chains of finite sets -/

/-- A chain of finite sets that shrinks until it stands still, and never moves again, stands still
after as many steps as its first set has members. -/
theorem subset_succ_of_chain {α : Type} [DecidableEq α] {F : Nat → Finset α}
    (shrinks : ∀ i, F (i + 1) ⊆ F i)
    (persists : ∀ i, F i ⊆ F (i + 1) → F (i + 1) ⊆ F (i + 2)) {n : Nat} (hn : (F 0).card ≤ n) :
    F n ⊆ F (n + 1) := by
  have smaller : ∀ i, ¬ F i ⊆ F (i + 1) → (F (i + 1)).card < (F i).card :=
    fun i h => Finset.card_lt_card (Finset.ssubset_def.mpr ⟨shrinks i, h⟩)
  have still_or_small : ∀ i, F i ⊆ F (i + 1) ∨ (F (i + 1)).card + (i + 1) ≤ (F 0).card := by
    intro i
    induction i with
    | zero =>
      by_cases h : F 0 ⊆ F 1
      · exact .inl h
      · exact .inr (smaller 0 h)
    | succ i ih =>
      by_cases h : F (i + 1) ⊆ F (i + 2)
      · exact .inl h
      · have hcard := smaller (i + 1) h
        rcases ih with hstill | hsmall
        · exact absurd (persists i hstill) h
        · exact .inr (by omega)
  exact (still_or_small n).resolve_right (by omega)

/-! ### Entries into cells -/

/-- The orders of reading. -/
def ReadOrder.all : Finset ReadOrder :=
  {⟨.mostFirst, .mostFirst⟩, ⟨.mostFirst, .leastFirst⟩, ⟨.leastFirst, .mostFirst⟩,
    ⟨.leastFirst, .leastFirst⟩}

theorem ReadOrder.mem_all (order : ReadOrder) : order ∈ ReadOrder.all := by
  obtain ⟨bytes, bits⟩ := order
  cases bytes <;> cases bits <;> simp [ReadOrder.all]

namespace Cells

variable (cells : Cells) (input : Array UInt8)

/-- The entries into bound cells that are possible on an input: the cell, the position and the order
of reading. -/
def places : Finset (Cell × Nat × ReadOrder) :=
  (cells.bindings.map Prod.fst).toFinset ×ˢ Finset.range (8 * input.size + 1) ×ˢ ReadOrder.all

open Classical in
/-- The entries that a bound on the depth cuts off. -/
noncomputable def hanging (depth : Nat) : Finset (Cell × Nat × ReadOrder) :=
  (cells.places input).filter fun place =>
    (Interpretation.plain.entry cells depth place.1 ⟨input, place.2.1, place.2.2⟩).outcome =
      .endless

variable {cells input} {depth : Nat} {cell : Cell} {target rule : Rule} {c : Cursor}

theorem mem_places (h : cells.target? cell = some target) (hc : c.Within input 0) :
    (cell, c.position, c.order) ∈ cells.places input := by
  have hcell : cell ∈ cells.bindings.map Prod.fst :=
    List.mem_map.mpr ⟨(cell, target), mem_bindings_of_target? h, rfl⟩
  have hposition : c.position < 8 * input.size + 1 := by
    have hle := hc.wellFormed
    rw [Cursor.WellFormed, Cursor.size, hc.input_eq] at hle
    omega
  simp [places, hposition, c.order.mem_all, List.mem_map.mp hcell]

theorem card_places_le :
    (cells.places input).card ≤ 4 * cells.bindings.length * (8 * input.size + 1) := by
  have hcells : (cells.bindings.map Prod.fst).toFinset.card ≤ cells.bindings.length := by
    simpa using List.toFinset_card_le (cells.bindings.map Prod.fst)
  calc (cells.places input).card
      = (cells.bindings.map Prod.fst).toFinset.card * ((8 * input.size + 1) * 4) := by
        rw [places, Finset.card_product, Finset.card_product, Finset.card_range]
        rfl
    _ ≤ cells.bindings.length * ((8 * input.size + 1) * 4) := Nat.mul_le_mul_right _ hcells
    _ = 4 * cells.bindings.length * (8 * input.size + 1) := by ac_rfl

theorem exists_target_of_mem_places {place : Cell × Nat × ReadOrder}
    (h : place ∈ cells.places input) : ∃ target, cells.target? place.1 = some target := by
  simp only [places, Finset.mem_product, List.mem_toFinset, List.mem_map] at h
  obtain ⟨⟨⟨cell, rule⟩, hmem, hcell⟩, -⟩ := h
  have : (cells.bindings.lookup place.1).isSome := by
    rw [List.lookup_isSome_iff]
    exact ⟨_, hmem, by simpa using hcell.symm⟩
  exact Option.isSome_iff_exists.mp this

open Classical in
theorem mem_hanging {place : Cell × Nat × ReadOrder} :
    place ∈ cells.hanging input depth ↔ place ∈ cells.places input ∧
      (Interpretation.plain.entry cells depth place.1 ⟨input, place.2.1, place.2.2⟩).outcome =
        .endless :=
  Finset.mem_filter

/-- An entry hangs exactly when the run of the target does that is one entry less deep. -/
theorem mem_hanging_succ (h : cells.target? cell = some target) (hc : c.Within input 0) :
    (cell, c.position, c.order) ∈ cells.hanging input (depth + 1) ↔
      (target.parseWithin cells depth c).outcome = .endless := by
  have hcursor : (⟨input, c.position, c.order⟩ : Cursor) = c := by rw [← hc.input_eq]
  rw [mem_hanging, hcursor, Interpretation.entry, Interpretation.callWith, h]
  dsimp only
  rw [Interpretation.plain_parseWithin]
  exact and_iff_right (mem_places h hc)

theorem exists_of_mem_hanging {place : Cell × Nat × ReadOrder}
    (h : place ∈ cells.hanging input depth) :
    ∃ (cell : Cell) (target : Rule) (c : Cursor), place = (cell, c.position, c.order) ∧
      cells.target? cell = some target ∧ c.Within input 0 := by
  have hplace := (mem_hanging.mp h).1
  obtain ⟨target, ht⟩ := exists_target_of_mem_places hplace
  have hposition : place.2.1 < 8 * input.size + 1 := by
    simp only [places, Finset.mem_product, Finset.mem_range] at hplace
    exact hplace.2.1
  exact ⟨place.1, target, ⟨input, place.2.1, place.2.2⟩, rfl, ht, rfl, Nat.zero_le _,
    Nat.le_of_lt_succ hposition⟩

/-- A higher bound cuts off less. -/
theorem hanging_succ_subset :
    cells.hanging input (depth + 2) ⊆ cells.hanging input (depth + 1) := by
  intro place h
  obtain ⟨cell, target, c, rfl, ht, hc⟩ := exists_of_mem_hanging h
  rw [mem_hanging_succ ht hc] at h ⊢
  rcases Rule.parseWithin_mono cells (Nat.le_succ depth) target hc.wellFormed with heq | hendless
  · rw [heq]
    exact h
  · exact hendless

/-! ### Runs below two bounds that cut off the same entries -/

/-- Entries that hang below both of two bounds, or below none, lead to corresponding runs. -/
theorem related_entry (h : cells.hanging input (depth + 1) ⊆ cells.hanging input (depth + 2))
    (cell : Cell) :
    ((Invariant.within input 0).same False (fun _ => False) False).Related
      (Interpretation.plain.entry cells (depth + 1) cell)
      (Interpretation.plain.entry cells (depth + 2) cell) := by
  rw [Interpretation.entry, Interpretation.entry, Interpretation.callWith, Interpretation.callWith]
  cases ht : cells.target? cell with
  | none => exact .misuse _
  | some target =>
    rintro c _ ⟨rfl, hc⟩
    dsimp only
    rw [Interpretation.plain_parseWithin, Interpretation.plain_parseWithin]
    rcases Rule.parseWithin_mono cells (Nat.le_succ depth) target hc.wellFormed with heq | hendless
    · rw [heq]
      exact (Rule.keptBy_parseWithin cells _ target hc (.inl rfl)).runs
    · have hendless' := (mem_hanging_succ ht hc).mp (h ((mem_hanging_succ ht hc).mpr hendless))
      generalize target.parseWithin cells depth c = x,
        target.parseWithin cells (depth + 1) c = y at hendless hendless'
      obtain ⟨t, _⟩ := x
      obtain ⟨u, _⟩ := y
      subst hendless hendless'
      exact .endless False.elim

/-- Below bounds that cut off the same entries, the same runs of rules are cut off. -/
theorem outcome_endless_succ
    (h : cells.hanging input (depth + 1) ⊆ cells.hanging input (depth + 2)) (rule : Rule)
    (hc : c.Within input 0) (hendless : (rule.parseWithin cells (depth + 1) c).outcome = .endless) :
    (rule.parseWithin cells (depth + 2) c).outcome = .endless := by
  have related : ((Invariant.within input 0).same False (fun _ => False) False).Related
      (rule.parseWithin cells (depth + 1)) (rule.parseWithin cells (depth + 2)) := by
    rw [← Interpretation.plain_parseWithin, ← Interpretation.plain_parseWithin,
      Interpretation.parseWithin_eq_eval, Interpretation.parseWithin_eq_eval]
    refine (Rule.comparable_within input 0 _ _ _).eval_related fun inner _ => ⟨fun hleaf => ?_, ?_⟩
    · exact Invariant.related_same fun d hd => ⟨rfl, hd.keptBy_leaf hleaf (.inl rfl)⟩
    · rintro cell -
      exact related_entry h cell
  have hruns := related (c := c) (d := c) ⟨rfl, hc⟩
  generalize rule.parseWithin cells (depth + 1) c = x,
    rule.parseWithin cells (depth + 2) c = y at hruns hendless
  cases hruns with
  | endless => rfl
  | ofEndless free => exact free.elim
  | _ => cases hendless

/-- From as many entries on as there are, one more changes nothing. -/
theorem hanging_subset_succ (hdepth : (cells.places input).card ≤ depth) :
    cells.hanging input (depth + 1) ⊆ cells.hanging input (depth + 2) := by
  refine subset_succ_of_chain (F := fun i => cells.hanging input (i + 1))
    (fun _ => hanging_succ_subset) (fun i hi place h => ?_) ?_
  · obtain ⟨cell, target, c, rfl, ht, hc⟩ := exists_of_mem_hanging h
    rw [mem_hanging_succ ht hc] at h ⊢
    exact outcome_endless_succ hi target hc h
  · exact (Finset.card_le_card fun _ h => (mem_hanging.mp h).1).trans hdepth

end Cells

/-! ### The bound takes nothing away -/

namespace Rule

variable {cells : Cells} {rule : Rule} {c : Cursor}

/-- **A run that is cut off at the bound is cut off at every bound.** Above the bound the induction
is on the depth. -/
theorem parse_endless_iff (h : c.WellFormed) : (rule.parse cells c).outcome = .endless ↔
    ∀ depth, (rule.parseWithin cells depth c).outcome = .endless := by
  refine ⟨fun hendless depth => ?_, fun hall => hall _⟩
  have hcard : (cells.places c.input).card + 1 ≤ depthBound cells c :=
    Nat.succ_le_succ Cells.card_places_le
  rcases Nat.le_total depth (depthBound cells c) with hle | hle
  · rcases parseWithin_mono cells hle rule h with heq | hcut
    · rw [heq]
      exact hendless
    · exact hcut
  · induction depth, hle using Nat.le_induction with
    | base => exact hendless
    | succ depth hle ih =>
      obtain ⟨smaller, rfl⟩ : ∃ smaller, depth = smaller + 1 := ⟨depth - 1, by omega⟩
      exact Cells.outcome_endless_succ (Cells.hanging_subset_succ (by omega)) rule
        (h.within (Nat.zero_le _)) ih

/-- **A run that some bound does not cut off is the run of `Rule.parse`.** -/
theorem parse_eq_parseWithin (h : c.WellFormed) {depth : Nat}
    (ends : (rule.parseWithin cells depth c).outcome ≠ .endless) :
    rule.parse cells c = rule.parseWithin cells depth c := by
  rcases Nat.le_total depth (depthBound cells c) with hle | hle
  · exact ((parseWithin_mono cells hle rule h).resolve_right ends).symm
  · refine (parseWithin_mono cells hle rule h).resolve_right fun hendless => ends ?_
    exact (parse_endless_iff h).mp hendless depth

end Rule

end BitGrammar
