import BitGrammar.Proofs.DepthBound

/-!
# Binding cells

A grammar is built while parts of it are still missing. Running a rule over a store in which some
cells are not bound is a misuse as soon as the run comes to such a cell, and nothing in a grammar
absorbs a misuse. So a run that ends with a match or a failure has not come to any of them, and it
stays as it is, trace included, whatever they are bound to later.

## What decides the design

The two runs are compared in a simulation in which a misuse on the left asks nothing of the right.
That a parser with parts keeps such a simulation is where it would show that it absorbs a misuse.
The comparison is made at one depth; the store with more cells has another bound on the depth, which
makes no difference by `Rule.parse_eq_parseWithin`.

## Main results

* `Rule.parse_eq_of_bound`: binding more cells changes no run that has met no misuse
-/

namespace BitGrammar

/-- Binding a cell leaves the rules of bound cells as they are. -/
theorem Cells.target?_of_bind {cells next : Cells} {cell other : Cell} {rule target : Rule}
    (h : cells.bind cell rule = .ok next) (ht : cells.target? other = some target) :
    next.target? other = some target := by
  by_cases hcell : other = cell
  · subst hcell
    simp [bind, isBound, ht] at h
  · rw [target?_bind_of_ne h hcell]
    exact ht

namespace Rule

/-- **Binding more cells changes no run that ends without a misuse.** The match or the failure and
the trace are the same over every store that has the same rules in the cells that were bound. -/
theorem parse_eq_of_bound (cells cells' : Cells)
    (bound : ∀ cell target, cells.target? cell = some target → cells'.target? cell = some target)
    (rule : Rule) (c : Cursor) (h : c.WellFormed) (ends : (rule.parse cells c).outcome ≠ .endless)
    (proper : ∀ m, (rule.parse cells c).outcome ≠ .misused m) :
    rule.parse cells' c = rule.parse cells c := by
  have stores : Interpretation.Stores
      ((Invariant.within c.input 0).same False fun _ => True) cells cells' :=
    ⟨fun ht => bound _ _ ht, .inl trivial⟩
  have related := related_parseWithin stores ⟨Nat.le_refl (depthBound cells c), .inr rfl⟩ rule
    (.inl rfl)
  rcases Invariant.eq_or_free related (h.within (Nat.zero_le _)) with
    ⟨heq, -⟩ | ⟨hfalse, -⟩ | ⟨m, -, hm⟩
  · rw [parse, parse] at *
    rw [heq] at ends ⊢
    exact parse_eq_parseWithin h ends
  · exact hfalse.elim
  · exact absurd hm (proper m)

/-- One letter to the end of the input, or a list of letters with separators that are yet to be
bound. -/
def unfinishedList : Cells where
  count := 2
  bindings := [(⟨0⟩, .choice [.left (.byte 0x61) .finish, .sepBy (.byte 0x61) (.ref ⟨1⟩)])]

/-- The list with commas as separators. -/
def finishedList : Cells :=
  { unfinishedList with bindings := (⟨1⟩, .byte 0x2c) :: unfinishedList.bindings }

/-- One letter is a list before it is said what the separators are. -/
theorem parse_eq_of_bound_oneLetter :
    ((Rule.ref ⟨0⟩).parse unfinishedList ⟨#[0x61], 0, {}⟩).outcome =
        .ok ⟨some (.char 0x61), ⟨#[0x61], 8, {}⟩⟩ ∧
      (Rule.ref ⟨0⟩).parse finishedList ⟨#[0x61], 0, {}⟩ =
        (Rule.ref ⟨0⟩).parse unfinishedList ⟨#[0x61], 0, {}⟩ := by
  have hbind : unfinishedList.bind ⟨1⟩ (.byte 0x2c) = .ok finishedList := rfl
  have hok : ((Rule.ref ⟨0⟩).parse unfinishedList ⟨#[0x61], 0, {}⟩).outcome =
      .ok ⟨some (.char 0x61), ⟨#[0x61], 8, {}⟩⟩ := rfl
  refine ⟨hok, parse_eq_of_bound unfinishedList finishedList
    (fun _ _ ht => Cells.target?_of_bind hbind ht) (.ref ⟨0⟩) _ (Nat.zero_le _) ?_ ?_⟩
  · rw [hok]
    exact nofun
  · intro m
    rw [hok]
    exact nofun

end Rule

end BitGrammar
