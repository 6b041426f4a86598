import BitGrammar.Rule

/-!
# Cells

`Cells` is the store of the rules that references stand for. A cell is new and empty first, can be
bound to a rule once, and keeps that rule. All references to a cell share its binding, also those
made before it was bound.

The main facts say what binding does to the cell bound (`target?_bind_self`), to the others
(`target?_bind_of_ne`), and that a cell that is not bound can be bound (`bind_eq_ok_iff`), and a
bound one cannot be bound again (`bind_eq_error_iff`).
-/

namespace BitGrammar

/-- The cells handed out so far, and the rules of those that are bound. -/
structure Cells where
  count : Nat := 0
  bindings : List (Cell × Rule) := []
  deriving Inhabited

namespace Cells

/-- No cells at all. -/
def empty : Cells := {}

/-- A new cell that is not bound. -/
def alloc (cells : Cells) : Cell × Cells :=
  (⟨cells.count⟩, { cells with count := cells.count + 1 })

/-- The rule that a cell is bound to. -/
def target? (cells : Cells) (cell : Cell) : Option Rule :=
  cells.bindings.lookup cell

/-- True of a cell that is bound. -/
def isBound (cells : Cells) (cell : Cell) : Bool :=
  (cells.target? cell).isSome

/-- Binds a cell, unless it is bound already. -/
def bind (cells : Cells) (cell : Cell) (rule : Rule) : Except Misuse Cells :=
  if cells.isBound cell then .error .alreadyBound
  else .ok { cells with bindings := (cell, rule) :: cells.bindings }

@[simp] theorem target?_empty (cell : Cell) : empty.target? cell = none := rfl

@[simp] theorem target?_alloc (cells : Cells) (cell : Cell) :
    cells.alloc.2.target? cell = cells.target? cell := rfl

theorem mem_bindings_of_target? {cells : Cells} {cell : Cell} {rule : Rule}
    (h : cells.target? cell = some rule) : (cell, rule) ∈ cells.bindings := by
  obtain ⟨before, after, hsplit, -⟩ := List.lookup_eq_some_iff.mp h
  rw [hsplit]
  exact List.mem_append_right _ (List.mem_cons_self ..)

theorem bind_eq_error_iff (cells : Cells) (cell : Cell) (rule : Rule) (m : Misuse) :
    cells.bind cell rule = .error m ↔ cells.isBound cell ∧ m = .alreadyBound := by
  by_cases h : cells.isBound cell
  · simp [bind, h, eq_comm]
  · simp [bind, h]

theorem bind_eq_ok_iff (cells : Cells) (cell : Cell) (rule : Rule) (next : Cells) :
    cells.bind cell rule = .ok next ↔ cells.target? cell = none ∧
      next = { cells with bindings := (cell, rule) :: cells.bindings } := by
  cases h : cells.target? cell with
  | none => simp [bind, isBound, h, eq_comm]
  | some target => simp [bind, isBound, h]

theorem target?_bind_self {cells next : Cells} {cell : Cell} {rule : Rule}
    (h : cells.bind cell rule = .ok next) : next.target? cell = some rule := by
  unfold bind at h
  split at h
  · cases h
  · cases h
    simp [target?]

theorem target?_bind_of_ne {cells next : Cells} {cell other : Cell} {rule : Rule}
    (h : cells.bind cell rule = .ok next) (ne : other ≠ cell) :
    next.target? other = cells.target? other := by
  unfold bind at h
  split at h
  · cases h
  · cases h
    have : (other == cell) = false := by simpa using ne
    simp [target?, List.lookup_cons, this]

end Cells

end BitGrammar
