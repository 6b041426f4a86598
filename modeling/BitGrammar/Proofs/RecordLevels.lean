import BitGrammar.Proofs.OrderOfReading

/-!
# What a run puts on record

While a rule runs it records details only: which alternative failed, where a repetition stopped,
which function was called. All of these records are of the level `trace`. The coarser ones, of the
level `debug`, are left by what is around a run: the result of a parse as a whole, and the binding
of a cell.

## What decides the design

The traces of runs are put together by the parsers with parts, which is what a `Simulation` asks of
corresponding traces. So a property of records that holds of those three kinds, and of the records
of leaves, of which there are none, holds of all runs.

## Main results

* `Rule.level_of_mem_trace`: all records of a run are of the level `trace`
-/

namespace BitGrammar

/-- Runs compared with themselves, whose records are all of the level `trace`. -/
def Simulation.details : Simulation where
  __ := Invariant.none.same False
  trace t _ := ∀ r ∈ t, r.level = .trace
  trace_nil _ h := nomatch h
  trace_append h h' r hr := (List.mem_append.mp hr).elim (h r) (h' r)
  trace_choiceFailed _ _ _ r hr := by rw [List.mem_singleton.mp hr]; rfl
  trace_repeatStopped _ _ _ r hr := by rw [List.mem_singleton.mp hr]; rfl
  trace_hookCalled _ _ _ r hr := by rw [List.mem_singleton.mp hr]; rfl

namespace Parser

theorem trace_test (accept : UInt8 → Bool) (why : UInt8 → Mismatch) (c : Cursor) :
    (test accept why c).trace = [] := by
  rcases test_cases accept why c with ⟨b, next, -, -, found⟩ | ⟨e, failed⟩
  · rw [found]
    rfl
  · rw [failed]
    rfl

theorem trace_of_eq_ofRead {α : Type} {value : α → Option Value} {next : α → Cursor}
    {r : Except Failure α} {x : Run Match} (h : x = .ofRead value next r) : x.trace = [] := by
  rw [h]
  cases r <;> rfl

/-- The leaves of a grammar leave no records. -/
theorem trace_leaf {rule : Rule} (leaf : rule.isLeaf) (c : Cursor) :
    (Interpretation.plain.leaf rule c).trace = [] := by
  cases rule with
  | byte | byteRange | byteIn => exact trace_test _ _ c
  | literal bytes => exact trace_of_eq_ofRead (literal_eq bytes c)
  | take count => exact trace_of_eq_ofRead (take_eq count c)
  | bits width signed fits => exact trace_of_eq_ofRead (bits_eq width signed c)
  | skip count => exact trace_of_eq_ofRead (skip_eq count c)
  | seek offset anchor => exact trace_of_eq_ofRead (seek_eq offset anchor c)
  | tell | epsilon | nothing => rfl
  | finish =>
    show (finish c).trace = []
    rw [finish]
    split <;> rfl
  | _ => cases leaf

end Parser

namespace Rule

theorem comparable_details : Interpretation.Comparable .details .plain .plain where
  values := trivial
  node h := h
  blanks := by
    rintro c _ ⟨rfl, -⟩
    have order := c.order_skipBlanks (c.remaining / 8)
    exact .pure ⟨⟨rfl, trivial⟩, order, order, nofun⟩
  reorder := by
    rintro c _ ⟨rfl, -⟩ o
    exact ⟨rfl, trivial⟩
  sameOrder h := congrArg Cursor.order h.1

theorem related_details_leaf {rule : Rule} (leaf : rule.isLeaf) :
    Simulation.details.Related (Interpretation.plain.leaf rule)
      (Interpretation.plain.leaf rule) := by
  rintro c _ ⟨rfl, -⟩
  have silent := Parser.trace_leaf leaf c
  have keeps := Parser.keepsOrder_leaf leaf c
  generalize Interpretation.plain.leaf rule c = x at silent keeps
  obtain ⟨t, o⟩ := x
  obtain rfl : t = [] := silent
  cases o with
  | ok m => exact .pure ⟨fun _ => rfl, ⟨⟨rfl, trivial⟩, keeps m rfl, keeps m rfl, nofun⟩⟩
  | failed e => exact .fail ⟨rfl, trivial⟩
  | misused m => exact .misuse m
  | endless => exact .diverge

/-- **All records of a run are of the level `trace`.** -/
theorem level_of_mem_trace (cells : Cells) (rule : Rule) (c : Cursor) :
    ∀ r ∈ (rule.parse cells c).trace, r.level = .trace := by
  have related : Simulation.details.Related (rule.parseWithin cells (depthBound cells c))
      (rule.parseWithin cells (depthBound cells c)) := by
    rw [← Interpretation.plain_parseWithin]
    exact comparable_details.parseWithin_related (.refl _ cells)
      ⟨Nat.le_refl _, .inr rfl⟩ fun inner _ hleaf => related_details_leaf hleaf
  have runs := related (c := c) (d := c) ⟨rfl, trivial⟩
  rw [parse]
  generalize rule.parseWithin cells (depthBound cells c) c = x at runs
  cases runs with
  | ok trace | failed trace | misused trace | endless trace => exact trace
  | ofMisuse free => exact free.elim
  | ofEndless free => exact free.elim

end Rule

end BitGrammar
