import BitGrammar.Cursor.Read
import BitGrammar.Run

/-!
# Parsers

A `Parser` takes a cursor and, when it succeeds, gives a `Match`: a value and the cursor behind
what it matched. The value of a match can be elided; sequences and repetitions then leave no place
for it, and where a value is needed all the same it counts as `Value.unit`.
-/

namespace BitGrammar

/-- A success: the value, unless it is elided, and the cursor behind what was matched. -/
structure Match where
  value : Option Value
  next : Cursor
  deriving Inhabited

/-- The value of a match, with `Value.unit` in place of an elided one. -/
def Match.shown (m : Match) : Value :=
  m.value.getD .unit

/-- A parser runs from a cursor. -/
abbrev Parser := Cursor → Run Match

/-- The items of a sequence or repetition, and the cursor behind the last of them. -/
abbrev Items := List Value × Cursor

/-- The items with the value of an earlier match in front, unless it is elided. -/
def Match.consTo (m : Match) (items : Items) : Items :=
  (m.value.toList ++ items.1, items.2)

@[simp] theorem Match.consTo_snd (m : Match) (items : Items) : (m.consTo items).2 = items.2 := rfl

/-- The items as the one value of a match. -/
def Items.toMatch (items : Items) : Match :=
  ⟨some (.sequence items.1), items.2⟩

end BitGrammar
