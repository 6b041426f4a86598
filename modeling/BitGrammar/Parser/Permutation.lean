import BitGrammar.Parser

/-!
# Parsers in any order

A permutation matches every one of its members exactly once, in whatever order the input has them.
The values are reported in the order of the members, not of the input.

The search keeps one slot for each member. At a cursor it first tries, member by member, to place
one that consumes input there and to place the others behind it; what turns out to be a dead end
is taken back. When no such placement leads to the end, all members left must match empty input
right there.
-/

namespace BitGrammar

namespace Parser

/-- What is known about each member: nothing while it is not placed, and once it is placed its
value, unless that is elided. -/
abbrev Slots := List (Option (Option Value))

/-- The members without a filled slot, with their indices. -/
def unplaced (ps : List Parser) (slots : Slots) : List (Nat × Parser) :=
  (ps.zip slots).zipIdx.filterMap fun ((p, slot), i) =>
    if slot.isNone then some (i, p) else none

/-- Tries to place one of the members where it consumes input, the others being placed behind it
by `place`. Gives the filled slots and the last cursor, or else the furthest failure. -/
def placeConsuming (place : Slots → Cursor → Run (Slots × Cursor)) (slots : Slots) (c : Cursor) :
    List (Nat × Parser) → Option Failure → Run (Except (Option Failure) (Slots × Cursor))
  | [], furthest => pure (.error furthest)
  | (i, p) :: rest, furthest => do
    match ← (p c).attempt with
    | .ok m =>
      if c.position < m.next.position then do
        match ← (place (slots.set i (some m.value)) m.next).attempt with
        | .ok filled => pure (.ok filled)
        | .error e =>
          placeConsuming place slots c rest (some (Failure.keepFurthest furthest e))
      else placeConsuming place slots c rest furthest
    | .error e => placeConsuming place slots c rest (some (Failure.keepFurthest furthest e))

/-- Places all the members where they match empty input, and fails with the furthest failure when
one does not. -/
def placeEmpty (c : Cursor) (furthest : Option Failure) :
    List (Nat × Parser) → Slots → Run Slots
  | [], slots => pure slots
  | (i, p) :: rest, slots => do
    match ← (p c).attempt with
    | .ok m =>
      if m.next.position = c.position then placeEmpty c furthest rest (slots.set i (some m.value))
      else Run.fail (furthest.getD (c.rejection .unplaceable))
    | .error e => Run.fail (Failure.keepFurthest furthest e)

/-- Fills the empty slots from a cursor on, given a bound on their number. -/
def fill (ps : List Parser) : Nat → Slots → Cursor → Run (Slots × Cursor)
  | 0, slots, c => pure (slots, c)
  | count + 1, slots, c => do
    match ← placeConsuming (fill ps count) slots c (unplaced ps slots) none with
    | .ok filled => pure filled
    | .error furthest => do
      let filled ← placeEmpty c furthest (unplaced ps slots) slots
      pure (filled, c)

/-- The values in filled slots, in order. -/
def slotValues (slots : Slots) : List Value :=
  slots.filterMap Option.join

/-- Matches every parser exactly once, in any order. -/
def permutation (ps : List Parser) : Parser := fun c => do
  let (slots, finish) ← fill ps ps.length (List.replicate ps.length none) c
  pure (Items.toMatch (slotValues slots, finish))

end Parser

end BitGrammar
