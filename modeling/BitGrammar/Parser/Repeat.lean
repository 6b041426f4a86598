import BitGrammar.Parser

/-!
# Repetition

Repetitions go on until a part fails. A round that does not move the cursor is kept and is the
last one, so that parsers of empty input do not repeat for ever.

A round that leads back to a position where a round started before would be followed by the same
rounds again. As there are only so many positions, a repetition that makes more rounds than there
are positions never ends, and its outcome is `Outcome.endless`.
-/

namespace BitGrammar

namespace Parser

/-- Repeats a parser for at most the given number of rounds, of which the required ones may not
fail. -/
def repeatWhile (p : Parser) : (rounds required : Nat) → Cursor → Run Items
  | 0, _, _ => Run.endless
  | rounds + 1, required, c => do
    match ← (p c).attempt with
    | .ok m =>
      if m.next.position = c.position then pure (m.consTo ([], m.next))
      else do
        let items ← repeatWhile p rounds (required - 1) m.next
        pure (m.consTo items)
    | .error e => if 0 < required then Run.fail e else pure ([], c)

/-- Matches a parser as often as it goes, but no less than a number of times. -/
def atLeast (required : Nat) (p : Parser) : Parser := fun c => do
  let items ← repeatWhile p (c.positions + 1) required c
  pure items.toMatch

/-- Matches a parser as often as it goes. -/
def many : Parser → Parser := atLeast 0

/-- Matches a parser as often as it goes and at least once. -/
def many1 : Parser → Parser := atLeast 1

/-- Goes on after an item with further ones, each behind a separator, for at most the given number
of rounds. A separator that no item follows is not taken. -/
def furtherItems (item separator : Parser) : (rounds : Nat) → Cursor → Run Items
  | 0, _ => Run.endless
  | rounds + 1, c => do
    match ← (separator c).attempt with
    | .error _ => pure ([], c)
    | .ok between => do
      match ← (item between.next).attempt with
      | .error _ => pure ([], c)
      | .ok m =>
        if m.next.position = c.position then pure (m.consTo ([], m.next))
        else do
          let items ← furtherItems item separator rounds m.next
          pure (m.consTo items)

/-- Matches items with separators between them. Without a first item the match is empty, or fails
when an item is required. -/
def separated (required : Bool) (item separator : Parser) : Parser := fun c => do
  match ← (item c).attempt with
  | .ok m => do
    let items ← furtherItems item separator (m.next.positions + 1) m.next
    pure (m.consTo items).toMatch
  | .error e => if required then Run.fail e else pure (Items.toMatch ([], c))

/-- Matches any number of items with separators between them. -/
def sepBy : Parser → Parser → Parser := separated false

/-- Matches one or more items with separators between them. -/
def sepBy1 : Parser → Parser → Parser := separated true

/-- The space, the tabulators, and the ends of lines and pages. -/
def isBlank (b : UInt8) : Bool :=
  b == 0x20 || b == 0x09 || b == 0x0a || b == 0x0b || b == 0x0c || b == 0x0d

/-- The cursor behind at most the given number of blanks. -/
def skipBlanks : Nat → Cursor → Cursor
  | 0, c => c
  | count + 1, c =>
    match c.readByte with
    | .ok (b, next) => if isBlank b then skipBlanks count next else c
    | .error _ => c

/-- Matches a parser behind any blanks. -/
def whitespace (p : Parser) : Parser := fun c =>
  p (skipBlanks (c.remaining / 8) c)

end Parser

end BitGrammar
