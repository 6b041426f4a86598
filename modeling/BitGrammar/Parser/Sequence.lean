import BitGrammar.Parser

/-!
# One parser after another

Each parser starts where the one before it stopped, and the first failure is the failure of the
whole. A sequence collects the values that are not elided; `left`, `right` and `middle` keep the
value of one part.

A counted repetition asks for room for all of its values before it runs its part, and a count for
which there cannot be room is a misuse of the grammar. Items behind a count that is read from the
input are collected one by one and ask for nothing in advance.
-/

namespace BitGrammar

namespace Parser

/-- Runs parsers in order and collects their values. -/
def collect : List Parser → Cursor → Run Items
  | [], c => pure ([], c)
  | p :: ps, c => do
    let m ← p c
    let items ← collect ps m.next
    pure (m.consTo items)

section Collect

variable {p : Parser} {ps : List Parser} {c : Cursor}

theorem outcome_collect_cons {m : Match} (ps : List Parser) (head : (p c).outcome = .ok m) :
    (collect (p :: ps) c).outcome = (collect ps m.next).outcome.map m.consTo := by
  rw [collect, Run.outcome_bind_ok head]
  generalize collect ps m.next = x
  obtain ⟨t, o⟩ := x
  cases o <;> rfl

theorem outcome_collect_failed {e : Failure} (head : (p c).outcome = .failed e) :
    (collect (p :: ps) c).outcome = .failed e := by
  rw [collect, Run.outcome_bind_failed head]

end Collect

/-- Matches parsers in order. -/
def sequence (ps : List Parser) : Parser := fun c => do
  let items ← collect ps c
  pure items.toMatch

theorem sequence_eq (ps : List Parser) (c : Cursor) :
    sequence ps c = Items.toMatch <$> collect ps c :=
  bind_pure_comp _ _

/-- Matches two parsers in order and keeps the first value. -/
def left (keep drop : Parser) : Parser := fun c => do
  let kept ← keep c
  let dropped ← drop kept.next
  pure ⟨kept.value, dropped.next⟩

/-- Matches two parsers in order and keeps the second value. -/
def right (drop keep : Parser) : Parser := fun c => do
  let dropped ← drop c
  keep dropped.next

/-- Matches three parsers in order and keeps the value in the middle. -/
def middle (opening content closing : Parser) : Parser := fun c => do
  let opened ← opening c
  let kept ← content opened.next
  let closed ← closing kept.next
  pure ⟨kept.value, closed.next⟩

/-- Matches a parser and elides its value. -/
def ignore (p : Parser) : Parser := fun c => do
  let m ← p c
  pure ⟨none, m.next⟩

/-- Runs a parser a number of times more, out of a total that the record of a failure names. -/
def collectTimes (p : Parser) (total : Nat) : Nat → Cursor → Run Items
  | 0, c => pure ([], c)
  | left + 1, c => do
    let m ← (p c).recordFailure (.repeatStopped (total - (left + 1)) total)
    let items ← collectTimes p total left m.next
    pure (m.consTo items)

/-- Matches a parser exactly a number of times, without asking for room. A failure leaves a record
of how far it came. -/
def exactly (p : Parser) (count : Nat) : Parser := fun c => do
  let items ← collectTimes p count count c
  pure items.toMatch

/-- The least number of values for which no room can be asked. A value takes 32 bytes, and what is
asked for at once has to take fewer than `2 ^ 63`. Whether there is memory for a smaller number is
not decided by the grammar. -/
def capacity : Nat := 1 <<< 58

/-- Matches a parser exactly a number of times, if there can be room for as many values. To ask for
more is a misuse, whatever the parser would do. -/
def times (p : Parser) (count : Nat) : Parser := fun c =>
  if count < capacity then exactly p count c else Run.misuse .capacityOverflow

section Times

variable {p : Parser} {count : Nat} {c : Cursor}

theorem times_of_lt (p : Parser) (room : count < capacity) : times p count = exactly p count :=
  funext fun _ => if_pos room

theorem times_of_le (p : Parser) (noRoom : capacity ≤ count) :
    times p count = fun _ => Run.misuse .capacityOverflow :=
  funext fun _ => if_neg (Nat.not_lt.mpr noRoom)

theorem lt_capacity_of_times_ok {m : Match} (h : (times p count c).outcome = .ok m) :
    count < capacity := by
  rcases Nat.lt_or_ge count capacity with room | noRoom
  · exact room
  · rw [times_of_le p noRoom] at h
    cases h

end Times

/-- Runs a parser a number of times and collects the values. -/
def collectCounted (p : Parser) : Nat → Cursor → Run Items
  | 0, c => pure ([], c)
  | count + 1, c => do
    let m ← p c
    let items ← collectCounted p count m.next
    pure (m.consTo items)

/-- Matches a count and then a parser that many times. The first parser must yield a number that
is not negative. -/
def lengthValue (length p : Parser) : Parser := fun c => do
  let m ← length c
  match m.value.bind Value.asCount with
  | some count => do
    let items ← collectCounted p count m.next
    pure items.toMatch
  | none => Run.misuse .lengthNotCount

end Parser

end BitGrammar
