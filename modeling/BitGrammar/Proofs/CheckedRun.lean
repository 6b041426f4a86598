import BitGrammar.Proofs.CheckedRead

/-!
# Running with checked arithmetic

`Interpretation.checked` runs a grammar with the checked reads, and has every part of the grammar
check that the cursor it is given and the cursor it returns have a position and a number of
remaining bits. When a check does not succeed, the run ends in a fault.

## What decides the design

A fault is a misuse of any kind behind any trace. As nothing in a grammar absorbs a misuse, a run
that is the same whatever the fault is has not met one. The main result is this: checked runs from
well-formed cursors are the runs themselves, for every fault, so that on the way no byte outside of
the input is looked at, no difference becomes negative, and no number outgrows a word that the
size of the input fits into.

## Main definitions

* `Interpretation.checked`: a grammar with all its reads and cursors checked

## Main results

* `Rule.parse_wellFormed_checked`: well-formed cursors lead to well-formed cursors, without a fault
-/

namespace BitGrammar

/-! ### Checked leaves -/

namespace Parser

variable (width : Nat)

/-- `Parser.test`, checked. -/
def test? (accept : UInt8 → Bool) (why : UInt8 → Mismatch) (c : Cursor) : Option (Run Match) := do
  match ← c.readByte? width with
  | .ok (b, next) =>
    return if accept b then .pure ⟨some (.char b), next⟩ else .fail (c.mismatch (why b))
  | .error e => return .fail e

/-- `Parser.matchLiteral`, checked. -/
def matchLiteral? (literal : List UInt8) (index : Nat) (c : Cursor) :
    List UInt8 → Option (Except Failure Cursor)
  | [] => some (.ok c)
  | expected :: rest => do
    match ← c.readByte? width with
    | .ok (found, next) =>
      if found = expected then matchLiteral? literal (index + 1) next rest
      else return .error (c.mismatch (.literalByte expected found index literal))
    | .error e => return .error e

/-- `Parser.finish`, checked. -/
def finish? (c : Cursor) : Option (Run Match) := do
  if c.atEnd then return .pure ⟨some .unit, c⟩
  else return .fail (c.mismatch (.inputLeft (← c.remaining? width)))

/-- `Parser.skipBlanks`, checked. -/
def skipBlanks? : Nat → Cursor → Option Cursor
  | 0, c => some c
  | count + 1, c => do
    match ← c.readByte? width with
    | .ok (b, next) => if isBlank b then skipBlanks? count next else return c
    | .error _ => return c

/-- The leaves of a grammar, checked. -/
def leaf? (rule : Rule) (c : Cursor) : Option (Run Match) :=
  match rule with
  | .byte expected => test? width (· == expected) (.byte expected) c
  | .byteRange lower upper =>
    test? width (fun b => lower ≤ b && b ≤ upper) (.byteOutside lower upper) c
  | .byteIn set => test? width set.contains .byteNotInSet c
  | .literal bytes =>
    (matchLiteral? width bytes 0 c bytes).map (.ofRead (fun _ => some (.bytes bytes)) id)
  | .take count => (c.readBytes? width count).map (.ofRead (fun r => some (.bytes r.1)) Prod.snd)
  | .bits count signed _ =>
    (c.readInteger? width count signed).map (.ofRead (fun r => some r.1) Prod.snd)
  | .skip count => (c.skip? width count).map (.ofRead (fun _ => none) id)
  | .tell => (c.position? width).map fun position => .pure ⟨some (positionValue position), c⟩
  | .seek offset anchor =>
    (c.seekFrom? width offset anchor).map
      (.ofRead (fun next => some (positionValue next.position)) id)
  | .finish => finish? width c
  | rule => some (Interpretation.plain.leaf rule c)

variable {width} {c : Cursor} (h : c.WellFormed) (fits : c.size < 2 ^ width)

include h fits in
theorem test?_eq (accept : UInt8 → Bool) (why : UInt8 → Mismatch) :
    test? width accept why c = some (test accept why c) := by
  rw [test?, Cursor.readByte?_eq h fits, test]
  cases c.readByte <;> rfl

include h fits in
theorem matchLiteral?_eq (literal : List UInt8) (index : Nat) (rest : List UInt8) :
    matchLiteral? width literal index c rest = some (matchLiteral literal index c rest) := by
  induction rest generalizing c index with
  | nil => rfl
  | cons expected rest ih =>
    have hread := (h.within (Nat.zero_le _)).readByte
    rw [matchLiteral?, Cursor.readByte?_eq h fits, matchLiteral]
    cases hr : c.readByte with
    | ok r =>
      rw [hr] at hread
      have hsize : r.2.size < 2 ^ width := by
        rw [Cursor.size, hread.1.input_eq]
        exact fits
      simp only [Option.bind_eq_bind, Option.bind_some]
      rw [ih hread.1.wellFormed hsize]
      split <;> rfl
    | error e => rfl

include h fits in
theorem finish?_eq : finish? width c = some (finish c) := by
  rw [finish?, Cursor.remaining?_eq h fits, finish]
  split <;> rfl

include h fits in
theorem skipBlanks?_eq (count : Nat) : skipBlanks? width count c = some (skipBlanks count c) := by
  induction count generalizing c with
  | zero => rfl
  | succ count ih =>
    have hread := (h.within (Nat.zero_le _)).readByte
    rw [skipBlanks?, Cursor.readByte?_eq h fits, skipBlanks]
    cases hr : c.readByte with
    | ok r =>
      rw [hr] at hread
      have hsize : r.2.size < 2 ^ width := by
        rw [Cursor.size, hread.1.input_eq]
        exact fits
      simp only [Option.bind_eq_bind, Option.bind_some]
      rw [ih hread.1.wellFormed hsize]
      split <;> rfl
    | error e => rfl

include h fits in
theorem leaf?_eq (positive : 0 < width) {rule : Rule} (leaf : rule.isLeaf) :
    leaf? width rule c = some (Interpretation.plain.leaf rule c) := by
  cases rule with
  | byte expected => exact test?_eq h fits _ _
  | byteRange lower upper => exact test?_eq h fits _ _
  | byteIn set => exact test?_eq h fits _ _
  | literal bytes =>
    rw [leaf?, matchLiteral?_eq h fits]
    exact congrArg some (literal_eq bytes c).symm
  | take count =>
    rw [leaf?, Cursor.readBytes?_eq h fits positive]
    exact congrArg some (take_eq count c).symm
  | bits count signed _ =>
    rw [leaf?, Cursor.readInteger?_eq h fits]
    exact congrArg some (bits_eq count signed c).symm
  | skip count =>
    rw [leaf?, Cursor.skip?_eq h fits]
    exact congrArg some (skip_eq count c).symm
  | tell =>
    rw [leaf?, Cursor.position?_eq h fits]
    rfl
  | seek offset anchor =>
    rw [leaf?, Cursor.seekFrom?_eq h fits]
    exact congrArg some (seek_eq offset anchor c).symm
  | finish => exact finish?_eq h fits
  | epsilon => rfl
  | nothing => rfl
  | _ => cases leaf

end Parser

/-! ### Checked grammars -/

namespace Interpretation

/-- Every read is checked, and so are the cursors before and behind every part. -/
def checked (width : Nat) (fault : List Record × Misuse) : Interpretation where
  leaf rule c := (Parser.leaf? width rule c).getD ⟨fault.1, .misused fault.2⟩
  blanks c :=
    match Parser.skipBlanks? width (c.remaining / 8) c with
    | some next => Pure.pure next
    | none => ⟨fault.1, .misused fault.2⟩
  node p c :=
    match c.remaining? width with
    | some _ => do
      let m ← p c
      match m.next.remaining? width with
      | some _ => Pure.pure m
      | none => ⟨fault.1, .misused fault.2⟩
    | none => ⟨fault.1, .misused fault.2⟩

theorem fits_of_within {width : Nat} {input : Array UInt8} {c : Cursor} (h : c.Within input 0)
    (fits : 8 * input.size < 2 ^ width) : c.size < 2 ^ width := by
  rw [Cursor.size, h.input_eq]
  exact fits

/-- As long as cursors stay within an input whose size fits into a word, checks make no
difference. -/
theorem comparable_checked {width : Nat} (fault : List Record × Misuse) {input : Array UInt8}
    (fits : 8 * input.size < 2 ^ width) :
    Comparable ((Invariant.within input 0).same False) (checked width fault) plain where
  values := trivial
  node := by
    rintro p q hpq c _ ⟨rfl, hc⟩
    have checks : ∀ {d : Cursor}, d.Within input 0 → d.remaining? width = some d.remaining :=
      fun hd => Cursor.remaining?_eq hd.wellFormed (fits_of_within hd fits)
    rw [show plain.node q c = q c >>= Pure.pure from (bind_pure _).symm]
    dsimp only [checked]
    rw [checks hc]
    refine (hpq ⟨rfl, hc⟩).bind fun m n hmn => ?_
    rw [checks hmn.next.cursor.2]
    exact .pure hmn
  blanks := by
    rintro c _ ⟨rfl, hc⟩
    obtain ⟨hb, horder⟩ := hc.skipBlanks (c.remaining / 8)
    dsimp only [checked]
    rw [Parser.skipBlanks?_eq hc.wellFormed (fits_of_within hc fits)]
    exact .pure (Invariant.follows hb horder)
  reorder := Invariant.reorder_within
  sameOrder := Invariant.sameOrder

/-- **Checked runs are runs.** From a cursor within an input whose size fits into a word, no check
of a read or of a cursor meets a fault. -/
theorem parseWithin_checked {width : Nat} (positive : 0 < width) (fault : List Record × Misuse)
    (cells : Cells) (depth : Nat) (rule : Rule) {c : Cursor} (h : c.WellFormed)
    (fits : c.size < 2 ^ width) :
    (checked width fault).parseWithin cells depth rule c = rule.parseWithin cells depth c := by
  have related : ((Invariant.within c.input 0).same False).Related
      ((checked width fault).parseWithin cells depth rule) (rule.parseWithin cells depth) := by
    rw [← plain_parseWithin]
    refine (comparable_checked fault fits).parseWithin_related (.refl _ cells)
      ⟨Nat.le_refl depth, .inr rfl⟩ fun inner _ hleaf => ?_
    refine Invariant.related_same fun d hd => ⟨?_, hd.keptBy_leaf hleaf (.inl rfl)⟩
    dsimp only [checked]
    rw [Parser.leaf?_eq hd.wellFormed (fits_of_within hd fits) positive hleaf]
    rfl
  exact (Invariant.eq_and_kept related (h.within (Nat.zero_le _))).1

end Interpretation

namespace Rule

/-- **Well-formed cursors lead to well-formed cursors, without a fault.** A match ends on the same
input, in the same order of reading and not past the end; a failure lies on the same input and not
past its end; and all the arithmetic on the way is that of words, if the size of the input is
one. -/
theorem parse_wellFormed_checked (cells : Cells) (rule : Rule) (c : Cursor) (h : c.WellFormed) :
    (∀ m, (rule.parse cells c).outcome = .ok m →
      m.next.input = c.input ∧ m.next.order = c.order ∧ m.next.WellFormed) ∧
    (∀ e, (rule.parse cells c).outcome = .failed e →
      e.location.input = c.input ∧ e.position ≤ c.size) ∧
    ∀ width, 0 < width → c.size < 2 ^ width → ∀ fault,
      (Interpretation.checked width fault).parseWithin cells (depthBound cells c) rule c =
        rule.parse cells c := by
  have kept := keptBy_parseWithin cells (depthBound cells c) rule (h.within (Nat.zero_le _))
    (.inl rfl)
  refine ⟨fun m hm => ?_, fun e he => ?_, fun width positive fits fault => ?_⟩
  · rw [parse] at hm
    rw [Invariant.KeptBy, hm] at kept
    exact ⟨kept.1.input_eq, kept.2, kept.1.wellFormed⟩
  · rw [parse] at he
    rw [Invariant.KeptBy, he] at kept
    exact ⟨kept.input_eq, kept.position_le⟩
  · exact Interpretation.parseWithin_checked positive fault cells _ rule h fits

/-- A field of three bits in two bytes, read from the last bit of the first byte. -/
theorem parse_wellFormed_checked_threeBits :
    (⟨#[1, 128], 7, {}⟩ : Cursor).WellFormed ∧
      (∀ fault, (Interpretation.checked 64 fault).parseWithin .empty
          (depthBound .empty ⟨#[1, 128], 7, {}⟩) (.bits 3 false (by decide)) ⟨#[1, 128], 7, {}⟩ =
        Rule.parse .empty (.bits 3 false (by decide)) ⟨#[1, 128], 7, {}⟩) := by
  have h : (⟨#[1, 128], 7, {}⟩ : Cursor).WellFormed := by
    show 7 ≤ 8 * 2
    decide
  refine ⟨h, ?_⟩
  exact (parse_wellFormed_checked .empty (.bits 3 false (by decide)) _ h).2.2 64 (by decide)
    (by decide)

end Rule

end BitGrammar
