import BitGrammar.Proofs.BitStream
import BitGrammar.Rule.Parse

/-!
# Records of integers and the inputs that hold them

A `Field` is an integer together with the number of bits it is written in. A list of fields is
parsed by the sequence of its `Field.rule`s. The main statement is that a list of fields which
fills a number of bytes is held by exactly one input of that many bytes, in each of the four
orders of reading, however the fields lie across the bytes.

## What decides the design

Between the fields and the bytes stands the stream of bits. `Carries` says that a stream holds
fields one after another from a position on; it never mentions bytes. Parsing gives the values of
the fields exactly when the stream of the input carries them (`collect_bits`), and a stream that
carries given fields exists (`exists_carries`) and is determined as far as they reach
(`Carries.eq_of_lt`). Only the last step goes back from streams to inputs.

## Main results

* `Field.item_integerOf_eq_iff`: the bits of an integer are determined by its value
* `existsUnique_input`: one input, and only one, parses to given fields
-/

namespace BitGrammar

/-! ### Integers of a number of bits -/

/-- The integers that a number of bits can stand for, in two's complement when signed. No bits at
all stand for zero. -/
def Representable (width : Nat) (signed : Bool) (n : Int) : Prop :=
  if signed then -(2 ^ width : Nat) ≤ 2 * n ∧ 2 * n < (2 ^ width : Nat)
  else 0 ≤ n ∧ n < (2 ^ width : Nat)

instance (width : Nat) (signed : Bool) (n : Int) : Decidable (Representable width signed n) :=
  inferInstanceAs (Decidable (if signed then _ else _))

/-- The integer that bits stand for, given the number that they spell. -/
def integerOf (width : Nat) (signed : Bool) (raw : Nat) : Int :=
  if signed then signExtend width raw else raw

/-- An integer as the value of a match. -/
def integerItem (signed : Bool) (n : Int) : Value :=
  if signed then .int (.ofInt n) else .uint (.ofNat n.toNat)

theorem representable_integerOf {width : Nat} (signed : Bool) {raw : Nat} (h : raw < 2 ^ width) :
    Representable width signed (integerOf width signed raw) := by
  cases signed with
  | false => exact ⟨Int.natCast_nonneg raw, Int.ofNat_lt.mpr h⟩
  | true =>
    simp only [Representable, integerOf, signExtend, if_true, Nat.one_shiftLeft]
    cases width with
    | zero =>
      obtain rfl : raw = 0 := by omega
      decide
    | succ width =>
      rw [Nat.add_sub_cancel]
      rw [Nat.pow_succ] at h ⊢
      generalize 2 ^ width = half at h ⊢
      split <;> omega

/-- Bits that stand for one integer are the same bits. -/
theorem integerOf_inj {width : Nat} {signed : Bool} {raw raw' : Nat} (h : raw < 2 ^ width)
    (h' : raw' < 2 ^ width) (eq : integerOf width signed raw = integerOf width signed raw') :
    raw = raw' := by
  cases signed with
  | false => exact Int.ofNat_inj.mp eq
  | true =>
    simp only [integerOf, signExtend, if_true, Nat.one_shiftLeft] at eq
    generalize 2 ^ width = size at h h' eq
    split at eq <;> split at eq <;> omega

/-- Every representable integer is what some bits stand for. -/
theorem exists_integerOf_eq {width : Nat} {signed : Bool} {n : Int}
    (h : Representable width signed n) : ∃ raw < 2 ^ width, integerOf width signed raw = n := by
  cases signed with
  | false =>
    obtain ⟨nonneg, lt⟩ := h
    exact ⟨n.toNat, by omega, Int.toNat_of_nonneg nonneg⟩
  | true =>
    obtain ⟨lower, upper⟩ := h
    simp only [integerOf, signExtend, if_true, Nat.one_shiftLeft]
    -- without bits the bounds leave only zero, else a bound is twice the lower half
    have half : width = 0 ∧ 2 ^ width = 1 ∨ 2 * 2 ^ (width - 1) = 2 ^ width := by
      cases width with
      | zero => exact Or.inl ⟨rfl, rfl⟩
      | succ width => exact Or.inr (by rw [Nat.add_sub_cancel, Nat.pow_succ, Nat.mul_comm])
    have pos : 0 < 2 ^ (width - 1) := Nat.two_pow_pos _
    generalize 2 ^ width = size at lower upper half ⊢
    generalize 2 ^ (width - 1) = limit at half pos ⊢
    rcases Int.lt_or_le n 0 with neg | nonneg
    · exact ⟨(n + size).toNat, by omega, by rw [if_neg (by omega)]; omega⟩
    · exact ⟨n.toNat, by omega, by rw [if_pos (by omega)]; omega⟩

/-- Integers of up to 64 bits are machine words. -/
theorem Representable.bounds {width : Nat} (fits : width ≤ 64) {signed : Bool} {n : Int}
    (h : Representable width signed n) :
    if signed then -2 ^ 63 ≤ n ∧ n < 2 ^ 63 else 0 ≤ n ∧ n < 2 ^ 64 := by
  have small : 2 ^ width ≤ 2 ^ 64 := Nat.pow_le_pow_right (by decide) fits
  unfold Representable at h
  generalize 2 ^ width = size at small h
  cases signed with
  | false => obtain ⟨lower, upper⟩ := h; exact ⟨lower, by omega⟩
  | true => obtain ⟨lower, upper⟩ := h; exact ⟨by omega, by omega⟩

/-- The value of a match tells which integer of up to 64 bits was read. -/
theorem integerItem_inj {width : Nat} (fits : width ≤ 64) {signed : Bool} {n n' : Int}
    (h : Representable width signed n) (h' : Representable width signed n')
    (eq : integerItem signed n = integerItem signed n') : n = n' := by
  have bounds := h.bounds fits
  have bounds' := h'.bounds fits
  cases signed with
  | false =>
    obtain ⟨⟨lower, upper⟩, lower', upper'⟩ := And.intro bounds bounds'
    have words := congrArg UInt64.toNat (Value.uint.inj eq)
    rw [UInt64.toNat_ofNat_of_lt' (by change n.toNat < 2 ^ 64; omega),
      UInt64.toNat_ofNat_of_lt' (by change n'.toNat < 2 ^ 64; omega)] at words
    omega
  | true =>
    obtain ⟨⟨lower, upper⟩, lower', upper'⟩ := And.intro bounds bounds'
    have words := congrArg Int64.toInt (Value.int.inj eq)
    rwa [Int64.toInt_ofInt_of_le lower upper, Int64.toInt_ofInt_of_le lower' upper'] at words

/-! ### Fields -/

/-- An integer and the bits it is written in. -/
structure Field where
  width : Nat
  signed : Bool
  value : Int
  width_le : width ≤ 64
  representable : Representable width signed value

namespace Field

/-- The rule that reads a field. -/
def rule (f : Field) : Rule := .bits f.width f.signed f.width_le

/-- The value that reading a field yields. -/
def item (f : Field) : Value := integerItem f.signed f.value

/-- The number of bits that fields take together. -/
def totalWidth (fields : List Field) : Nat := (fields.map width).sum

/-- The bits of a field, as the number that they spell. -/
def IsRaw (f : Field) (raw : Nat) : Prop :=
  raw < 2 ^ f.width ∧ integerOf f.width f.signed raw = f.value

theorem exists_isRaw (f : Field) : ∃ raw, f.IsRaw raw := by
  obtain ⟨raw, lt, eq⟩ := exists_integerOf_eq f.representable
  exact ⟨raw, lt, eq⟩

theorem IsRaw.eq {f : Field} {raw raw' : Nat} (h : f.IsRaw raw) (h' : f.IsRaw raw') : raw = raw' :=
  integerOf_inj h.1 h'.1 (h.2.trans h'.2.symm)

/-- Bits read as the item of a field exactly when they are its bits. -/
theorem item_integerOf_eq_iff (f : Field) {raw : Nat} (h : raw < 2 ^ f.width) :
    integerItem f.signed (integerOf f.width f.signed raw) = f.item ↔ f.IsRaw raw := by
  constructor
  · intro eq
    exact ⟨h, integerItem_inj f.width_le (representable_integerOf f.signed h) f.representable eq⟩
  · rintro ⟨-, eq⟩
    rw [eq, item]

/-- A stream of bits holds fields one after another, from a position on. -/
def Carries (order : ReadOrder) (bits : Nat → Bool) : Nat → List Field → Prop
  | _, [] => True
  | position, f :: fields =>
    f.IsRaw (bitsValue ((order.places position f.width).map bits)) ∧
      Carries order bits (position + f.width) fields

theorem totalWidth_cons (f : Field) (fields : List Field) :
    totalWidth (f :: fields) = f.width + totalWidth fields :=
  List.sum_cons

/-- Whether a stream holds fields is a matter of the bits that they take. -/
theorem Carries.congr {order : ReadOrder} {bits bits' : Nat → Bool} :
    ∀ {fields : List Field} {position : Nat}, Carries order bits position fields →
      (∀ i, position ≤ i → i < position + totalWidth fields → bits i = bits' i) →
      Carries order bits' position fields
  | [], _, _, _ => trivial
  | f :: fields, position, ⟨head, tail⟩, same => by
    rw [totalWidth_cons] at same
    refine ⟨?_, tail.congr fun i hi hi' => same i (by omega) (by omega)⟩
    rwa [← bitsValue_places_eq_iff.mpr fun i hi hi' => same i hi (by omega)]

/-- Some stream holds the fields. -/
theorem exists_carries (order : ReadOrder) : ∀ (fields : List Field) (position : Nat),
    ∃ bits : Nat → Bool, Carries order bits position fields
  | [], _ => ⟨fun _ => false, trivial⟩
  | f :: fields, position => by
    obtain ⟨raw, hraw⟩ := f.exists_isRaw
    obtain ⟨head, hhead⟩ := exists_bitsValue_places order position hraw.1
    obtain ⟨tail, htail⟩ := exists_carries order fields (position + f.width)
    refine ⟨fun i => if i < position + f.width then head i else tail i, ?_, htail.congr ?_⟩
    · have same : ∀ i, position ≤ i → i < position + f.width →
          (if i < position + f.width then head i else tail i) = head i :=
        fun i _ hi => if_pos hi
      rwa [bitsValue_places_eq_iff.mpr same, hhead]
    · intro i hi _
      exact (if_neg (Nat.not_lt.mpr hi)).symm

/-- Two streams that hold the same fields agree as far as the fields reach. -/
theorem Carries.eq_of_lt {order : ReadOrder} {bits bits' : Nat → Bool} :
    ∀ {fields : List Field} {position : Nat}, Carries order bits position fields →
      Carries order bits' position fields →
      ∀ i, position ≤ i → i < position + totalWidth fields → bits i = bits' i
  | [], _, _, _ => fun i hi hi' => absurd hi (Nat.not_le.mpr hi')
  | f :: fields, position, ⟨head, tail⟩, ⟨head', tail'⟩ => by
    intro i hi hi'
    rw [totalWidth_cons] at hi'
    rcases Nat.lt_or_ge i (position + f.width) with h | h
    · exact bitsValue_places_eq_iff.mp (head.eq head') i hi h
    · exact tail.eq_of_lt tail' i h (by omega)

/-! ### Parsing fields -/

/-- Where enough bits are left, fields are read one after another; the values are those of the
fields exactly when the stream of the input holds the fields. -/
theorem collect_bits : ∀ (fields : List Field) (c : Cursor), totalWidth fields ≤ c.remaining →
    ∃ items, Parser.collect (fields.map fun f => Parser.bits f.width f.signed) c =
        ⟨[], .ok (items, c.advance (totalWidth fields))⟩ ∧
      (items = fields.map item ↔
        Carries c.order (streamBit c.input c.order.bits) c.position fields)
  | [], c, _ => ⟨[], rfl, by simp [Carries]⟩
  | f :: fields, c, enough => by
    rw [totalWidth_cons] at enough
    have room : totalWidth fields ≤ (c.advance f.width).remaining := by
      change _ ≤ c.size - (c.position + f.width)
      rw [Cursor.remaining] at enough
      omega
    obtain ⟨items, run, held⟩ := collect_bits fields (c.advance f.width) room
    refine ⟨integerItem f.signed (integerOf f.width f.signed (c.peekNat f.width)) :: items, ?_, ?_⟩
    · have read : Parser.bits f.width f.signed c = ⟨[], .ok
          ⟨some (integerItem f.signed (integerOf f.width f.signed (c.peekNat f.width))),
            c.advance f.width⟩⟩ := by
        rw [Parser.bits, Cursor.readInteger, Cursor.readNat_of_le (by omega)]
        cases f.signed <;> rfl
      rw [List.map_cons, Parser.collect, read, Run.bind_ok, run, Run.bind_ok]
      simp [Match.consTo, Cursor.advance_advance, totalWidth_cons]
    · rw [List.map_cons, List.cons.injEq, held, f.item_integerOf_eq_iff (c.peekNat_lt f.width),
        Cursor.peekNat_eq_bitsValue]
      rfl

/-- The input parses to the fields, read one after another from its first bit on, and the parse
ends at the cursor. -/
def ParsesTo (cells : Cells) (order : ReadOrder) (fields : List Field) (input : Array UInt8)
    (finish : Cursor) : Prop :=
  ((Rule.sequence (fields.map rule)).parse cells { input, order }).outcome =
    .ok ⟨some (.sequence (fields.map item)), finish⟩

/-- An input that the fields fill parses to them when its stream holds them. -/
theorem parsesTo_iff {cells : Cells} {order : ReadOrder} {fields : List Field}
    {input : Array UInt8} {finish : Cursor} (fill : totalWidth fields = 8 * input.size) :
    ParsesTo cells order fields input finish ↔
      Carries order (streamBit input order.bits) 0 fields ∧
        finish = { input, position := 8 * input.size, order } := by
  have start : (Cursor.mk input 0 order).remaining = 8 * input.size := Nat.sub_zero _
  obtain ⟨items, run, held⟩ := collect_bits fields { input, order } (by rw [start, fill])
  have parse : (Rule.sequence (fields.map rule)).parse cells { input, order } =
      Parser.sequence (fields.map fun f => Parser.bits f.width f.signed) { input, order } := by
    rw [Rule.parse, Rule.depthBound, Rule.parseWithin, Rule.eval, Rule.evalList_eq_map,
      List.map_map]
    rfl
  rw [ParsesTo, parse, Parser.sequence, run, Run.bind_ok, ← held, fill]
  simp only [Items.toMatch, Cursor.advance, Nat.zero_add, Run.pure_eq, Outcome.ok.injEq,
    Match.mk.injEq, Option.some.injEq, Value.sequence.injEq, eq_comm (a := finish)]

/-- **Fields that fill a number of bytes are held by exactly one input of that many bytes.** In
each order of reading, one input and no other parses to the fields, and the parse goes to its
end. -/
theorem existsUnique_input (cells : Cells) (order : ReadOrder) (fields : List Field) (bytes : Nat)
    (fill : totalWidth fields = 8 * bytes) :
    (∃! input : Array UInt8, input.size = bytes ∧
        ∃ finish, ParsesTo cells order fields input finish) ∧
      ∀ input finish, input.size = bytes → ParsesTo cells order fields input finish →
        finish.atEnd = true := by
  constructor
  · obtain ⟨bits, hbits⟩ := exists_carries order fields 0
    refine ⟨ofStream order.bits bytes bits, ⟨size_ofStream .., ?_⟩, ?_⟩
    · refine ⟨_, (parsesTo_iff (by rw [size_ofStream, fill])).mpr ⟨hbits.congr ?_, rfl⟩⟩
      intro i _ hi
      exact (streamBit_ofStream order.bits bits (by omega)).symm
    · rintro input ⟨size, finish, parses⟩
      have held := ((parsesTo_iff (by rw [size, fill])).mp parses).1
      refine eq_of_streamBit_eq order.bits (by rw [size, size_ofStream]) fun i hi => ?_
      rw [size] at hi
      rw [streamBit_ofStream order.bits bits hi]
      exact held.eq_of_lt hbits i (Nat.zero_le i) (by omega)
  · rintro input finish size parses
    obtain ⟨-, rfl⟩ := (parsesTo_iff (by rw [size, fill])).mp parses
    exact (Cursor.atEnd_iff _).mpr (Nat.le_refl _)

/-- Three fields in two bytes, the second of them negative and across the byte boundary. -/
def threeFields : List Field :=
  [⟨3, false, 5, by decide, by decide⟩, ⟨8, true, -3, Nat.le_add_right 8 56, by decide⟩,
    ⟨5, false, 17, by decide, by decide⟩]

theorem existsUnique_input_threeFields : totalWidth threeFields = 8 * 2 ∧
    ∃! input : Array UInt8, input.size = 2 ∧
      ∃ finish, ParsesTo .empty ⟨.leastFirst, .mostFirst⟩ threeFields input finish :=
  ⟨by decide, (existsUnique_input _ _ _ 2 (by decide)).1⟩

end Field

end BitGrammar
