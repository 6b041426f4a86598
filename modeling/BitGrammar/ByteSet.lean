/-!
# Sets of bytes

A `ByteSet` holds one bit for each of the 256 bytes. Membership after each operation is given by
`contains_insert`, `contains_complement` and `contains_ofList`.
-/

namespace BitGrammar

/-- A set of bytes, one bit for each. -/
structure ByteSet where
  bits : BitVec 256
  deriving DecidableEq

namespace ByteSet

/-- The set without members. -/
def empty : ByteSet := ⟨0#256⟩

/-- The set of all bytes. -/
def full : ByteSet := ⟨BitVec.allOnes 256⟩

instance : Inhabited ByteSet := ⟨empty⟩

/-- Membership. -/
def contains (s : ByteSet) (b : UInt8) : Bool :=
  s.bits.getLsbD b.toNat

/-- The set with one more byte. -/
def insert (s : ByteSet) (b : UInt8) : ByteSet :=
  ⟨s.bits ||| BitVec.twoPow 256 b.toNat⟩

/-- The bytes that are not in the set. -/
def complement (s : ByteSet) : ByteSet :=
  ⟨~~~s.bits⟩

/-- The set of the bytes of a list. -/
def ofList (bytes : List UInt8) : ByteSet :=
  bytes.foldl insert empty

/-- The members in ascending order. -/
def members (s : ByteSet) : List UInt8 :=
  (List.range 256).map UInt8.ofNat |>.filter s.contains

/-- The set as four words of 64 bits, the bytes below 64 in the first. -/
def words (s : ByteSet) : List Nat :=
  (List.range 4).map fun i => (s.bits.extractLsb' (64 * i) 64).toNat

/-- The set with its words written out, for diagnostics. -/
def dump (s : ByteSet) : String :=
  "Charset([" ++ ", ".intercalate (s.words.map toString) ++ "])"

@[simp] theorem contains_empty (b : UInt8) : empty.contains b = false := by
  simp [contains, empty]

@[simp] theorem contains_full (b : UInt8) : full.contains b = true := by
  rw [contains, full, BitVec.getLsbD_allOnes, decide_eq_true b.toNat_lt]

@[simp] theorem contains_insert (s : ByteSet) (a b : UInt8) :
    (s.insert a).contains b = (s.contains b || a == b) := by
  have hb := b.toNat_lt
  simp only [contains, insert, BitVec.getLsbD_or, BitVec.getLsbD_twoPow]
  by_cases h : a = b
  · simp [h, hb]
  · have : a.toNat ≠ b.toNat := fun h' => h (UInt8.toNat_inj.mp h')
    simp [h, this]

@[simp] theorem contains_complement (s : ByteSet) (b : UInt8) :
    s.complement.contains b = !s.contains b := by
  simp [contains, complement, b.toNat_lt]

theorem contains_foldl_insert (s : ByteSet) (bytes : List UInt8) (b : UInt8) :
    (bytes.foldl insert s).contains b = (s.contains b || bytes.contains b) := by
  induction bytes generalizing s with
  | nil => simp
  | cons a as ih =>
    simp only [List.foldl_cons, ih, contains_insert, List.contains_cons, Bool.or_assoc]
    rw [show (a == b) = (b == a) from BEq.comm]

@[simp] theorem contains_ofList (bytes : List UInt8) (b : UInt8) :
    (ofList bytes).contains b = bytes.contains b := by
  simp [ofList, contains_foldl_insert]

end ByteSet

end BitGrammar
