/-!
# Values of a parse

A successful parse yields a `Value`: raw bytes, a matched byte, a number, a sequence of values, or
data of the caller's own that the parser carries without looking inside.

Equality of values is structural except on the caller's data, which is compared by identity. Data
that is given in advance carries its identity. Data made while parsing carries none, and whether two
such pieces are one is seen from where the values come from: a copy of a value shares all data with
it, and values made apart share none of what was made for them. `Value.same` is the equality of
copies, `Value.sameApart` that of values made apart. Where one side is given in advance there is no
difference (`Value.same_eq_sameApart`).
-/

namespace BitGrammar

/-- Data of the caller's own. -/
inductive Payload where
  | text (s : String)
  | number (n : Int64)
  deriving DecidableEq, Inhabited

/-- What a successful parse yields. `unit` is the value of a match that consumes nothing by
design; `absent` says that an optional part is missing. -/
inductive Value where
  | bytes (data : List UInt8)
  | char (byte : UInt8)
  | int (n : Int64)
  | uint (n : UInt64)
  | sequence (items : List Value)
  | unit
  | absent
  | user (identity : Option Nat) (data : Payload)
  deriving Inhabited

namespace Value

mutual

/-- Equality of values that are copies of one value, or are made apart. -/
def sameWhen (copies : Bool) : Value → Value → Bool
  | .bytes a, .bytes b => a == b
  | .char a, .char b => a == b
  | .int a, .int b => a == b
  | .uint a, .uint b => a == b
  | .sequence as, .sequence bs => sameItemsWhen copies as bs
  | .unit, .unit => true
  | .absent, .absent => true
  | .user (some i) _, .user (some j) _ => i == j
  | .user none a, .user none b => copies && a == b
  | _, _ => false
  termination_by structural v => v

/-- Equality of sequences, item by item. -/
def sameItemsWhen (copies : Bool) : List Value → List Value → Bool
  | [], [] => true
  | a :: as, b :: bs => sameWhen copies a b && sameItemsWhen copies as bs
  | _, _ => false
  termination_by structural vs => vs

end

/-- Equality with a copy, or with a value that is given in advance. -/
def same (v w : Value) : Bool :=
  sameWhen true v w

/-- Equality of values that are made apart, each by a run of its own. -/
def sameApart (v w : Value) : Bool :=
  sameWhen false v w

instance : BEq Value := ⟨same⟩

mutual

/-- A value is the same as its copies, whatever data it carries. -/
theorem same_self : ∀ v : Value, v.same v = true
  | .bytes _ | .char _ | .int _ | .uint _ => by simp [same, sameWhen]
  | .sequence items => by simpa [same, sameWhen] using sameItems_self items
  | .unit | .absent => rfl
  | .user (some _) _ => by simp [same, sameWhen]
  | .user none _ => by simp [same, sameWhen]

theorem sameItems_self : ∀ items : List Value, sameItemsWhen true items items = true
  | [] => rfl
  | v :: items => by
    rw [sameItemsWhen, sameItems_self items, Bool.and_true]
    exact same_self v

end

instance : ReflBEq Value := ⟨same_self _⟩

mutual

/-- All data in a value is given in advance, none of it is made while parsing. -/
def isGiven : Value → Bool
  | .sequence items => areGiven items
  | .user identity _ => identity.isSome
  | _ => true
  termination_by structural v => v

/-- All data in the items is given in advance. -/
def areGiven : List Value → Bool
  | [] => true
  | v :: vs => isGiven v && areGiven vs
  termination_by structural vs => vs

end

mutual

/-- A value that is given in advance is the same as another one however the two are related. -/
theorem same_eq_sameApart : ∀ v w : Value, w.isGiven → v.same w = v.sameApart w
  | .sequence as, w, given => by
    cases w with
    | sequence bs => exact sameItems_eq_sameItemsApart as bs given
    | _ => rfl
  | .user identity _, w, given => by
    cases w with
    | user identity' _ =>
      cases identity' with
      | none => cases given
      | some j => cases identity <;> rfl
    | _ => cases identity <;> rfl
  | .bytes _, w, _ | .char _, w, _ | .int _, w, _ | .uint _, w, _ | .unit, w, _
  | .absent, w, _ => by cases w <;> rfl

theorem sameItems_eq_sameItemsApart : ∀ vs ws : List Value, areGiven ws →
    sameItemsWhen true vs ws = sameItemsWhen false vs ws
  | [], ws, _ => by cases ws <;> rfl
  | _ :: _, [], _ => rfl
  | v :: vs, w :: ws, given => by
    obtain ⟨first, others⟩ := (Bool.and_eq_true _ _).mp given
    have head : sameWhen true v w = sameWhen false v w := same_eq_sameApart v w first
    rw [sameItemsWhen, sameItemsWhen, head, sameItems_eq_sameItemsApart vs ws others]

end

/-- True of the value of a missing optional part. -/
def isAbsent : Value → Bool
  | .absent => true
  | _ => false

/-- True of the value of a match that yields nothing of interest. -/
def isUnit : Value → Bool
  | .unit => true
  | _ => false

/-- The number that a matched byte or an integer stands for. -/
def asInteger : Value → Option Int
  | .char c => some c.toNat
  | .int n => some n.toInt
  | .uint n => some n.toNat
  | _ => none

/-- The number of a value as a count, when it is not negative. -/
def asCount (v : Value) : Option Nat :=
  match v.asInteger with
  | some n => if 0 ≤ n then some n.toNat else none
  | none => none

/-- The number of a value as a signed word, when it is small enough for one. -/
def asInt64 (v : Value) : Option Int64 :=
  match v.asInteger with
  | some n => if n ≤ Int64.maxValue.toInt then some (Int64.ofInt n) else none
  | none => none

/-- The matched byte. -/
def asChar : Value → Option UInt8
  | .char c => some c
  | _ => none

/-- The raw bytes. -/
def asBytes : Value → Option (List UInt8)
  | .bytes data => some data
  | _ => none

/-- The items of a sequence. -/
def asSequence : Value → Option (List Value)
  | .sequence items => some items
  | _ => none

/-- The data of the caller's own. -/
def asUser : Value → Option Payload
  | .user _ data => some data
  | _ => none

mutual

/-- All data of the caller's own inside a value, from left to right. -/
def payloads : Value → List Payload
  | .sequence items => itemPayloads items
  | .user _ data => [data]
  | _ => []
  termination_by structural v => v

/-- All data of the caller's own inside the items, from left to right. -/
def itemPayloads : List Value → List Payload
  | [] => []
  | v :: vs => payloads v ++ itemPayloads vs
  termination_by structural vs => vs

end

end Value

end BitGrammar
