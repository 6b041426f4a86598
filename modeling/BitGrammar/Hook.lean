import BitGrammar.Rule

/-!
# Ready-made functions on values

The functions that grammars most often apply to values: mappings, which make a new value,
properties, which a value can be required to have, and continuations, which read a number or bytes
out of a value to say what comes next in the input. Mappings and properties have names, under
which their calls are recorded.
-/

namespace BitGrammar

/-! ### Mappings -/

/-- The mappings with a name. -/
inductive Mapping where
  | identity
  | upperCase
  | wrap
  | count
  | concat
  | reverse
  | integer
  | userText
  | userNumber
  deriving DecidableEq, Repr, Inhabited

namespace Mapping

/-- All mappings. -/
def all : List Mapping :=
  [.identity, .upperCase, .wrap, .count, .concat, .reverse, .integer, .userText, .userNumber]

/-- The name of a mapping in records. -/
def name : Mapping → String
  | .identity => "identity"
  | .upperCase => "upcase"
  | .wrap => "wrap"
  | .count => "len"
  | .concat => "concat"
  | .reverse => "reverse"
  | .integer => "int"
  | .userText => "user"
  | .userNumber => "user_int"

/-- The mapping of a name. -/
def ofName? (name : String) : Option Mapping :=
  all.find? fun m => m.name == name

/-- A small letter of the ASCII alphabet as a capital, any other byte as it is. -/
def upperByte (b : UInt8) : UInt8 :=
  if 0x61 ≤ b ∧ b ≤ 0x7a then b - 0x20 else b

/-- What a mapping makes of a value. -/
def apply (m : Mapping) (v : Value) : Value :=
  match m, v with
  | .identity, v => v
  | .upperCase, .char b => .char (upperByte b)
  | .upperCase, v => v
  | .wrap, v => .sequence [v]
  | .count, .sequence items => .uint (.ofNat items.length)
  | .count, _ => .absent
  | .concat, .sequence items => .bytes (items.filterMap Value.asChar)
  | .concat, _ => .bytes []
  | .reverse, .sequence items => .sequence items.reverse
  | .reverse, v => v
  | .integer, v => match v.asInt64 with
    | some n => .int n
    | none => .absent
  | .userText, v => .user none (.text v.text)
  | .userNumber, v => .user none (.number (v.asInt64.getD (-1)))

end Mapping

/-! ### Properties -/

/-- The properties with a name. -/
inductive Property where
  | always
  | never
  | even
  | allSame
  | nonempty
  | unit
  | absent
  deriving DecidableEq, Repr, Inhabited

namespace Property

/-- All properties. -/
def all : List Property :=
  [.always, .never, .even, .allSame, .nonempty, .unit, .absent]

/-- The name of a property in records. -/
def name : Property → String
  | .always => "true"
  | .never => "false"
  | .even => "even"
  | .allSame => "all_equal"
  | .nonempty => "nonempty"
  | .unit => "is_unit"
  | .absent => "is_absent"

/-- The property of a name. -/
def ofName? (name : String) : Option Property :=
  all.find? fun p => p.name == name

/-- Each value is the same as the one before it. No mapping here makes copies of a value, so that
neighbours come from runs of their own. -/
def neighboursSame : List Value → Bool
  | v :: w :: rest => v.sameApart w && neighboursSame (w :: rest)
  | _ => true

/-- Whether a value has a property. -/
def holds (p : Property) (v : Value) : Bool :=
  match p, v with
  | .always, _ => true
  | .never, _ => false
  | .even, v => match v.asCount with
    | some n => n % 2 == 0
    | none => false
  | .allSame, .sequence items => neighboursSame items
  | .allSame, _ => false
  | .nonempty, .sequence items => !items.isEmpty
  | .nonempty, _ => false
  | .unit, v => v.isUnit
  | .absent, v => v.isAbsent

/-- Whether a value is a number below a bound. -/
def below (bound : Int) (v : Value) : Bool :=
  match v.asInteger with
  | some n => n < bound
  | none => false

end Property

/-! ### Continuations -/

namespace Continuation

/-- A rule as many times as the value says. -/
def times (rule : Rule) (v : Value) : Option Rule :=
  v.asCount.map fun count => .times rule count

/-- One rule, whatever the value. -/
def always (rule : Rule) (_ : Value) : Option Rule :=
  some rule

/-- The rule beside the first value that is the same. The values beside the rules are given in
advance. -/
def switch (arms : List (Value × Rule)) (v : Value) : Option Rule :=
  (arms.find? fun arm => v.same arm.1).map (·.2)

/-- As many bytes as the value says. -/
def take (v : Value) : Option Rule :=
  v.asCount.map .take

/-- Over as many bits as the value says. -/
def skip (v : Value) : Option Rule :=
  v.asCount.map .skip

/-- An integer without a sign of as many bits as the value says, which is a misuse when they are
too many. -/
def unsigned (v : Value) : Option Rule :=
  v.asCount.map fun width =>
    match Rule.bits? width false with
    | .ok rule => rule
    | .error m => .misuse m

/-- To the position that the value says. -/
def seek (v : Value) : Option Rule :=
  v.asInt64.map fun offset => .seek offset .start

/-- The same byte again. -/
def sameByte (v : Value) : Option Rule :=
  v.asChar.map .byte

/-- The same bytes again. -/
def sameBytes (v : Value) : Option Rule :=
  v.asBytes.map .literal

end Continuation

end BitGrammar
