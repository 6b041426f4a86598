import BitGrammar.Parser.Choice
import BitGrammar.Parser.Lookahead
import BitGrammar.Parser.Permutation
import BitGrammar.Parser.Primitive
import BitGrammar.Parser.Repeat
import BitGrammar.Parser.Sequence
import BitGrammar.Parser.Transform

/-!
# Rules

A `Rule` is a grammar as data. Its meaning, `Rule.eval`, is the parser built from the parsers of
its parts; the meaning of a reference to a cell is left open there, as cells are filled later and
may lead back to the rule itself.

Rules hold functions on values. One of them, the continuation of `andThen`, makes further rules
from what has been parsed.

The main facts are that `eval` goes through lists of rules one by one (`evalList_eq_map`) and
through the results of a continuation (`evalOption_eq_map`).
-/

namespace BitGrammar

/-- A place for a rule that is written after it is referred to. -/
structure Cell where
  index : Nat
  deriving DecidableEq, Repr, Inhabited

/-- A grammar. Widths of integers are at most 64 bits, and ranges of integers are not empty. -/
inductive Rule where
  | byte (expected : UInt8)
  | byteRange (lower upper : UInt8)
  | byteIn (set : ByteSet)
  | literal (bytes : List UInt8)
  | take (count : Nat)
  | bits (width : Nat) (signed : Bool) (fits : width ≤ 64)
  | skip (count : Nat)
  | tell
  | seek (offset : Int64) (anchor : Anchor)
  | epsilon
  | nothing
  | finish
  | sequence (rules : List Rule)
  | choice (rules : List Rule)
  | permutation (rules : List Rule)
  | left (keep drop : Rule)
  | right (drop keep : Rule)
  | middle (opening content closing : Rule)
  | ignore (rule : Rule)
  | optional (rule : Rule)
  | followedBy (rule : Rule)
  | notFollowedBy (rule : Rule)
  | butNot (rule other : Rule)
  | difference (rule other : Rule)
  | exclusiveOr (first second : Rule)
  | many (rule : Rule)
  | many1 (rule : Rule)
  | times (rule : Rule) (count : Nat)
  | sepBy (item separator : Rule)
  | sepBy1 (item separator : Rule)
  | lengthValue (length rule : Rule)
  | whitespace (rule : Rule)
  | withOrder (order : ReadOrder) (rule : Rule)
  | map (name : Option String) (f : Value → Value) (rule : Rule)
  | filter (name : Option String) (accept : Value → Bool) (rule : Rule)
  | andThen (name : Option String) (continuation : Value → Option Rule) (rule : Rule)
  | inRange (lower upper : Int64) (nonempty : lower ≤ upper) (rule : Rule)
  | ref (cell : Cell)
  | misuse (what : Misuse)

instance : Inhabited Rule := ⟨.epsilon⟩

namespace Rule

/-! ### Meaning -/

mutual

/-- The parser that a rule stands for, given the parsers that cells stand for. -/
def eval (call : Cell → Parser) : Rule → Parser
  | .byte expected => Parser.byte expected
  | .byteRange lower upper => Parser.byteRange lower upper
  | .byteIn set => Parser.byteIn set
  | .literal bytes => Parser.literal bytes
  | .take count => Parser.take count
  | .bits width signed _ => Parser.bits width signed
  | .skip count => Parser.skip count
  | .tell => Parser.tell
  | .seek offset anchor => Parser.seek offset anchor
  | .epsilon => Parser.epsilon
  | .nothing => Parser.nothing
  | .finish => Parser.finish
  | .sequence rules => Parser.sequence (evalList call rules)
  | .choice rules => Parser.choice (evalList call rules)
  | .permutation rules => Parser.permutation (evalList call rules)
  | .left keep drop => Parser.left (eval call keep) (eval call drop)
  | .right drop keep => Parser.right (eval call drop) (eval call keep)
  | .middle opening content closing =>
    Parser.middle (eval call opening) (eval call content) (eval call closing)
  | .ignore rule => Parser.ignore (eval call rule)
  | .optional rule => Parser.optional (eval call rule)
  | .followedBy rule => Parser.followedBy (eval call rule)
  | .notFollowedBy rule => Parser.notFollowedBy (eval call rule)
  | .butNot rule other => Parser.butNot (eval call rule) (eval call other)
  | .difference rule other => Parser.difference (eval call rule) (eval call other)
  | .exclusiveOr first second => Parser.exclusiveOr (eval call first) (eval call second)
  | .many rule => Parser.many (eval call rule)
  | .many1 rule => Parser.many1 (eval call rule)
  | .times rule count => Parser.times (eval call rule) count
  | .sepBy item separator => Parser.sepBy (eval call item) (eval call separator)
  | .sepBy1 item separator => Parser.sepBy1 (eval call item) (eval call separator)
  | .lengthValue length rule => Parser.lengthValue (eval call length) (eval call rule)
  | .whitespace rule => Parser.whitespace (eval call rule)
  | .withOrder order rule => Parser.withOrder order (eval call rule)
  | .map name f rule => Parser.map name f (eval call rule)
  | .filter name accept rule => Parser.filter name accept (eval call rule)
  | .andThen name continuation rule =>
    Parser.andThen name (fun v => evalOption call (continuation v)) (eval call rule)
  | .inRange lower upper _ rule => Parser.inRange lower upper (eval call rule)
  | .ref cell => call cell
  | .misuse what => fun _ => Run.misuse what
  termination_by structural rule => rule

/-- The parsers that the rules of a list stand for. -/
def evalList (call : Cell → Parser) : List Rule → List Parser
  | [] => []
  | rule :: rules => eval call rule :: evalList call rules
  termination_by structural rules => rules

/-- The parser that a rule stands for, if there is one. -/
def evalOption (call : Cell → Parser) : Option Rule → Option Parser
  | none => none
  | some rule => some (eval call rule)
  termination_by structural rule => rule

end

@[simp] theorem evalList_eq_map (call : Cell → Parser) (rules : List Rule) :
    evalList call rules = rules.map (eval call) := by
  induction rules with
  | nil => rfl
  | cons rule rules ih => rw [evalList, ih, List.map_cons]

@[simp] theorem evalOption_eq_map (call : Cell → Parser) (rule : Option Rule) :
    evalOption call rule = rule.map (eval call) := by
  cases rule <;> rfl

/-! ### Constructors that can be misused -/

/-- An integer of a number of bits, of which there must be no more than 64. -/
def bits? (width : Nat) (signed : Bool) : Except Misuse Rule :=
  if fits : width ≤ 64 then .ok (.bits width signed fits) else .error (.bitWidth width)

/-- A rule whose number lies between two bounds, which must not exclude every number. -/
def inRange? (lower upper : Int64) (rule : Rule) : Except Misuse Rule :=
  if nonempty : lower ≤ upper then .ok (.inRange lower upper nonempty rule)
  else .error (.emptyRange lower upper)

/-! ### Integers of usual widths -/

/-- A signed integer of 8 bits. -/
def int8 : Rule := .bits 8 true (by decide)

/-- A signed integer of 16 bits. -/
def int16 : Rule := .bits 16 true (by decide)

/-- A signed integer of 32 bits. -/
def int32 : Rule := .bits 32 true (by decide)

/-- A signed integer of 64 bits. -/
def int64 : Rule := .bits 64 true (by decide)

/-- An integer of 8 bits without a sign. -/
def uint8 : Rule := .bits 8 false (by decide)

/-- An integer of 16 bits without a sign. -/
def uint16 : Rule := .bits 16 false (by decide)

/-- An integer of 32 bits without a sign. -/
def uint32 : Rule := .bits 32 false (by decide)

/-- An integer of 64 bits without a sign. -/
def uint64 : Rule := .bits 64 false (by decide)

/-! ### Bytes in sets -/

/-- One of the given bytes. -/
def oneOf (bytes : List UInt8) : Rule := .byteIn (.ofList bytes)

/-- Any byte but the given ones. -/
def noneOf (bytes : List UInt8) : Rule := .byteIn (ByteSet.ofList bytes).complement

/-- Any byte. -/
def anyByte : Rule := .byteIn .full

end Rule

end BitGrammar
