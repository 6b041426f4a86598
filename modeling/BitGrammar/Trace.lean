import BitGrammar.Failure

/-!
# The trace of a parse

A parse leaves `Record`s of what it tries, in the order in which things happen. They are data;
`Record.message` gives the wording of each.
-/

namespace BitGrammar

/-- The kinds of function that a grammar can hold: one that changes a value, one that tests it,
and one that picks the rule to go on with. -/
inductive HookKind where
  | map
  | predicate
  | continuation
  deriving DecidableEq, Repr, Inhabited

/-- Something that happened during a parse or while a grammar was put together. -/
inductive Record where
  | choiceFailed (index position : Nat) (failure : Failure)
  | repeatStopped (done total : Nat) (failure : Failure)
  | hookCalled (kind : HookKind) (name : String) (v : Value)
  | parseSucceeded (consumed total : Nat)
  | parseFailed (failure : Failure)
  | bound
  deriving Inhabited

/-- How much detail a record is. -/
inductive Level where
  | debug
  | trace
  deriving DecidableEq, Repr, Inhabited

namespace Record

/-- Steps inside a parse are finer detail than its result. -/
def level : Record → Level
  | .choiceFailed .. | .repeatStopped .. | .hookCalled .. => .trace
  | .parseSucceeded .. | .parseFailed .. | .bound => .debug

/-- What happened, in words. -/
def message : Record → String
  | .choiceFailed index position failure =>
    "choice alternative " ++ toString index ++ " failed at bit " ++ toString position ++ ": " ++
      failure.text
  | .repeatStopped done total failure =>
    "repeat_n stopped after " ++ toString done ++ " of " ++ toString total ++ ": " ++ failure.text
  | .hookCalled kind name v =>
    let verb := match kind with
      | .map => "map"
      | .predicate => "predicate"
      | .continuation => "continue"
    verb ++ " " ++ name ++ " " ++ v.text
  | .parseSucceeded consumed total =>
    "parse succeeded, consumed " ++ toString consumed ++ " of " ++ toString total ++ " bits"
  | .parseFailed failure => "parse failed: " ++ failure.text
  | .bound => "bound indirect parser"

/-- A record as one line, with its level in front. -/
def line (r : Record) : String :=
  let level := match r.level with
    | .debug => "DEBUG"
    | .trace => "TRACE"
  level ++ " " ++ r.message

end Record

end BitGrammar
