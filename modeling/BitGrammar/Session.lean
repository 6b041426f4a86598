import BitGrammar.Rule.Parse

/-!
# Sessions

A `Session` is the work of somebody who builds a grammar step by step: names are given to cells
and to rules, cells are bound, and rules are run in between. A name given again stands for the new
thing from then on; rules built earlier keep the old one.

A rule that is given a name is one node from then on, and every use of the name is that very node.
All other rules are nodes of their own, so two of them are never the same node, however alike.
-/

namespace BitGrammar

/-- A rule, and the node it is if it is one that can be met again. -/
structure Handle where
  rule : Rule
  node : Option Nat := none
  deriving Inhabited

/-- Whether two handles are the same node. -/
def Handle.sameNode (a b : Handle) : Bool :=
  match a.node, b.node with
  | some i, some j => i == j
  | _, _ => false

/-- What a name can stand for. -/
inductive Named where
  | cell (cell : Cell)
  | rule (handle : Handle)
  deriving Inhabited

/-- The cells, the number of nodes that can be met again, and the names, the latest first. -/
structure Session where
  cells : Cells := {}
  nodes : Nat := 0
  names : List (String × Named) := []
  deriving Inhabited

/-- A step of a session. `bind` gives back a misuse, `bindStrictly` stops at it. -/
inductive Command where
  | declare (name : String)
  | alias (name existing : String)
  | define (name : String) (handle : Handle)
  | bind (name : String) (rule : Rule)
  | bindStrictly (name : String) (rule : Rule)
  | isBound (name : String)
  | describe (name : String)
  | sameNode (first second : Handle)
  | run (rule : Rule) (input : Array UInt8)
  | parse (rule : Rule) (input : Array UInt8)
  deriving Inhabited

/-- What a step answers. -/
inductive Reply where
  | done
  | refused (misuse : Misuse)
  | stopped (misuse : Misuse)
  | truth (b : Bool)
  | words (text : String)
  | matched (outcome : Outcome Match)
  | parsed (outcome : Outcome Value)
  deriving Inhabited

namespace Session

/-- What a name stands for. -/
def find? (s : Session) (name : String) : Option Named :=
  s.names.lookup name

/-- The cell of a name. -/
def cell? (s : Session) (name : String) : Option Cell :=
  match s.find? name with
  | some (.cell cell) => some cell
  | _ => none

/-- The rule of a name. The name of a cell gives a reference to it, a new one each time. -/
def handle? (s : Session) (name : String) : Option Handle :=
  match s.find? name with
  | some (.cell cell) => some { rule := .ref cell }
  | some (.rule handle) => some handle
  | none => none

/-- Gives a name a meaning. -/
def assign (s : Session) (name : String) (meaning : Named) : Session :=
  { s with names := (name, meaning) :: s.names }

/-- Gives a name to a new cell. -/
def declare (s : Session) (name : String) : Session :=
  let (cell, cells) := s.cells.alloc
  { s with cells }.assign name (.cell cell)

/-- Gives a name to a rule, which is a node that can be met again from then on. -/
def define (s : Session) (name : String) (handle : Handle) : Session :=
  match handle.node with
  | some _ => s.assign name (.rule handle)
  | none =>
    { s with nodes := s.nodes + 1 }.assign name (.rule { handle with node := some s.nodes })

/-- Binds the cell of a name. -/
def bind (s : Session) (cell : Cell) (rule : Rule) : Except Misuse Session :=
  match s.cells.bind cell rule with
  | .ok cells => .ok { s with cells }
  | .error m => .error m

/-- The state of a cell, for diagnostics. -/
def describe (s : Session) (cell : Cell) : String :=
  "Indirect \x7b bound: " ++ (if s.cells.isBound cell then "true" else "false") ++ " \x7d"

/-- Takes a step: the answer, the records that it leaves, and the session after it. There is none
when a name does not stand for what the step needs. -/
def perform (s : Session) : Command → Option (Reply × List Record × Session)
  | .declare name => some (.done, [], s.declare name)
  | .alias name existing => do
    let cell ← s.cell? existing
    return (.done, [], s.assign name (.cell cell))
  | .define name handle => some (.done, [], s.define name handle)
  | .bind name rule => do
    let cell ← s.cell? name
    match s.bind cell rule with
    | .ok next => return (.done, [.bound], next)
    | .error m => return (.refused m, [], s)
  | .bindStrictly name rule => do
    let cell ← s.cell? name
    match s.bind cell rule with
    | .ok next => return (.done, [.bound], next)
    | .error m => return (.stopped m, [], s)
  | .isBound name => do
    let cell ← s.cell? name
    return (.truth (s.cells.isBound cell), [], s)
  | .describe name => do
    let cell ← s.cell? name
    return (.words (s.describe cell), [], s)
  | .sameNode first second => some (.truth (first.sameNode second), [], s)
  | .run rule input =>
    let run := rule.parse s.cells { input }
    some (.matched run.outcome, run.trace, s)
  | .parse rule input =>
    let run := rule.parseInput s.cells input
    some (.parsed run.outcome, run.trace, s)

end Session

end BitGrammar
