import BitGrammar.Proofs.Bounds

/-!
# The order of reading

A parser is given an order of reading with its cursor and gives it back behind its match, as does
every read. So running a parser in an order of its own is the same as running every one of its
parts in that order: what a part leaves behind is what the next part would be given anyway.

## What decides the design

The two sides are compared in a simulation in which the cursors on the left have the inner order
and those on the right the outer one. A parser on the left corresponds to the same parser on the
right once it is run in the inner order there, provided that it gives the order back. Parsers built
from corresponding parts correspond, which is the law for all of them at once.

References stand for arbitrary parsers that give back the order, so that the law does not depend on
what the parts of a grammar are. It does not hold of `Parser.whitespace`, which reads blanks in the
order that is around it.

## Main definitions

* `Parser.KeepsOrder`: every match leaves the order of reading as it was
* `Simulation.onInput`: two runs at the same positions of one input
* `Simulation.reordered`: the same run in two orders of reading
* `Rule.spreadOrder`: an order of reading given to all parts of a rule

## Main results

* `Rule.eval_keepsOrder`: grammars give back the order of reading
* `Rule.withOrder_eq_spreadOrder`: an order for the whole is an order for all parts
-/

namespace BitGrammar

/-! ### Reads -/

namespace Cursor

/-- A read ends in the order of reading that it started in, if it ends. -/
def KeepsOrder {α : Type} (c : Cursor) (next : α → Cursor) (r : Except Failure α) : Prop :=
  ∀ a, r = .ok a → (next a).order = c.order

theorem keepsOrder_skip (c : Cursor) (n : Nat) : c.KeepsOrder id (c.skip n) := by
  intro next h
  rw [skip] at h
  split at h
  · cases h
  · cases h
    rfl

theorem keepsOrder_readNat (c : Cursor) (n : Nat) : c.KeepsOrder Prod.snd (c.readNat n) := by
  intro r h
  rw [readNat] at h
  split at h
  · cases h
  · cases h
    rfl

theorem keepsOrder_readInteger (c : Cursor) (n : Nat) (signed : Bool) :
    c.KeepsOrder Prod.snd (c.readInteger n signed) := by
  intro r h
  rw [readInteger] at h
  split at h
  · cases h
    exact c.keepsOrder_readNat n _ ‹_›
  · cases h

theorem keepsOrder_readByte (c : Cursor) : c.KeepsOrder Prod.snd c.readByte := by
  intro r h
  rw [readByte] at h
  split at h
  · cases h
    exact c.keepsOrder_readNat 8 _ ‹_›
  · cases h

theorem keepsOrder_readBytesSlowly (c : Cursor) (count : Nat) :
    c.KeepsOrder Prod.snd (c.readBytesSlowly count) := by
  induction count generalizing c with
  | zero =>
    intro r h
    cases h
    rfl
  | succ count ih =>
    intro r h
    rw [readBytesSlowly] at h
    split at h
    · rename_i b next hbyte
      split at h
      · rename_i bs finish hrest
        cases h
        exact (ih next (bs, finish) hrest).trans (c.keepsOrder_readByte _ hbyte)
      · cases h
    · cases h

theorem keepsOrder_readBytes (c : Cursor) (count : Nat) :
    c.KeepsOrder Prod.snd (c.readBytes count) := by
  intro r h
  rw [readBytes] at h
  split at h
  · cases h
  · split at h
    · cases h
      rfl
    · exact c.keepsOrder_readBytesSlowly count r h

theorem keepsOrder_seek (c : Cursor) (position : Nat) : c.KeepsOrder id (c.seek position) := by
  intro next h
  rw [seek] at h
  split at h
  · cases h
  · cases h
    rfl

theorem keepsOrder_seekFrom (c : Cursor) (offset : Int64) (anchor : Anchor) :
    c.KeepsOrder id (c.seekFrom offset anchor) := by
  intro next h
  rw [seekFrom_eq] at h
  split at h
  · cases h
  · exact c.keepsOrder_seek _ next h

theorem keepsOrder_matchLiteral (c : Cursor) (literal : List UInt8) (index : Nat)
    (rest : List UInt8) : c.KeepsOrder id (Parser.matchLiteral literal index c rest) := by
  induction rest generalizing c index with
  | nil =>
    intro next h
    cases h
    rfl
  | cons expected rest ih =>
    intro next h
    rw [Parser.matchLiteral] at h
    split at h
    · split at h
      · exact (ih _ _ next h).trans (c.keepsOrder_readByte _ ‹_›)
      · cases h
    · cases h

theorem order_skipBlanks (c : Cursor) (count : Nat) :
    (Parser.skipBlanks count c).order = c.order := by
  induction count generalizing c with
  | zero => rfl
  | succ count ih =>
    rw [Parser.skipBlanks]
    split
    · split
      · exact (ih _).trans (c.keepsOrder_readByte _ ‹_›)
      · rfl
    · rfl

end Cursor

/-! ### Parsers -/

/-- Every match leaves the order of reading as it was. -/
def Parser.KeepsOrder (p : Parser) : Prop :=
  ∀ c m, (p c).outcome = .ok m → m.next.order = c.order

namespace Parser

variable {p : Parser} {c : Cursor}

theorem KeepsOrder.keptBy (h : p.KeepsOrder) (c : Cursor) : Invariant.none.KeptBy c (p c) := by
  rw [Invariant.KeptBy]
  split
  · exact ⟨trivial, h c _ ‹_›⟩
  all_goals trivial

theorem keepsOrder_of_eq_ofRead {α : Type} {value : α → Option Value} {next : α → Cursor}
    {read : Cursor → Except Failure α} (h : ∀ c : Cursor, c.KeepsOrder next (read c))
    (hp : ∀ c, p c = .ofRead value next (read c)) : p.KeepsOrder := by
  intro c m hm
  rw [hp] at hm
  cases hr : read c with
  | ok a =>
    rw [hr] at hm
    cases hm
    exact h c a hr
  | error e =>
    rw [hr] at hm
    cases hm

theorem keepsOrder_test (accept : UInt8 → Bool) (why : UInt8 → Mismatch) :
    (test accept why).KeepsOrder := by
  intro c m hm
  obtain ⟨b, next, head, -, rfl⟩ := outcome_test_eq_ok_iff.mp hm
  exact c.keepsOrder_readByte _ head

theorem keepsOrder_finish : finish.KeepsOrder := by
  intro c m hm
  rw [finish] at hm
  split at hm
  · cases hm
    rfl
  · cases hm

/-- The leaves of a grammar give back the order of reading. -/
theorem keepsOrder_leaf {rule : Rule} (leaf : rule.isLeaf) :
    (Interpretation.plain.leaf rule).KeepsOrder := by
  cases rule with
  | byte expected => exact keepsOrder_test _ _
  | byteRange lower upper => exact keepsOrder_test _ _
  | byteIn set => exact keepsOrder_test _ _
  | literal bytes =>
    exact keepsOrder_of_eq_ofRead (fun c => c.keepsOrder_matchLiteral bytes 0 bytes)
      (literal_eq bytes)
  | take count =>
    exact keepsOrder_of_eq_ofRead (fun c => c.keepsOrder_readBytes count) (take_eq count)
  | bits width signed fits =>
    exact keepsOrder_of_eq_ofRead (fun c => c.keepsOrder_readInteger width signed)
      (bits_eq width signed)
  | skip count =>
    exact keepsOrder_of_eq_ofRead (fun c => c.keepsOrder_skip count) (skip_eq count)
  | seek offset anchor =>
    exact keepsOrder_of_eq_ofRead (fun c => c.keepsOrder_seekFrom offset anchor)
      (seek_eq offset anchor)
  | tell | epsilon =>
    rintro c m ⟨⟩
    rfl
  | nothing => rintro c m ⟨⟩
  | finish => exact keepsOrder_finish
  | _ => cases leaf

end Parser

/-! ### Grammars -/

namespace Rule

/-- Nothing else is asked of plain runs than to give back the order of reading. -/
theorem comparable_order :
    Interpretation.Comparable (Invariant.none.same False) .plain .plain :=
  .plain (fun {c} _ n => ⟨trivial, c.order_skipBlanks n⟩) fun _ _ => trivial

theorem related_of_keepsOrder {p : Parser} (h : p.KeepsOrder) :
    (Invariant.none.same False).Related p p :=
  Invariant.related_same fun c _ => ⟨rfl, h.keptBy c⟩

/-- **Grammars give back the order of reading**, whatever references stand for, if only that
does. -/
theorem eval_keepsOrder {call : Cell → Parser} (hcall : ∀ cell, (call cell).KeepsOrder)
    (rule : Rule) : (rule.eval call).KeepsOrder := by
  have related : (Invariant.none.same False).Related (rule.eval call) (rule.eval call) := by
    rw [← Interpretation.plain_eval]
    exact comparable_order.eval_related fun inner _ =>
      ⟨fun hleaf => related_of_keepsOrder (Parser.keepsOrder_leaf hleaf),
        fun cell _ => related_of_keepsOrder (hcall cell)⟩
  intro c m hm
  have kept := (Invariant.eq_and_kept related (c := c) trivial).2
  rw [Invariant.KeptBy, hm] at kept
  exact kept.2

theorem entry_keepsOrder (cells : Cells) (depth : Nat) (cell : Cell) :
    (Interpretation.plain.entry cells depth cell).KeepsOrder := by
  induction depth generalizing cell with
  | zero => rintro c m ⟨⟩
  | succ depth ih =>
    rw [Interpretation.entry, Interpretation.callWith]
    cases cells.target? cell with
    | some target =>
      dsimp only
      rw [Interpretation.parseWithin_eq_eval, Interpretation.plain_eval]
      exact eval_keepsOrder ih target
    | none => rintro c m ⟨⟩

end Rule

/-! ### The same run in two orders -/

/-- Two runs on one input, with cursors at the same positions. Failures are equal, and so is what is
seen of the traces. -/
def Simulation.onInput (cursor : Cursor → Cursor → Prop) (seen : List Record → List Record)
    (values : Prop) (place : ∀ {c d}, cursor c d → c.input = d.input ∧ c.position = d.position)
    (append : ∀ t u, seen (t ++ u) = seen t ++ seen u) : Simulation where
  cursor := cursor
  failure e f := e = f
  trace t u := seen t = seen u
  values := values
  misuse _ := False
  endless := False
  limit := none
  distance h h' := by rw [(place h).2, (place h').2]
  positions h := by
    rw [Cursor.positions, Cursor.positions, Cursor.size, Cursor.size, (place h).1]
    exact .inl ⟨Nat.le_refl _, .inr rfl⟩
  position_le_limit _ _ h := nomatch h
  rejection h r := by
    rw [Cursor.rejection, Cursor.rejection, Cursor.location, Cursor.location, (place h).1,
      (place h).2]
  furthest h h' := by rw [h, h']
  trace_nil := rfl
  trace_append h h' := by rw [append, append, h, h']
  trace_choiceFailed h h' index := by rw [(place h).2, h']
  trace_repeatStopped h done total := by rw [h]
  trace_hookCalled _ _ _ := rfl

/-- Cursors in an inner order on the left, and in an outer one on the right. All else is the
same. -/
def Simulation.reordered (inner outer : ReadOrder) : Simulation :=
  .onInput (fun c d => c = d.withOrder inner ∧ d.order = outer) id True
    (by rintro c d ⟨rfl, -⟩; exact ⟨rfl, rfl⟩) fun _ _ => rfl

namespace Simulation

variable {inner outer : ReadOrder} {p q : Parser}

/-- A cursor in the outer order as it is behind a run in the inner one. -/
theorem follows_reordered {c d c' : Cursor} (hcd : (reordered inner outer).cursor c d)
    (order : c'.order = inner) :
    (reordered inner outer).Follows c d c' (c'.withOrder outer) := by
  obtain ⟨rfl, hd⟩ := hcd
  refine ⟨⟨?_, rfl⟩, order, hd.symm, nofun⟩
  rw [← order]
  rfl

/-- A parser in the inner order is the same parser run in that order. -/
theorem related_withOrder (h : p.KeepsOrder) :
    (reordered inner outer).Related p (Parser.withOrder inner p) := by
  intro c d hcd
  obtain ⟨rfl, hd⟩ := id hcd
  have kept := h (d.withOrder inner)
  rw [Parser.withOrder, hd]
  generalize p (d.withOrder inner) = x at kept
  obtain ⟨t, o⟩ := x
  cases o with
  | ok m =>
    exact .ok (List.append_nil t).symm ⟨fun _ => rfl, follows_reordered hcd (kept m rfl)⟩
  | failed e => exact .failed rfl rfl
  | misused m => exact .misused rfl
  | endless => exact .endless rfl

/-- A parser with an order of its own is the same in any order. -/
theorem related_withOrder_self (order : ReadOrder) :
    (reordered inner outer).Related (Parser.withOrder order p) (Parser.withOrder order p) := by
  rintro c d ⟨rfl, rfl⟩
  rw [Parser.withOrder, Parser.withOrder, show (d.withOrder inner).withOrder order =
    d.withOrder order from rfl]
  generalize p (d.withOrder order) = x
  obtain ⟨t, o⟩ := x
  cases o with
  | ok m => exact .ok rfl ⟨fun _ => rfl, ⟨rfl, rfl⟩, rfl, rfl, nofun⟩
  | failed e => exact .failed rfl rfl
  | misused m => exact .misused rfl
  | endless => exact .endless rfl

/-- Runs that correspond are one run once the inner order is taken back. -/
theorem withOrder_eq_of_related (h : ∀ outer, (reordered inner outer).Related p q) :
    Parser.withOrder inner p = q := by
  funext d
  have hpq := h d.order (c := d.withOrder inner) (d := d) ⟨rfl, rfl⟩
  rw [Parser.withOrder]
  generalize p (d.withOrder inner) = x, q d = y at hpq
  cases hpq with
  | @ok t u m n trace result =>
    obtain rfl : t = u := trace
    obtain ⟨hvalue, ⟨hnext, horder⟩, -⟩ := result
    obtain ⟨value, next⟩ := n
    obtain rfl : m.value = value := hvalue trivial
    have hback : m.next.withOrder d.order = next := by
      rw [hnext, ← horder]
      rfl
    rw [Run.bind_ok, hback, Run.pure_eq, List.append_nil]
  | @failed t u e f trace failure =>
    obtain rfl : t = u := trace
    obtain rfl : e = f := failure
    rfl
  | @misused t u m trace =>
    obtain rfl : t = u := trace
    rfl
  | @endless t u trace =>
    obtain rfl : t = u := trace
    rfl
  | ofMisuse free => exact free.elim
  | ofEndless free => exact free.elim

end Simulation

/-! ### An order for all parts -/

namespace Rule

/-- An order of reading given to all parts of a rule. A part that has an order of its own keeps
that. Where there are no parts, or the rule itself reads, the order is given to the whole. -/
def spreadOrder (order : ReadOrder) : Rule → Rule
  | .sequence rules => .sequence (rules.map (.withOrder order))
  | .choice rules => .choice (rules.map (.withOrder order))
  | .permutation rules => .permutation (rules.map (.withOrder order))
  | .left keep drop => .left (.withOrder order keep) (.withOrder order drop)
  | .right drop keep => .right (.withOrder order drop) (.withOrder order keep)
  | .middle opening content closing =>
    .middle (.withOrder order opening) (.withOrder order content) (.withOrder order closing)
  | .ignore rule => .ignore (.withOrder order rule)
  | .optional rule => .optional (.withOrder order rule)
  | .followedBy rule => .followedBy (.withOrder order rule)
  | .notFollowedBy rule => .notFollowedBy (.withOrder order rule)
  | .butNot rule other => .butNot (.withOrder order rule) (.withOrder order other)
  | .difference rule other => .difference (.withOrder order rule) (.withOrder order other)
  | .exclusiveOr first second => .exclusiveOr (.withOrder order first) (.withOrder order second)
  | .many rule => .many (.withOrder order rule)
  | .many1 rule => .many1 (.withOrder order rule)
  | .times rule count => .times (.withOrder order rule) count
  | .sepBy item separator => .sepBy (.withOrder order item) (.withOrder order separator)
  | .sepBy1 item separator => .sepBy1 (.withOrder order item) (.withOrder order separator)
  | .lengthValue length rule => .lengthValue (.withOrder order length) (.withOrder order rule)
  | .map name f rule => .map name f (.withOrder order rule)
  | .filter name accept rule => .filter name accept (.withOrder order rule)
  | .andThen name continuation rule =>
    .andThen name (fun v => (continuation v).map (.withOrder order)) (.withOrder order rule)
  | .inRange lower upper nonempty rule => .inRange lower upper nonempty (.withOrder order rule)
  | .withOrder inner rule => .withOrder inner rule
  | rule => .withOrder order rule

open Simulation in
/-- A rule in the inner order corresponds to the same rule with that order given to its parts. -/
theorem related_spreadOrder {call : Cell → Parser} (hcall : ∀ cell, (call cell).KeepsOrder)
    (inner outer : ReadOrder) (rule : Rule) :
    (reordered inner outer).Related (rule.eval call) ((rule.spreadOrder inner).eval call) := by
  have part : ∀ rule : Rule,
      (reordered inner outer).Related (rule.eval call) ((Rule.withOrder inner rule).eval call) :=
    fun rule => related_withOrder (eval_keepsOrder hcall rule)
  have list : ∀ rules : List Rule, List.Forall₂ (reordered inner outer).Related
      (evalList call rules) (evalList call (rules.map (.withOrder inner))) := by
    intro rules
    rw [evalList_eq_map, evalList_eq_map, List.map_map]
    exact Interpretation.forall₂_map fun rule _ => part rule
  cases rule with
  | sequence rules => exact .sequence (list rules)
  | choice rules => exact .choice (list rules)
  | permutation rules => exact .permutation (list rules)
  | left keep drop => exact .left (part keep) (part drop)
  | right drop keep => exact .right (part drop) (part keep)
  | middle opening content closing =>
    exact .middle (part opening) (part content) (part closing)
  | ignore rule => exact .ignore (part rule)
  | optional rule => exact .optional (part rule)
  | followedBy rule => exact .followedBy (part rule)
  | notFollowedBy rule => exact .notFollowedBy (part rule)
  | butNot rule other => exact .butNot (part rule) (part other)
  | difference rule other => exact .difference (part rule) (part other)
  | exclusiveOr first second => exact .exclusiveOr (part first) (part second)
  | many rule => exact .many (part rule)
  | many1 rule => exact .many1 (part rule)
  | times rule count => exact .times (part rule) count
  | sepBy item separator => exact .sepBy (part item) (part separator)
  | sepBy1 item separator => exact .sepBy1 (part item) (part separator)
  | lengthValue length rule => exact .lengthValue trivial (part length) (part rule)
  | map name f rule => exact .map trivial name f (part rule)
  | filter name accept rule => exact .filter trivial name accept (part rule)
  | andThen name continuation rule =>
    refine .andThen trivial name (fun v => ?_) (part rule)
    rw [evalOption_eq_map, evalOption_eq_map]
    dsimp only
    cases continuation v with
    | none => exact .none
    | some next => exact .some (part next)
  | inRange lower upper nonempty rule => exact .inRange trivial lower upper (part rule)
  | withOrder order rule => exact related_withOrder_self order
  | _ => exact part _

theorem parseWithin_eq_eval (cells : Cells) (depth : Nat) (rule : Rule) :
    rule.parseWithin cells depth = rule.eval (Interpretation.plain.entry cells depth) := by
  rw [← Interpretation.plain_parseWithin, Interpretation.parseWithin_eq_eval,
    Interpretation.plain_eval]

/-- Giving an order to a rule runs it in that order and puts the order around it back. -/
theorem parse_withOrder (cells : Cells) (order : ReadOrder) (rule : Rule) :
    (Rule.withOrder order rule).parse cells = Parser.withOrder order (rule.parse cells) :=
  rfl

theorem parseValue_withOrder (cells : Cells) (order : ReadOrder) (rule : Rule)
    (input : Array UInt8) : (Rule.withOrder order rule).parseValue cells { input } =
      rule.parseValue cells { input, order } := by
  rw [parseValue, parseValue, parse_withOrder, Parser.withOrder]
  have hcursor : (⟨input, 0, {}⟩ : Cursor).withOrder order = ⟨input, 0, order⟩ := rfl
  rw [hcursor]
  generalize rule.parse cells ⟨input, 0, order⟩ = x
  obtain ⟨t, o⟩ := x
  cases o with
  | ok m =>
    rw [Run.bind_ok, Run.pure_eq, List.append_nil]
    rfl
  | failed e => rfl
  | misused m => rfl
  | endless => rfl

/-- **An order for the whole is an order for all parts.** -/
theorem withOrder_eq_spreadOrder (order : ReadOrder) :
    (∀ call : Cell → Parser, (∀ cell, (call cell).KeepsOrder) → ∀ rule : Rule,
      (Rule.withOrder order rule).eval call = (rule.spreadOrder order).eval call) ∧
    (∀ (cells : Cells) (rule : Rule),
      (Rule.withOrder order rule).parse cells = (rule.spreadOrder order).parse cells) ∧
    ∀ (cells : Cells) (rule : Rule) (input : Array UInt8),
      rule.parseInput? cells input order = (Rule.withOrder order rule).parseInput? cells input := by
  have spread : ∀ call : Cell → Parser, (∀ cell, (call cell).KeepsOrder) → ∀ rule : Rule,
      (Rule.withOrder order rule).eval call = (rule.spreadOrder order).eval call :=
    fun call hcall rule =>
      Simulation.withOrder_eq_of_related fun outer => related_spreadOrder hcall order outer rule
  refine ⟨spread, fun cells rule => ?_, fun cells rule input => ?_⟩
  · funext c
    rw [parse, parse, parseWithin_eq_eval, parseWithin_eq_eval,
      spread _ (fun cell => entry_keepsOrder cells _ cell)]
  · rw [parseInput?, parseInput?, parseValue_withOrder]

/-- Words of two bytes, the least byte first, and bytes that a parser of its own takes. -/
theorem withOrder_eq_spreadOrder_words :
    (∀ cell : Cell, ((fun _ => Parser.take 1) cell : Parser).KeepsOrder) ∧
      (Rule.withOrder ⟨.leastFirst, .leastFirst⟩ (.many (.ref ⟨0⟩))).eval (fun _ => Parser.take 1) =
        (Rule.many (.withOrder ⟨.leastFirst, .leastFirst⟩ (.ref ⟨0⟩))).eval
          (fun _ => Parser.take 1) ∧
      ((Rule.sequence [.withOrder ⟨.leastFirst, .leastFirst⟩ uint16,
          .withOrder ⟨.leastFirst, .leastFirst⟩ uint16]).parse .empty
            ⟨#[1, 2, 3, 4], 0, {}⟩).outcome =
        .ok ⟨some (.sequence [.uint 0x0201, .uint 0x0403]), ⟨#[1, 2, 3, 4], 32, {}⟩⟩ := by
  have keeps : ∀ cell : Cell, ((fun _ => Parser.take 1) cell : Parser).KeepsOrder :=
    fun _ => Parser.keepsOrder_of_eq_ofRead (fun c => c.keepsOrder_readBytes 1) (Parser.take_eq 1)
  obtain ⟨custom, grammar, -⟩ := withOrder_eq_spreadOrder ⟨.leastFirst, .leastFirst⟩
  refine ⟨keeps, custom _ keeps (.many (.ref ⟨0⟩)), ?_⟩
  have hspread := congrFun (grammar .empty (.sequence [uint16, uint16])) ⟨#[1, 2, 3, 4], 0, {}⟩
  exact (congrArg Run.outcome hspread).symm.trans rfl

end Rule

end BitGrammar
