import BitGrammar.Proofs.Simulation.Parsers
import BitGrammar.Rule.Induction
import BitGrammar.Rule.Parse
import Mathlib.Logic.Relation

/-!
# Interpretations of rules

What a rule does is fixed by what its leaves do to the input; the parsers with parts only pass
cursors on. An `Interpretation` takes this literally. It says what the leaves of a grammar do, how
blanks are gone over, and what happens around the run of every part, and everything else is as in
`Rule.eval`. Runs can be watched that way: a leaf may do more checks, and every part may look at
the cursors that it is given and that it returns.

## What decides the design

`Interpretation.eval` repeats the shape of `Rule.eval` so that a watched run and the run itself
are the meaning of one and the same rule. `Interpretation.parseWithin_related` then compares any
two interpretations in any simulation, over two stores of cells and with two bounds on the depth.
Its hypotheses speak of what the grammar reaches, as properties of grammars mostly forbid certain
leaves. The comparison of a run with itself in another simulation is the case of twice
`Interpretation.plain`.

## Main definitions

* `Rule.HasPart`, `Rule.Contains`: the rules inside a rule
* `Cells.Reaches`: the rules inside a rule and inside the targets of its references
* `Interpretation.eval`, `Interpretation.parseWithin`

## Main results

* `Interpretation.plain_parseWithin`: the plain interpretation is the meaning of rules
* `Interpretation.parseWithin_related`: related leaves make related grammars
-/

namespace BitGrammar

/-! ### Parts of rules -/

namespace Rule

/-- The rules that a rule is put together from. The rules that a continuation can make count; the
rule that a cell is bound to does not. -/
def HasPart (whole part : Rule) : Prop :=
  match whole with
  | .sequence rules | .choice rules | .permutation rules => part ∈ rules
  | .left first second | .right first second | .butNot first second | .difference first second
  | .exclusiveOr first second | .sepBy first second | .sepBy1 first second
  | .lengthValue first second => part = first ∨ part = second
  | .middle opening content closing => part = opening ∨ part = content ∨ part = closing
  | .ignore rule | .optional rule | .followedBy rule | .notFollowedBy rule | .many rule
  | .many1 rule | .times rule _ | .whitespace rule | .withOrder _ rule | .map _ _ rule
  | .filter _ _ rule | .inRange _ _ _ rule => part = rule
  | .andThen _ continuation rule => part = rule ∨ ∃ v, continuation v = some part
  | _ => False

/-- The second rule is the first one or lies within it. -/
def Contains : Rule → Rule → Prop :=
  Relation.ReflTransGen HasPart

/-- True of the rules that have no parts and are no references. They alone read the input. -/
def isLeaf : Rule → Bool
  | .byte .. | .byteRange .. | .byteIn .. | .literal .. | .take .. | .bits .. | .skip .. | .tell
  | .seek .. | .epsilon | .nothing | .finish => true
  | _ => false

theorem contains_self (rule : Rule) : Contains rule rule := .refl

theorem Contains.of_part {whole part inner : Rule} (h : HasPart whole part)
    (h' : Contains part inner) : Contains whole inner :=
  .head h h'

end Rule

namespace Cells

/-- One step further into a grammar: to a part, or from a reference to its target. -/
def Leads (cells : Cells) (rule next : Rule) : Prop :=
  rule.HasPart next ∨ ∃ cell, rule = .ref cell ∧ cells.target? cell = some next

/-- The rules that the run of a rule can come to. -/
def Reaches (cells : Cells) : Rule → Rule → Prop :=
  Relation.ReflTransGen cells.Leads

variable {cells : Cells} {rule inner target : Rule}

theorem Reaches.of_contains (h : rule.Contains inner) : cells.Reaches rule inner :=
  Relation.ReflTransGen.mono (fun _ _ => .inl) _ _ h

theorem Reaches.of_target {cell : Cell} (h : rule.Contains (.ref cell))
    (ht : cells.target? cell = some target) (h' : cells.Reaches target inner) :
    cells.Reaches rule inner :=
  (Reaches.of_contains h).trans (.head (.inr ⟨cell, rfl, ht⟩) h')

end Cells

/-! ### Interpretations -/

/-- What the leaves of a grammar do, how blanks are gone over, and what happens around the run of
every part. -/
structure Interpretation where
  leaf : Rule → Parser
  blanks : Cursor → Run Cursor
  node : Parser → Parser

namespace Interpretation

/-- Matches a parser behind any blanks. -/
def whitespace (I : Interpretation) (p : Parser) : Parser := fun c => do
  let c ← I.blanks c
  p c

mutual

/-- The parser that a rule stands for under an interpretation. -/
def eval (I : Interpretation) (call : Cell → Parser) : Rule → Parser
  | .sequence rules => I.node (Parser.sequence (evalList I call rules))
  | .choice rules => I.node (Parser.choice (evalList I call rules))
  | .permutation rules => I.node (Parser.permutation (evalList I call rules))
  | .left keep drop => I.node (Parser.left (eval I call keep) (eval I call drop))
  | .right drop keep => I.node (Parser.right (eval I call drop) (eval I call keep))
  | .middle opening content closing =>
    I.node (Parser.middle (eval I call opening) (eval I call content) (eval I call closing))
  | .ignore rule => I.node (Parser.ignore (eval I call rule))
  | .optional rule => I.node (Parser.optional (eval I call rule))
  | .followedBy rule => I.node (Parser.followedBy (eval I call rule))
  | .notFollowedBy rule => I.node (Parser.notFollowedBy (eval I call rule))
  | .butNot rule other => I.node (Parser.butNot (eval I call rule) (eval I call other))
  | .difference rule other => I.node (Parser.difference (eval I call rule) (eval I call other))
  | .exclusiveOr first second =>
    I.node (Parser.exclusiveOr (eval I call first) (eval I call second))
  | .many rule => I.node (Parser.many (eval I call rule))
  | .many1 rule => I.node (Parser.many1 (eval I call rule))
  | .times rule count => I.node (Parser.times (eval I call rule) count)
  | .sepBy item separator => I.node (Parser.sepBy (eval I call item) (eval I call separator))
  | .sepBy1 item separator => I.node (Parser.sepBy1 (eval I call item) (eval I call separator))
  | .lengthValue length rule =>
    I.node (Parser.lengthValue (eval I call length) (eval I call rule))
  | .whitespace rule => I.node (I.whitespace (eval I call rule))
  | .withOrder order rule => I.node (Parser.withOrder order (eval I call rule))
  | .map name f rule => I.node (Parser.map name f (eval I call rule))
  | .filter name accept rule => I.node (Parser.filter name accept (eval I call rule))
  | .andThen name continuation rule =>
    I.node (Parser.andThen name (fun v => evalOption I call (continuation v)) (eval I call rule))
  | .inRange lower upper _ rule => I.node (Parser.inRange lower upper (eval I call rule))
  | .ref cell => I.node (call cell)
  | .misuse what => I.node fun _ => Run.misuse what
  | rule => I.node (I.leaf rule)
  termination_by structural rule => rule

/-- The parsers that the rules of a list stand for. -/
def evalList (I : Interpretation) (call : Cell → Parser) : List Rule → List Parser
  | [] => []
  | rule :: rules => eval I call rule :: evalList I call rules
  termination_by structural rules => rules

/-- The parser that a rule stands for, if there is one. -/
def evalOption (I : Interpretation) (call : Cell → Parser) : Option Rule → Option Parser
  | none => none
  | some rule => some (eval I call rule)
  termination_by structural rule => rule

end

/-- The parser that a reference stands for, given what becomes of the target of its cell. -/
def callWith (cells : Cells) (enter : Rule → Parser) (cell : Cell) : Parser :=
  match cells.target? cell with
  | some target => enter target
  | none => fun _ => Run.misuse .unbound

/-- Runs a rule under an interpretation with at most the given number of nested entries into
cells. -/
def parseWithin (I : Interpretation) (cells : Cells) : (depth : Nat) → Rule → Parser
  | 0 => I.eval fun _ _ => Run.endless
  | depth + 1 => I.eval (callWith cells (I.parseWithin cells depth))

@[simp] theorem evalList_eq_map (I : Interpretation) (call : Cell → Parser) (rules : List Rule) :
    evalList I call rules = rules.map (eval I call) := by
  induction rules with
  | nil => rfl
  | cons rule rules ih => rw [evalList, ih, List.map_cons]

@[simp] theorem evalOption_eq_map (I : Interpretation) (call : Cell → Parser)
    (rule : Option Rule) : evalOption I call rule = rule.map (eval I call) := by
  cases rule <;> rfl

/-- What a reference stands for when at most the given number of nested entries into cells is
left. -/
def entry (I : Interpretation) (cells : Cells) : (depth : Nat) → Cell → Parser
  | 0 => fun _ _ => Run.endless
  | depth + 1 => callWith cells (I.parseWithin cells depth)

theorem parseWithin_eq_eval (I : Interpretation) (cells : Cells) (depth : Nat) :
    I.parseWithin cells depth = I.eval (I.entry cells depth) := by
  cases depth <;> rfl

theorem eval_leaf (I : Interpretation) (call : Cell → Parser) {rule : Rule} (h : rule.isLeaf) :
    I.eval call rule = I.node (I.leaf rule) := by
  cases rule <;> first | rfl | cases h

/-! ### The plain interpretation -/

/-- Leaves do what they do, blanks are gone over, and nothing else happens. -/
def plain : Interpretation where
  leaf rule := rule.eval fun _ _ => Run.endless
  blanks c := Pure.pure (Parser.skipBlanks (c.remaining / 8) c)
  node p := p

theorem plain_eval (call : Cell → Parser) (rule : Rule) :
    plain.eval call rule = rule.eval call := by
  induction rule with
  | sequence rules ih | choice rules ih | permutation rules ih =>
    simp only [eval, Rule.eval, evalList_eq_map, Rule.evalList_eq_map, List.map_congr_left ih]
    rfl
  | andThen name continuation rule ihk ih =>
    have hk : ∀ v, (continuation v).map (plain.eval call) = (continuation v).map (Rule.eval call) :=
      fun v => Option.map_congr fun next hnext => ihk v next hnext
    simp only [eval, Rule.eval, evalOption_eq_map, Rule.evalOption_eq_map, ih, hk]
    rfl
  | left _ _ ih ih' | right _ _ ih ih' | butNot _ _ ih ih' | difference _ _ ih ih'
  | exclusiveOr _ _ ih ih' | sepBy _ _ ih ih' | sepBy1 _ _ ih ih' | lengthValue _ _ ih ih' =>
    simp only [eval, Rule.eval, ih, ih']
    rfl
  | middle _ _ _ ih ih' ih'' =>
    simp only [eval, Rule.eval, ih, ih', ih'']
    rfl
  | ignore _ ih | optional _ ih | followedBy _ ih | notFollowedBy _ ih | many _ ih | many1 _ ih
  | times _ _ ih | whitespace _ ih | withOrder _ _ ih | map _ _ _ ih | filter _ _ _ ih
  | inRange _ _ _ _ ih =>
    simp only [eval, Rule.eval, ih]
    rfl
  | _ => rfl

theorem plain_leaf (call : Cell → Parser) {rule : Rule} (h : rule.isLeaf) :
    plain.leaf rule = rule.eval call := by
  rw [← plain_eval]
  exact (plain.eval_leaf call h).symm

theorem plain_parseWithin (cells : Cells) (depth : Nat) (rule : Rule) :
    plain.parseWithin cells depth rule = rule.parseWithin cells depth := by
  induction depth generalizing rule with
  | zero => exact plain_eval _ rule
  | succ depth ih =>
    rw [parseWithin, Rule.parseWithin, plain_eval]
    congr 1
    funext cell
    rw [callWith]
    cases cells.target? cell with
    | none => rfl
    | some target => exact ih target

/-! ### Comparing interpretations -/

/-- What two interpretations have to share, apart from their leaves, to be compared in a
simulation. -/
structure Comparable (S : Simulation) (I J : Interpretation) : Prop where
  values : S.values
  node : ∀ {p q : Parser}, S.Related p q → S.Related (I.node p) (J.node q)
  blanks : ∀ {c d : Cursor}, S.cursor c d → S.Runs (S.Follows c d) (I.blanks c) (J.blanks d)
  reorder : ∀ {c d : Cursor}, S.cursor c d → ∀ o, S.cursor (c.withOrder o) (d.withOrder o)
  sameOrder : ∀ {c d : Cursor}, S.cursor c d → c.order = d.order

variable {S : Simulation} {I J : Interpretation} {call call' : Cell → Parser}

/-- The plain interpretation can be compared with itself on account of what is kept by going over
blanks and by another order of reading. -/
theorem Comparable.plain {V : Invariant} {endless : Prop} {misuse : Misuse → Prop} {traces : Prop}
    (blanks : ∀ {c : Cursor}, V.cursor c → ∀ n, V.cursor (Parser.skipBlanks n c) ∧
      (Parser.skipBlanks n c).order = c.order)
    (reorder : ∀ {c : Cursor}, V.cursor c → ∀ o, V.cursor (c.withOrder o)) :
    Comparable (V.same endless misuse traces) plain plain where
  values := trivial
  node h := h
  blanks := by
    rintro c _ ⟨rfl, hc⟩
    obtain ⟨hb, horder⟩ := blanks hc (c.remaining / 8)
    exact .pure (Invariant.follows hb horder)
  reorder := by
    rintro c _ ⟨rfl, hc⟩ o
    exact ⟨rfl, reorder hc o⟩
  sameOrder := Invariant.sameOrder

theorem Comparable.whitespace (hIJ : Comparable S I J) {p q : Parser} (h : S.Related p q) :
    S.Related (I.whitespace p) (J.whitespace q) := by
  intro c d hcd
  refine (hIJ.blanks hcd).bind fun c' d' hc' => ?_
  exact (h hc'.cursor).mono fun _ _ hmn => ⟨hmn.value, hc'.trans hmn.next⟩

/-- The leaves and the references within a rule are related. -/
def Agree (S : Simulation) (I J : Interpretation) (call call' : Cell → Parser) (rule : Rule) :
    Prop :=
  ∀ inner, rule.Contains inner →
    (inner.isLeaf → S.Related (I.leaf inner) (J.leaf inner)) ∧
      ∀ cell, inner = .ref cell → S.Related (call cell) (call' cell)

theorem Agree.part {whole part : Rule} (h : Agree S I J call call' whole)
    (hp : whole.HasPart part) : Agree S I J call call' part :=
  fun inner hi => h inner (.of_part hp hi)

/-- The rules of a list become related parsers if each rule does. -/
theorem forall₂_map {p q : Rule → Parser} {rules : List Rule}
    (h : ∀ rule ∈ rules, S.Related (p rule) (q rule)) :
    List.Forall₂ S.Related (rules.map p) (rules.map q) := by
  rw [List.forall₂_map_left_iff, List.forall₂_map_right_iff, List.forall₂_same]
  exact h

/-- **Related leaves and references make related rules.** -/
theorem Comparable.eval_related (hIJ : Comparable S I J) {rule : Rule}
    (h : Agree S I J call call' rule) : S.Related (I.eval call rule) (J.eval call' rule) := by
  have leaf : ∀ {rule : Rule}, Agree S I J call call' rule → rule.isLeaf →
      S.Related (I.eval call rule) (J.eval call' rule) := by
    intro rule h hleaf
    rw [eval_leaf I call hleaf, eval_leaf J call' hleaf]
    exact hIJ.node ((h rule rule.contains_self).1 hleaf)
  have list : ∀ {rules : List Rule}, (∀ rule ∈ rules, Agree S I J call call' rule →
      S.Related (I.eval call rule) (J.eval call' rule)) →
      (∀ rule ∈ rules, Agree S I J call call' rule) →
      List.Forall₂ S.Related (evalList I call rules) (evalList J call' rules) := by
    intro rules ih hrules
    rw [evalList_eq_map, evalList_eq_map]
    exact forall₂_map fun rule hr => ih rule hr (hrules rule hr)
  induction rule with
  | sequence rules ih => exact hIJ.node (.sequence (list ih fun rule hr => h.part hr))
  | choice rules ih => exact hIJ.node (.choice (list ih fun rule hr => h.part hr))
  | permutation rules ih => exact hIJ.node (.permutation (list ih fun rule hr => h.part hr))
  | left _ _ ih ih' => exact hIJ.node (.left (ih (h.part (.inl rfl))) (ih' (h.part (.inr rfl))))
  | right _ _ ih ih' => exact hIJ.node (.right (ih (h.part (.inl rfl))) (ih' (h.part (.inr rfl))))
  | middle _ _ _ ih ih' ih'' =>
    exact hIJ.node (.middle (ih (h.part (.inl rfl))) (ih' (h.part (.inr (.inl rfl))))
      (ih'' (h.part (.inr (.inr rfl)))))
  | ignore _ ih => exact hIJ.node (.ignore (ih (h.part rfl)))
  | optional _ ih => exact hIJ.node (.optional (ih (h.part rfl)))
  | followedBy _ ih => exact hIJ.node (.followedBy (ih (h.part rfl)))
  | notFollowedBy _ ih => exact hIJ.node (.notFollowedBy (ih (h.part rfl)))
  | butNot _ _ ih ih' | difference _ _ ih ih' =>
    exact hIJ.node (.excluding _ (ih (h.part (.inl rfl))) (ih' (h.part (.inr rfl))))
  | exclusiveOr _ _ ih ih' =>
    exact hIJ.node (.exclusiveOr (ih (h.part (.inl rfl))) (ih' (h.part (.inr rfl))))
  | many _ ih | many1 _ ih => exact hIJ.node (.atLeast _ (ih (h.part rfl)))
  | times _ count ih => exact hIJ.node (.times (ih (h.part rfl)) count)
  | sepBy _ _ ih ih' | sepBy1 _ _ ih ih' =>
    exact hIJ.node (.separated _ (ih (h.part (.inl rfl))) (ih' (h.part (.inr rfl))))
  | lengthValue _ _ ih ih' =>
    exact hIJ.node (.lengthValue hIJ.values (ih (h.part (.inl rfl))) (ih' (h.part (.inr rfl))))
  | whitespace _ ih => exact hIJ.node (hIJ.whitespace (ih (h.part rfl)))
  | withOrder order _ ih =>
    exact hIJ.node (.withOrder order hIJ.reorder hIJ.sameOrder (ih (h.part rfl)))
  | map name f _ ih => exact hIJ.node (.map hIJ.values name f (ih (h.part rfl)))
  | filter name accept _ ih => exact hIJ.node (.filter hIJ.values name accept (ih (h.part rfl)))
  | andThen name continuation _ ihk ih =>
    refine hIJ.node (.andThen hIJ.values name (fun v => ?_) (ih (h.part (.inl rfl))))
    rw [evalOption_eq_map, evalOption_eq_map]
    cases hk : continuation v with
    | none => exact .none
    | some next => exact .some (ihk v next hk (h.part (.inr ⟨v, hk⟩)))
  | inRange lower upper _ _ ih =>
    exact hIJ.node (.inRange hIJ.values lower upper (ih (h.part rfl)))
  | ref cell => exact hIJ.node ((h _ (Rule.contains_self _)).2 cell rfl)
  | misuse what => exact hIJ.node (.misuse what)
  | _ => exact leaf h rfl

/-- One store of cells can stand for another: bound cells stay bound to their rules, and so do
unbound ones stay unbound if the simulation asks for it. -/
structure Stores (S : Simulation) (cells cells' : Cells) : Prop where
  bound : ∀ {cell : Cell} {target : Rule}, cells.target? cell = some target →
    cells'.target? cell = some target
  unbound : S.misuse .unbound ∨ ∀ {cell : Cell}, cells.target? cell = none →
    cells'.target? cell = none

theorem Stores.refl (S : Simulation) (cells : Cells) : Stores S cells cells := ⟨id, .inr id⟩

/-- **Related leaves make related grammars.** The bounds on the depths may differ where endless
runs need no answer, and so may the stores of cells where uses of unbound cells need none. -/
theorem Comparable.parseWithin_related (hIJ : Comparable S I J) {cells cells' : Cells}
    (hcells : Stores S cells cells') {depth depth' : Nat} (hd : S.Rounds depth depth')
    {rule : Rule}
    (leaf : ∀ inner, cells.Reaches rule inner → inner.isLeaf →
      S.Related (I.leaf inner) (J.leaf inner)) :
    S.Related (I.parseWithin cells depth rule) (J.parseWithin cells' depth' rule) := by
  induction depth generalizing depth' rule with
  | zero =>
    rw [parseWithin_eq_eval, parseWithin_eq_eval]
    refine hIJ.eval_related fun inner hi => ⟨leaf inner (.of_contains hi), fun cell _ => ?_⟩
    rcases hd.2 with hfree | rfl
    · exact .ofEndless hfree
    · exact .diverge
  | succ depth ih =>
    obtain ⟨depth', rfl, hd'⟩ := hd.of_succ
    refine hIJ.eval_related fun inner hi => ⟨leaf inner (.of_contains hi), ?_⟩
    rintro cell rfl
    rw [callWith, callWith]
    cases ht : cells.target? cell with
    | some target =>
      rw [hcells.bound ht]
      exact ih hd' fun inner hreach => leaf inner (.of_target hi ht hreach)
    | none =>
      rcases hcells.unbound with hfree | hnone
      · exact .ofMisuse hfree
      · rw [hnone ht]
        exact .misuse _

end Interpretation

end BitGrammar
