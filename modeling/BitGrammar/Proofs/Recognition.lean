import BitGrammar.Proofs.OrderOfReading

/-!
# Recognition without values

A grammar says which inputs it matches and, besides, which values come of them. As long as it does
not look at its own values, the first does not depend on the second. Taking away all mappings and
all elisions changes the values, and nothing else: the same inputs match, up to the same place, and
what does not match fails for the same reason and after the same attempts.

## What decides the design

The two grammars are compared in a simulation in which values need not be equal. The parsers that
hand a value to a function ask for equal values, with one exception: a mapping gives its value to a
function and then does with it what any other parser does. So a mapping on the left corresponds to
the bare parser on the right, and it is only the records of mappings that have to be left out.

## Main definitions

* `Rule.bare`, `Cells.bare`: grammars without their mappings and elisions
* `Rule.looksAtValue`: the rules that decide something by a value
* `Simulation.recognition`: the same run with other values

## Main results

* `Rule.parse_bare`: a grammar that does not look at values matches what its bare grammar matches
-/

namespace BitGrammar

/-! ### Bare grammars -/

namespace Rule

mutual

/-- A rule without the mappings and elisions in it, and in the rules that its continuations make. -/
def bare : Rule → Rule
  | .sequence rules => .sequence (bareList rules)
  | .choice rules => .choice (bareList rules)
  | .permutation rules => .permutation (bareList rules)
  | .left keep drop => .left (bare keep) (bare drop)
  | .right drop keep => .right (bare drop) (bare keep)
  | .middle opening content closing => .middle (bare opening) (bare content) (bare closing)
  | .ignore rule => bare rule
  | .optional rule => .optional (bare rule)
  | .followedBy rule => .followedBy (bare rule)
  | .notFollowedBy rule => .notFollowedBy (bare rule)
  | .butNot rule other => .butNot (bare rule) (bare other)
  | .difference rule other => .difference (bare rule) (bare other)
  | .exclusiveOr first second => .exclusiveOr (bare first) (bare second)
  | .many rule => .many (bare rule)
  | .many1 rule => .many1 (bare rule)
  | .times rule count => .times (bare rule) count
  | .sepBy item separator => .sepBy (bare item) (bare separator)
  | .sepBy1 item separator => .sepBy1 (bare item) (bare separator)
  | .lengthValue length rule => .lengthValue (bare length) (bare rule)
  | .whitespace rule => .whitespace (bare rule)
  | .withOrder order rule => .withOrder order (bare rule)
  | .map _ _ rule => bare rule
  | .filter name accept rule => .filter name accept (bare rule)
  | .andThen name continuation rule =>
    .andThen name (fun v => bareOption (continuation v)) (bare rule)
  | .inRange lower upper nonempty rule => .inRange lower upper nonempty (bare rule)
  | rule => rule
  termination_by structural rule => rule

/-- The rules of a list without their mappings and elisions. -/
def bareList : List Rule → List Rule
  | [] => []
  | rule :: rules => bare rule :: bareList rules
  termination_by structural rules => rules

/-- A rule without its mappings and elisions, if there is one. -/
def bareOption : Option Rule → Option Rule
  | none => none
  | some rule => some (bare rule)
  termination_by structural rule => rule

end

@[simp] theorem bareList_eq_map (rules : List Rule) : bareList rules = rules.map bare := by
  induction rules with
  | nil => rfl
  | cons rule rules ih => rw [bareList, ih, List.map_cons]

/-- True of the rules that decide something by the value of a match. -/
def looksAtValue : Rule → Bool
  | .filter .. | .andThen .. | .inRange .. | .lengthValue .. => true
  | _ => false

theorem bare_leaf {rule : Rule} (leaf : rule.isLeaf) : rule.bare = rule := by
  cases rule <;> first | rfl | cases leaf

end Rule

/-- All cells bound to bare rules. -/
def Cells.bare (cells : Cells) : Cells :=
  { cells with bindings := cells.bindings.map fun (cell, rule) => (cell, rule.bare) }

theorem Cells.target?_bare (cells : Cells) (cell : Cell) :
    cells.bare.target? cell = (cells.target? cell).map Rule.bare := by
  obtain ⟨count, bindings⟩ := cells
  rw [target?, target?, bare]
  induction bindings with
  | nil => rfl
  | cons binding bindings ih =>
    rw [List.map_cons, List.lookup_cons, List.lookup_cons]
    split
    · rfl
    · exact ih

/-- True of what choices and counted repetitions record. -/
def Record.isAttempt : Record → Bool
  | .choiceFailed .. | .repeatStopped .. => true
  | _ => false

/-! ### The same run with other values -/

/-- The same cursors, failures and attempts; values do not matter. -/
def Simulation.recognition : Simulation :=
  .onInput Eq (List.filter Record.isAttempt) False
    (by rintro c _ rfl; exact ⟨rfl, rfl⟩) fun t u => List.filter_append t u

namespace Simulation

variable {p q : Parser}

/-- A parser that gives back the order of reading corresponds to itself. -/
theorem related_self (h : p.KeepsOrder) : recognition.Related p p := by
  rintro c _ rfl
  have kept := h c
  generalize p c = x at kept
  obtain ⟨t, o⟩ := x
  cases o with
  | ok m => exact .ok rfl ⟨nofun, rfl, kept m rfl, kept m rfl, nofun⟩
  | failed e => exact .failed rfl rfl
  | misused m => exact .misused rfl
  | endless => exact .endless rfl

/-- Runs that do not care for values correspond when a value is changed on the left. -/
theorem Runs.change {c d : Cursor} {x y : Run Match} {f : Match → Run Match}
    (h : recognition.Runs (recognition.Matches c d) x y)
    (hf : ∀ m, ∃ t v, f m = ⟨t, .ok ⟨v, m.next⟩⟩ ∧ t.filter Record.isAttempt = []) :
    recognition.Runs (recognition.Matches c d) (x >>= f) y := by
  cases h with
  | @ok t u m n trace result =>
    obtain ⟨s, v, hfm, hs⟩ := hf m
    rw [Run.bind_ok, hfm]
    refine .ok ?_ ⟨nofun, result.next⟩
    show (t ++ s).filter Record.isAttempt = u.filter Record.isAttempt
    rw [List.filter_append, hs, List.append_nil]
    exact trace
  | failed trace failure => exact .failed trace failure
  | misused trace => exact .misused trace
  | endless trace => exact .endless trace
  | ofMisuse free => exact .ofMisuse free
  | ofEndless free => exact .ofEndless free

theorem related_map (name : Option String) (f : Value → Value) (h : recognition.Related p q) :
    recognition.Related (Parser.map name f p) q := by
  intro c d hcd
  refine (h hcd).change fun m => ?_
  cases name with
  | none => exact ⟨[], _, rfl, rfl⟩
  | some name => exact ⟨[.hookCalled .map name m.shown], _, rfl, rfl⟩

theorem related_ignore (h : recognition.Related p q) :
    recognition.Related (Parser.ignore p) q :=
  fun _ _ hcd => (h hcd).change fun _ => ⟨[], _, rfl, rfl⟩

theorem related_whitespace (h : recognition.Related p q) :
    recognition.Related (Parser.whitespace p) (Parser.whitespace q) := by
  rintro c _ rfl
  have hskip : recognition.Follows c c (Parser.skipBlanks (c.remaining / 8) c)
      (Parser.skipBlanks (c.remaining / 8) c) :=
    ⟨rfl, c.order_skipBlanks _, c.order_skipBlanks _, nofun⟩
  exact (h rfl).mono fun _ _ hmn => ⟨hmn.value, hskip.trans hmn.next⟩

end Simulation

/-! ### Grammars and their bare grammars -/

namespace Rule

open Simulation

/-- Nothing within a rule looks at a value, and references stand for corresponding parsers. -/
def Blind (call call' : Cell → Parser) (rule : Rule) : Prop :=
  ∀ inner, rule.Contains inner → inner.looksAtValue = false ∧
    ∀ cell, inner = .ref cell → recognition.Related (call cell) (call' cell)

variable {call call' : Cell → Parser}

theorem Blind.part {whole part : Rule} (h : Blind call call' whole) (hp : whole.HasPart part) :
    Blind call call' part :=
  fun inner hi => h inner (.of_part hp hi)

/-- Rules that do not look at values correspond to their bare rules. -/
theorem Blind.related_bare {rule : Rule} (h : Blind call call' rule) :
    recognition.Related (rule.eval call) (rule.bare.eval call') := by
  have leaf : ∀ {rule : Rule}, rule.isLeaf →
      recognition.Related (rule.eval call) (rule.bare.eval call') := by
    intro rule hleaf
    rw [bare_leaf hleaf, ← Interpretation.plain_leaf call hleaf,
      ← Interpretation.plain_leaf call' hleaf]
    exact related_self (Parser.keepsOrder_leaf hleaf)
  have list : ∀ {rules : List Rule}, (∀ rule ∈ rules, Blind call call' rule →
      recognition.Related (rule.eval call) (rule.bare.eval call')) →
      (∀ rule ∈ rules, Blind call call' rule) → List.Forall₂ recognition.Related
        (evalList call rules) (evalList call' (bareList rules)) := by
    intro rules ih hrules
    rw [evalList_eq_map, evalList_eq_map, bareList_eq_map, List.map_map]
    exact Interpretation.forall₂_map fun rule hr => ih rule hr (hrules rule hr)
  have looks : ∀ {rule : Rule}, Blind call call' rule → rule.looksAtValue = true → False := by
    intro rule h hlooks
    rw [(h rule rule.contains_self).1] at hlooks
    cases hlooks
  induction rule with
  | sequence rules ih => exact .sequence (list ih fun rule hr => h.part hr)
  | choice rules ih => exact .choice (list ih fun rule hr => h.part hr)
  | permutation rules ih => exact .permutation (list ih fun rule hr => h.part hr)
  | left _ _ ih ih' => exact .left (ih (h.part (.inl rfl))) (ih' (h.part (.inr rfl)))
  | right _ _ ih ih' => exact .right (ih (h.part (.inl rfl))) (ih' (h.part (.inr rfl)))
  | middle _ _ _ ih ih' ih'' =>
    exact .middle (ih (h.part (.inl rfl))) (ih' (h.part (.inr (.inl rfl))))
      (ih'' (h.part (.inr (.inr rfl))))
  | ignore _ ih => exact related_ignore (ih (h.part rfl))
  | optional _ ih => exact .optional (ih (h.part rfl))
  | followedBy _ ih => exact .followedBy (ih (h.part rfl))
  | notFollowedBy _ ih => exact .notFollowedBy (ih (h.part rfl))
  | butNot _ _ ih ih' => exact .butNot (ih (h.part (.inl rfl))) (ih' (h.part (.inr rfl)))
  | difference _ _ ih ih' =>
    exact .difference (ih (h.part (.inl rfl))) (ih' (h.part (.inr rfl)))
  | exclusiveOr _ _ ih ih' =>
    exact .exclusiveOr (ih (h.part (.inl rfl))) (ih' (h.part (.inr rfl)))
  | many _ ih => exact .many (ih (h.part rfl))
  | many1 _ ih => exact .many1 (ih (h.part rfl))
  | times _ count ih => exact .times (ih (h.part rfl)) count
  | sepBy _ _ ih ih' => exact .sepBy (ih (h.part (.inl rfl))) (ih' (h.part (.inr rfl)))
  | sepBy1 _ _ ih ih' => exact .sepBy1 (ih (h.part (.inl rfl))) (ih' (h.part (.inr rfl)))
  | whitespace _ ih => exact related_whitespace (ih (h.part rfl))
  | withOrder order _ ih =>
    refine .withOrder order ?_ (fun hcd => congrArg Cursor.order hcd) (ih (h.part rfl))
    rintro c _ rfl o
    rfl
  | map name f _ ih => exact related_map name f (ih (h.part rfl))
  | filter | andThen | inRange | lengthValue => exact (looks h rfl).elim
  | ref cell => exact (h _ (contains_self _)).2 cell rfl
  | misuse what => exact .misuse what
  | _ => exact leaf rfl

/-- At every depth, grammars that do not look at values correspond to their bare grammars. -/
theorem related_parseWithin_bare {cells : Cells} {rule : Rule}
    (blind : ∀ inner, cells.Reaches rule inner → inner.looksAtValue = false) (depth : Nat) :
    recognition.Related (rule.parseWithin cells depth)
      (rule.bare.parseWithin cells.bare depth) := by
  induction depth generalizing rule with
  | zero =>
    exact Blind.related_bare fun inner hi => ⟨blind inner (.of_contains hi), fun _ _ => .diverge⟩
  | succ depth ih =>
    refine Blind.related_bare fun inner hi => ⟨blind inner (.of_contains hi), ?_⟩
    rintro cell rfl
    rw [Cells.target?_bare]
    cases ht : cells.target? cell with
    | some target => exact ih fun inner hreach => blind inner (.of_target hi ht hreach)
    | none => exact .misuse _

/-- **Recognition does not depend on values.** A grammar that does not look at values matches what
it matches without its mappings and elisions, up to the same cursor, fails in the same way, and
leaves the same records of attempts. -/
theorem parse_bare (cells : Cells) (rule : Rule)
    (blind : ∀ inner, cells.Reaches rule inner → inner.looksAtValue = false) (c : Cursor) :
    (rule.bare.parse cells.bare c).outcome.map Match.next =
        (rule.parse cells c).outcome.map Match.next ∧
      (rule.bare.parse cells.bare c).trace.filter Record.isAttempt =
        (rule.parse cells c).trace.filter Record.isAttempt := by
  have hdepth : depthBound cells.bare c = depthBound cells c := by
    simp [depthBound, Cells.bare]
  have hruns := related_parseWithin_bare blind (depthBound cells c) (c := c) rfl
  rw [parse, parse, hdepth]
  generalize rule.parseWithin cells (depthBound cells c) c = x,
    rule.bare.parseWithin cells.bare (depthBound cells c) c = y at hruns
  cases hruns with
  | ok trace result => exact ⟨congrArg Outcome.ok result.next.cursor.symm, trace.symm⟩
  | @failed t u e f trace failure =>
    obtain rfl : e = f := failure
    exact ⟨rfl, trace.symm⟩
  | misused trace => exact ⟨rfl, trace.symm⟩
  | endless trace => exact ⟨rfl, trace.symm⟩
  | ofMisuse free => exact free.elim
  | ofEndless free => exact free.elim

/-- A letter, as a sequence of one item. -/
def wrappedLetter : Rule :=
  .map (some "wrap") (fun v => .sequence [v]) (.byte 0x61)

/-- Something in brackets that leave no value. -/
def elidedBrackets (content : Rule) : Rule :=
  .sequence [.ignore (.byte 0x28), content, .ignore (.byte 0x29)]

/-- A letter in any number of brackets. -/
def letterInBrackets : Cells where
  count := 1
  bindings := [(⟨0⟩, .choice [elidedBrackets (.ref ⟨0⟩), wrappedLetter])]

/-- What the grammar of letters in brackets reaches. -/
theorem letterInBrackets_reaches {rule : Rule} (h : letterInBrackets.Reaches (.ref ⟨0⟩) rule) :
    rule = .ref ⟨0⟩ ∨ rule = .choice [elidedBrackets (.ref ⟨0⟩), wrappedLetter] ∨
      rule = elidedBrackets (.ref ⟨0⟩) ∨ rule = wrappedLetter ∨
      (∃ b, rule = .ignore (.byte b)) ∨ ∃ b, rule = .byte b := by
  induction h with
  | refl => exact .inl rfl
  | tail _ step ih =>
    rcases step with hpart | ⟨cell, -, ht⟩
    · rcases ih with rfl | rfl | rfl | rfl | ⟨b, rfl⟩ | ⟨b, rfl⟩
      · cases hpart
      · exact .inr (.inr ((List.mem_pair.mp hpart).imp_right .inl))
      · simp only [elidedBrackets, HasPart, List.mem_cons, List.not_mem_nil, or_false] at hpart
        rcases hpart with rfl | rfl | rfl
        · exact .inr (.inr (.inr (.inr (.inl ⟨_, rfl⟩))))
        · exact .inl rfl
        · exact .inr (.inr (.inr (.inr (.inl ⟨_, rfl⟩))))
      · exact .inr (.inr (.inr (.inr (.inr ⟨_, hpart⟩))))
      · exact .inr (.inr (.inr (.inr (.inr ⟨_, hpart⟩))))
      · cases hpart
    · have hmem := Cells.mem_bindings_of_target? ht
      simp only [letterInBrackets, List.mem_singleton, Prod.mk.injEq] at hmem
      exact .inr (.inl hmem.2)

/-- A letter in brackets, with its value and without. -/
theorem parse_bare_letterInBrackets :
    (∀ inner, letterInBrackets.Reaches (.ref ⟨0⟩) inner → inner.looksAtValue = false) ∧
      ((Rule.ref ⟨0⟩).parse letterInBrackets ⟨#[0x28, 0x61, 0x29], 0, {}⟩).outcome =
        .ok ⟨some (.sequence [.sequence [.char 0x61]]), ⟨#[0x28, 0x61, 0x29], 24, {}⟩⟩ ∧
      ((Rule.ref ⟨0⟩).bare.parse letterInBrackets.bare
          ⟨#[0x28, 0x61, 0x29], 0, {}⟩).outcome.map Match.next =
        .ok ⟨#[0x28, 0x61, 0x29], 24, {}⟩ := by
  have blind : ∀ inner, letterInBrackets.Reaches (.ref ⟨0⟩) inner →
      inner.looksAtValue = false := by
    intro inner h
    rcases letterInBrackets_reaches h with rfl | rfl | rfl | rfl | ⟨b, rfl⟩ | ⟨b, rfl⟩ <;> rfl
  exact ⟨blind, rfl, (parse_bare letterInBrackets (.ref ⟨0⟩) blind _).1⟩

end Rule

end BitGrammar
