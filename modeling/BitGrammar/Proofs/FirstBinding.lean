import BitGrammar.Proofs.DepthBound
import BitGrammar.Session

/-!
# The first binding of a cell

In a session cells are made, given further names, referred to by rules and bound, in any order and
with runs in between. Whatever happens, a cell stands for the rule that it was to be bound to first,
under whichever of its names that was. Until then it stands for nothing, and afterwards no step
changes it.

## What decides the design

What a cell stands for is read off the commands of the session and not off its bindings:
`Session.attempts` lists all that cells were to be bound to, whatever came of it, and the first
entry for a cell decides (`target?_after`). What the steps answer and what references do is then
said in terms of this list alone.

Names are what clones are called by: a name is given to a new cell, or to the cell of another name.
A new cell is none that a name or a binding has yet, which needs that cells are handed out in order
(`Allotted`).

## Main definitions

* `Session.after`, `Session.attempts`: the session after commands, and what cells were bound to in
  them
* `Session.WriteOnce`: what a session does whose cells stand for given rules

## Main results

* `Rule.parse_ref`: a reference to a bound cell runs as the rule does that it is bound to
* `Session.writeOnce_after`: in every session, the first attempt to bind a cell decides
-/

namespace BitGrammar

/-! ### References -/

namespace Rule

variable {cells : Cells} {cell : Cell} {target : Rule} {c : Cursor}

/-- **A reference to a bound cell runs as the rule does that it is bound to**: with the same
outcome, and with the same trace if it ends. -/
theorem parse_ref (h : cells.target? cell = some target) (hc : c.WellFormed) :
    ((Rule.ref cell).parse cells c).outcome = (target.parse cells c).outcome ∧
      ((target.parse cells c).outcome ≠ .endless →
        ((Rule.ref cell).parse cells c).trace = (target.parse cells c).trace) := by
  by_cases hendless : (target.parse cells c).outcome = .endless
  · have hall := (parse_endless_iff hc).mp hendless
    rw [hendless]
    refine ⟨?_, fun hne => absurd rfl hne⟩
    exact congrArg Run.outcome (congrFun (parseWithin_ref h _) c) |>.trans (hall _)
  · have heq : (Rule.ref cell).parse cells c = target.parse cells c := by
      have hdeeper : (Rule.ref cell).parseWithin cells (depthBound cells c + 1) c =
          target.parse cells c := congrFun (parseWithin_ref h _) c
      rw [← hdeeper]
      refine parse_eq_parseWithin hc ?_
      rw [hdeeper]
      exact hendless
    rw [heq]
    exact ⟨rfl, fun _ => rfl⟩

/-- A reference to a cell that is not bound is a misuse. -/
theorem parse_ref_of_unbound (h : cells.target? cell = none) (c : Cursor) :
    (Rule.ref cell).parse cells c = Run.misuse .unbound := by
  rw [parse, depthBound, parseWithin, eval, h]

end Rule

/-! ### Commands -/

/-- The name that a command gives a meaning. -/
def Command.given? : Command → Option String
  | .declare name | .alias name _ | .define name _ => some name
  | _ => none

namespace Session

private theorem lookup_cons_of_ne {α β : Type} [BEq α] [LawfulBEq α] {key other : α} (value : β)
    (rest : List (α × β)) (h : other ≠ key) :
    ((key, value) :: rest).lookup other = rest.lookup other := by
  rw [List.lookup_cons, beq_eq_false_iff_ne.mpr h]

/-- The cell that a command is to bind, and the rule. -/
def attempt? (s : Session) : Command → Option (Cell × Rule)
  | .bind name rule | .bindStrictly name rule => (s.cell? name).map fun cell => (cell, rule)
  | _ => none

/-- The session after commands, if all of them can be performed. -/
def after (s : Session) : List Command → Option Session
  | [] => some s
  | command :: rest =>
    match s.perform command with
    | some (_, _, next) => next.after rest
    | none => none

/-- What cells are to be bound to in commands, in order. -/
def attempts (s : Session) : List Command → List (Cell × Rule)
  | [] => []
  | command :: rest =>
    match s.perform command with
    | some (_, _, next) => (s.attempt? command).toList ++ next.attempts rest
    | none => []

variable {s next last : Session} {command : Command} {commands : List Command} {reply : Reply}
  {records : List Record} {name other : String} {cell : Cell} {rule target : Rule}

/-! ### Names -/

theorem find?_assign_self (s : Session) (name : String) (meaning : Named) :
    (s.assign name meaning).find? name = some meaning := by
  simp [find?, assign]

theorem find?_assign_of_ne (s : Session) (meaning : Named) (h : other ≠ name) :
    (s.assign name meaning).find? other = s.find? other :=
  lookup_cons_of_ne _ _ h

theorem find?_define_of_ne (s : Session) (handle : Handle) (h : other ≠ name) :
    (s.define name handle).find? other = s.find? other := by
  rw [define]
  split <;> exact find?_assign_of_ne _ _ h

/-- A rule that is given a name is no cell. -/
theorem cell?_define_self (s : Session) (name : String) (handle : Handle) :
    (s.define name handle).cell? name = none := by
  rw [define]
  split <;> rw [cell?, find?_assign_self]

theorem cells_define (s : Session) (name : String) (handle : Handle) :
    (s.define name handle).cells = s.cells := by
  rw [define]
  split <;> rfl

theorem cell?_assign_self (s : Session) (name : String) (cell : Cell) :
    (s.assign name (.cell cell)).cell? name = some cell := by
  rw [cell?, find?_assign_self]

theorem cell?_congr (h : next.find? name = s.find? name) : next.cell? name = s.cell? name := by
  rw [cell?, cell?, h]

theorem handle?_of_cell? (h : s.cell? name = some cell) :
    s.handle? name = some { rule := .ref cell } := by
  rw [cell?] at h
  split at h
  · cases h
    rw [handle?, ‹s.find? name = _›]
  · cases h

/-! ### Steps -/

theorem perform_isBound (h : s.cell? name = some cell) :
    s.perform (.isBound name) = some (.truth (s.cells.isBound cell), [], s) := by
  simp [perform, h]

theorem attempt?_eq_some_iff : s.attempt? command = some (cell, rule) ↔
    ∃ name, s.cell? name = some cell ∧
      (command = .bind name rule ∨ command = .bindStrictly name rule) := by
  cases command with
  | bind name given | bindStrictly name given => simp [attempt?]
  | _ => simp [attempt?]

/-- Binding a cell that is not bound. -/
theorem perform_of_unbound (h : s.attempt? command = some (cell, rule)) {cells : Cells}
    (hbind : s.cells.bind cell rule = .ok cells) :
    s.perform command = some (.done, [.bound], { s with cells }) := by
  obtain ⟨name, hname, rfl | rfl⟩ := attempt?_eq_some_iff.mp h <;>
    simp [perform, hname, bind, hbind]

/-- Binding a cell that is bound. -/
theorem perform_of_bound (h : s.attempt? command = some (cell, rule)) {m : Misuse}
    (hbind : s.cells.bind cell rule = .error m) :
    ∃ reply, s.perform command = some (reply, [], s) := by
  obtain ⟨name, hname, rfl | rfl⟩ := attempt?_eq_some_iff.mp h <;>
    simp [perform, hname, bind, hbind]

/-- What a command can make of a session: it names a new cell, names a cell again, names a rule,
binds a cell, or leaves the session alone. In the last case a cell that was to be bound was bound
already. -/
inductive Effect (s : Session) : Command → Session → Prop
  | declared (name : String) : s.Effect (.declare name) (s.declare name)
  | aliased {name existing : String} {cell : Cell} (named : s.cell? existing = some cell) :
    s.Effect (.alias name existing) (s.assign name (.cell cell))
  | defined (name : String) (handle : Handle) :
    s.Effect (.define name handle) (s.define name handle)
  | bound {command : Command} {cell : Cell} {rule : Rule} {cells : Cells}
    (attempt : s.attempt? command = some (cell, rule))
    (bind : s.cells.bind cell rule = .ok cells) : s.Effect command { s with cells }
  | idle {command : Command}
    (bound : ∀ cell rule, s.attempt? command = some (cell, rule) → s.cells.isBound cell) :
    s.Effect command s

theorem effect_perform (h : s.perform command = some (reply, records, next)) :
    s.Effect command next := by
  cases hattempt : s.attempt? command with
  | some binding =>
    obtain ⟨cell, rule⟩ := binding
    cases hbind : s.cells.bind cell rule with
    | ok cells =>
      rw [perform_of_unbound hattempt hbind] at h
      cases h
      exact .bound hattempt hbind
    | error m =>
      obtain ⟨answer, hanswer⟩ := perform_of_bound hattempt hbind
      rw [hanswer] at h
      cases h
      refine .idle fun other given h => ?_
      rw [hattempt] at h
      cases h
      exact ((Cells.bind_eq_error_iff ..).mp hbind).1
  | none =>
    cases command with
    | declare name =>
      cases h
      exact .declared name
    | «alias» name existing =>
      obtain ⟨cell, hcell, heq⟩ := Option.bind_eq_some_iff.mp h
      cases heq
      exact .aliased hcell
    | define name handle =>
      cases h
      exact .defined name handle
    | bind name rule | bindStrictly name rule =>
      obtain ⟨cell, hcell, -⟩ := Option.bind_eq_some_iff.mp h
      simp [attempt?, hcell] at hattempt
    | isBound name | describe name =>
      obtain ⟨cell, -, heq⟩ := Option.bind_eq_some_iff.mp h
      cases heq
      exact .idle nofun
    | sameNode first second | run rule input | parse rule input =>
      cases h
      exact .idle nofun

/-- The first attempt to bind a cell decides, in one step. -/
theorem target?_perform (h : s.perform command = some (reply, records, next)) (cell : Cell) :
    next.cells.target? cell =
      (s.cells.target? cell).or ((s.attempt? command).toList.lookup cell) := by
  cases effect_perform h with
  | declared name => simp [attempt?, declare, assign]
  | aliased named => simp [attempt?, assign]
  | defined name handle => simp [attempt?, cells_define]
  | @bound _ bound rule cells attempt bind =>
    rw [attempt, Option.toList_some]
    by_cases hcell : cell = bound
    · subst hcell
      simp [Cells.target?_bind_self bind, ((Cells.bind_eq_ok_iff ..).mp bind).1]
    · simp [Cells.target?_bind_of_ne bind hcell, lookup_cons_of_ne rule [] hcell]
  | idle bound =>
    cases hattempt : s.attempt? command with
    | none => simp
    | some binding =>
      obtain ⟨tried, rule⟩ := binding
      rw [Option.toList_some]
      by_cases hcell : cell = tried
      · subst hcell
        obtain ⟨target, htarget⟩ := Option.isSome_iff_exists.mp (bound cell rule hattempt)
        simp [htarget]
      · simp [lookup_cons_of_ne rule [] hcell]

/-- A command changes no name but the one that it gives a meaning. -/
theorem find?_perform (h : s.perform command = some (reply, records, next))
    (hname : command.given? ≠ some name) : next.find? name = s.find? name := by
  cases effect_perform h with
  | declared given => exact find?_assign_of_ne _ _ fun heq => hname (congrArg some heq.symm)
  | aliased named => exact find?_assign_of_ne _ _ fun heq => hname (congrArg some heq.symm)
  | defined given handle => exact find?_define_of_ne _ _ fun heq => hname (congrArg some heq.symm)
  | bound attempt bind => rfl
  | idle bound => rfl

/-! ### Cells are handed out in order -/

/-- Every cell that a name or a binding has is one of those handed out. -/
structure Allotted (s : Session) : Prop where
  named : ∀ {name cell}, s.cell? name = some cell → cell.index < s.cells.count
  bound : ∀ {cell rule}, s.cells.target? cell = some rule → cell.index < s.cells.count

theorem allotted_empty : Allotted {} := ⟨nofun, nofun⟩

theorem Allotted.target?_new (hs : s.Allotted) : s.cells.target? ⟨s.cells.count⟩ = none := by
  by_contra hbound
  obtain ⟨rule, hrule⟩ := Option.ne_none_iff_exists'.mp hbound
  exact absurd (hs.bound hrule) (Nat.lt_irrefl _)

theorem Allotted.cell?_ne_new (hs : s.Allotted) (name : String) :
    s.cell? name ≠ some ⟨s.cells.count⟩ := fun hnew =>
  absurd (hs.named hnew) (Nat.lt_irrefl _)

/-- Naming a cell that is handed out. -/
theorem Allotted.assign (hs : s.Allotted) (name : String) (hcell : cell.index < s.cells.count) :
    (s.assign name (.cell cell)).Allotted where
  named {other another} h := by
    by_cases hother : other = name
    · subst hother
      rw [cell?_assign_self] at h
      cases h
      exact hcell
    · rw [cell?_congr (s.find?_assign_of_ne _ hother)] at h
      exact hs.named h
  bound h := hs.bound h

theorem allotted_perform (h : s.perform command = some (reply, records, next))
    (hs : s.Allotted) : next.Allotted := by
  cases effect_perform h with
  | declared name =>
    have hmore : ({ s with cells := s.cells.alloc.2 } : Session).Allotted :=
      ⟨fun h => Nat.lt_succ_of_lt (hs.named h), fun h => Nat.lt_succ_of_lt (hs.bound h)⟩
    exact hmore.assign name (Nat.lt_succ_self s.cells.count)
  | aliased named => exact hs.assign _ (hs.named named)
  | defined given handle =>
    refine ⟨fun {name cell} h => ?_, fun h => ?_⟩
    · rw [cells_define]
      by_cases hname : name = given
      · subst hname
        rw [cell?_define_self] at h
        cases h
      · rw [cell?_congr (s.find?_define_of_ne _ hname)] at h
        exact hs.named h
    · rw [cells_define] at h ⊢
      exact hs.bound h
  | @bound _ bound rule cells attempt bind =>
    obtain ⟨name, hname, -⟩ := attempt?_eq_some_iff.mp attempt
    have hcount : cells.count = s.cells.count := by
      rw [((Cells.bind_eq_ok_iff ..).mp bind).2]
    refine ⟨fun h => hcount ▸ hs.named h, fun {cell target} h => ?_⟩
    rw [hcount]
    by_cases hcell : cell = bound
    · subst hcell
      exact hs.named hname
    · exact hs.bound ((Cells.target?_bind_of_ne bind hcell).symm.trans h)
  | idle bound => exact hs

/-! ### Whole sessions -/

theorem after_cons (h : s.after (command :: commands) = some last) :
    ∃ reply records next, s.perform command = some (reply, records, next) ∧
      next.after commands = some last ∧
      s.attempts (command :: commands) =
        (s.attempt? command).toList ++ next.attempts commands := by
  rw [after] at h
  rw [attempts]
  split at h
  · rename_i reply records next hnext
    exact ⟨reply, records, next, hnext, h, rfl⟩
  · cases h

/-- **The first attempt to bind a cell decides**, over a whole session. -/
theorem target?_after (h : s.after commands = some last) (cell : Cell) :
    last.cells.target? cell =
      (s.cells.target? cell).or ((s.attempts commands).lookup cell) := by
  induction commands generalizing s with
  | nil =>
    cases h
    simp [attempts]
  | cons command commands ih =>
    obtain ⟨reply, records, next, hstep, hrest, hattempts⟩ := after_cons h
    rw [ih hrest, target?_perform hstep, hattempts, List.lookup_append, Option.or_assoc]

theorem allotted_after (h : s.after commands = some last) (hs : s.Allotted) : last.Allotted := by
  induction commands generalizing s with
  | nil =>
    cases h
    exact hs
  | cons command commands ih =>
    obtain ⟨reply, records, next, hstep, hrest, -⟩ := after_cons h
    exact ih hrest (allotted_perform hstep hs)

/-! ### The first binding -/

/-- What a session does whose cells stand for the given rules, those that they were to be bound to
first. A cell without a rule was not to be bound yet. -/
structure WriteOnce (s : Session) (first : Cell → Option Rule) : Prop where
  /-- A cell stands for its first rule. -/
  stands : ∀ cell, s.cells.target? cell = first cell
  /-- A new cell has no rule and no other name, and it leaves all cells as they are. -/
  declares : ∀ name, ∃ cell next, s.perform (.declare name) = some (.done, [], next) ∧
    next.cell? name = some cell ∧ first cell = none ∧ (∀ other, s.cell? other ≠ some cell) ∧
    next.cells.target? = s.cells.target?
  /-- A further name of a cell is a name of that very cell. -/
  clones : ∀ {name existing cell}, s.cell? existing = some cell →
    ∃ next, s.perform (.alias name existing) = some (.done, [], next) ∧
      next.cell? name = some cell ∧ next.cells = s.cells
  /-- A name means the same until it is given again. -/
  keeps : ∀ {command reply records next name},
    s.perform command = some (reply, records, next) → command.given? ≠ some name →
      next.find? name = s.find? name
  /-- A rule that is built from a name of a cell refers to the cell. -/
  refers : ∀ {name cell}, s.cell? name = some cell → s.handle? name = some { rule := .ref cell }
  /-- All names of a cell tell alike whether it is bound. -/
  tells : ∀ {name cell}, s.cell? name = some cell →
    s.perform (.isBound name) = some (.truth (first cell).isSome, [], s)
  /-- The first attempt to bind a cell succeeds under each of its names, and changes no other
  cell. -/
  binds : ∀ {name cell}, s.cell? name = some cell → first cell = none → ∀ rule,
    ∃ next, s.perform (.bind name rule) = some (.done, [.bound], next) ∧
      s.perform (.bindStrictly name rule) = some (.done, [.bound], next) ∧
      next.cells.target? cell = some rule ∧
      ∀ other, other ≠ cell → next.cells.target? other = first other
  /-- Every other attempt is refused under each of the names, and changes nothing. -/
  refuses : ∀ {name cell target}, s.cell? name = some cell → first cell = some target → ∀ rule,
    s.perform (.bind name rule) = some (.refused .alreadyBound, [], s) ∧
      s.perform (.bindStrictly name rule) = some (.stopped .alreadyBound, [], s)
  /-- Running a rule changes nothing. -/
  runs : ∀ rule input,
    s.perform (.run rule input) = some (.matched (rule.parse s.cells { input }).outcome,
      (rule.parse s.cells { input }).trace, s) ∧
    s.perform (.parse rule input) = some (.parsed (rule.parseInput s.cells input).outcome,
      (rule.parseInput s.cells input).trace, s)
  /-- All references in a rule, whenever it was built, lead to the first rules of their cells. -/
  delegates : ∀ (rule : Rule) (depth : Nat),
    rule.parseWithin s.cells (depth + 1) = rule.eval fun cell =>
      match first cell with
      | some target => target.parseWithin s.cells depth
      | none => fun _ => Run.misuse .unbound
  /-- A reference to a cell that is not bound is a misuse. -/
  unbound : ∀ {cell}, first cell = none → ∀ c,
    (Rule.ref cell).parse s.cells c = Run.misuse .unbound
  /-- A reference to a bound cell runs as the first rule does, and leaves the same trace unless that
  run never ends. -/
  bound : ∀ {cell target}, first cell = some target → ∀ c, c.WellFormed →
    ((Rule.ref cell).parse s.cells c).outcome = (target.parse s.cells c).outcome ∧
      ((target.parse s.cells c).outcome ≠ .endless →
        ((Rule.ref cell).parse s.cells c).trace = (target.parse s.cells c).trace)
  /-- Whatever comes next, a cell with a rule keeps it. -/
  lasts : ∀ {cell target}, first cell = some target → ∀ {commands later},
    s.after commands = some later →
      later.cells.target? cell = some target ∧
      ∀ name, later.cell? name = some cell →
        later.perform (.isBound name) = some (.truth true, [], later)

/-- **A cell stands for the rule that it was to be bound to first**, in every session. -/
theorem writeOnce_after (commands : List Command) {s : Session}
    (h : Session.after {} commands = some s) :
    s.WriteOnce fun cell => (Session.attempts {} commands).lookup cell := by
  have stands : ∀ cell, s.cells.target? cell = (Session.attempts {} commands).lookup cell :=
    fun cell => target?_after h cell
  have allotted : s.Allotted := allotted_after h allotted_empty
  exact
    { stands := stands
      declares := fun name =>
        ⟨⟨s.cells.count⟩, s.declare name, rfl, cell?_assign_self ..,
          (stands _).symm.trans allotted.target?_new, allotted.cell?_ne_new, rfl⟩
      clones := fun {name existing cell} hcell =>
        ⟨s.assign name (.cell cell), by simp [perform, hcell], cell?_assign_self .., rfl⟩
      keeps := find?_perform
      refers := handle?_of_cell?
      tells := fun {name cell} hcell => by
        rw [perform_isBound hcell, Cells.isBound, stands]
      binds := fun {name cell} hcell hfirst rule => by
        have hbind := (Cells.bind_eq_ok_iff s.cells cell rule _).mpr
          ⟨(stands cell).trans hfirst, rfl⟩
        refine ⟨_, perform_of_unbound (attempt?_eq_some_iff.mpr ⟨name, hcell, .inl rfl⟩) hbind,
          perform_of_unbound (attempt?_eq_some_iff.mpr ⟨name, hcell, .inr rfl⟩) hbind,
          Cells.target?_bind_self hbind, fun other hother => ?_⟩
        exact (Cells.target?_bind_of_ne hbind hother).trans (stands other)
      refuses := fun {name cell target} hcell hfirst rule => by
        have hbound : s.cells.isBound cell := by
          rw [Cells.isBound, stands, hfirst]
          rfl
        simp [perform, hcell, bind, (Cells.bind_eq_error_iff ..).mpr ⟨hbound, rfl⟩]
      runs := fun rule input => ⟨rfl, rfl⟩
      delegates := fun rule depth => by
        simp only [← stands]
        rfl
      unbound := fun hfirst c => Rule.parse_ref_of_unbound ((stands _).trans hfirst) c
      bound := fun hfirst c hc => Rule.parse_ref ((stands _).trans hfirst) hc
      lasts := fun {cell target} hfirst {commands later} hlater => by
        have hkept : later.cells.target? cell = some target := by
          rw [target?_after hlater, stands, hfirst]
          rfl
        refine ⟨hkept, fun name hname => ?_⟩
        rw [perform_isBound hname, Cells.isBound, hkept]
        rfl }

/-- A list of letters that is built before it is said what a letter is. -/
def lettersFirst : List Command :=
  [.declare "letter", .define "letters" { rule := .many (.ref ⟨0⟩) }, .alias "sign" "letter",
    .bind "sign" (.byte 0x61), .run (.many (.ref ⟨0⟩)) #[0x61, 0x62],
    .bind "letter" (.byte 0x62), .bindStrictly "sign" (.byte 0x63)]

/-- A letter is what it was said to be first, under its other name. -/
theorem writeOnce_after_lettersFirst :
    ∃ s, Session.after {} lettersFirst = some s ∧
      s.WriteOnce fun cell =>
        [(⟨0⟩, .byte 0x61), (⟨0⟩, .byte 0x62), (⟨0⟩, .byte 0x63)].lookup cell :=
  ⟨_, rfl, writeOnce_after lettersFirst rfl⟩

end Session

end BitGrammar
