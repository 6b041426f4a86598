import BitGrammar.Proofs.Settling
import Mathlib.Data.Finset.Card
import Mathlib.Data.Finset.Dedup

/-!
# Guarded recursion ends

A grammar may refer to itself. When every way back into a cell goes through something that
consumes input, or through cells of lower and lower rank, its runs end, and the number of nested
entries into cells is bounded by the number of bits that remain.

## What decides the design

Whether an entry into a cell can happen where the target of an outer cell was started is a matter
of what stands before the reference. `Rule.Exposes` follows a rule from the whole to the parts that
can run where the whole was started. A part behind a component that always consumes is not
exposed, in a sequence and in the other rules that run their components one after another. All
other rules expose all their parts, as a later round or a later member can only start further on.

Ranks are counted, not measured: `Cells.level` is the number of ranks below that of a cell. A nested
entry lowers the level or leaves fewer bits, so that bits that remain times the number of ranks,
plus the level, goes down with each of them.

## Main definitions

* `Cells.Consumes`: a rule moves on whenever it succeeds
* `Rule.Exposes`: a reference can run where a rule was started
* `Cells.Guarded`: the ranks of cells fall along exposed references

## Main results

* `Rule.settlesAt_eval`: a rule settles when its references do, exposed ones earlier than others
* `Rule.parse_ends_of_guarded`: runs of guarded grammars end within a bound on nested entries
-/

namespace BitGrammar

/-! ### Exposed references -/

namespace Rule

/-- The part can run where the whole is started: no component before it always consumes. -/
def ExposesPart (consumes : Rule → Prop) (whole part : Rule) : Prop :=
  match whole with
  | .sequence rules =>
    ∃ before after, rules = before ++ part :: after ∧ ∀ rule ∈ before, ¬ consumes rule
  | .left first second | .right first second | .sepBy first second | .sepBy1 first second
  | .lengthValue first second => part = first ∨ part = second ∧ ¬ consumes first
  | .middle opening content closing =>
    part = opening ∨ part = content ∧ ¬ consumes opening ∨
      part = closing ∧ ¬ consumes opening ∧ ¬ consumes content
  | whole => whole.HasPart part

/-- A reference to a cell can run where a rule is started. -/
def Exposes (consumes : Rule → Prop) (rule : Rule) (cell : Cell) : Prop :=
  Relation.ReflTransGen (ExposesPart consumes) rule (.ref cell)

variable {consumes : Rule → Prop} {whole part : Rule} {cell : Cell}

theorem ExposesPart.hasPart (h : ExposesPart consumes whole part) : whole.HasPart part := by
  cases whole with
  | sequence rules =>
    obtain ⟨before, after, rfl, -⟩ := h
    exact List.mem_append_right _ (List.mem_cons_self ..)
  | left | right | sepBy | sepBy1 | lengthValue => exact h.imp_right And.left
  | middle => exact h.imp_right (Or.imp And.left And.left)
  | _ => exact h

theorem exposes_iff : whole.Exposes consumes cell ↔
    whole = .ref cell ∨ ∃ part, whole.ExposesPart consumes part ∧ part.Exposes consumes cell :=
  Relation.ReflTransGen.cases_head_iff

theorem Exposes.contains (h : Exposes consumes whole cell) : whole.Contains (.ref cell) :=
  Relation.ReflTransGen.mono (fun _ _ => ExposesPart.hasPart) _ _ h

end Rule

/-! ### Rules whose references settle -/

/-- The references of a rule settle: the exposed ones from a position on, and all of them further
on. Nothing in the rule moves backwards or makes rules. -/
structure Rule.Ready (consumes : Rule → Prop) (call : Cell → Parser) (input : Array UInt8)
    (first : Nat) (rule : Rule) : Prop where
  noSeek : ∀ offset anchor, ¬ rule.Contains (.seek offset anchor)
  noContinuation : ∀ name continuation inner, ¬ rule.Contains (.andThen name continuation inner)
  exposed : ∀ cell, rule.Exposes consumes cell → ∀ d, d.Within input first →
    (call cell).SettlesAt d
  further : ∀ cell, rule.Contains (.ref cell) → ∀ d, d.Within input (first + 1) →
    (call cell).SettlesAt d

namespace Rule.Ready

variable {consumes : Rule → Prop} {call : Cell → Parser} {input : Array UInt8} {first : Nat}
  {whole part : Rule}

theorem exposedPart (h : whole.Ready consumes call input first)
    (hp : whole.ExposesPart consumes part) : part.Ready consumes call input first where
  noSeek offset anchor hi := h.noSeek offset anchor (.of_part hp.hasPart hi)
  noContinuation name k inner hi := h.noContinuation name k inner (.of_part hp.hasPart hi)
  exposed cell he := h.exposed cell (.head hp he)
  further cell hi := h.further cell (.of_part hp.hasPart hi)

theorem furtherPart (h : whole.Ready consumes call input first) (hp : whole.HasPart part) :
    part.Ready consumes call input (first + 1) where
  noSeek offset anchor hi := h.noSeek offset anchor (.of_part hp hi)
  noContinuation name k inner hi := h.noContinuation name k inner (.of_part hp hi)
  exposed cell he := h.further cell (.of_part hp he.contains)
  further cell hi d hd :=
    h.further cell (.of_part hp hi) d ⟨hd.input_eq, Nat.le_of_succ_le hd.first_le, hd.wellFormed⟩

end Rule.Ready

namespace Rule

variable {consumes : Rule → Prop} {call : Cell → Parser} {input : Array UInt8} {first : Nat}

/-- A component settles behind an earlier one: there it is exposed, or further on. -/
theorem Ready.settlesAt_behind
    (advance : ∀ rule, consumes rule → ∀ d m, d.Within input 0 →
      (rule.eval call d).outcome = .ok m → d.position < m.next.position)
    {whole earlier later : Rule} (h : whole.Ready consumes call input first)
    (hpart : whole.HasPart later) (hexposed : ¬ consumes earlier → whole.ExposesPart consumes later)
    (ih : ∀ {first : Nat}, later.Ready consumes call input first → ∀ {d : Cursor},
      d.Within input first → (later.eval call).SettlesAt d)
    {c : Cursor} (hc : c.Within input first) {m : Match}
    (hm : (earlier.eval call c).outcome = .ok m) (ahead : c.Ahead m.next) {d : Cursor}
    (hd : m.next.Ahead d) : (later.eval call).SettlesAt d := by
  have hnext := hd.within (ahead.within hc)
  by_cases hcons : consumes earlier
  · refine ih (h.furtherPart hpart) ⟨hnext.input_eq, ?_, hnext.wellFormed⟩
    have := advance earlier hcons c m ⟨hc.input_eq, Nat.zero_le _, hc.wellFormed⟩ hm
    have := hc.first_le
    have := hd.first_le
    omega
  · exact ih (h.exposedPart (hexposed hcons)) hnext

/-- The components of a sequence settle in turn. Those in front of the rest may have consumed. -/
theorem Ready.settleInTurn
    (advance : ∀ rule, consumes rule → ∀ d m, d.Within input 0 →
      (rule.eval call d).outcome = .ok m → d.position < m.next.position)
    {rules : List Rule} (h : (Rule.sequence rules).Ready consumes call input first)
    (ih : ∀ rule ∈ rules, ∀ {first : Nat} {d : Cursor}, rule.Ready consumes call input first →
      d.Within input first → (rule.eval call).SettlesAt d)
    {before rest : List Rule} (hrules : rules = before ++ rest) {d : Cursor}
    (hd : d.Within input first)
    (hfurther : (∃ rule ∈ before, consumes rule) → d.Within input (first + 1)) :
    Parser.SettleInTurn (rest.map (eval call)) d := by
  induction rest generalizing before d with
  | nil => trivial
  | cons rule rest ihrest =>
    have hmem : rule ∈ rules := hrules ▸ List.mem_append_right _ (List.mem_cons_self ..)
    have hsettles : (rule.eval call).SettlesAt d := by
      by_cases hbefore : ∃ rule ∈ before, consumes rule
      · exact ih rule hmem (h.furtherPart hmem) (hfurther hbefore)
      · have hnone : ∀ rule ∈ before, ¬ consumes rule :=
          fun rule hr hcons => hbefore ⟨rule, hr, hcons⟩
        exact ih rule hmem (h.exposedPart ⟨before, rest, hrules, hnone⟩) hd
    refine ⟨hsettles, fun m hm => ?_⟩
    have ahead := hsettles.of_ok hm
    have hrules' : rules = (before ++ [rule]) ++ rest := by
      rw [hrules, List.append_assoc, List.singleton_append]
    refine ihrest hrules' (ahead.within hd) ?_
    rintro ⟨earlier, hearlier, hcons⟩
    rcases List.mem_append.mp hearlier with hin | hlast
    · exact ahead.within (hfurther ⟨earlier, hin, hcons⟩)
    · obtain rfl := List.mem_singleton.mp hlast
      have hlt := advance earlier hcons d m ⟨hd.input_eq, Nat.zero_le _, hd.wellFormed⟩ hm
      exact ⟨(ahead.within hd).input_eq, Nat.le_trans (Nat.succ_le_succ hd.first_le) hlt,
        ahead.wellFormed⟩

/-- **A rule settles when its references do**, as long as exposed references settle from where the
rule is started, and the others behind what consumes. -/
theorem settlesAt_eval
    (advance : ∀ rule, consumes rule → ∀ d m, d.Within input 0 →
      (rule.eval call d).outcome = .ok m → d.position < m.next.position)
    {rule : Rule} (h : rule.Ready consumes call input first) {c : Cursor}
    (hc : c.Within input first) : (rule.eval call).SettlesAt c := by
  induction rule generalizing first c with
  | byte | byteRange | byteIn | literal | take | bits | skip | tell | epsilon | nothing | finish =>
    exact Parser.settlesAt_leaf hc.wellFormed rfl (fun _ _ => Rule.noConfusion) call
  | seek offset anchor => exact absurd (contains_self _) (h.noSeek offset anchor)
  | sequence rules ih =>
    rw [eval, evalList_eq_map]
    refine Parser.settlesAt_sequence hc.wellFormed ?_
    refine h.settleInTurn advance (fun rule hr _ _ hready => ih rule hr hready)
      (List.nil_append rules).symm hc ?_
    rintro ⟨rule, hr, -⟩
    cases hr
  | choice rules ih =>
    rw [eval, evalList_eq_map]
    refine Parser.settlesAt_choice fun p hp => ?_
    obtain ⟨rule, hr, rfl⟩ := List.mem_map.mp hp
    exact ih rule hr (h.exposedPart hr) hc
  | permutation rules ih =>
    rw [eval, evalList_eq_map]
    refine Parser.settlesAt_permutation hc.wellFormed fun p hp d hd => ?_
    obtain ⟨rule, hr, rfl⟩ := List.mem_map.mp hp
    exact ih rule hr (h.exposedPart hr) (hd.within hc)
  | left keep drop ih ih' =>
    have hkeep := ih (h.exposedPart (.inl rfl)) hc
    refine Parser.settlesAt_left hkeep fun m hm => ?_
    have ahead := hkeep.of_ok hm
    exact h.settlesAt_behind advance (.inr rfl) (fun hn => .inr ⟨rfl, hn⟩) ih' hc hm ahead
      ahead.wellFormed.ahead
  | right drop keep ih ih' =>
    have hdrop := ih (h.exposedPart (.inl rfl)) hc
    refine Parser.settlesAt_right hdrop fun m hm => ?_
    have ahead := hdrop.of_ok hm
    exact h.settlesAt_behind advance (.inr rfl) (fun hn => .inr ⟨rfl, hn⟩) ih' hc hm ahead
      ahead.wellFormed.ahead
  | middle opening content closing ih ih' ih'' =>
    have hopening := ih (h.exposedPart (.inl rfl)) hc
    have hcontent : ∀ m, (opening.eval call c).outcome = .ok m →
        (content.eval call).SettlesAt m.next := by
      intro m hm
      have ahead := hopening.of_ok hm
      exact h.settlesAt_behind advance (.inr (.inl rfl)) (fun hn => .inr (.inl ⟨rfl, hn⟩)) ih' hc
        hm ahead ahead.wellFormed.ahead
    refine Parser.settlesAt_middle hopening hcontent fun m n hm hn => ?_
    have ahead := hopening.of_ok hm
    have ahead' := (hcontent m hm).of_ok hn
    by_cases hcons : consumes opening
    · exact h.settlesAt_behind advance (.inr (.inr rfl)) (absurd hcons) ih'' hc hm ahead ahead'
    · exact h.settlesAt_behind advance (.inr (.inr rfl)) (fun hn => .inr (.inr ⟨rfl, hcons, hn⟩))
        ih'' (ahead.within hc) hn ahead' ahead'.wellFormed.ahead
  | ignore _ ih => exact Parser.settlesAt_ignore (ih (h.exposedPart rfl) hc)
  | optional _ ih => exact Parser.settlesAt_optional hc.wellFormed (ih (h.exposedPart rfl) hc)
  | followedBy _ ih => exact Parser.settlesAt_followedBy hc.wellFormed (ih (h.exposedPart rfl) hc)
  | notFollowedBy _ ih =>
    exact Parser.settlesAt_notFollowedBy hc.wellFormed (ih (h.exposedPart rfl) hc)
  | butNot _ _ ih ih' =>
    rw [eval, Parser.butNot]
    exact Parser.settlesAt_excluding _ (ih (h.exposedPart (.inl rfl)) hc)
      (ih' (h.exposedPart (.inr rfl)) hc)
  | difference _ _ ih ih' =>
    rw [eval, Parser.difference]
    exact Parser.settlesAt_excluding _ (ih (h.exposedPart (.inl rfl)) hc)
      (ih' (h.exposedPart (.inr rfl)) hc)
  | exclusiveOr _ _ ih ih' =>
    exact Parser.settlesAt_exclusiveOr (ih (h.exposedPart (.inl rfl)) hc)
      (ih' (h.exposedPart (.inr rfl)) hc)
  | many _ ih | many1 _ ih =>
    exact Parser.settlesAt_atLeast hc.wellFormed
      (fun d hd => ih (h.exposedPart rfl) (hd.within hc)) _
  | times _ count ih =>
    exact Parser.settlesAt_times hc.wellFormed
      (fun d hd => ih (h.exposedPart rfl) (hd.within hc)) count
  | sepBy item separator ih ih' | sepBy1 item separator ih ih' =>
    have hitem : ∀ d, c.Ahead d → (item.eval call).SettlesAt d :=
      fun d hd => ih (h.exposedPart (.inl rfl)) (hd.within hc)
    refine Parser.settlesAt_separated hc.wellFormed hitem (fun d m hd hm => ?_) _
    have ahead := (hitem d hd).of_ok hm
    exact h.settlesAt_behind advance (.inr rfl) (fun hn => .inr ⟨rfl, hn⟩) ih' (hd.within hc) hm
      ahead ahead.wellFormed.ahead
  | lengthValue length _ ih ih' =>
    have hlength := ih (h.exposedPart (.inl rfl)) hc
    refine Parser.settlesAt_lengthValue hlength fun m hm d hd => ?_
    exact h.settlesAt_behind advance (.inr rfl) (fun hn => .inr ⟨rfl, hn⟩) ih' hc hm
      (hlength.of_ok hm) hd
  | whitespace _ ih =>
    exact Parser.settlesAt_whitespace hc.wellFormed
      fun d hd => ih (h.exposedPart rfl) (hd.within hc)
  | withOrder order _ ih =>
    exact Parser.settlesAt_withOrder order (ih (h.exposedPart rfl) (hc.withOrder order))
  | map name f _ ih => exact Parser.settlesAt_map name f (ih (h.exposedPart rfl) hc)
  | filter name accept _ ih =>
    exact Parser.settlesAt_filter name accept (ih (h.exposedPart rfl) hc)
  | andThen name continuation inner =>
    exact absurd (contains_self _) (h.noContinuation name continuation inner)
  | inRange lower upper _ _ ih =>
    exact Parser.settlesAt_inRange lower upper (ih (h.exposedPart rfl) hc)
  | ref cell => exact h.exposed cell .refl c hc
  | misuse what => exact .misuse what

end Rule

/-! ### Guarded grammars -/

namespace Cells

/-- A rule moves on by at least one bit every time it succeeds. -/
def Consumes (cells : Cells) (rule : Rule) : Prop :=
  ∀ c m, c.WellFormed → (rule.parse cells c).outcome = .ok m → c.position < m.next.position

/-- The distinct ranks of the bound cells. -/
def ranks (cells : Cells) (rank : Cell → Nat) : Finset Nat :=
  (cells.bindings.map fun binding => rank binding.1).toFinset

/-- The number of ranks below that of a cell. -/
def level (cells : Cells) (rank : Cell → Nat) (cell : Cell) : Nat :=
  ((cells.ranks rank).filter (· < rank cell)).card

/-- A rule of a grammar without `seek` and `andThen`, all of whose cells are bound, such that ranks
fall along exposed references. -/
structure Guarded (cells : Cells) (rank : Cell → Nat) (rule : Rule) : Prop where
  noSeek : ∀ offset anchor, ¬ cells.Reaches rule (.seek offset anchor)
  noContinuation : ∀ name continuation inner,
    ¬ cells.Reaches rule (.andThen name continuation inner)
  bound : ∀ cell, cells.Reaches rule (.ref cell) → cells.isBound cell
  rank_lt : ∀ cell target inner, cells.target? cell = some target →
    target.Exposes cells.Consumes inner → rank inner < rank cell

variable {cells : Cells} {rank : Cell → Nat} {rule : Rule}

theorem rank_mem_ranks {cell : Cell} {target : Rule} (h : cells.target? cell = some target) :
    rank cell ∈ cells.ranks rank := by
  rw [ranks, List.mem_toFinset]
  exact List.mem_map_of_mem (mem_bindings_of_target? h)

theorem level_lt_card {cell : Cell} {target : Rule} (h : cells.target? cell = some target) :
    cells.level rank cell < (cells.ranks rank).card := by
  refine Finset.card_lt_card (Finset.filter_ssubset.mpr ?_)
  exact ⟨rank cell, rank_mem_ranks h, Nat.lt_irrefl _⟩

theorem level_lt_level {cell inner : Cell} {target : Rule} (h : cells.target? inner = some target)
    (hlt : rank inner < rank cell) : cells.level rank inner < cells.level rank cell := by
  refine Finset.card_lt_card ((Finset.ssubset_iff_of_subset ?_).mpr ?_)
  · intro r hr
    rw [Finset.mem_filter] at hr ⊢
    exact ⟨hr.1, Nat.lt_trans hr.2 hlt⟩
  · refine ⟨rank inner, Finset.mem_filter.mpr ⟨rank_mem_ranks h, hlt⟩, fun hr => ?_⟩
    exact Nat.lt_irrefl _ (Finset.mem_filter.mp hr).2

/-- The nested entries that the bits behind a cursor and the level of a cell can call for are fewer
than a number. -/
def Affords (cells : Cells) (rank : Cell → Nat) (depth : Nat) (c : Cursor) (cell : Cell) : Prop :=
  c.remaining * (cells.ranks rank).card + cells.level rank cell < depth

/-- An entry into a cell of lower level at the same place, or further on, calls for less. -/
theorem Affords.of_level_lt {depth : Nat} {c d : Cursor} {cell inner : Cell}
    (h : cells.Affords rank (depth + 1) c cell) (ahead : c.Ahead d)
    (hlevel : cells.level rank inner < cells.level rank cell) :
    cells.Affords rank depth d inner := by
  have hrem := ahead.remaining_add
  have hle : d.remaining * (cells.ranks rank).card ≤ c.remaining * (cells.ranks rank).card :=
    Nat.mul_le_mul_right _ (by omega)
  rw [Affords] at *
  omega

/-- An entry where fewer bits remain calls for less. -/
theorem Affords.of_position_lt {depth : Nat} {c d : Cursor} {cell inner : Cell}
    (h : cells.Affords rank (depth + 1) c cell) (ahead : c.Ahead d) (hlt : c.position < d.position)
    (hlevel : cells.level rank inner < (cells.ranks rank).card) :
    cells.Affords rank depth d inner := by
  have hrem := ahead.remaining_add
  have hle : (d.remaining + 1) * (cells.ranks rank).card ≤ c.remaining * (cells.ranks rank).card :=
    Nat.mul_le_mul_right _ (by omega)
  rw [Nat.succ_mul] at hle
  rw [Affords] at *
  omega

theorem Consumes.lt (h : cells.Consumes rule) {depth : Nat} {c : Cursor} {m : Match}
    (hc : c.WellFormed) (hdepth : depth ≤ Rule.depthBound cells c)
    (hm : (rule.parseWithin cells depth c).outcome = .ok m) : c.position < m.next.position := by
  refine h c m hc ?_
  rcases Rule.parseWithin_mono cells hdepth rule hc with heq | hendless
  · rw [Rule.parse, ← heq]
    exact hm
  · rw [hendless] at hm
    cases hm

/-- Every cell that can be entered can afford it. -/
structure Budget (cells : Cells) (rank : Cell → Nat) (depth : Nat) (input : Array UInt8)
    (first : Nat) (rule : Rule) : Prop where
  exposed : ∀ cell, rule.Exposes cells.Consumes cell → ∀ d, d.Within input first →
    cells.Affords rank depth d cell
  further : ∀ cell, rule.Contains (.ref cell) → ∀ d, d.Within input (first + 1) →
    cells.Affords rank depth d cell

variable {start : Rule} {input : Array UInt8} {first depth : Nat}

theorem Guarded.level_lt_card (h : cells.Guarded rank start) {cell : Cell}
    (hreach : cells.Reaches start (.ref cell)) :
    cells.level rank cell < (cells.ranks rank).card := by
  obtain ⟨target, ht⟩ := Option.isSome_iff_exists.mp (h.bound cell hreach)
  exact Cells.level_lt_card ht

/-- The target of a cell that can be afforded can be afforded with one entry less. -/
theorem Guarded.budget_target (h : cells.Guarded rank start) {cell : Cell} {target : Rule}
    (hreach : cells.Reaches start target) (ht : cells.target? cell = some target) {c : Cursor}
    (afford : cells.Affords rank (depth + 1) c cell) :
    cells.Budget rank depth c.input c.position target where
  exposed inner hexposed d hd := by
    have hinner := hreach.trans (Reaches.of_contains hexposed.contains)
    obtain ⟨target', ht'⟩ := Option.isSome_iff_exists.mp (h.bound inner hinner)
    exact afford.of_level_lt hd (level_lt_level ht' (h.rank_lt cell target inner ht hexposed))
  further inner hcontains d hd := by
    have hinner := hreach.trans (Reaches.of_contains hcontains)
    have ahead : c.Ahead d := ⟨hd.input_eq, Nat.le_of_succ_le hd.first_le, hd.wellFormed⟩
    exact afford.of_position_lt ahead hd.first_le (h.level_lt_card hinner)

/-- A rule settles when its references settle as far as they can be afforded. -/
theorem Guarded.settlesAt_eval (h : cells.Guarded rank start) {call : Cell → Parser}
    (hcall : ∀ rule : Rule, rule.parseWithin cells depth = rule.eval call)
    (hdepth : ∀ c : Cursor, c.input = input → depth ≤ Rule.depthBound cells c)
    (settles : ∀ cell, cells.Reaches start (.ref cell) → ∀ d : Cursor, d.Within input 0 →
      cells.Affords rank depth d cell → (call cell).SettlesAt d)
    (hreach : cells.Reaches start rule) (budget : cells.Budget rank depth input first rule)
    {c : Cursor} (hc : c.Within input first) : (rule.parseWithin cells depth).SettlesAt c := by
  have reaches : ∀ {inner}, rule.Contains inner → cells.Reaches start inner :=
    fun hi => hreach.trans (Reaches.of_contains hi)
  have ready : rule.Ready cells.Consumes call input first := by
    refine ⟨fun offset anchor hi => h.noSeek offset anchor (reaches hi), ?_, ?_, ?_⟩
    · intro name continuation inner hi
      exact h.noContinuation name continuation inner (reaches hi)
    · intro cell hexposed d hd
      exact settles cell (reaches hexposed.contains) d
        ⟨hd.input_eq, Nat.zero_le _, hd.wellFormed⟩ (budget.exposed cell hexposed d hd)
    · intro cell hcontains d hd
      exact settles cell (reaches hcontains) d
        ⟨hd.input_eq, Nat.zero_le _, hd.wellFormed⟩ (budget.further cell hcontains d hd)
  rw [hcall]
  refine Rule.settlesAt_eval (fun inner hcons d m hd hm => ?_) ready hc
  rw [← hcall] at hm
  exact hcons.lt hd.wellFormed (hdepth d hd.input_eq) hm

/-- **Guarded rules settle** within a depth that their references can afford. The induction is on
the depth: an entry into a cell leaves one less, and the target of the cell can afford that. -/
theorem Guarded.settlesAt_parseWithin (h : cells.Guarded rank start)
    (hdepth : ∀ c : Cursor, c.input = input → depth ≤ Rule.depthBound cells c)
    (hreach : cells.Reaches start rule) (budget : cells.Budget rank depth input first rule)
    {c : Cursor} (hc : c.Within input first) : (rule.parseWithin cells depth).SettlesAt c := by
  induction depth generalizing rule first c with
  | zero =>
    refine h.settlesAt_eval (fun _ => rfl) hdepth (fun cell _ d _ afford => ?_) hreach budget hc
    exact absurd afford (Nat.not_lt_zero _)
  | succ depth ih =>
    refine h.settlesAt_eval (fun _ => rfl) hdepth (fun cell hcell d hd afford => ?_) hreach budget
      hc
    obtain ⟨target, ht⟩ := Option.isSome_iff_exists.mp (h.bound cell hcell)
    have htarget : cells.Reaches start target := hcell.tail (.inr ⟨cell, rfl, ht⟩)
    have hsmaller : ∀ c : Cursor, c.input = input → depth ≤ Rule.depthBound cells c :=
      fun c hc => Nat.le_of_succ_le (hdepth c hc)
    have hbudget := h.budget_target htarget ht afford
    rw [hd.input_eq] at hbudget
    rw [ht]
    exact ih hsmaller htarget hbudget ⟨hd.input_eq, Nat.le_refl _, hd.wellFormed⟩

/-- At the start there is one more than the bits that remain, times the number of ranks. -/
theorem Guarded.budget_start (h : cells.Guarded rank start) (c : Cursor) :
    cells.Budget rank ((c.remaining + 1) * (cells.ranks rank).card) c.input c.position start := by
  have affords : ∀ cell, start.Contains (.ref cell) → ∀ d, c.Ahead d →
      cells.Affords rank ((c.remaining + 1) * (cells.ranks rank).card) d cell := by
    intro cell hcontains d hd
    have hlevel := h.level_lt_card (Reaches.of_contains hcontains)
    have hrem := hd.remaining_add
    have hle : d.remaining * (cells.ranks rank).card ≤ c.remaining * (cells.ranks rank).card :=
      Nat.mul_le_mul_right _ (by omega)
    rw [Affords, Nat.succ_mul]
    omega
  refine ⟨fun cell hexposed d hd => affords cell hexposed.contains d hd, ?_⟩
  intro cell hcontains d hd
  exact affords cell hcontains d ⟨hd.input_eq, Nat.le_of_succ_le hd.first_le, hd.wellFormed⟩

/-- The bound on the depth of runs leaves room for it. -/
theorem budget_le_depthBound (cells : Cells) (rank : Cell → Nat) {c d : Cursor}
    (hinput : d.input = c.input) :
    (c.remaining + 1) * (cells.ranks rank).card ≤ Rule.depthBound cells d := by
  have hcard : (cells.ranks rank).card ≤ cells.bindings.length := by
    have := List.toFinset_card_le (cells.bindings.map fun binding => rank binding.1)
    rwa [List.length_map] at this
  have hpositions : c.remaining + 1 ≤ d.positions := by
    rw [Cursor.positions, Cursor.size, hinput]
    exact Nat.succ_le_succ (Nat.sub_le _ _)
  calc (c.remaining + 1) * (cells.ranks rank).card
      ≤ d.positions * cells.bindings.length := Nat.mul_le_mul hpositions hcard
    _ = 1 * cells.bindings.length * d.positions := by rw [Nat.one_mul, Nat.mul_comm]
    _ ≤ 4 * cells.bindings.length * d.positions :=
      Nat.mul_le_mul_right _ (Nat.mul_le_mul_right _ (by decide))
    _ ≤ Rule.depthBound cells d := Nat.le_succ _

end Cells

namespace Rule

/-- **Guarded recursion ends.** When the ranks of cells fall along exposed references, every run is
over after finitely many steps, and never has more nested entries into cells than one more than the
bits that remain, times the number of distinct ranks. -/
theorem parse_ends_of_guarded (cells : Cells) (rank : Cell → Nat) (rule : Rule)
    (h : cells.Guarded rank rule) (c : Cursor) (hc : c.WellFormed) :
    (rule.parse cells c).outcome ≠ .endless ∧
      ∀ depth, (c.remaining + 1) * (cells.ranks rank).card ≤ depth →
        rule.parseWithin cells depth c = rule.parse cells c := by
  have settles := h.settlesAt_parseWithin
    (fun d hd => Cells.budget_le_depthBound cells rank hd) .refl (h.budget_start c)
    (hc.within (Nat.le_refl _))
  have stable : ∀ depth, (c.remaining + 1) * (cells.ranks rank).card ≤ depth →
      rule.parseWithin cells depth c =
        rule.parseWithin cells ((c.remaining + 1) * (cells.ranks rank).card) c := by
    intro depth hdepth
    rcases parseWithin_mono cells hdepth rule hc with heq | hendless
    · exact heq.symm
    · exact absurd hendless settles.ne_endless
  have hparse := stable (depthBound cells c) (Cells.budget_le_depthBound cells rank rfl)
  refine ⟨?_, fun depth hdepth => (stable depth hdepth).trans hparse.symm⟩
  rw [parse, hparse]
  exact settles.ne_endless

/-! ### Nested lists -/

/-- A list in parentheses. -/
def bracketedList : Rule :=
  .middle (.byte 0x28) (.ref ⟨0⟩) (.byte 0x29)

/-- Lists, in the first cell, of letters and of lists in parentheses, in the second. -/
def nestedLists : Cells where
  count := 2
  bindings := [(⟨0⟩, .many (.ref ⟨1⟩)), (⟨1⟩, .choice [bracketedList, .byte 0x61])]

/-- A list comes to an item before anything is consumed, and an item comes to a list behind an
opening parenthesis only. -/
def nestedRank (cell : Cell) : Nat :=
  1 - cell.index

theorem consumes_byte (cells : Cells) (expected : UInt8) : cells.Consumes (.byte expected) := by
  intro c m hc hm
  obtain ⟨next, head, rfl⟩ := Parser.outcome_byte_eq_ok_iff.mp hm
  obtain ⟨-, -, rfl⟩ := Cursor.readByte_eq_ok head
  exact Nat.lt_add_of_pos_right (by decide)

theorem target?_nestedLists {cell : Cell} {target : Rule}
    (h : nestedLists.target? cell = some target) :
    cell = ⟨0⟩ ∧ target = .many (.ref ⟨1⟩) ∨
      cell = ⟨1⟩ ∧ target = .choice [bracketedList, .byte 0x61] := by
  have hmem := Cells.mem_bindings_of_target? h
  simpa [nestedLists] using hmem

/-- What the grammar of nested lists reaches. -/
theorem nestedLists_reaches {rule : Rule} (h : nestedLists.Reaches (.ref ⟨0⟩) rule) :
    rule = .ref ⟨0⟩ ∨ rule = .ref ⟨1⟩ ∨ rule = .many (.ref ⟨1⟩) ∨
      rule = .choice [bracketedList, .byte 0x61] ∨ rule = bracketedList ∨ ∃ b, rule = .byte b := by
  induction h with
  | refl => exact .inl rfl
  | @tail rule next _ step ih =>
    rcases step with hpart | ⟨cell, rfl, ht⟩
    · rcases ih with rfl | rfl | rfl | rfl | rfl | ⟨b, rfl⟩
      · cases hpart
      · cases hpart
      · exact .inr (.inl hpart)
      · rcases List.mem_cons.mp hpart with rfl | hbyte
        · exact .inr (.inr (.inr (.inr (.inl rfl))))
        · exact .inr (.inr (.inr (.inr (.inr ⟨_, List.mem_singleton.mp hbyte⟩))))
      · rcases hpart with rfl | rfl | rfl
        · exact .inr (.inr (.inr (.inr (.inr ⟨_, rfl⟩))))
        · exact .inl rfl
        · exact .inr (.inr (.inr (.inr (.inr ⟨_, rfl⟩))))
      · cases hpart
    · rcases target?_nestedLists ht with ⟨-, rfl⟩ | ⟨-, rfl⟩
      · exact .inr (.inr (.inl rfl))
      · exact .inr (.inr (.inr (.inl rfl)))

theorem nestedLists_guarded : nestedLists.Guarded nestedRank (.ref ⟨0⟩) := by
  have noByte : ∀ b cell, ¬ (Rule.byte b).Exposes nestedLists.Consumes cell := by
    intro b cell h
    rcases exposes_iff.mp h with h | ⟨part, hpart, -⟩
    · cases h
    · cases hpart
  refine ⟨fun offset anchor h => ?_, fun name continuation inner h => ?_, fun cell h => ?_,
    fun cell target inner ht hexposed => ?_⟩
  · rcases nestedLists_reaches h with h | h | h | h | h | ⟨b, h⟩ <;> cases h
  · rcases nestedLists_reaches h with h | h | h | h | h | ⟨b, h⟩ <;> cases h
  · rcases nestedLists_reaches h with h | h | h | h | h | ⟨b, h⟩ <;> cases h <;> rfl
  · rcases target?_nestedLists ht with ⟨rfl, rfl⟩ | ⟨rfl, rfl⟩
    · rcases exposes_iff.mp hexposed with h | ⟨part, rfl, hitem⟩
      · cases h
      · rcases exposes_iff.mp hitem with h | ⟨part, hpart, -⟩
        · cases h
          decide
        · cases hpart
    · rcases exposes_iff.mp hexposed with h | ⟨part, hpart, hinner⟩
      · cases h
      · rcases List.mem_cons.mp hpart with rfl | hbyte
        · rcases exposes_iff.mp hinner with h | ⟨part, hpart, hinner⟩
          · cases h
          · rcases hpart with rfl | ⟨-, hnot⟩ | ⟨-, hnot, -⟩
            · exact absurd hinner (noByte _ _)
            · exact absurd (consumes_byte _ _) hnot
            · exact absurd (consumes_byte _ _) hnot
        · obtain rfl := List.mem_singleton.mp hbyte
          exact absurd hinner (noByte _ _)

/-- A list of a letter and of a list of a letter. -/
theorem parse_ends_of_guarded_nestedLists :
    nestedLists.Guarded nestedRank (.ref ⟨0⟩) ∧
      (Rule.parse nestedLists (.ref ⟨0⟩) ⟨#[0x61, 0x28, 0x61, 0x29], 0, {}⟩).outcome ≠ .endless ∧
      Rule.parseWithin nestedLists (33 * 2) (.ref ⟨0⟩) ⟨#[0x61, 0x28, 0x61, 0x29], 0, {}⟩ =
        Rule.parse nestedLists (.ref ⟨0⟩) ⟨#[0x61, 0x28, 0x61, 0x29], 0, {}⟩ := by
  refine ⟨nestedLists_guarded, ?_⟩
  obtain ⟨ends, depth⟩ := parse_ends_of_guarded nestedLists nestedRank (.ref ⟨0⟩)
    nestedLists_guarded ⟨#[0x61, 0x28, 0x61, 0x29], 0, {}⟩ (Nat.zero_le _)
  exact ⟨ends, depth (33 * 2) (by decide)⟩

end Rule

end BitGrammar
