import BitGrammar.Proofs.Concatenation
import BitGrammar.Proofs.ExclusiveParity
import BitGrammar.Proofs.LiteralBytes

/-!
# Rules of a fixed width

Many rules take one number of bits wherever they match, and their form tells which: bits and bytes
take what they are asked for, tests take nothing, parts in order or in any order take what all of
them take, and alternatives take what each of them takes. Such a rule cannot match where fewer bits
are left.

## What decides the design

`Rule.width?` is computed from the rule alone. Where alternatives differ, or a rule goes on for as
long as it can, there is no number. Cells are left out as well, so that the number says something of
a rule in every store.

`Parser.Takes` is about one parser and all cursors, and contains both that a match ends so many bits
further and that the input has as many. So nothing has to be known about the cursor, and each
combinator has one law. A rule that looks at another one, ahead or to exclude a match, has the law
of what it keeps: the other rule may be of any width, or of none.

A permutation is not followed through its search. What it fills in is a sequence of its children in
some order (`Permutation.Fills.exists_inTurn`), among them the children that match without moving,
and a sum does not depend on the order.

## Main definitions

* `Rule.width?`: the width of a rule
* `Parser.Takes`: every match of a parser is of one width

## Main results

* `Parser.Takes.sequence`, `Parser.Takes.permutation`, … : one law for each combinator
* `Rule.parse_width`: what matches is as wide as the rule
-/

namespace BitGrammar

/-! ### Parts of the input -/

/-- A number of bits of the input lie between a cursor and another one behind it. -/
structure Cursor.Spans (c : Cursor) (width : Nat) (next : Cursor) : Prop where
  enough : width ≤ c.remaining
  next_eq : next = c.advance width

namespace Cursor.Spans

variable {c d e : Cursor} {width width' : Nat}

theorem refl (c : Cursor) : c.Spans 0 c :=
  ⟨Nat.zero_le _, rfl⟩

theorem trans (h : c.Spans width d) (h' : d.Spans width' e) : c.Spans (width + width') e := by
  obtain ⟨enough, rfl⟩ := h
  obtain ⟨enough', rfl⟩ := h'
  rw [remaining_advance] at enough'
  exact ⟨by omega, c.advance_advance width width'⟩

theorem withOrder {order : ReadOrder} (h : (c.withOrder order).Spans width d) :
    c.Spans width (d.withOrder c.order) := by
  obtain ⟨enough, rfl⟩ := h
  exact ⟨enough, rfl⟩

end Cursor.Spans

/-! ### Parsers of a fixed width -/

namespace Parser

/-- Every match of a parser takes the same number of bits. -/
def Takes (p : Parser) (width : Nat) : Prop :=
  ∀ c m, (p c).outcome = .ok m → c.Spans width m.next

namespace Takes

variable {p q r : Parser} {width width' width'' : Nat}

/-! #### Reads -/

theorem of_eq_ofRead {α : Type} {value : α → Option Value} {next : α → Cursor}
    {read : Cursor → Except Failure α} (h : ∀ c, p c = .ofRead value next (read c))
    (hread : ∀ c a, read c = .ok a → c.Spans width (next a)) : p.Takes width := by
  intro c m hm
  rw [h, Run.outcome_ofRead_eq_ok_iff] at hm
  obtain ⟨a, ha, rfl⟩ := hm
  exact hread c a ha

theorem test (accept : UInt8 → Bool) (why : UInt8 → Mismatch) : (test accept why).Takes 8 := by
  intro c m hm
  obtain ⟨b, next, head, -, rfl⟩ := outcome_test_eq_ok_iff.mp hm
  obtain ⟨enough, -, hnext⟩ := Cursor.readByte_eq_ok head
  exact ⟨enough, hnext⟩

theorem literal (bytes : List UInt8) : (literal bytes).Takes (8 * bytes.length) := by
  refine of_eq_ofRead (literal_eq bytes) fun c finish hread => ?_
  rcases c.readsBytes_or_departsFirst bytes with reads | ⟨i, expected, found, departs⟩
  · rw [matchLiteral_of_readsBytes reads] at hread
    cases hread
    exact ⟨reads.length_le, reads.finish_eq⟩
  · rw [matchLiteral_of_departsFirst departs] at hread
    cases hread

theorem take (count : Nat) : (take count).Takes (8 * count) := by
  refine of_eq_ofRead (take_eq count) fun c bytes hread => ?_
  obtain ⟨hlength, reads⟩ := Cursor.readBytes_eq_ok_iff.mp hread
  rw [← hlength]
  exact ⟨reads.length_le, reads.finish_eq⟩

theorem bits (width : Nat) (signed : Bool) : (bits width signed).Takes width := by
  refine of_eq_ofRead (bits_eq width signed) fun c read hread => ?_
  rw [Cursor.readInteger] at hread
  split at hread
  · next hnat =>
    cases hread
    by_cases enough : width ≤ c.remaining
    · rw [Cursor.readNat_of_le enough] at hnat
      cases hnat
      exact ⟨enough, rfl⟩
    · rw [Cursor.readNat_of_lt (Nat.lt_of_not_le enough)] at hnat
      cases hnat
  · cases hread

theorem skip (count : Nat) : (skip count).Takes count := by
  refine of_eq_ofRead (skip_eq count) fun c next hskip => ?_
  by_cases enough : count ≤ c.remaining
  · rw [Cursor.skip_of_le enough] at hskip
    exact ⟨enough, (Except.ok.inj hskip).symm⟩
  · rw [Cursor.skip_of_lt (Nat.lt_of_not_le enough)] at hskip
    cases hskip

/-! #### Tests -/

theorem of_stays (h : ∀ c m, (p c).outcome = .ok m → m.next = c) : p.Takes 0 := by
  intro c m hm
  rw [h c m hm]
  exact .refl c

theorem finish : Parser.finish.Takes 0 := by
  refine of_stays fun c m hm => ?_
  rw [Parser.finish] at hm
  split at hm <;> cases hm
  rfl

theorem followedBy (p : Parser) : (followedBy p).Takes 0 := by
  refine of_stays fun c m hm => ?_
  rw [(outcome_followedBy_eq_ok_iff.mp hm).1]

theorem notFollowedBy (p : Parser) : (notFollowedBy p).Takes 0 := by
  refine of_stays fun c m hm => ?_
  rw [(outcome_notFollowedBy_eq_ok_iff.mp hm).1]

/-! #### One parser after another -/

theorem left (hp : p.Takes width) (hq : q.Takes width') : (left p q).Takes (width + width') := by
  intro c m hm
  obtain ⟨kept, hkept, hrest⟩ := Run.ok_of_bind hm
  obtain ⟨dropped, hdropped, hmatch⟩ := Run.ok_of_bind hrest
  cases hmatch
  exact (hp c kept hkept).trans (hq kept.next dropped hdropped)

theorem right (hp : p.Takes width) (hq : q.Takes width') : (right p q).Takes (width + width') := by
  intro c m hm
  obtain ⟨dropped, hdropped, hkept⟩ := Run.ok_of_bind hm
  exact (hp c dropped hdropped).trans (hq dropped.next m hkept)

theorem middle (hp : p.Takes width) (hq : q.Takes width') (hr : r.Takes width'') :
    (middle p q r).Takes (width + width' + width'') := by
  intro c m hm
  obtain ⟨opened, hopened, hrest⟩ := Run.ok_of_bind hm
  obtain ⟨kept, hkept, hrest⟩ := Run.ok_of_bind hrest
  obtain ⟨closed, hclosed, hmatch⟩ := Run.ok_of_bind hrest
  cases hmatch
  exact ((hp c opened hopened).trans (hq opened.next kept hkept)).trans
    (hr kept.next closed hclosed)

section Parts

variable {ι : Type} {parts : List ι} {parser : ι → Parser} {widths : ι → Nat}

theorem spans_of_inTurn (h : ∀ part ∈ parts, (parser part).Takes (widths part))
    {values : List (Option Value)} {c finish : Cursor}
    (run : Permutation.InTurn (parts.map parser) values c finish) :
    c.Spans (parts.map widths).sum finish := by
  induction parts generalizing values c with
  | nil =>
    cases run
    exact .refl _
  | cons part parts ih =>
    obtain ⟨hpart, hparts⟩ := List.forall_mem_cons.mp h
    rw [List.map_cons] at run
    cases run with
    | @cons _ _ values _ _ m matched rest =>
      rw [List.map_cons, List.sum_cons]
      exact (hpart c m matched).trans (ih hparts rest)

theorem sequence (h : ∀ part ∈ parts, (parser part).Takes (widths part)) :
    (sequence (parts.map parser)).Takes (parts.map widths).sum := by
  intro c m hm
  obtain ⟨values, run⟩ := Permutation.exists_inTurn_of_sequence hm
  exact spans_of_inTurn h run

/-- A match that does not move on is one of width zero. -/
theorem staysPut (hp : p.Takes width) : Permutation.StaysPut (fun _ => True) p := by
  intro c _ m hm hstay
  obtain ⟨-, hnext⟩ := hp c m hm
  rw [hnext] at hstay ⊢
  obtain rfl : width = 0 := Nat.add_eq_left.mp hstay
  rfl

theorem permutation (h : ∀ part ∈ parts, (parser part).Takes (widths part)) :
    (permutation (parts.map parser)).Takes (parts.map widths).sum := by
  intro c m hm
  obtain ⟨n, part, rfl⟩ : ∃ (n : Nat) (part : Fin n → ι), List.ofFn part = parts :=
    ⟨parts.length, Permutation.exists_ofFn_eq rfl⟩
  have hpart : ∀ i, (parser (part i)).Takes (widths (part i)) := List.forall_mem_ofFn_iff.mp h
  rw [List.map_ofFn] at hm
  obtain ⟨values, hfills, -⟩ := Permutation.exists_fills_ofFn hm
  have stays : ∀ i, Permutation.StaysPut (fun _ => True) ((parser ∘ part) i) :=
    fun i => (hpart i).staysPut
  obtain ⟨σ, run⟩ := hfills.exists_inTurn stays trivial
  have inOrder : List.ofFn ((parser ∘ part) ∘ σ) = (List.ofFn (part ∘ σ)).map parser := by
    rw [List.map_ofFn, Function.comp_assoc]
  have sum : ((List.ofFn (part ∘ σ)).map widths).sum = ((List.ofFn part).map widths).sum :=
    ((σ.ofFn_comp_perm part).map widths).sum_eq
  rw [inOrder] at run
  rw [← sum]
  exact spans_of_inTurn (List.forall_mem_ofFn_iff.mpr fun i => hpart (σ i)) run

end Parts

theorem times (hp : p.Takes width) (count : Nat) : (times p count).Takes (count * width) := by
  intro c m hm
  rw [outcome_times p (lt_capacity_of_times_ok hm), ← List.map_id (List.replicate count p)] at hm
  have copies : ∀ copy ∈ List.replicate count p, (id copy).Takes width := by
    intro copy hcopy
    rwa [List.eq_of_mem_replicate hcopy]
  have spans := sequence copies c m hm
  rwa [List.map_replicate, List.sum_replicate_nat] at spans

theorem ignore (hp : p.Takes width) : (ignore p).Takes width := by
  intro c m hm
  obtain ⟨n, hn, hmatch⟩ := Run.ok_of_bind hm
  cases hmatch
  exact hp c n hn

/-! #### One parser out of several -/

theorem choice {ps : List Parser} (h : ∀ p ∈ ps, p.Takes width) : (choice ps).Takes width := by
  intro c m hm
  obtain ⟨p, hp, hm⟩ := exists_ok_of_tryAll hm
  exact h p hp c m hm

theorem exclusiveOr (hp : p.Takes width) (hq : q.Takes width) :
    (exclusiveOr p q).Takes width := by
  intro c m hm
  exact (ok_of_exclusiveOr hm).elim (hp c m) (hq c m)

theorem excluding (hp : p.Takes width) (excludes : Nat → Nat → Bool) (other : Parser) :
    (excluding excludes p other).Takes width :=
  fun c m hm => hp c m (ok_of_excluding hm)

/-! #### Looking at values -/

theorem map (hp : p.Takes width) (name : Option String) (f : Value → Value) :
    (map name f p).Takes width := by
  intro c m hm
  obtain ⟨n, hn, rfl⟩ := outcome_map_eq_ok_iff.mp hm
  exact hp c n hn

theorem filter (hp : p.Takes width) (name : Option String) (accept : Value → Bool) :
    (filter name accept p).Takes width :=
  fun c m hm => hp c m (outcome_filter_eq_ok_iff.mp hm).1

theorem inRange (hp : p.Takes width) (lower upper : Int64) :
    (inRange lower upper p).Takes width :=
  fun c m hm => hp c m (outcome_inRange_eq_ok_iff.mp hm).1

theorem withOrder (hp : p.Takes width) (order : ReadOrder) :
    (withOrder order p).Takes width := by
  intro c m hm
  obtain ⟨n, hn, hmatch⟩ := Run.ok_of_bind hm
  cases hmatch
  exact (hp (c.withOrder order) n hn).withOrder

end Takes

end Parser

/-! ### The width of a rule -/

namespace Rule

/-- The number that a list consists of, when there is one. -/
def common? : List Nat → Option Nat
  | [] => none
  | width :: widths => if ∀ other ∈ widths, other = width then some width else none

mutual

/-- The number of bits that a rule takes wherever it matches, when its form tells. -/
def width? : Rule → Option Nat
  | .byte _ => some 8
  | .byteRange _ _ => some 8
  | .byteIn _ => some 8
  | .literal bytes => some (8 * bytes.length)
  | .take count => some (8 * count)
  | .bits width _ _ => some width
  | .skip count => some count
  | .tell => some 0
  | .epsilon => some 0
  | .finish => some 0
  | .followedBy _ => some 0
  | .notFollowedBy _ => some 0
  | .sequence rules => (widths? rules).map List.sum
  | .permutation rules => (widths? rules).map List.sum
  | .times rule count => (width? rule).map (count * ·)
  | .left keep drop => do
    let kept ← width? keep
    let dropped ← width? drop
    some (kept + dropped)
  | .right drop keep => do
    let dropped ← width? drop
    let kept ← width? keep
    some (dropped + kept)
  | .middle opening content closing => do
    let opened ← width? opening
    let kept ← width? content
    let closed ← width? closing
    some (opened + kept + closed)
  | .choice rules => (widths? rules).bind common?
  | .exclusiveOr first second => do
    let width ← width? first
    let width' ← width? second
    common? [width, width']
  | .butNot rule _ => width? rule
  | .difference rule _ => width? rule
  | .ignore rule => width? rule
  | .map _ _ rule => width? rule
  | .filter _ _ rule => width? rule
  | .inRange _ _ _ rule => width? rule
  | .withOrder _ rule => width? rule
  | _ => none
  termination_by structural rule => rule

/-- The widths of the rules of a list, when each of them has one. -/
def widths? : List Rule → Option (List Nat)
  | [] => some []
  | rule :: rules => do
    let width ← width? rule
    let widths ← widths? rules
    some (width :: widths)
  termination_by structural rules => rules

end

variable {rule : Rule} {rules : List Rule} {width : Nat} {widths : List Nat}

theorem eq_of_common? (h : common? widths = some width) : ∀ w ∈ widths, w = width := by
  cases widths with
  | nil => cases h
  | cons first widths =>
    rw [common?] at h
    split at h
    · next same =>
      cases h
      exact List.forall_mem_cons.mpr ⟨rfl, same⟩
    · cases h

/-- Every rule of a list that has widths has one. -/
theorem exists_width_of_widths? (h : widths? rules = some widths) :
    ∃ width : Rule → Nat, widths = rules.map width ∧
      ∀ rule ∈ rules, rule.width? = some (width rule) := by
  refine ⟨fun rule => rule.width?.getD 0, ?_⟩
  induction rules generalizing widths with
  | nil =>
    cases h
    exact ⟨rfl, nofun⟩
  | cons rule rules ih =>
    rw [widths?] at h
    obtain ⟨width, hwidth, hrest⟩ := Option.bind_eq_some_iff.mp h
    obtain ⟨widths', hwidths, heq⟩ := Option.bind_eq_some_iff.mp hrest
    obtain ⟨rfl, hrules⟩ := ih hwidths
    cases heq
    have here : rule.width?.getD 0 = width := by rw [hwidth, Option.getD_some]
    refine ⟨?_, List.forall_mem_cons.mpr ⟨?_, hrules⟩⟩
    · rw [List.map_cons, here]
    · exact hwidth.trans (congrArg some here.symm)

/-- **A rule takes what its form tells**, whatever stands behind the references in it. -/
theorem takes_of_width? (h : rule.width? = some width) (call : Cell → Parser) :
    (rule.eval call).Takes width := by
  induction rule generalizing width with
  | byte | byteRange | byteIn =>
    cases h
    exact .test _ _
  | literal bytes =>
    cases h
    exact .literal bytes
  | take count =>
    cases h
    exact .take count
  | bits width signed fits =>
    cases h
    exact .bits _ signed
  | skip count =>
    cases h
    exact .skip _
  | tell | epsilon =>
    cases h
    refine .of_stays fun c m hm => ?_
    cases hm
    rfl
  | finish =>
    cases h
    exact .finish
  | followedBy =>
    cases h
    exact .followedBy _
  | notFollowedBy =>
    cases h
    exact .notFollowedBy _
  | sequence rules ih =>
    obtain ⟨widths, hwidths, rfl⟩ := Option.map_eq_some_iff.mp h
    obtain ⟨width, rfl, hrules⟩ := exists_width_of_widths? hwidths
    rw [eval, evalList_eq_map]
    exact .sequence fun rule hrule => ih rule hrule (hrules rule hrule)
  | permutation rules ih =>
    obtain ⟨widths, hwidths, rfl⟩ := Option.map_eq_some_iff.mp h
    obtain ⟨width, rfl, hrules⟩ := exists_width_of_widths? hwidths
    rw [eval, evalList_eq_map]
    exact .permutation fun rule hrule => ih rule hrule (hrules rule hrule)
  | times rule count ih =>
    obtain ⟨width, hwidth, rfl⟩ := Option.map_eq_some_iff.mp h
    exact (ih hwidth).times count
  | left keep drop ih ih' =>
    obtain ⟨kept, hkept, hrest⟩ := Option.bind_eq_some_iff.mp h
    obtain ⟨dropped, hdropped, heq⟩ := Option.bind_eq_some_iff.mp hrest
    cases heq
    exact (ih hkept).left (ih' hdropped)
  | right drop keep ih ih' =>
    obtain ⟨dropped, hdropped, hrest⟩ := Option.bind_eq_some_iff.mp h
    obtain ⟨kept, hkept, heq⟩ := Option.bind_eq_some_iff.mp hrest
    cases heq
    exact (ih hdropped).right (ih' hkept)
  | middle opening content closing ih ih' ih'' =>
    obtain ⟨opened, hopened, hrest⟩ := Option.bind_eq_some_iff.mp h
    obtain ⟨kept, hkept, hrest⟩ := Option.bind_eq_some_iff.mp hrest
    obtain ⟨closed, hclosed, heq⟩ := Option.bind_eq_some_iff.mp hrest
    cases heq
    exact (ih hopened).middle (ih' hkept) (ih'' hclosed)
  | choice rules ih =>
    obtain ⟨widths, hwidths, hcommon⟩ := Option.bind_eq_some_iff.mp h
    obtain ⟨width', rfl, hrules⟩ := exists_width_of_widths? hwidths
    rw [eval, evalList_eq_map]
    refine .choice (List.forall_mem_map.mpr fun rule hrule => ?_)
    have same : width' rule = width := eq_of_common? hcommon _ (List.mem_map_of_mem hrule)
    exact ih rule hrule ((hrules rule hrule).trans (congrArg some same))
  | exclusiveOr first second ih ih' =>
    obtain ⟨width', hfirst, hrest⟩ := Option.bind_eq_some_iff.mp h
    obtain ⟨width'', hsecond, hcommon⟩ := Option.bind_eq_some_iff.mp hrest
    obtain ⟨rfl, hsame⟩ := List.forall_mem_cons.mp (eq_of_common? hcommon)
    obtain rfl := List.forall_mem_singleton.mp hsame
    exact (ih hfirst).exclusiveOr (ih' hsecond)
  | butNot rule other ih | difference rule other ih =>
    rw [eval]
    exact (ih h).excluding _ _
  | ignore rule ih => exact (ih h).ignore
  | map name f rule ih => exact (ih h).map name f
  | filter name accept rule ih => exact (ih h).filter name accept
  | inRange lower upper nonempty rule ih => exact (ih h).inRange lower upper
  | withOrder order rule ih => exact (ih h).withOrder order
  | _ => cases h

/-- **What matches is as wide as the rule.** From any cursor, a rule whose form tells its width
matches that many bits and ends right behind them, and it never matches where fewer are left. -/
theorem parse_width (cells : Cells) {rule : Rule} {width : Nat} (h : rule.width? = some width)
    (c : Cursor) :
    (∀ m, (rule.parse cells c).outcome = .ok m →
      m.next = { c with position := c.position + width }) ∧
    (c.remaining < width → ∀ m, (rule.parse cells c).outcome ≠ .ok m) := by
  have takes : ∀ m, (rule.parse cells c).outcome = .ok m → c.Spans width m.next :=
    fun m hm => takes_of_width? h _ c m hm
  refine ⟨fun m hm => (takes m hm).next_eq, fun short m hm => ?_⟩
  exact Nat.not_le.mpr short (takes m hm).enough

/-- Four bits, and behind them two bytes and two tests in any order. -/
def halfByteAndLetters : Rule :=
  .sequence [.bits 4 false (by decide),
    .permutation [.followedBy .finish, .byte 0x62, .notFollowedBy (.byte 0x62),
      .butNot (.choice [.byte 0x61, .take 1]) (.literal [0x61, 0x62, 0x63])]]

/-- The rule matches its twenty bits from the middle of a byte on, and no bit later. -/
theorem parse_width_halfByteAndLetters : halfByteAndLetters.width? = some 20 ∧
    (∃ m, (halfByteAndLetters.parse .empty ⟨#[0x0f, 0x61, 0x62], 4, {}⟩).outcome = .ok m ∧
      m.next.position = 24) ∧
    ∀ m, (halfByteAndLetters.parse .empty ⟨#[0x0f, 0x61, 0x62], 5, {}⟩).outcome ≠ .ok m := by
  have width : halfByteAndLetters.width? = some 20 := rfl
  obtain ⟨m, hm⟩ : ∃ m, (halfByteAndLetters.parse .empty
      ⟨#[0x0f, 0x61, 0x62], 4, {}⟩).outcome = .ok m := ⟨_, rfl⟩
  refine ⟨width, ⟨m, hm, ?_⟩, (parse_width .empty width _).2 (by decide)⟩
  rw [(parse_width .empty width _).1 m hm]

end Rule

end BitGrammar
