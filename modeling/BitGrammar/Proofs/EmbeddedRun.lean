import BitGrammar.Proofs.DepthBound
import BitGrammar.Proofs.Embedding

/-!
# Runs inside of larger inputs

A grammar that does not look at the number of the position does the same whatever comes before its
input. And when no read of a run gets past the end of its input, the run stays as it is whatever is
appended, so that a part of the input that is still to come cannot change it.

## What decides the design

Both facts compare a run on an input with one on a larger input, in the simulation that is given by
`Embedding`. Bytes in front of the input leave more positions on the larger one, and the run is
compared there as one that moves forward only. Bytes behind it make a difference where a read fails
at the end of the smaller input, so the run on that side is one in which such a read is a fault:
`Interpretation.strict`. As nothing in a grammar absorbs a misuse, a run that is the same whatever
the fault is has not met one.

## Main definitions

* `Embedding.simulation`: runs on an input and on a larger one
* `Interpretation.strict`: a grammar in which reads past the end of the input are faults
* `Rule.StaysInside`: a run without such reads

## Main results

* `Interpretation.parseWithin_strict`: such reads are all that strict runs differ in
* `Rule.parse_behind`: what comes before the input does not matter
* `Rule.parse_append`: a run that stays inside of the input does not depend on what is appended
-/

namespace BitGrammar

/-! ### Comparing runs on two inputs -/

namespace Embedding

/-- The end of the smaller input, for runs that are to move forward as bytes come before it. -/
def limit (k : Embedding) (input : Array UInt8) : Option Nat :=
  if k.before = #[] then none else some (8 * input.size)

theorem mem_limit {k : Embedding} {input : Array UInt8} {l : Nat} :
    l ∈ k.limit input ↔ k.before ≠ #[] ∧ l = 8 * input.size := by
  rw [limit]
  split <;> simp_all [eq_comm]

/-- Cursors lie as far apart on the larger input. -/
theorem distance_cursor (k : Embedding) (c c' : Cursor) :
    c'.position + (k.cursor c).position = (k.cursor c').position + c.position := by
  rw [position_cursor, position_cursor, shift, shift]
  omega

/-- Without bytes before or behind, there are as many positions on the larger input. There are no
fewer with bytes behind it, and enough up to the end of the smaller one with bytes before it. -/
theorem enough_positions_cursor (k : Embedding) {input : Array UInt8} {c : Cursor}
    (hc : c.Within input 0) :
    (c.positions ≤ (k.cursor c).positions ∧
        (k.after ≠ #[] ∨ c.positions = (k.cursor c).positions)) ∨
      ∃ l ∈ k.limit input, l < c.positions ∧ l < (k.cursor c).positions := by
  have hpositions : c.positions = 8 * input.size + 1 := by
    rw [Cursor.positions, Cursor.size, hc.input_eq]
  rw [positions_cursor]
  by_cases hbefore : k.before = #[]
  · refine .inl ⟨by omega, ?_⟩
    by_cases hafter : k.after = #[]
    · exact .inr (by simp [hbefore, hafter])
    · exact .inl hafter
  · exact .inr ⟨8 * input.size, mem_limit.mpr ⟨hbefore, rfl⟩, by omega, by omega⟩

/-- Cursors, failures and records correspond to their counterparts on the larger input. Endless runs
are to be answered when no bytes follow, and runs are to move forward when bytes come before. -/
def simulation (k : Embedding) (input : Array UInt8) (misuse : Misuse → Prop) :
    Simulation where
  cursor c d := c.Within input 0 ∧ d = k.cursor c
  failure e f := f = k.failure e
  trace t u := u = t.map k.record
  values := True
  misuse := misuse
  endless := k.after ≠ #[]
  limit := k.limit input
  distance := by
    rintro c _ c' _ ⟨-, rfl⟩ ⟨-, rfl⟩
    exact k.distance_cursor c c'
  positions := by
    rintro c _ ⟨hc, rfl⟩
    exact k.enough_positions_cursor hc
  position_le_limit := by
    rintro c _ ⟨hc, -⟩ l hl
    have hle : c.position ≤ 8 * c.input.size := hc.wellFormed
    rw [(mem_limit.mp hl).2, ← hc.input_eq]
    exact hle
  rejection := by
    rintro c _ ⟨-, rfl⟩ r
    rfl
  furthest := by
    rintro e _ e' _ rfl rfl
    exact (k.failure_furthest e e').symm
  trace_nil := rfl
  trace_append := by
    rintro t _ t' _ rfl rfl
    exact List.map_append.symm
  trace_choiceFailed := by
    rintro c _ e _ ⟨-, rfl⟩ rfl index
    rfl
  trace_repeatStopped := by
    rintro e _ rfl done total
    rfl
  trace_hookCalled _ _ _ := rfl

variable {k : Embedding} {input : Array UInt8} {misuse : Misuse → Prop} {c : Cursor}

theorem reorder {d : Cursor} (h : (k.simulation input misuse).cursor c d) (o : ReadOrder) :
    (k.simulation input misuse).cursor (c.withOrder o) (d.withOrder o) :=
  ⟨h.1.withOrder o, congrArg (·.withOrder o) h.2⟩

theorem sameOrder {d : Cursor} (h : (k.simulation input misuse).cursor c d) : c.order = d.order :=
  (congrArg Cursor.order h.2).symm

theorem follows {c' : Cursor} (hc' : c'.Within input 0) (order : c'.order = c.order)
    (forward : k.before = #[] ∨ c.position ≤ c'.position) :
    (k.simulation input misuse).Follows c (k.cursor c) c' (k.cursor c') := by
  refine ⟨⟨hc', rfl⟩, order, order, fun hl => ?_⟩
  obtain ⟨l, hl⟩ := Option.isSome_iff_exists.mp hl
  exact forward.resolve_left (mem_limit.mp hl).1

/-- Reads that are alike are corresponding runs, if no bytes follow or what is read past the end is
a misuse that asks for no answer. -/
theorem ReadAlike.runs {x y : Run Match} (h : k.ReadAlike x y) (hafter : k.after = #[])
    (kept : (Invariant.within input 0).KeptBy c x)
    (forward : k.before = #[] ∨ (Invariant.within input c.position).KeptBy c x) :
    (k.simulation input misuse).Runs ((k.simulation input misuse).Matches c (k.cursor c)) x y := by
  cases h with
  | ok m =>
    exact .pure ⟨fun _ => rfl, follows kept.1 kept.2 (forward.imp_right fun hf => hf.1.first_le)⟩
  | fail e => exact .fail rfl
  | overrun d hfollows => exact absurd hafter hfollows

/-- Two runs that correspond are counterparts, or end in a way for which nothing is asked. -/
theorem eq_run_or_free {p q : Parser} (h : (k.simulation input misuse).Related p q)
    (hc : c.Within input 0) :
    q (k.cursor c) = k.run (p c) ∨ k.after ≠ #[] ∧ (p c).outcome = .endless ∨
      ∃ m, misuse m ∧ (p c).outcome = .misused m := by
  have hpq := h (c := c) ⟨hc, rfl⟩
  generalize p c = x, q (k.cursor c) = y at hpq
  cases hpq with
  | @ok t u m n trace result =>
    obtain ⟨hvalue, ⟨-, hnext⟩, -⟩ := result
    obtain rfl : u = t.map k.record := trace
    obtain rfl : n = k.matched m := by
      cases m
      cases n
      exact Match.mk.injEq .. |>.mpr ⟨(hvalue trivial).symm, hnext⟩
    exact .inl rfl
  | @failed t u e f trace failure =>
    obtain rfl : u = t.map k.record := trace
    obtain rfl : f = k.failure e := failure
    exact .inl rfl
  | @misused t u m trace =>
    obtain rfl : u = t.map k.record := trace
    exact .inl rfl
  | @endless t u trace =>
    obtain rfl : u = t.map k.record := trace
    exact .inl rfl
  | @ofMisuse t m y free => exact .inr (.inr ⟨m, free, rfl⟩)
  | ofEndless free => exact .inr (.inl ⟨free, rfl⟩)

/-- Going over blanks leads to counterparts when no bytes follow. -/
theorem comparable_behind (hafter : k.after = #[]) :
    Interpretation.Comparable (k.simulation input misuse) .plain .plain where
  values := trivial
  node h := h
  blanks := by
    rintro c _ ⟨hc, rfl⟩
    obtain ⟨hb, horder⟩ := hc.skipBlanks (c.remaining / 8)
    have hwithin := hc.wellFormed.within (Nat.le_refl _)
    have hforward := (hwithin.skipBlanks (c.remaining / 8)).1.first_le
    have hremaining : (k.cursor c).remaining = c.remaining := by
      rw [remaining_cursor hc.wellFormed, hafter]
      rfl
    dsimp only [Interpretation.plain]
    rw [hremaining, skipBlanks_cursor hc.wellFormed (Nat.le_refl _) (.inl ⟨rfl, hafter⟩)]
    exact .pure (follows hb horder (.inr hforward))
  reorder := reorder
  sameOrder := sameOrder

end Embedding

/-! ### What comes before the input -/

namespace Rule

/-- At every depth, what comes before the input does not matter. -/
theorem parseWithin_behind {cells : Cells} {rule : Rule} (noTell : ¬ cells.Reaches rule .tell)
    (noSeek : ∀ offset anchor, ¬ cells.Reaches rule (.seek offset anchor)) {k : Embedding}
    (hafter : k.after = #[]) (depth : Nat) {c : Cursor} (h : c.WellFormed) :
    rule.parseWithin cells depth (k.cursor c) = k.run (rule.parseWithin cells depth c) := by
  have related : (k.simulation c.input fun _ => False).Related (rule.parseWithin cells depth)
      (rule.parseWithin cells depth) := by
    rw [← Interpretation.plain_parseWithin]
    refine (Embedding.comparable_behind hafter).parseWithin_related (.refl _ cells)
      ⟨Nat.le_refl depth, .inr rfl⟩ fun inner hreach hleaf => ?_
    rintro d _ ⟨hd, rfl⟩
    have htell : inner ≠ .tell := fun heq => noTell (heq ▸ hreach)
    have hseek : ∀ offset anchor, inner ≠ .seek offset anchor :=
      fun offset anchor heq => noSeek offset anchor (heq ▸ hreach)
    have hread := Embedding.readAlike_leaf hd.wellFormed hleaf (.inr ⟨htell, hseek⟩) (.inl hafter)
    refine hread.runs hafter (hd.keptBy_leaf hleaf (.inl rfl)) (.inr ?_)
    have hforward : d.Within c.input d.position := ⟨hd.input_eq, Nat.le_refl _, hd.wellFormed⟩
    exact hforward.keptBy_leaf hleaf (.inr hseek)
  rcases Embedding.eq_run_or_free related (h.within (Nat.zero_le _)) with
    heq | ⟨hfollows, -⟩ | ⟨m, hfalse, -⟩
  · exact heq
  · exact absurd hafter hfollows
  · exact hfalse.elim

/-- **What comes before the input does not matter** to a grammar that does not look at the number of
the position. Its outcome is the same, with all positions moved by the bits that come before, and so
is its trace if it ends. -/
theorem parse_behind (cells : Cells) (rule : Rule) (noTell : ¬ cells.Reaches rule .tell)
    (noSeek : ∀ offset anchor, ¬ cells.Reaches rule (.seek offset anchor))
    (before input : Array UInt8) (position : Nat) (h : position ≤ 8 * input.size)
    (order : ReadOrder) :
    (rule.parse cells ⟨before ++ input, 8 * before.size + position, order⟩).outcome =
        (Embedding.mk before #[]).outcome (rule.parse cells ⟨input, position, order⟩).outcome ∧
      ((rule.parse cells ⟨input, position, order⟩).outcome ≠ .endless →
        (rule.parse cells ⟨before ++ input, 8 * before.size + position, order⟩).trace =
          (rule.parse cells ⟨input, position, order⟩).trace.map
            (Embedding.mk before #[]).record) := by
  have hk : (Embedding.mk before #[]).cursor ⟨input, position, order⟩ =
      ⟨before ++ input, 8 * before.size + position, order⟩ := by
    simp [Embedding.cursor, Embedding.input, Embedding.shift]
  have hc : (⟨input, position, order⟩ : Cursor).WellFormed := h
  have hrun := fun depth => parseWithin_behind noTell noSeek (k := ⟨before, #[]⟩) rfl depth hc
  rw [← hk]
  generalize Embedding.mk before #[] = k at hrun
  generalize (⟨input, position, order⟩ : Cursor) = c at hrun hc
  by_cases hendless : (rule.parse cells c).outcome = .endless
  · have hall := (parse_endless_iff hc).mp hendless
    have hall' : ∀ depth, (rule.parseWithin cells depth (k.cursor c)).outcome = .endless := by
      intro depth
      rw [hrun]
      exact Embedding.outcome_eq_endless_iff.mpr (hall depth)
    rw [hendless, (parse_endless_iff (Embedding.wellFormed_cursor hc)).mpr hall']
    exact ⟨rfl, fun hne => absurd rfl hne⟩
  · have heq : rule.parse cells (k.cursor c) = k.run (rule.parse cells c) := by
      have hdepth := hrun (depthBound cells c)
      rw [parse, parse, ← hdepth]
      refine parse_eq_parseWithin (Embedding.wellFormed_cursor hc) ?_
      rw [hdepth]
      exact mt Embedding.outcome_eq_endless_iff.mp hendless
    rw [heq]
    exact ⟨rfl, fun _ => rfl⟩

/-- Letters with commas between them, each behind any blanks. -/
def letterList : Rule :=
  .sepBy (.whitespace (.byte 0x61)) (.byte 0x2c)

theorem letterList_reaches {rule : Rule} (h : Cells.empty.Reaches letterList rule) :
    rule = letterList ∨ rule = .whitespace (.byte 0x61) ∨ ∃ b, rule = .byte b := by
  induction h with
  | refl => exact .inl rfl
  | tail _ step ih =>
    rcases step with hpart | ⟨cell, -, ht⟩
    · rcases ih with rfl | rfl | ⟨b, rfl⟩
      · exact .inr (hpart.imp_right fun hb => ⟨_, hb⟩)
      · exact .inr (.inr ⟨_, hpart⟩)
      · cases hpart
    · cases ht

/-- Two letters behind a byte that is none of the list. -/
theorem parse_behind_letterList :
    (¬ Cells.empty.Reaches letterList .tell) ∧
      (∀ offset anchor, ¬ Cells.empty.Reaches letterList (.seek offset anchor)) ∧
      (letterList.parse .empty ⟨#[0x7e] ++ #[0x61, 0x2c, 0x20, 0x61], 8, {}⟩).outcome =
        (Embedding.mk #[0x7e] #[]).outcome
          (.ok ⟨some (.sequence [.char 0x61, .char 0x61]),
            ⟨#[0x61, 0x2c, 0x20, 0x61], 32, {}⟩⟩) := by
  have noTell : ¬ Cells.empty.Reaches letterList .tell := by
    intro h
    rcases letterList_reaches h with h | h | ⟨b, h⟩ <;> cases h
  have noSeek : ∀ offset anchor, ¬ Cells.empty.Reaches letterList (.seek offset anchor) := by
    intro offset anchor h
    rcases letterList_reaches h with h | h | ⟨b, h⟩ <;> cases h
  exact ⟨noTell, noSeek, (parse_behind .empty letterList noTell noSeek #[0x7e]
    #[0x61, 0x2c, 0x20, 0x61] 0 (Nat.zero_le _) {}).1⟩

end Rule

/-! ### What is appended to the input -/

/-- Puts a fault in place of the failure of a read past the end of the input. -/
def Run.orFault (fault : List Record × Misuse) (x : Run Match) : Run Match :=
  match x.outcome with
  | .failed ⟨.endOfInput, _⟩ => ⟨fault.1, .misused fault.2⟩
  | _ => x

namespace Interpretation

/-- A read past the end of the input is a fault, also where nothing comes of its failure: blanks are
gone over until a byte follows that is none. -/
def strict (fault : List Record × Misuse) : Interpretation where
  leaf rule c := (plain.leaf rule c).orFault fault
  blanks c :=
    let next := Parser.skipBlanks (c.remaining / 8) c
    match next.readByte with
    | .ok _ => Pure.pure next
    | .error _ => ⟨fault.1, .misused fault.2⟩
  node p := p

/-- As long as no read gets past the end, faults make no difference. -/
theorem comparable_strict (input : Array UInt8) (fault : List Record × Misuse) :
    Comparable ((Invariant.within input 0).same False (· = fault.2)) (strict fault) plain where
  values := trivial
  node h := h
  blanks := by
    rintro c _ ⟨rfl, hc⟩
    obtain ⟨hb, horder⟩ := hc.skipBlanks (c.remaining / 8)
    dsimp only [strict]
    split
    · exact .pure (Invariant.follows hb horder)
    · exact .ofMisuse rfl
  reorder := Invariant.reorder_within
  sameOrder := Invariant.sameOrder

/-- **A strict run is the run itself, or ends in the fault.** -/
theorem parseWithin_strict (fault : List Record × Misuse) (cells : Cells) (depth : Nat)
    (rule : Rule) {c : Cursor} (h : c.WellFormed) :
    (strict fault).parseWithin cells depth rule c = rule.parseWithin cells depth c ∨
      ((strict fault).parseWithin cells depth rule c).outcome = .misused fault.2 := by
  have related : ((Invariant.within c.input 0).same False (· = fault.2)).Related
      ((strict fault).parseWithin cells depth rule) (rule.parseWithin cells depth) := by
    rw [← plain_parseWithin]
    refine (comparable_strict c.input fault).parseWithin_related (.refl _ cells)
      ⟨Nat.le_refl depth, .inr rfl⟩ fun inner _ hleaf => ?_
    rintro d _ ⟨rfl, hd⟩
    have hkept := hd.keptBy_leaf hleaf (.inl rfl)
    dsimp only [strict, Run.orFault]
    split
    · exact .ofMisuse rfl
    · exact hkept.runs
  rcases Invariant.eq_or_free related (h.within (Nat.zero_le _)) with
    ⟨heq, -⟩ | ⟨hfalse, -⟩ | ⟨_, rfl, hm⟩
  · exact .inl heq
  · exact hfalse.elim
  · exact .inr hm

end Interpretation

namespace Embedding

variable {k : Embedding} {input : Array UInt8} {c : Cursor}

/-- Reads that are alike are corresponding runs once those past the end of the smaller input are
faults. -/
theorem ReadAlike.runs_orFault {x y : Run Match} (h : k.ReadAlike x y) (hbefore : k.before = #[])
    (fault : List Record × Misuse) (kept : (Invariant.within input 0).KeptBy c x) :
    (k.simulation input (· = fault.2)).Runs
      ((k.simulation input (· = fault.2)).Matches c (k.cursor c)) (x.orFault fault) y := by
  cases h with
  | ok m => exact .pure ⟨fun _ => rfl, follows kept.1 kept.2 (.inl hbefore)⟩
  | fail e =>
    obtain ⟨cause, location⟩ := e
    cases cause with
    | endOfInput => exact .ofMisuse rfl
    | mismatch m => exact .fail rfl
    | rejection r => exact .fail rfl
  | overrun d hfollows => exact .ofMisuse rfl

/-- Going over blanks leads to counterparts if it stops inside of the smaller input. -/
theorem comparable_ahead (hbefore : k.before = #[]) (fault : List Record × Misuse) :
    Interpretation.Comparable (k.simulation input (· = fault.2)) (.strict fault) .plain where
  values := trivial
  node h := h
  blanks := by
    rintro c _ ⟨hc, rfl⟩
    obtain ⟨hb, horder⟩ := hc.skipBlanks (c.remaining / 8)
    have hrounds : c.remaining / 8 ≤ (k.cursor c).remaining / 8 := by
      rw [remaining_cursor hc.wellFormed]
      omega
    dsimp only [Interpretation.strict, Interpretation.plain]
    cases hread : (Parser.skipBlanks (c.remaining / 8) c).readByte with
    | ok r =>
      have hblank := isBlank_eq_false_of_skipBlanks hc.wellFormed (by omega) hread
      rw [skipBlanks_cursor hc.wellFormed hrounds (.inr ⟨r.1, r.2, hread, hblank⟩)]
      exact .pure (follows hb horder (.inl hbefore))
    | error e => exact .ofMisuse rfl
  reorder := reorder
  sameOrder := sameOrder

end Embedding

namespace Rule

/-- No read of a run gets past the end of the input, not even one whose failure is absorbed: a fault
in place of such a failure makes no difference, whatever it is. -/
def StaysInside (cells : Cells) (rule : Rule) (c : Cursor) : Prop :=
  ∀ fault, (Interpretation.strict fault).parseWithin cells (depthBound cells c) rule c =
    rule.parse cells c

/-- A run that meets no fault is the same on a longer input, or has met the misuse that stands for
the fault. -/
theorem parseWithin_append {cells : Cells} {rule : Rule} (noFinish : ¬ cells.Reaches rule .finish)
    (noSeek : ∀ offset, ¬ cells.Reaches rule (.seek offset .finish)) {k : Embedding}
    (hbefore : k.before = #[]) {c : Cursor} (h : c.WellFormed) (inside : StaysInside cells rule c)
    (ends : (rule.parse cells c).outcome ≠ .endless) (m : Misuse) :
    rule.parseWithin cells (depthBound cells c) (k.cursor c) = k.run (rule.parse cells c) ∨
      (rule.parse cells c).outcome = .misused m := by
  have related : (k.simulation c.input (· = m)).Related
      ((Interpretation.strict ([], m)).parseWithin cells (depthBound cells c) rule)
      (rule.parseWithin cells (depthBound cells c)) := by
    rw [← Interpretation.plain_parseWithin]
    refine (Embedding.comparable_ahead hbefore ([], m)).parseWithin_related (.refl _ cells)
      ⟨Nat.le_refl _, .inr rfl⟩ fun inner hreach hleaf => ?_
    rintro d _ ⟨hd, rfl⟩
    have hfinish : inner ≠ .finish := fun heq => noFinish (heq ▸ hreach)
    have hseek : ∀ offset, inner ≠ .seek offset .finish :=
      fun offset heq => noSeek offset (heq ▸ hreach)
    have hread := Embedding.readAlike_leaf hd.wellFormed hleaf (.inl hbefore)
      (.inr ⟨hfinish, hseek⟩)
    exact hread.runs_orFault hbefore ([], m) (hd.keptBy_leaf hleaf (.inl rfl))
  have hrun := Embedding.eq_run_or_free related (h.within (Nat.zero_le _))
  rw [inside ([], m)] at hrun
  rcases hrun with heq | ⟨-, hendless⟩ | ⟨_, rfl, hm⟩
  · exact .inl heq
  · exact absurd hendless ends
  · exact .inr hm

/-- **A run that stays inside of the input does not depend on what is appended.** A grammar that
does not ask for the end of the input leads to the same outcome and the same trace on every longer
input if its run ends and no read gets past the end, however deep in the grammar and whatever comes
of it there. -/
theorem parse_append (cells : Cells) (rule : Rule) (noFinish : ¬ cells.Reaches rule .finish)
    (noSeek : ∀ offset, ¬ cells.Reaches rule (.seek offset .finish)) (input after : Array UInt8)
    (position : Nat) (h : position ≤ 8 * input.size) (order : ReadOrder)
    (ends : (rule.parse cells ⟨input, position, order⟩).outcome ≠ .endless)
    (inside : StaysInside cells rule ⟨input, position, order⟩) :
    rule.parse cells ⟨input ++ after, position, order⟩ =
      (Embedding.mk #[] after).run (rule.parse cells ⟨input, position, order⟩) := by
  have hk : (Embedding.mk #[] after).cursor ⟨input, position, order⟩ =
      ⟨input ++ after, position, order⟩ := by
    simp [Embedding.cursor, Embedding.input, Embedding.shift]
  have hc : (⟨input, position, order⟩ : Cursor).WellFormed := h
  have hrun := parseWithin_append noFinish noSeek (k := ⟨#[], after⟩) rfl hc inside ends
  rw [← hk]
  generalize Embedding.mk #[] after = k at hrun
  generalize (⟨input, position, order⟩ : Cursor) = c at hrun hc ends
  have heq : rule.parseWithin cells (depthBound cells c) (k.cursor c) =
      k.run (rule.parse cells c) := by
    -- one misuse can be the one that the run itself ends in, but not two
    rcases hrun .unbound with heq | hunbound
    · exact heq
    · refine (hrun .alreadyBound).resolve_right fun hbound => ?_
      cases hunbound.symm.trans hbound
  rw [← heq]
  refine parse_eq_parseWithin (Embedding.wellFormed_cursor hc) ?_
  rw [heq]
  exact mt Embedding.outcome_eq_endless_iff.mp ends

/-- Two letters up to a byte that is none of the list, which a comma and a letter are appended
to. -/
theorem parse_append_letterList :
    (¬ Cells.empty.Reaches letterList .finish) ∧
      (∀ offset, ¬ Cells.empty.Reaches letterList (.seek offset .finish)) ∧
      StaysInside .empty letterList ⟨#[0x61, 0x2c, 0x20, 0x61, 0x3b], 0, {}⟩ ∧
      letterList.parse .empty ⟨#[0x61, 0x2c, 0x20, 0x61, 0x3b] ++ #[0x2c, 0x61], 0, {}⟩ =
        (Embedding.mk #[] #[0x2c, 0x61]).run
          ⟨[], .ok ⟨some (.sequence [.char 0x61, .char 0x61]),
            ⟨#[0x61, 0x2c, 0x20, 0x61, 0x3b], 32, {}⟩⟩⟩ := by
  have noFinish : ¬ Cells.empty.Reaches letterList .finish := by
    intro h
    rcases letterList_reaches h with h | h | ⟨b, h⟩ <;> cases h
  have noSeek : ∀ offset, ¬ Cells.empty.Reaches letterList (.seek offset .finish) := by
    intro offset h
    rcases letterList_reaches h with h | h | ⟨b, h⟩ <;> cases h
  have hrun : letterList.parse .empty ⟨#[0x61, 0x2c, 0x20, 0x61, 0x3b], 0, {}⟩ =
      ⟨[], .ok ⟨some (.sequence [.char 0x61, .char 0x61]),
        ⟨#[0x61, 0x2c, 0x20, 0x61, 0x3b], 32, {}⟩⟩⟩ := rfl
  have ends : (letterList.parse .empty ⟨#[0x61, 0x2c, 0x20, 0x61, 0x3b], 0, {}⟩).outcome ≠
      .endless := by
    rw [hrun]
    exact nofun
  have inside : StaysInside .empty letterList ⟨#[0x61, 0x2c, 0x20, 0x61, 0x3b], 0, {}⟩ := by
    intro fault
    rw [hrun]
    rfl
  refine ⟨noFinish, noSeek, inside, ?_⟩
  rw [← hrun]
  exact parse_append .empty letterList noFinish noSeek #[0x61, 0x2c, 0x20, 0x61, 0x3b]
    #[0x2c, 0x61] 0 (Nat.zero_le _) {} ends inside

end Rule

end BitGrammar
