import BitGrammar.Proofs.DeepestFailure
import BitGrammar.Proofs.Termination
import Mathlib.Data.List.FinRange

/-!
# A permutation is a sequence in some order

What a permutation gives is what a sequence of the same children gives, in an order of their own.
The order is that of an arrangement: the children that move on come first, and behind them all those
that match empty input. Conversely, some sequence may match where the permutation does not, as a
sequence also passes a child in its middle that matches empty input there, and a permutation has to
find a place at the end for it. Children which never fail always find one.

## What decides the design

The argument from a sequence to a permutation is about dead ends (`InTurn.not_deadEnd`), so that the
order of the children is gone at once, and no placement has to be constructed. It follows the
sequence. A child that moves on is placed. One that does not is put with those that wait, and has to
be among those that never fail. They are taken along, may move on at any later node, and at the end
of the sequence they are no dead end among themselves.

The children are given by index here, as functions on `Fin n`, with `Equiv.Perm (Fin n)` for the
orders. The value of a child then stays with its index, and `Fills` says which values the slots of a
permutation end up with.

## Main definitions

* `InTurn`: parsers match one after another, each with a value
* `Fills`: the values that a search for a permutation gives to all children

## Main results

* `Arrangement.exists_inTurn`: an arrangement is a sequence in some order
* `InTurn.not_deadEnd`: what matches as a sequence is no dead end
* `parse_permutation_iff_sequence`: a permutation matches when some sequence does, to the same end
-/

namespace BitGrammar

namespace Permutation

variable {ps qs left : List Parser} {values values' : List (Option Value)} {c d finish : Cursor}
  {order : List Nat}

/-! ### One after another -/

/-- Parsers match one after another, each with a value of its own. -/
inductive InTurn : List Parser → List (Option Value) → Cursor → Cursor → Prop where
  | nil (c : Cursor) : InTurn [] [] c c
  | cons {p : Parser} {ps : List Parser} {values : List (Option Value)} {c finish : Cursor}
    {m : Match} (matched : (p c).outcome = .ok m) (rest : InTurn ps values m.next finish) :
    InTurn (p :: ps) (m.value :: values) c finish

theorem InTurn.append (h : InTurn ps values c d) (h' : InTurn qs values' d finish) :
    InTurn (ps ++ qs) (values ++ values') c finish := by
  induction h with
  | nil c => exact h'
  | cons matched _ ih => exact .cons matched (ih h')

theorem InTurn.collect (h : InTurn ps values c finish) :
    (Parser.collect ps c).outcome = .ok (values.reduceOption, finish) := by
  induction h with
  | nil c => rfl
  | @cons p ps values c finish m matched _ ih =>
    rw [Parser.collect, Run.outcome_bind_ok matched, Run.outcome_bind_ok ih]
    obtain ⟨value, next⟩ := m
    cases value with
    | none => rfl
    | some v => rfl

theorem exists_inTurn_of_collect {items : Items}
    (h : (Parser.collect ps c).outcome = .ok items) : ∃ values, InTurn ps values c items.2 := by
  induction ps generalizing c items with
  | nil =>
    obtain rfl := Outcome.ok.inj h
    exact ⟨[], .nil c⟩
  | cons p ps ih =>
    rw [Parser.collect] at h
    obtain ⟨m, hm, hrest⟩ := Run.ok_of_bind h
    obtain ⟨rest, hcollect, heq⟩ := Run.ok_of_bind hrest
    obtain rfl := Outcome.ok.inj heq
    obtain ⟨values, hvalues⟩ := ih hcollect
    exact ⟨_, .cons hm hvalues⟩

theorem InTurn.sequence (h : InTurn ps values c finish) :
    (Parser.sequence ps c).outcome = .ok ⟨some (.sequence values.reduceOption), finish⟩ := by
  rw [Parser.sequence, Run.outcome_bind_ok h.collect]
  rfl

theorem exists_inTurn_of_sequence {m : Match} (h : (Parser.sequence ps c).outcome = .ok m) :
    ∃ values, InTurn ps values c m.next := by
  obtain ⟨items, hcollect, heq⟩ := Run.ok_of_bind h
  obtain rfl := Outcome.ok.inj heq
  exact exists_inTurn_of_collect hcollect

/-! ### What a search fills in -/

/-- A search for a permutation gives every child a value and ends at a cursor. -/
def Fills (ps : List Parser) (c : Cursor) (values : List (Option Value)) (finish : Cursor) : Prop :=
  (Parser.fill ps ps.length (List.replicate ps.length none) c).outcome =
    .ok (values.map some, finish)

theorem Fills.permutation (h : Fills ps c values finish) :
    (Parser.permutation ps c).outcome = .ok ⟨some (.sequence values.reduceOption), finish⟩ := by
  rw [Parser.permutation, Run.outcome_bind_ok h, ← slotValues_map_some]
  rfl

theorem exists_fills {m : Match} (h : (Parser.permutation ps c).outcome = .ok m) :
    ∃ values finish, Fills ps c values finish ∧
      m = ⟨some (.sequence values.reduceOption), finish⟩ := by
  obtain ⟨⟨slots, finish⟩, hfill, heq⟩ := Run.ok_of_bind h
  obtain ⟨order, values, hvalues, -⟩ :=
    completion_of_fill List.length_replicate (emptySlots_replicate_le ps.length) hfill
  cases hvalues
  refine ⟨values, finish, hfill, ?_⟩
  rw [← slotValues_map_some]
  exact (Outcome.ok.inj heq).symm

theorem Fills.arrangement (h : Fills ps c values finish) :
    ∃ order, Arrangement ps c order values finish := by
  obtain ⟨order, values', heq, hcomp⟩ :=
    completion_of_fill List.length_replicate (emptySlots_replicate_le ps.length) h
  obtain rfl : values = values' :=
    List.map_injective_iff.mpr (Option.some_injective _) heq
  exact ⟨order, completion_replicate_iff.mp hcomp⟩

theorem Arrangement.exists_fills {good : Cursor → Prop} (hps : Answering good ps) (hc : good c)
    (h : Arrangement ps c order values finish) : ∃ values finish, Fills ps c values finish := by
  rcases outcome_permutation hps hc with ⟨order', values', finish', -, -, hok⟩ | ⟨-, hnone⟩
  · obtain ⟨values, finish, hfills, -⟩ := Permutation.exists_fills hok
    exact ⟨values, finish, hfills⟩
  · exact absurd h (hnone order values finish)

/-! ### Children by index -/

section ByIndex

variable {n : Nat} {p : Fin n → Parser} {v : Fin n → Option Value} {good : Cursor → Prop}

theorem getElem?_ofFn_val {α : Type} (f : Fin n → α) (i : Fin n) :
    (List.ofFn f)[i.val]? = some (f i) := by
  rw [List.getElem?_ofFn, dif_pos i.isLt]

theorem exists_of_getElem?_ofFn {α : Type} {f : Fin n → α} {j : Nat} {a : α}
    (h : (List.ofFn f)[j]? = some a) : ∃ i : Fin n, i.val = j ∧ f i = a := by
  rw [List.getElem?_ofFn] at h
  split at h
  · next hlt => exact ⟨⟨j, hlt⟩, rfl, Option.some.inj h⟩
  · cases h

theorem exists_ofFn_eq {α : Type} {l : List α} (h : l.length = n) :
    ∃ f : Fin n → α, List.ofFn f = l := by
  subst h
  exact ⟨l.get, List.ofFn_get l⟩

theorem exists_map_val {l : List Nat} (h : ∀ i ∈ l, i < n) :
    ∃ l' : List (Fin n), l'.map Fin.val = l := by
  refine ⟨l.pmap Fin.mk h, ?_⟩
  rw [List.map_pmap, List.pmap_eq_map, List.map_id']

/-- A list of all the indices is a permutation of them. -/
theorem exists_perm_ofFn {l : List (Fin n)} (nodup : l.Nodup) (complete : ∀ i, i ∈ l) :
    ∃ σ : Equiv.Perm (Fin n), List.ofFn σ = l := by
  have hperm : l.Perm (List.finRange n) :=
    (List.perm_ext_iff_of_nodup nodup (List.nodup_finRange n)).mpr fun i =>
      iff_of_true (complete i) (List.mem_finRange i)
  obtain ⟨f, rfl⟩ := exists_ofFn_eq (hperm.length_eq.trans List.length_finRange)
  have hbijective : Function.Bijective f :=
    ⟨List.nodup_ofFn.mp nodup, fun i => List.mem_ofFn.mp (complete i)⟩
  exact ⟨Equiv.ofBijective f hbijective, rfl⟩

theorem Path.inTurn {order : List (Fin n)}
    (h : Path (List.ofFn p) (List.ofFn v) (order.map Fin.val) c finish) :
    InTurn (order.map p) (order.map v) c finish := by
  induction order generalizing c with
  | nil =>
    cases h with
    | nil => exact .nil finish
  | cons i order ih =>
    cases h with
    | cons child matched consumes value rest =>
      rw [getElem?_ofFn_val] at child value
      cases child
      rw [List.map_cons, List.map_cons, Option.some.inj value]
      exact .cons matched (ih rest)

/-- The children that an arrangement leaves out match in turn where it ends. -/
theorem inTurn_of_empty {rest : List (Fin n)}
    (h : ∀ i ∈ rest, ∃ m, (p i c).outcome = .ok m ∧ m.next = c ∧ m.value = v i) :
    InTurn (rest.map p) (rest.map v) c c := by
  induction rest with
  | nil => exact .nil c
  | cons i rest ih =>
    obtain ⟨⟨m, hm, hnext, hvalue⟩, hrest⟩ := List.forall_mem_cons.mp h
    rw [List.map_cons, List.map_cons, ← hvalue]
    refine .cons hm ?_
    rw [hnext]
    exact ih hrest

/-- A match that does not move on ends at the very cursor where it starts. -/
def StaysPut (good : Cursor → Prop) (p : Parser) : Prop :=
  ∀ d, good d → ∀ m, (p d).outcome = .ok m → m.next.position = d.position → m.next = d

/-- The children of an arrangement match as a sequence: first those that move on, and then all the
others. -/
theorem Arrangement.exists_inTurn {order : List (Fin n)}
    (h : Arrangement (List.ofFn p) c (order.map Fin.val) (List.ofFn v) finish)
    (stays : ∀ i, StaysPut good (p i)) (hfinish : good finish) :
    ∃ σ : Equiv.Perm (Fin n), InTurn (List.ofFn (p ∘ σ)) (List.ofFn (v ∘ σ)) c finish := by
  have hmem : ∀ {i}, i ∈ (List.finRange n).filter (· ∉ order) ↔ i ∉ order := by
    simp
  have hnodup : (order ++ (List.finRange n).filter (· ∉ order)).Nodup :=
    List.nodup_append'.mpr ⟨h.nodup.of_map Fin.val, (List.nodup_finRange n).filter _,
      fun i hi hrest => hmem.mp hrest hi⟩
  have hcomplete : ∀ i, i ∈ order ++ (List.finRange n).filter (· ∉ order) := by
    intro i
    rw [List.mem_append, hmem]
    exact em (i ∈ order)
  obtain ⟨σ, hσ⟩ := exists_perm_ofFn hnodup hcomplete
  refine ⟨σ, ?_⟩
  rw [← List.map_ofFn, ← List.map_ofFn, hσ, List.map_append, List.map_append]
  refine h.path.inTurn.append (inTurn_of_empty fun i hi => ?_)
  have hnot : i.val ∉ order.map Fin.val := by
    rw [List.mem_map_of_injective Fin.val_injective]
    exact hmem.mp hi
  obtain ⟨w, hw, m, hm, hstay, hvalue⟩ := h.empty i (p i) (getElem?_ofFn_val p i) hnot
  rw [getElem?_ofFn_val] at hw
  exact ⟨m, hm, stays i finish hfinish m hm hstay, hvalue.trans (Option.some.inj hw).symm⟩

end ByIndex

/-! ### Children that are never in the way -/

section Sequences

variable {good : Cursor → Prop}

/-- A child that matches from every cursor. -/
def AlwaysMatches (good : Cursor → Prop) (p : Parser) : Prop :=
  ∀ d, good d → ∃ m, (p d).outcome = .ok m

/-- A child that moves on with every match. -/
def AlwaysMoves (good : Cursor → Prop) (p : Parser) : Prop :=
  ∀ d, good d → ∀ m, (p d).outcome = .ok m → d.position < m.next.position

/-- Children that always match are no dead end. The induction is on their number: where they do not
all match empty input, one of them moves on. -/
theorem not_deadEnd_of_alwaysMatches (hleft : Onward good left)
    (matching : ∀ p ∈ left, AlwaysMatches good p) (hc : good c) :
    ¬ DeadEnd left c := by
  induction hlength : left.length generalizing left c with
  | zero =>
    intro h
    obtain ⟨-, p, hp, -⟩ := h left c (.here c (.refl left))
    rw [List.length_eq_zero_iff.mp hlength] at hp
    cases hp
  | succ n ih =>
    intro h
    obtain ⟨-, p, hp, blocked⟩ := h left c (.here c (.refl left))
    obtain ⟨m, hm⟩ := matching p hp c hc
    obtain ⟨hnext, hle⟩ := hleft p hp c hc m hm
    have hne : m.next.position ≠ c.position := fun hstay => blocked m.value ⟨m, hm, hstay, rfl⟩
    obtain ⟨before, after, rfl⟩ := List.append_of_mem hp
    have hperm : (before ++ p :: after).Perm (p :: (before ++ after)) := List.perm_middle
    have hlength' : (before ++ after).length = n := by
      have := hperm.length_eq
      rw [hlength, List.length_cons] at this
      omega
    have hrest : ∀ q ∈ before ++ after, q ∈ before ++ p :: after :=
      fun q hq => hperm.symm.subset (List.mem_cons_of_mem p hq)
    exact ih (fun q hq => hleft q (hrest q hq)) (fun q hq => matching q (hrest q hq)) hnext hlength'
      (h.place hperm hm (by omega))

/-- **Children that match as a sequence are no dead end,** together with others that always match.
Those are the children that the sequence has passed without moving, and that are still to be
placed. -/
theorem InTurn.not_deadEnd (h : InTurn ps values c finish) {waiting : List Parser}
    (onward : Onward good (ps ++ waiting)) (stays : ∀ p ∈ ps, StaysPut good p)
    (passes : ∀ p ∈ ps, AlwaysMoves good p ∨ AlwaysMatches good p)
    (matching : ∀ p ∈ waiting, AlwaysMatches good p) (hc : good c) :
    ¬ DeadEnd (ps ++ waiting) c := by
  induction h generalizing waiting with
  | nil c => exact not_deadEnd_of_alwaysMatches onward matching hc
  | @cons p ps values c finish m matched rest ih =>
    obtain ⟨hstays, hstaysrest⟩ := List.forall_mem_cons.mp stays
    obtain ⟨hpasses, hpassesrest⟩ := List.forall_mem_cons.mp passes
    obtain ⟨hnext, hle⟩ := onward p (List.mem_cons_self ..) c hc m matched
    intro hdead
    rcases Nat.lt_or_eq_of_le hle with hlt | heq
    · -- The child moves on here, and is placed.
      exact ih (fun q hq => onward q (List.mem_cons_of_mem p hq)) hstaysrest hpassesrest matching
        hnext (hdead.place (.refl _) matched hlt)
    · -- The child does not move on here, and waits.
      have hcursor : m.next = c := hstays c hc m matched heq.symm
      have hmatches : AlwaysMatches good p :=
        hpasses.resolve_left fun hmoves => Nat.ne_of_lt (hmoves c hc m matched) heq
      have hperm : (ps ++ p :: waiting).Perm (p :: ps ++ waiting) := List.perm_middle
      rw [hcursor] at ih
      exact ih (fun q hq => onward q (hperm.subset hq)) hstaysrest hpassesrest
        (List.forall_mem_cons.mpr ⟨hmatches, matching⟩) hc (hdead.of_perm hperm.symm)

end Sequences

/-! ### Permutations by index -/

section Parsers

variable {n : Nat} {p : Fin n → Parser} {v : Fin n → Option Value} {good : Cursor → Prop}

/-- A permutation that succeeds has filled in one value for each child. -/
theorem exists_fills_ofFn {m : Match}
    (h : (Parser.permutation (List.ofFn p) c).outcome = .ok m) :
    ∃ v : Fin n → Option Value, Fills (List.ofFn p) c (List.ofFn v) m.next ∧
      m.value = some (.sequence (List.ofFn v).reduceOption) := by
  obtain ⟨values, finish, hfills, rfl⟩ := exists_fills h
  obtain ⟨order, harranged⟩ := hfills.arrangement
  obtain ⟨v, rfl⟩ := exists_ofFn_eq (harranged.length.trans List.length_ofFn)
  exact ⟨v, hfills, rfl⟩

theorem Fills.arrangement_ofFn (h : Fills (List.ofFn p) c (List.ofFn v) finish) :
    ∃ order : List (Fin n),
      Arrangement (List.ofFn p) c (order.map Fin.val) (List.ofFn v) finish := by
  obtain ⟨order, harranged⟩ := h.arrangement
  have hlt : ∀ i ∈ order, i < n := by
    intro i hi
    have hlt := harranged.path.mem_lt i hi
    rwa [List.length_ofFn] at hlt
  obtain ⟨order, rfl⟩ := exists_map_val hlt
  exact ⟨order, harranged⟩

/-- What a search fills in for the children comes of a sequence of them. -/
theorem Fills.exists_inTurn (stays : ∀ i, StaysPut good (p i)) (hfinish : good finish)
    (h : Fills (List.ofFn p) c (List.ofFn v) finish) :
    ∃ σ : Equiv.Perm (Fin n), InTurn (List.ofFn (p ∘ σ)) (List.ofFn (v ∘ σ)) c finish := by
  obtain ⟨order, harranged⟩ := h.arrangement_ofFn
  exact harranged.exists_inTurn stays hfinish

/-- Children that match as a sequence in some order match as a permutation. -/
theorem InTurn.permutation_ok {σ : Equiv.Perm (Fin n)} (hps : Answering good (List.ofFn p))
    (onward : Onward good (List.ofFn p)) (stays : ∀ i, StaysPut good (p i))
    (passes : ∀ i, AlwaysMoves good (p i) ∨ AlwaysMatches good (p i)) (hc : good c)
    (h : InTurn (List.ofFn (p ∘ σ)) values c finish) :
    ∃ m, (Parser.permutation (List.ofFn p) c).outcome = .ok m := by
  have hperm : (List.ofFn (p ∘ σ)).Perm (List.ofFn p) := σ.ofFn_comp_perm p
  rcases outcome_permutation hps hc with ⟨order, values, finish, -, -, hok⟩ | ⟨hfailed, -⟩
  · exact ⟨_, hok⟩
  · have hdead := ((permutation_failed_iff onward hc).mp hfailed).of_perm hperm.symm
    rw [← List.append_nil (List.ofFn (p ∘ σ))] at hdead
    refine absurd hdead (h.not_deadEnd ?_ ?_ ?_ (fun q hq => nomatch hq) hc)
    · rw [List.append_nil]
      exact fun q hq => onward q (hperm.subset hq)
    · exact List.forall_mem_ofFn_iff.mpr fun i => stays (σ i)
    · exact List.forall_mem_ofFn_iff.mpr fun i => passes (σ i)

end Parsers

/-! ### Rules -/

theorem sequence_parse_eq (cells : Cells) (rules : List Rule) (hc : c.WellFormed) :
    (Rule.sequence rules).parse cells c = Parser.sequence (rules.map (Rule.parse cells)) c := by
  rw [Rule.parse, Rule.parseWithin_sequence]
  exact map_parseWithin_eq cells rules hc .sequence

theorem Fills.outcome_parse {cells : Cells} {rules : List Rule} (hc : c.WellFormed)
    (h : Fills (rules.map (Rule.parse cells)) c values finish) :
    ((Rule.permutation rules).parse cells c).outcome =
      .ok ⟨some (.sequence values.reduceOption), finish⟩ := by
  rw [permutation_parse_eq cells rules hc]
  exact h.permutation

theorem InTurn.parse_sequence {cells : Cells} {rules : List Rule} (hc : c.WellFormed)
    (h : InTurn (rules.map (Rule.parse cells)) values c finish) :
    ((Rule.sequence rules).parse cells c).outcome =
      .ok ⟨some (.sequence values.reduceOption), finish⟩ := by
  rw [sequence_parse_eq cells rules hc]
  exact h.sequence

theorem exists_inTurn_of_parse_sequence {cells : Cells} {rules : List Rule} (hc : c.WellFormed)
    {m : Match} (h : ((Rule.sequence rules).parse cells c).outcome = .ok m) :
    ∃ values, InTurn (rules.map (Rule.parse cells)) values c m.next := by
  rw [sequence_parse_eq cells rules hc] at h
  exact exists_inTurn_of_sequence h

section Rules

variable {cells : Cells} {n : Nat} {rules : Fin n → Rule} {input : Array UInt8}

theorem map_parse_ofFn (cells : Cells) (rules : Fin n → Rule) :
    (List.ofFn rules).map (Rule.parse cells) = List.ofFn (Rule.parse cells ∘ rules) :=
  List.map_ofFn

theorem map_parse_ofFn_comp (cells : Cells) (rules : Fin n → Rule) (σ : Equiv.Perm (Fin n)) :
    (List.ofFn (rules ∘ σ)).map (Rule.parse cells) = List.ofFn ((Rule.parse cells ∘ rules) ∘ σ) :=
  List.map_ofFn

theorem staysPut_parse (cells : Cells) (rule : Rule) (input : Array UInt8) :
    StaysPut (Cursor.Within input 0) (rule.parse cells) := by
  intro d hd m hm hstay
  obtain ⟨hwithin, horder⟩ := Rule.within_of_parse hd hm
  have hinput := hwithin.input_eq.trans hd.input_eq.symm
  obtain ⟨value, input, position, order⟩ := m
  obtain rfl : input = d.input := hinput
  obtain rfl : position = d.position := hstay
  obtain rfl : order = d.order := horder
  rfl

theorem answering_ofFn
    (answers : ∀ i, ∀ d : Cursor, d.input = input → d.WellFormed →
      ((rules i).parse cells d).Answers) :
    Answering (Cursor.Within input 0) (List.ofFn (Rule.parse cells ∘ rules)) := by
  rw [← map_parse_ofFn]
  exact answering_parse cells (List.forall_mem_ofFn_iff.mpr answers)

theorem onward_ofFn
    (forward : ∀ i, ∀ d : Cursor, d.input = input → d.WellFormed → ∀ m,
      ((rules i).parse cells d).outcome = .ok m → d.position ≤ m.next.position) :
    Onward (Cursor.Within input 0) (List.ofFn (Rule.parse cells ∘ rules)) := by
  rw [← map_parse_ofFn]
  exact onward_parse cells (List.forall_mem_ofFn_iff.mpr forward)

/-- What a permutation gives its children, a sequence in some order gives them. -/
theorem exists_inTurn_of_parse_permutation (hc : c.WellFormed) {m : Match}
    (hm : ((Rule.permutation (List.ofFn rules)).parse cells c).outcome = .ok m) :
    ∃ (values : Fin n → Option Value) (σ : Equiv.Perm (Fin n)),
      Fills ((List.ofFn rules).map (Rule.parse cells)) c (List.ofFn values) m.next ∧
      m.value = some (.sequence (List.ofFn values).reduceOption) ∧
      InTurn ((List.ofFn (rules ∘ σ)).map (Rule.parse cells)) (List.ofFn (values ∘ σ)) c
        m.next := by
  have hgood : c.Within c.input 0 := hc.within (Nat.zero_le _)
  have hfinish : m.next.Within c.input 0 := (Rule.within_of_parse hgood hm).1
  rw [permutation_parse_eq cells _ hc, map_parse_ofFn] at hm
  obtain ⟨values, hfills, hvalue⟩ := exists_fills_ofFn hm
  obtain ⟨σ, hturn⟩ :=
    hfills.exists_inTurn (fun i => staysPut_parse cells (rules i) c.input) hfinish
  refine ⟨values, σ, ?_, hvalue, ?_⟩
  · rwa [map_parse_ofFn]
  · rwa [map_parse_ofFn_comp]

end Rules

/-- **A permutation is a sequence in some order.** Children that answer, and move on whenever they
succeed or else never fail, match in any order exactly when some sequence of them matches. What a
permutation gives is what a sequence gives, child by child. -/
theorem parse_permutation_iff_sequence (cells : Cells) {n : Nat} (rules : Fin n → Rule) (c : Cursor)
    (hc : c.WellFormed)
    (answers : ∀ i, ∀ d : Cursor, d.input = c.input → d.WellFormed →
      ((rules i).parse cells d).Answers)
    (forward : ∀ i, ∀ d : Cursor, d.input = c.input → d.WellFormed → ∀ m,
      ((rules i).parse cells d).outcome = .ok m → d.position ≤ m.next.position) :
    ((∀ i,
        (∀ d : Cursor, d.input = c.input → d.WellFormed → ∀ m,
          ((rules i).parse cells d).outcome = .ok m → d.position < m.next.position) ∨
        ∀ d : Cursor, d.input = c.input → d.WellFormed → ∀ e,
          ((rules i).parse cells d).outcome ≠ .failed e) →
      ((∃ m, ((Rule.permutation (List.ofFn rules)).parse cells c).outcome = .ok m) ↔
        ∃ (σ : Equiv.Perm (Fin n)) (m : Match),
          ((Rule.sequence (List.ofFn (rules ∘ σ))).parse cells c).outcome = .ok m)) ∧
    ∀ m, ((Rule.permutation (List.ofFn rules)).parse cells c).outcome = .ok m →
      ∃ (values : Fin n → Option Value) (σ : Equiv.Perm (Fin n)),
        Fills ((List.ofFn rules).map (Rule.parse cells)) c (List.ofFn values) m.next ∧
        m.value = some (.sequence (List.ofFn values).reduceOption) ∧
        InTurn ((List.ofFn (rules ∘ σ)).map (Rule.parse cells)) (List.ofFn (values ∘ σ)) c m.next ∧
        ((Rule.sequence (List.ofFn (rules ∘ σ))).parse cells c).outcome =
          .ok ⟨some (.sequence (List.ofFn (values ∘ σ)).reduceOption), m.next⟩ := by
  refine ⟨fun passes => ⟨?_, ?_⟩, fun m hm => ?_⟩
  · rintro ⟨m, hm⟩
    obtain ⟨values, σ, -, -, hturn⟩ := exists_inTurn_of_parse_permutation hc hm
    exact ⟨σ, _, hturn.parse_sequence hc⟩
  · rintro ⟨σ, m, hm⟩
    obtain ⟨values, hturn⟩ := exists_inTurn_of_parse_sequence hc hm
    rw [map_parse_ofFn_comp] at hturn
    rw [permutation_parse_eq cells _ hc, map_parse_ofFn]
    refine hturn.permutation_ok (answering_ofFn answers) (onward_ofFn forward)
      (fun i => staysPut_parse cells (rules i) c.input) (fun i => ?_) (hc.within (Nat.zero_le _))
    refine (passes i).imp (fun moves d hd => moves d hd.input_eq hd.wellFormed) fun never d hd => ?_
    rcases answers i d hd.input_eq hd.wellFormed with hok | ⟨e, he⟩
    · exact hok
    · exact absurd he (never d hd.input_eq hd.wellFormed e)
  · obtain ⟨values, σ, hfills, hvalue, hturn⟩ := exists_inTurn_of_parse_permutation hc hm
    exact ⟨values, σ, hfills, hvalue, hturn, hturn.parse_sequence hc⟩

/-- The three letters in another order, with the one that may be missing behind the others. A
sequence that passes it in the middle stops before it. -/
theorem parse_permutation_iff_sequence_threeLetters :
    (∀ i, ∀ d : Cursor, d.input = #[0x62, 0x61, 0x63] → d.WellFormed →
      ((threeLetters.get i).parse .empty d).Answers) ∧
    (∀ i, ∀ d : Cursor, d.input = #[0x62, 0x61, 0x63] → d.WellFormed → ∀ m,
      ((threeLetters.get i).parse .empty d).outcome = .ok m → d.position ≤ m.next.position) ∧
    (∃ m, ((Rule.permutation (List.ofFn threeLetters.get)).parse .empty
      ⟨#[0x62, 0x61, 0x63], 0, {}⟩).outcome = .ok m) ∧
    ∃ (values : Fin threeLetters.length → Option Value)
      (σ : Equiv.Perm (Fin threeLetters.length)),
      (List.ofFn values).reduceOption = [.char 0x61, .char 0x63, .char 0x62] ∧
      ((Rule.sequence (List.ofFn (threeLetters.get ∘ σ))).parse .empty
          ⟨#[0x62, 0x61, 0x63], 0, {}⟩).outcome =
        .ok ⟨some (.sequence (List.ofFn (values ∘ σ)).reduceOption),
          ⟨#[0x62, 0x61, 0x63], 24, {}⟩⟩ := by
  have answers : ∀ i, ∀ d : Cursor, d.input = #[0x62, 0x61, 0x63] → d.WellFormed →
      ((threeLetters.get i).parse .empty d).Answers :=
    fun i d _ _ => answers_threeLetters .empty (List.get_mem ..) d
  have forward : ∀ i, ∀ d : Cursor, d.input = #[0x62, 0x61, 0x63] → d.WellFormed → ∀ m,
      ((threeLetters.get i).parse .empty d).outcome = .ok m → d.position ≤ m.next.position :=
    fun i d _ hd m hm => forward_threeLetters .empty (List.get_mem ..) hd hm
  have passes : ∀ i,
      (∀ d : Cursor, d.input = #[0x62, 0x61, 0x63] → d.WellFormed → ∀ m,
        ((threeLetters.get i).parse .empty d).outcome = .ok m →
          d.position < m.next.position) ∨
      ∀ d : Cursor, d.input = #[0x62, 0x61, 0x63] → d.WellFormed → ∀ e,
        ((threeLetters.get i).parse .empty d).outcome ≠ .failed e := by
    intro i
    rcases mem_threeLetters (List.get_mem threeLetters i) with ⟨b, hb⟩ | hc
    · rw [hb]
      exact .inl fun d _ hd m hm => Rule.consumes_byte .empty b d m hd hm
    · rw [hc]
      refine .inr fun d _ _ e he => ?_
      obtain ⟨m, hm⟩ := optional_byte_ok .empty 0x63 d
      cases hm.symm.trans he
  obtain ⟨hiff, hfound⟩ := parse_permutation_iff_sequence .empty threeLetters.get
    ⟨#[0x62, 0x61, 0x63], 0, {}⟩ (Nat.zero_le _) answers forward
  obtain ⟨values, σ, -, hvalues, -, hok⟩ :=
    hfound ⟨some (.sequence [.char 0x61, .char 0x63, .char 0x62]), ⟨#[0x62, 0x61, 0x63], 24, {}⟩⟩
      rfl
  refine ⟨answers, forward, (hiff passes).mpr ⟨Fin.revPerm, _, rfl⟩, values, σ, ?_, hok⟩
  exact (Value.sequence.inj (Option.some.inj hvalues)).symm

end Permutation

end BitGrammar
