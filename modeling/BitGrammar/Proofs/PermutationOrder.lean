import BitGrammar.Proofs.PermutationSequence

/-!
# The order of the children of a permutation

Two permutations of the same children in different orders are two different searches: the one tries
other members first than the other, fills other slots, and takes other placements back. When from
every cursor at most one of the children moves on, the two agree all the same. Each child gets the
same value, and both end at the same cursor.

## What decides the design

Nothing is said about the two searches themselves. An arrangement of the children is one in the
other order as well, with its indices renamed (`Arrangement.reorder`). Where children are
unambiguous there is no more than one arrangement (`Completion.unique`), and the search for the
other order must find it.

That the children which match empty input get the same values needs no hypothesis. They match where
the last of the others ends, and parsers are functions.

## Main definitions

* `Unambiguous`: from no cursor do two of the children move on

## Main results

* `Completion.unique`: unambiguous children complete the slots in at most one way
* `parse_permutation_reordered`: another order of unambiguous children only moves their values
-/

namespace BitGrammar

namespace Permutation

variable {ps : List Parser} {values : List (Option Value)} {c d finish : Cursor}
  {order : List Nat}

/-! ### Arrangements in another order -/

section ByIndex

variable {n : Nat} {p : Fin n → Parser} {v : Fin n → Option Value} {σ : Equiv.Perm (Fin n)}

theorem Path.reorder {order : List (Fin n)}
    (h : Path (List.ofFn p) (List.ofFn v) (order.map Fin.val) c finish) :
    Path (List.ofFn (p ∘ σ)) (List.ofFn (v ∘ σ)) ((order.map σ.symm).map Fin.val) c finish := by
  induction order generalizing c with
  | nil =>
    cases h with
    | nil => exact .nil finish
  | cons i order ih =>
    cases h with
    | cons child matched consumes value rest =>
      rw [getElem?_ofFn_val] at child value
      refine .cons ?_ matched consumes ?_ (ih rest)
      · rw [getElem?_ofFn_val, Function.comp_apply, σ.apply_symm_apply, child]
      · rw [getElem?_ofFn_val, Function.comp_apply, σ.apply_symm_apply, value]

/-- With the children in another order, an arrangement is one with the indices and the values moved
along. -/
theorem Arrangement.reorder {order : List (Fin n)}
    (h : Arrangement (List.ofFn p) c (order.map Fin.val) (List.ofFn v) finish) :
    Arrangement (List.ofFn (p ∘ σ)) c ((order.map σ.symm).map Fin.val) (List.ofFn (v ∘ σ))
      finish := by
  have hnodup : order.Nodup := h.nodup.of_map Fin.val
  refine ⟨(hnodup.map σ.symm.injective).map Fin.val_injective, ?_, h.path.reorder, ?_⟩
  · rw [List.length_ofFn, List.length_ofFn]
  · intro j q hq hj
    obtain ⟨i, rfl, rfl⟩ := exists_of_getElem?_ofFn hq
    rw [getElem?_ofFn_val]
    have hnot : (σ i).val ∉ order.map Fin.val := by
      rintro hmem
      refine hj (List.mem_map_of_mem (List.mem_map.mpr ⟨σ i, ?_, σ.symm_apply_apply i⟩))
      exact (List.mem_map_of_injective Fin.val_injective).mp hmem
    obtain ⟨w, hw, hempty⟩ := h.empty (σ i) (p (σ i)) (getElem?_ofFn_val p (σ i)) hnot
    rw [getElem?_ofFn_val] at hw
    exact ⟨w, hw, hempty⟩

end ByIndex

/-! ### Unambiguous children -/

section Unambiguous

variable {good : Cursor → Prop} {slots : Parser.Slots} {values' : List (Option Value)}
  {order' : List Nat} {finish' : Cursor}

/-- From no cursor with a property do two of the children move on. -/
def Unambiguous (good : Cursor → Prop) (ps : List Parser) : Prop :=
  ∀ d, good d → ∀ (i j : Nat) (p q : Parser) (m m' : Match), ps[i]? = some p → ps[j]? = some q →
    (p d).outcome = .ok m → d.position < m.next.position →
    (q d).outcome = .ok m' → d.position < m'.next.position → i = j

theorem Answering.next {p : Parser} {m : Match} (hps : Answering good ps) (hp : p ∈ ps)
    (hc : good c) (hm : (p c).outcome = .ok m) : good m.next := by
  rcases hps p hp c hc with ⟨n, hn, hgood⟩ | ⟨e, he⟩
  · rwa [Outcome.ok.inj (hm.symm.trans hn)]
  · cases hm.symm.trans he

theorem MatchesEmpty.unique {p : Parser} {v w : Option Value} (h : MatchesEmpty p c v)
    (h' : MatchesEmpty p c w) : v = w := by
  obtain ⟨m, hm, -, rfl⟩ := h
  obtain ⟨m', hm', -, rfl⟩ := h'
  rw [Outcome.ok.inj (hm.symm.trans hm')]

/-- Where the search stops, the slots are completed in one way. -/
theorem Completion.nil_unique (hlength : slots.length = ps.length)
    (h : Completion ps slots c [] values finish) (h' : Completion ps slots c [] values' finish') :
    values = values' ∧ finish = finish' := by
  obtain ⟨rfl, hvalues, hkept, hempty⟩ := completion_nil_iff.mp h
  obtain ⟨rfl, hvalues', hkept', hempty'⟩ := completion_nil_iff.mp h'
  refine ⟨List.ext_getElem? fun i => ?_, rfl⟩
  match hslot : slots[i]? with
  | none =>
    have hle := List.getElem?_eq_none_iff.mp hslot
    rw [List.getElem?_eq_none (by omega), List.getElem?_eq_none (by omega)]
  | some none =>
    obtain ⟨p, hchild, -⟩ := exists_mem_unplaced hlength hslot
    obtain ⟨v, hv, hmatches⟩ := hempty i p hchild hslot
    obtain ⟨w, hw, hmatches'⟩ := hempty' i p hchild hslot
    rw [hv, hw, hmatches.unique hmatches']
  | some (some v) => rw [hkept i v hslot, hkept' i v hslot]

/-- **Unambiguous children complete the slots in one way only.** The induction is on the indices of
one completion, which are those of the other one too. -/
theorem Completion.unique (hps : Answering good ps) (unambiguous : Unambiguous good ps)
    (hlength : slots.length = ps.length) (hc : good c)
    (h : Completion ps slots c order values finish)
    (h' : Completion ps slots c order' values' finish') : values = values' ∧ finish = finish' := by
  induction order generalizing slots c order' with
  | nil =>
    cases order' with
    | nil => exact h.nil_unique hlength h'
    | cons j order' => exact absurd h' h.not_cons_of_nil
  | cons i order ih =>
    cases order' with
    | nil => exact absurd h h'.not_cons_of_nil
    | cons j order' =>
      obtain ⟨-, p, m, hp, hm, hlt, hrest⟩ := completion_cons_iff.mp h
      obtain ⟨-, q, m', hq, hm', hlt', hrest'⟩ := completion_cons_iff.mp h'
      obtain rfl : i = j := unambiguous c hc i j p q m m' hp hq hm hlt hm' hlt'
      obtain rfl : p = q := Option.some.inj (hp.symm.trans hq)
      obtain rfl : m = m' := Outcome.ok.inj (hm.symm.trans hm')
      have hnext : good m.next := hps.next (List.mem_of_getElem? hp) hc hm
      exact ih (by rw [List.length_set, hlength]) hnext hrest hrest'

end Unambiguous

section Parsers

variable {n : Nat} {p : Fin n → Parser} {v : Fin n → Option Value} {good : Cursor → Prop}
  {σ : Equiv.Perm (Fin n)}

theorem unambiguous_ofFn
    (h : ∀ d, good d → ∀ (i j : Fin n) (m m' : Match), (p i d).outcome = .ok m →
      d.position < m.next.position → (p j d).outcome = .ok m' →
        d.position < m'.next.position → i = j) : Unambiguous good (List.ofFn p) := by
  intro d hd i j q q' m m' hi hj hm hlt hm' hlt'
  obtain ⟨i, rfl, rfl⟩ := exists_of_getElem?_ofFn hi
  obtain ⟨j, rfl, rfl⟩ := exists_of_getElem?_ofFn hj
  rw [h d hd i j m m' hm hlt hm' hlt']

theorem answering_comp (hps : Answering good (List.ofFn p)) :
    Answering good (List.ofFn (p ∘ σ)) :=
  fun q hq => hps q ((σ.ofFn_comp_perm p).subset hq)

/-- Unambiguous children get the same values in another order. -/
theorem Fills.reorder (hps : Answering good (List.ofFn p))
    (unambiguous : Unambiguous good (List.ofFn (p ∘ σ))) (hc : good c)
    (h : Fills (List.ofFn p) c (List.ofFn v) finish) :
    Fills (List.ofFn (p ∘ σ)) c (List.ofFn (v ∘ σ)) finish := by
  have hps' : Answering good (List.ofFn (p ∘ σ)) := answering_comp hps
  obtain ⟨order, harranged⟩ := h.arrangement_ofFn
  obtain ⟨values, finish', hfills⟩ := harranged.reorder.exists_fills hps' hc
  obtain ⟨order', harranged'⟩ := hfills.arrangement
  obtain ⟨rfl, rfl⟩ := Completion.unique hps' unambiguous List.length_replicate hc
    (completion_replicate_iff.mpr harranged') (completion_replicate_iff.mpr harranged.reorder)
  exact hfills

end Parsers

/-! ### Rules in another order -/

section Rules

variable {cells : Cells} {n : Nat} {rules : Fin n → Rule} (σ : Equiv.Perm (Fin n))
  (answers : ∀ i, ∀ d : Cursor, d.input = c.input → d.WellFormed →
    ((rules i).parse cells d).Answers)
  (unambiguous : ∀ d : Cursor, d.input = c.input → d.WellFormed → ∀ i j m m',
    ((rules i).parse cells d).outcome = .ok m → d.position < m.next.position →
      ((rules j).parse cells d).outcome = .ok m' → d.position < m'.next.position → i = j)
include answers unambiguous

theorem exists_fills_reordered (hc : c.WellFormed) {m : Match}
    (hm : ((Rule.permutation (List.ofFn rules)).parse cells c).outcome = .ok m) :
    ∃ values : Fin n → Option Value,
      Fills ((List.ofFn rules).map (Rule.parse cells)) c (List.ofFn values) m.next ∧
      m.value = some (.sequence (List.ofFn values).reduceOption) ∧
      Fills ((List.ofFn (rules ∘ σ)).map (Rule.parse cells)) c (List.ofFn (values ∘ σ))
        m.next := by
  have hgood : c.Within c.input 0 := hc.within (Nat.zero_le _)
  have hps := answering_ofFn answers
  rw [permutation_parse_eq cells _ hc, map_parse_ofFn] at hm
  obtain ⟨values, hfills, hvalue⟩ := exists_fills_ofFn hm
  have halone : Unambiguous (Cursor.Within c.input 0)
      (List.ofFn ((Rule.parse cells ∘ rules) ∘ σ)) :=
    unambiguous_ofFn fun d hd i j m m' hm hlt hm' hlt' =>
      σ.injective (unambiguous d hd.input_eq hd.wellFormed _ _ m m' hm hlt hm' hlt')
  refine ⟨values, ?_, hvalue, ?_⟩
  · rwa [map_parse_ofFn]
  · rw [map_parse_ofFn_comp]
    exact hfills.reorder hps halone hgood

theorem exists_match_reordered (hc : c.WellFormed)
    (h : ∃ m, ((Rule.permutation (List.ofFn rules)).parse cells c).outcome = .ok m) :
    ∃ m, ((Rule.permutation (List.ofFn (rules ∘ σ))).parse cells c).outcome = .ok m := by
  obtain ⟨m, hm⟩ := h
  obtain ⟨values, -, -, hfills⟩ := exists_fills_reordered σ answers unambiguous hc hm
  exact ⟨_, hfills.outcome_parse hc⟩

end Rules

/-- **The order of unambiguous children only moves their values.** From no cursor may two of the
children move on. -/
theorem parse_permutation_reordered (cells : Cells) {n : Nat} (rules : Fin n → Rule)
    (σ : Equiv.Perm (Fin n)) (c : Cursor) (hc : c.WellFormed)
    (answers : ∀ i, ∀ d : Cursor, d.input = c.input → d.WellFormed →
      ((rules i).parse cells d).Answers)
    (unambiguous : ∀ d : Cursor, d.input = c.input → d.WellFormed → ∀ i j m m',
      ((rules i).parse cells d).outcome = .ok m → d.position < m.next.position →
        ((rules j).parse cells d).outcome = .ok m' → d.position < m'.next.position → i = j) :
    ((∃ m, ((Rule.permutation (List.ofFn rules)).parse cells c).outcome = .ok m) ↔
      ∃ m, ((Rule.permutation (List.ofFn (rules ∘ σ))).parse cells c).outcome = .ok m) ∧
    ∀ m, ((Rule.permutation (List.ofFn rules)).parse cells c).outcome = .ok m →
      ∃ values : Fin n → Option Value,
        Fills ((List.ofFn rules).map (Rule.parse cells)) c (List.ofFn values) m.next ∧
        m.value = some (.sequence (List.ofFn values).reduceOption) ∧
        Fills ((List.ofFn (rules ∘ σ)).map (Rule.parse cells)) c (List.ofFn (values ∘ σ)) m.next ∧
        ((Rule.permutation (List.ofFn (rules ∘ σ))).parse cells c).outcome =
          .ok ⟨some (.sequence (List.ofFn (values ∘ σ)).reduceOption), m.next⟩ := by
  refine ⟨⟨exists_match_reordered σ answers unambiguous hc, fun h => ?_⟩, fun m hm => ?_⟩
  · have hback : (rules ∘ σ) ∘ σ.symm = rules :=
      funext fun i => congrArg rules (σ.apply_symm_apply i)
    rw [← hback]
    refine exists_match_reordered σ.symm (fun i => answers (σ i)) ?_ hc h
    exact fun d hinput hd i j m m' hm hlt hm' hlt' =>
      σ.injective (unambiguous d hinput hd _ _ m m' hm hlt hm' hlt')
  · obtain ⟨values, hfills, hvalue, hreordered⟩ :=
      exists_fills_reordered σ answers unambiguous hc hm
    exact ⟨values, hfills, hvalue, hreordered, hreordered.outcome_parse hc⟩

/-- The byte that a letter is, also where it may be missing. -/
def letter : Rule → UInt8
  | .byte b => b
  | .optional rule => letter rule
  | _ => 0

theorem readByte_of_byte_ok {cells : Cells} {b : UInt8} {m : Match}
    (h : ((Rule.byte b).parse cells d).outcome = .ok m) :
    ∃ next, d.readByte = .ok (b, next) := by
  obtain ⟨next, head, -⟩ := Parser.outcome_byte_eq_ok_iff.mp h
  exact ⟨next, head⟩

theorem readByte_of_moves {cells : Cells} {rule : Rule} (h : rule ∈ threeLetters) {m : Match}
    (hm : (rule.parse cells d).outcome = .ok m) (hlt : d.position < m.next.position) :
    ∃ next, d.readByte = .ok (letter rule, next) := by
  rcases mem_threeLetters h with ⟨b, rfl⟩ | rfl
  · exact readByte_of_byte_ok hm
  · rcases answers_byte cells 0x63 d with ⟨m', hm'⟩ | ⟨e, he⟩
    · exact readByte_of_byte_ok hm'
    · have hstay : ((Rule.optional (.byte 0x63)).parse cells d).outcome = .ok ⟨some .absent, d⟩ :=
        Run.outcome_attempt_bind_failed he
      rw [Outcome.ok.inj (hm.symm.trans hstay)] at hlt
      exact absurd hlt (Nat.lt_irrefl _)

theorem eq_of_letter_eq : ∀ i j : Fin threeLetters.length,
    letter (threeLetters.get i) = letter (threeLetters.get j) → i = j := by
  decide

theorem eq_of_moves {cells : Cells} {i j : Fin threeLetters.length} {m m' : Match}
    (hm : ((threeLetters.get i).parse cells d).outcome = .ok m) (hlt : d.position < m.next.position)
    (hm' : ((threeLetters.get j).parse cells d).outcome = .ok m')
    (hlt' : d.position < m'.next.position) : i = j := by
  obtain ⟨next, hread⟩ := readByte_of_moves (List.get_mem ..) hm hlt
  obtain ⟨next', hread'⟩ := readByte_of_moves (List.get_mem ..) hm' hlt'
  exact eq_of_letter_eq i j (Prod.mk.inj (Except.ok.inj (hread.symm.trans hread'))).1

/-- The three letters and their reverse, on an input that has the first one last. -/
theorem parse_permutation_reordered_threeLetters :
    (∀ i, ∀ d : Cursor, d.input = #[0x62, 0x63, 0x61] → d.WellFormed →
      ((threeLetters.get i).parse .empty d).Answers) ∧
    (∀ d : Cursor, d.input = #[0x62, 0x63, 0x61] → d.WellFormed → ∀ i j m m',
      ((threeLetters.get i).parse .empty d).outcome = .ok m → d.position < m.next.position →
        ((threeLetters.get j).parse .empty d).outcome = .ok m' →
          d.position < m'.next.position → i = j) ∧
    ∃ values : Fin threeLetters.length → Option Value,
      (List.ofFn values).reduceOption = [.char 0x61, .char 0x63, .char 0x62] ∧
      ((Rule.permutation (List.ofFn (threeLetters.get ∘ Fin.revPerm))).parse .empty
          ⟨#[0x62, 0x63, 0x61], 0, {}⟩).outcome =
        .ok ⟨some (.sequence (List.ofFn (values ∘ Fin.revPerm)).reduceOption),
          ⟨#[0x62, 0x63, 0x61], 24, {}⟩⟩ := by
  have answers : ∀ i, ∀ d : Cursor, d.input = #[0x62, 0x63, 0x61] → d.WellFormed →
      ((threeLetters.get i).parse .empty d).Answers :=
    fun i d _ _ => answers_threeLetters .empty (List.get_mem ..) d
  have unambiguous : ∀ d : Cursor, d.input = #[0x62, 0x63, 0x61] → d.WellFormed → ∀ i j m m',
      ((threeLetters.get i).parse .empty d).outcome = .ok m → d.position < m.next.position →
        ((threeLetters.get j).parse .empty d).outcome = .ok m' →
          d.position < m'.next.position → i = j :=
    fun d _ _ i j m m' hm hlt hm' hlt' => eq_of_moves hm hlt hm' hlt'
  obtain ⟨-, hfound⟩ := parse_permutation_reordered .empty threeLetters.get Fin.revPerm
    ⟨#[0x62, 0x63, 0x61], 0, {}⟩ (Nat.zero_le _) answers unambiguous
  obtain ⟨values, -, hvalues, -, hok⟩ :=
    hfound ⟨some (.sequence [.char 0x61, .char 0x63, .char 0x62]), ⟨#[0x62, 0x63, 0x61], 24, {}⟩⟩
      rfl
  refine ⟨answers, unambiguous, values, ?_, hok⟩
  exact (Value.sequence.inj (Option.some.inj hvalues)).symm

end Permutation

end BitGrammar
