import BitGrammar.Proofs.PermutationSequence
import BitGrammar.Proofs.SeparatedList

/-!
# Elided parts

A part of a grammar whose value is elided matches what it matched before, and leaves no value. In a
sequence or a permutation its place is gone and all others stay, in their order. Where one part
makes all the values, as in a repetition, none is left. And where the value of a part is not used,
to elide it changes nothing.

## What decides the design

To elide a value is to change the result of a run, and nothing else about it. So what comes of it
is said by equations between runs, `f <$> x`, which hold for records, failures, misuse and
endlessness at once. Every loop is compared with itself by one induction along its own recursion,
and the search of a permutation as well: started from slots with elided values, it makes the same
attempts and leaves the same slots with elided values.

Sequences drop elided values at once, and so their equations say where they end and not what is
left. That is read off the values of the parts in turn (`Permutation.InTurn`).

## Main definitions

* `Parser.ignoreAt`, `Rule.ignoreAt`: parts of a list are elided
* `elideAt`: what is left of the values
* `Rule.CollectsElided`, `Rule.DropsElided`: rules that collect the values of a part, or drop them

## Main results

* `Parser.fill_ignoreAt`: the search of a permutation makes the same attempts
* `Rule.parse_ignoreAt`: what eliding does, for sequences, permutations and repetitions
-/

namespace BitGrammar

/-! ### Matches without values -/

/-- A match without its value. -/
def Match.elided (m : Match) : Match :=
  ⟨none, m.next⟩

/-- A match with the empty sequence as its value. -/
def Match.emptied (m : Match) : Match :=
  ⟨some (.sequence []), m.next⟩

/-- No items, up to the same cursor. -/
def Items.emptied (items : Items) : Items :=
  ([], items.2)

/-! ### Repetitions -/

namespace Parser

variable (p q item separator : Parser) (c : Cursor)

theorem ignore_eq : ignore p c = Match.elided <$> p c :=
  (map_eq_pure_bind _ _).symm

theorem right_ignore : right separator (ignore item) = ignore (right separator item) := by
  funext c
  simp only [right, ignore, bind_assoc]

/-- A match and further items, all without their values. -/
theorem elided_bind (x : Run Match) {f g : Cursor → Run Items}
    (h : ∀ d, g d = Items.emptied <$> f d) :
    ((Match.elided <$> x) >>= fun m => g m.next >>= fun items => pure (m.consTo items)) =
      Items.emptied <$> (x >>= fun m => f m.next >>= fun items => pure (m.consTo items)) := by
  simp only [h, bind_map_left, map_bind, map_pure]
  rfl

theorem toMatch_emptied (x : Run Items) :
    ((Items.emptied <$> x) >>= fun items => pure items.toMatch) =
      Match.emptied <$> (x >>= fun items => pure items.toMatch) := by
  simp only [bind_map_left, map_bind, map_pure]
  rfl

theorem collectTimes_ignore (total left : Nat) :
    collectTimes (ignore p) total left c = Items.emptied <$> collectTimes p total left c := by
  induction left generalizing c with
  | zero => rfl
  | succ left ih =>
    rw [collectTimes, collectTimes, ignore_eq, Run.recordFailure_map]
    exact elided_bind _ ih

theorem collectCounted_ignore (count : Nat) :
    collectCounted (ignore p) count c = Items.emptied <$> collectCounted p count c := by
  induction count generalizing c with
  | zero => rfl
  | succ count ih =>
    rw [collectCounted, collectCounted, ignore_eq]
    exact elided_bind _ ih

/-- A loop over an elided part makes the same rounds, and no items. -/
theorem repeatWhile_ignore (rounds required : Nat) :
    repeatWhile (ignore p) rounds required c =
      Items.emptied <$> repeatWhile p rounds required c := by
  induction rounds generalizing required c with
  | zero => rfl
  | succ rounds ih =>
    rw [repeatWhile, repeatWhile, ignore_eq, Run.attempt_map, bind_map_left, map_bind]
    refine bind_congr fun r => ?_
    cases r with
    | ok m =>
      simp only [Except.map, Match.elided, ih, bind_map_left]
      split
      · rfl
      · rw [map_bind]
        rfl
    | error e =>
      simp only [Except.map]
      split <;> rfl

theorem times_ignore (count : Nat) :
    times (ignore p) count c = Match.emptied <$> times p count c := by
  rcases Nat.lt_or_ge count capacity with room | noRoom
  · rw [times_of_lt _ room, times_of_lt _ room, exactly, exactly, collectTimes_ignore,
      toMatch_emptied]
  · rw [times_of_le _ noRoom, times_of_le _ noRoom]
    rfl

theorem atLeast_ignore (required : Nat) :
    atLeast required (ignore p) c = Match.emptied <$> atLeast required p c := by
  rw [atLeast, atLeast, repeatWhile_ignore, toMatch_emptied]

theorem lengthValue_ignore :
    lengthValue p (ignore q) c = Match.emptied <$> lengthValue p q c := by
  rw [lengthValue, lengthValue, map_bind]
  refine bind_congr fun m => ?_
  cases m.value.bind Value.asCount with
  | some count => simp only [collectCounted_ignore, toMatch_emptied]
  | none => rfl

theorem separated_ignore (required : Bool) :
    separated required (ignore item) separator c =
      Match.emptied <$> separated required item separator c := by
  rw [separated, separated, ignore_eq, Run.attempt_map, bind_map_left, map_bind]
  refine bind_congr fun r => ?_
  cases r with
  | ok m =>
    simp only [Except.map, Match.elided, furtherItems_eq, right_ignore, repeatWhile_ignore,
      bind_map_left, map_bind]
    rfl
  | error e => cases required <;> rfl

/-! ### Values that are not used -/

theorem left_ignore : left p (ignore q) c = left p q c := by
  simp only [left, ignore_eq, bind_map_left]
  rfl

theorem ignore_right : right (ignore p) q c = right p q c := by
  simp only [right, ignore_eq, bind_map_left]
  rfl

theorem middle_ignore_opening (opening content closing : Parser) :
    middle (ignore opening) content closing c = middle opening content closing c := by
  simp only [middle, ignore_eq, bind_map_left]
  rfl

theorem middle_ignore_closing (opening content closing : Parser) :
    middle opening content (ignore closing) c = middle opening content closing c := by
  simp only [middle, ignore_eq, bind_map_left]
  rfl

theorem excluding_ignore (excludes : Nat → Nat → Bool) :
    excluding excludes p (ignore q) c = excluding excludes p q c := by
  simp only [excluding, ignore_eq, Run.attempt_map, bind_map_left]
  refine bind_congr fun m => bind_congr fun r => ?_
  cases r <;> rfl

/-- A separator comes in front of an item, and its value is dropped there. -/
theorem separated_ignore_separator (required : Bool) :
    separated required item (ignore separator) c = separated required item separator c := by
  have pair : right (ignore separator) item = right separator item :=
    funext fun d => ignore_right separator item d
  simp only [separated, furtherItems_eq, pair]

end Parser

/-! ### Parts of a list -/

/-- What is left of a value that may be elided. -/
def elideIf (elide : Bool) (v : Option Value) : Option Value :=
  if elide then none else v

/-- What is left of the values in a list when those at some indices are elided. -/
def elideAt (elided : Nat → Bool) (values : List (Option Value)) : List (Option Value) :=
  values.mapIdx fun i => elideIf (elided i)

namespace Parser

/-- A parser whose value may be elided. -/
def ignoreIf (elide : Bool) (p : Parser) : Parser :=
  if elide then ignore p else p

/-- The parsers of a list, of which those at some indices have their values elided. -/
def ignoreAt (elided : Nat → Bool) (ps : List Parser) : List Parser :=
  ps.mapIdx fun i => ignoreIf (elided i)

/-- Slots in which the values at some indices are elided. -/
def elideSlots (elided : Nat → Bool) (slots : Slots) : Slots :=
  slots.mapIdx fun i => Option.map (elideIf (elided i))

variable {elided : Nat → Bool}

theorem ignoreIf_eq (elide : Bool) (p : Parser) (c : Cursor) :
    ignoreIf elide p c = (fun m : Match => ⟨elideIf elide m.value, m.next⟩) <$> p c := by
  cases elide with
  | true => exact ignore_eq p c
  | false => exact (id_map (p c)).symm

theorem ignoreAt_cons (elided : Nat → Bool) (p : Parser) (ps : List Parser) :
    ignoreAt elided (p :: ps) = ignoreIf (elided 0) p :: ignoreAt (elided <| · + 1) ps :=
  List.mapIdx_cons

/-! ### Sequences -/

/-- A sequence of parts with elided values ends and fails where it did. -/
theorem collect_ignoreAt (elided : Nat → Bool) (ps : List Parser) (c : Cursor) :
    Prod.snd <$> collect (ignoreAt elided ps) c = Prod.snd <$> collect ps c := by
  induction ps generalizing elided c with
  | nil => rfl
  | cons p ps ih =>
    simp only [ignoreAt_cons, collect, ignoreIf_eq, bind_map_left, map_bind, map_pure,
      Match.consTo_snd]
    refine bind_congr fun m => ?_
    exact ih (elided <| · + 1) m.next

theorem sequence_ignoreAt (elided : Nat → Bool) (ps : List Parser) (c : Cursor) :
    Match.next <$> sequence (ignoreAt elided ps) c = Match.next <$> sequence ps c := by
  have ends : ∀ ps, Match.next <$> sequence ps c = Prod.snd <$> collect ps c := by
    intro ps
    rw [sequence_eq, Functor.map_map]
    rfl
  rw [ends, ends, collect_ignoreAt]

end Parser

/-- The parts of a sequence match in turn as they did, with what is left of their values. -/
theorem Permutation.InTurn.ignoreAt {ps : List Parser} {values : List (Option Value)} {c d : Cursor}
    (h : InTurn ps values c d) (elided : Nat → Bool) :
    InTurn (Parser.ignoreAt elided ps) (elideAt elided values) c d := by
  induction h generalizing elided with
  | nil c => exact .nil c
  | @cons p ps values c d m matched _ ih =>
    have left : (Parser.ignoreIf (elided 0) p c).outcome =
        .ok ⟨elideIf (elided 0) m.value, m.next⟩ := by
      rw [Parser.ignoreIf_eq, Run.map_eq, matched]
      rfl
    rw [Parser.ignoreAt_cons, elideAt, List.mapIdx_cons]
    exact .cons left (ih (elided <| · + 1))

namespace Parser

/-! ### The search of a permutation -/

theorem elideSlots_set (elided : Nat → Bool) (slots : Slots) (i : Nat) (v : Option Value) :
    (elideSlots elided slots).set i (some (elideIf (elided i) v)) =
      elideSlots elided (slots.set i (some v)) := by
  rw [elideSlots, elideSlots, List.mapIdx_set, Option.map_some]

/-- A member of which the value may be elided. -/
def ignoreMember (elided : Nat → Bool) (member : Nat × Parser) : Nat × Parser :=
  (member.1, ignoreIf (elided member.1) member.2)

theorem unplaced_ignoreAt (elided : Nat → Bool) (ps : List Parser) (slots : Slots) :
    unplaced (ignoreAt elided ps) (elideSlots elided slots) =
      (unplaced ps slots).map (ignoreMember elided) := by
  -- the index that the members are counted from moves along with the induction
  suffices ∀ k, (((ignoreAt (elided <| · + k) ps).zip
      (elideSlots (elided <| · + k) slots)).zipIdx k).filterMap (fun x =>
        if x.1.2.isNone then some (x.2, x.1.1) else none) =
      (((ps.zip slots).zipIdx k).filterMap fun x =>
        if x.1.2.isNone then some (x.2, x.1.1) else none).map (ignoreMember elided) from this 0
  intro k
  induction ps generalizing slots k with
  | nil => rfl
  | cons p ps ih =>
    cases slots with
    | nil => simp only [elideSlots, List.mapIdx_nil, List.zip_nil_right, List.zipIdx_nil,
        List.filterMap_nil, List.map_nil]
    | cons slot slots =>
      have shift : ∀ i, i + 1 + k = i + (k + 1) := by omega
      have rest := ih slots (k + 1)
      simp only [ignoreAt_cons, elideSlots, List.mapIdx_cons, shift, Nat.zero_add] at rest ⊢
      simp only [List.zip_cons_cons, List.zipIdx_cons, List.filterMap_cons, Option.isNone_map]
      cases slot with
      | none => exact congrArg ((k, ignoreIf (elided k) p) :: ·) rest
      | some v => exact rest

/-- What a search fills in, with some of the values elided. -/
def elideFilled (elided : Nat → Bool) (filled : Slots × Cursor) : Slots × Cursor :=
  (elideSlots elided filled.1, filled.2)

theorem placeConsuming_ignoreAt {place place' : Slots → Cursor → Run (Slots × Cursor)}
    (h : ∀ slots c, place' (elideSlots elided slots) c = elideFilled elided <$> place slots c)
    (slots : Slots) (c : Cursor) (members : List (Nat × Parser)) (furthest : Option Failure) :
    placeConsuming place' (elideSlots elided slots) c (members.map (ignoreMember elided)) furthest =
      Except.map (elideFilled elided) <$> placeConsuming place slots c members furthest := by
  induction members generalizing furthest with
  | nil => rfl
  | cons member members ih =>
    obtain ⟨i, p⟩ := member
    rw [List.map_cons, ignoreMember, placeConsuming, placeConsuming, ignoreIf_eq, Run.attempt_map,
      bind_map_left, map_bind]
    refine bind_congr fun r => ?_
    cases r with
    | error e => exact ih _
    | ok m =>
      simp only [Except.map, elideSlots_set, h, Run.attempt_map, bind_map_left]
      split
      · rw [map_bind]
        refine bind_congr fun r => ?_
        cases r with
        | ok filled => rfl
        | error e => exact ih _
      · exact ih _

theorem placeEmpty_ignoreAt (c : Cursor) (furthest : Option Failure)
    (members : List (Nat × Parser)) (slots : Slots) :
    placeEmpty c furthest (members.map (ignoreMember elided)) (elideSlots elided slots) =
      elideSlots elided <$> placeEmpty c furthest members slots := by
  induction members generalizing slots with
  | nil => rfl
  | cons member members ih =>
    obtain ⟨i, p⟩ := member
    rw [List.map_cons, ignoreMember, placeEmpty, placeEmpty, ignoreIf_eq, Run.attempt_map,
      bind_map_left, map_bind]
    refine bind_congr fun r => ?_
    cases r with
    | error e => rfl
    | ok m =>
      simp only [Except.map, elideSlots_set, ih]
      split <;> rfl

/-- **A search makes the same attempts**, and fills in what is left of the same values. -/
theorem fill_ignoreAt (elided : Nat → Bool) (ps : List Parser) (count : Nat) (slots : Slots)
    (c : Cursor) : fill (ignoreAt elided ps) count (elideSlots elided slots) c =
      elideFilled elided <$> fill ps count slots c := by
  induction count generalizing slots c with
  | zero => rfl
  | succ count ih =>
    rw [fill, fill, unplaced_ignoreAt, placeConsuming_ignoreAt ih, bind_map_left, map_bind]
    refine bind_congr fun r => ?_
    cases r with
    | ok filled => rfl
    | error furthest =>
      simp only [Except.map, placeEmpty_ignoreAt, bind_map_left, map_bind]
      rfl

/-- A search that starts from empty slots. -/
theorem fill_replicate_ignoreAt (elided : Nat → Bool) (ps : List Parser) (c : Cursor) :
    fill (ignoreAt elided ps) (ignoreAt elided ps).length
        (List.replicate (ignoreAt elided ps).length none) c =
      elideFilled elided <$> fill ps ps.length (List.replicate ps.length none) c := by
  have empty : elideSlots elided (List.replicate ps.length none) =
      List.replicate ps.length none := by
    refine List.ext_getElem (by simp [elideSlots]) fun i _ _ => ?_
    simp [elideSlots]
  rw [← fill_ignoreAt, empty, ignoreAt, List.length_mapIdx]

theorem elideSlots_map_some (elided : Nat → Bool) (values : List (Option Value)) :
    elideSlots elided (values.map some) = (elideAt elided values).map some := by
  refine List.ext_getElem (by simp [elideSlots, elideAt]) fun i _ _ => ?_
  simp [elideSlots, elideAt]

end Parser

namespace Permutation

variable {ps : List Parser} {c finish : Cursor} {values : List (Option Value)}

/-- The values that are filled in are what is left of those that were. -/
theorem Fills.ignoreAt (h : Fills ps c values finish) (elided : Nat → Bool) :
    Fills (Parser.ignoreAt elided ps) c (elideAt elided values) finish := by
  rw [Fills, Parser.fill_replicate_ignoreAt, Run.map_eq, h]
  exact congrArg (fun slots => Outcome.ok (slots, finish)) (Parser.elideSlots_map_some _ _)

end Permutation

namespace Parser

/-- A permutation of parts with elided values ends and fails where it did. -/
theorem permutation_ignoreAt (elided : Nat → Bool) (ps : List Parser) (c : Cursor) :
    Match.next <$> permutation (ignoreAt elided ps) c = Match.next <$> permutation ps c := by
  rw [permutation, permutation, fill_replicate_ignoreAt, bind_map_left, map_bind, map_bind]
  rfl

end Parser

/-! ### Rules -/

namespace Rule

open Permutation

/-- The rules of a list, of which those at some indices have their values elided. -/
def ignoreAt (elided : Nat → Bool) (rules : List Rule) : List Rule :=
  rules.mapIdx fun i rule => if elided i then .ignore rule else rule

/-- A rule that collects the values of a part, and the same rule when that part is elided. -/
inductive CollectsElided : Rule → Rule → Prop where
  | many (rule : Rule) : CollectsElided (.many rule) (.many (.ignore rule))
  | many1 (rule : Rule) : CollectsElided (.many1 rule) (.many1 (.ignore rule))
  | times (rule : Rule) (count : Nat) :
    CollectsElided (.times rule count) (.times (.ignore rule) count)
  | sepBy (item separator : Rule) :
    CollectsElided (.sepBy item separator) (.sepBy (.ignore item) separator)
  | sepBy1 (item separator : Rule) :
    CollectsElided (.sepBy1 item separator) (.sepBy1 (.ignore item) separator)
  | lengthValue (length rule : Rule) :
    CollectsElided (.lengthValue length rule) (.lengthValue length (.ignore rule))

/-- A rule that drops the value of a part, and the same rule when that part is elided. -/
inductive DropsElided : Rule → Rule → Prop where
  | sepBy (item separator : Rule) :
    DropsElided (.sepBy item separator) (.sepBy item (.ignore separator))
  | sepBy1 (item separator : Rule) :
    DropsElided (.sepBy1 item separator) (.sepBy1 item (.ignore separator))
  | left (keep drop : Rule) : DropsElided (.left keep drop) (.left keep (.ignore drop))
  | right (drop keep : Rule) : DropsElided (.right drop keep) (.right (.ignore drop) keep)
  | opening (opening content closing : Rule) :
    DropsElided (.middle opening content closing) (.middle (.ignore opening) content closing)
  | closing (opening content closing : Rule) :
    DropsElided (.middle opening content closing) (.middle opening content (.ignore closing))
  | butNot (rule other : Rule) : DropsElided (.butNot rule other) (.butNot rule (.ignore other))
  | difference (rule other : Rule) :
    DropsElided (.difference rule other) (.difference rule (.ignore other))

variable {cells : Cells} {c : Cursor} {whole elided : Rule}

theorem map_parse_ignoreAt (cells : Cells) (elided : Nat → Bool) (rules : List Rule) :
    (ignoreAt elided rules).map (parse cells) =
      Parser.ignoreAt elided (rules.map (parse cells)) := by
  refine List.ext_getElem (by simp [ignoreAt, Parser.ignoreAt]) fun i _ _ => ?_
  simp only [ignoreAt, Parser.ignoreAt, List.getElem_map, List.getElem_mapIdx, Parser.ignoreIf]
  cases elided i <;> rfl

theorem CollectsElided.parse_eq (h : CollectsElided whole elided) (cells : Cells) (c : Cursor) :
    elided.parse cells c = Match.emptied <$> whole.parse cells c := by
  cases h with
  | many rule => exact Parser.atLeast_ignore _ c 0
  | many1 rule => exact Parser.atLeast_ignore _ c 1
  | times rule count => exact Parser.times_ignore _ c count
  | sepBy item separator => exact Parser.separated_ignore _ _ c false
  | sepBy1 item separator => exact Parser.separated_ignore _ _ c true
  | lengthValue length rule => exact Parser.lengthValue_ignore _ _ c

theorem DropsElided.parse_eq (h : DropsElided whole elided) (cells : Cells) (c : Cursor) :
    elided.parse cells c = whole.parse cells c := by
  cases h with
  | sepBy item separator => exact Parser.separated_ignore_separator _ _ c false
  | sepBy1 item separator => exact Parser.separated_ignore_separator _ _ c true
  | left keep drop => exact Parser.left_ignore _ _ c
  | right drop keep => exact Parser.ignore_right _ _ c
  | opening opening content closing => exact Parser.middle_ignore_opening c _ _ _
  | closing opening content closing => exact Parser.middle_ignore_closing c _ _ _
  | butNot rule other => exact Parser.excluding_ignore _ _ c fun own others => own ≤ others
  | difference rule other => exact Parser.excluding_ignore _ _ c fun own others => own == others

/-- **Eliding takes away the values of the elided parts, and nothing else.** A sequence and a
permutation of parts some of which are elided end, fail and leave records as they did, and of the
values of all parts those of the elided ones are gone. Repetitions of an elided part, with
separators or behind a count as well, make the empty sequence, up to the same cursor. And where a
value is dropped, to elide it changes nothing. -/
theorem parse_ignoreAt (cells : Cells) (c : Cursor) (hc : c.WellFormed) :
    (∀ (elided : Nat → Bool) (rules : List Rule),
      Match.next <$> (Rule.sequence (ignoreAt elided rules)).parse cells c =
          Match.next <$> (Rule.sequence rules).parse cells c ∧
        ∀ m, ((Rule.sequence rules).parse cells c).outcome = .ok m →
          ∃ values, InTurn (rules.map (Rule.parse cells)) values c m.next ∧
            m.value = some (.sequence values.reduceOption) ∧
            ((Rule.sequence (ignoreAt elided rules)).parse cells c).outcome =
              .ok ⟨some (.sequence (elideAt elided values).reduceOption), m.next⟩) ∧
    (∀ (elided : Nat → Bool) (rules : List Rule),
      Match.next <$> (Rule.permutation (ignoreAt elided rules)).parse cells c =
          Match.next <$> (Rule.permutation rules).parse cells c ∧
        ∀ m, ((Rule.permutation rules).parse cells c).outcome = .ok m →
          ∃ order values, Fills (rules.map (Rule.parse cells)) c values m.next ∧
            Arrangement (rules.map (Rule.parse cells)) c order values m.next ∧
            m.value = some (.sequence values.reduceOption) ∧
            ((Rule.permutation (ignoreAt elided rules)).parse cells c).outcome =
              .ok ⟨some (.sequence (elideAt elided values).reduceOption), m.next⟩) ∧
    (∀ whole elided, CollectsElided whole elided →
      elided.parse cells c = Match.emptied <$> whole.parse cells c) ∧
    ∀ whole elided, DropsElided whole elided → elided.parse cells c = whole.parse cells c := by
  refine ⟨fun elided rules => ?_, fun elided rules => ?_, fun whole elided h => h.parse_eq cells c,
    fun whole elided h => h.parse_eq cells c⟩
  · rw [sequence_parse_eq cells rules hc, sequence_parse_eq cells _ hc, map_parse_ignoreAt]
    refine ⟨Parser.sequence_ignoreAt elided _ c, fun m hm => ?_⟩
    obtain ⟨values, turn⟩ := exists_inTurn_of_sequence hm
    have hvalue : m = ⟨some (.sequence values.reduceOption), m.next⟩ :=
      Outcome.ok.inj (hm.symm.trans turn.sequence)
    exact ⟨values, turn, congrArg Match.value hvalue, (turn.ignoreAt elided).sequence⟩
  · rw [permutation_parse_eq cells rules hc, permutation_parse_eq cells _ hc, map_parse_ignoreAt]
    refine ⟨Parser.permutation_ignoreAt elided _ c, fun m hm => ?_⟩
    obtain ⟨values, finish, fills, rfl⟩ := exists_fills hm
    obtain ⟨order, arranged⟩ := fills.arrangement
    exact ⟨order, values, fills, arranged, rfl, (fills.ignoreAt elided).permutation⟩

/-- Three letters in any order, of which the second one leaves no value. -/
theorem parse_ignoreAt_letters :
    (⟨#[0x62, 0x63, 0x61], 0, {}⟩ : Cursor).WellFormed ∧
      ∃ values, Fills ([.byte 0x61, .byte 0x62, .byte 0x63].map (Rule.parse .empty))
          ⟨#[0x62, 0x63, 0x61], 0, {}⟩ values ⟨#[0x62, 0x63, 0x61], 24, {}⟩ ∧
        (elideAt (· == 1) values).reduceOption = [.char 0x61, .char 0x63] := by
  obtain ⟨-, permuted, -, -⟩ :=
    parse_ignoreAt .empty ⟨#[0x62, 0x63, 0x61], 0, {}⟩ (Nat.zero_le _)
  obtain ⟨-, values, fills, -, -, left⟩ :=
    (permuted (· == 1) [.byte 0x61, .byte 0x62, .byte 0x63]).2
    ⟨some (.sequence [.char 0x61, .char 0x62, .char 0x63]), ⟨#[0x62, 0x63, 0x61], 24, {}⟩⟩ rfl
  have two : ((Rule.permutation (ignoreAt (· == 1) [.byte 0x61, .byte 0x62, .byte 0x63])).parse
      .empty ⟨#[0x62, 0x63, 0x61], 0, {}⟩).outcome =
        .ok ⟨some (.sequence [.char 0x61, .char 0x63]), ⟨#[0x62, 0x63, 0x61], 24, {}⟩⟩ := rfl
  have same := congrArg Match.value (Outcome.ok.inj (left.symm.trans two))
  exact ⟨Nat.zero_le _, values, fills, Value.sequence.inj (Option.some.inj same)⟩

end Rule

end BitGrammar
