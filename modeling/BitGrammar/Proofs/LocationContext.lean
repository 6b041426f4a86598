import BitGrammar.Proofs.CheckedRead
import Mathlib.Data.List.Intervals

/-!
# What the text of a location shows

The text of a location shows the bytes around it. However far the location lies from the start or
the end of the input, and even where it lies past the end, the stretch of bytes that is shown is one
of the input. One item stands in brackets: the byte at the location, or the end where there is none.
The others are the bytes up to four before and three after it, as many of them as there are.

## What decides the design

The two bounds of the stretch are clamped, and which of them gives way depends on where the location
lies. The specification has no bounds at all: of all the indices of the input, the neighbours of a
location are those near enough (`Location.neighbours`). As lists of indices both are intervals, and
intervals are compared by their bounds.

The text is read back by splitting it at its spaces. As no item contains a space or is empty, that
gives the items, so that nothing but one space can be between two of them.

Messages are put together with machine words, from a slice of the input. `Location.text?` asks at
every step whether that step can be made, and it always can.

## Main definitions

* `Location.neighbours`: the indices shown besides the location's own
* `Location.marked`: the item in brackets
* `Location.context?`, `Location.text?`: the text with every step checked

## Main results

* `Location.text?_eq`: no step goes wrong
* `Location.context_shows`: what the text of a location shows
-/

namespace BitGrammar

open Machine

/-! ### Digits -/

namespace Hex

/-- The digits to base sixteen in upper case. -/
def upperDigits : List Char :=
  ['0', '1', '2', '3', '4', '5', '6', '7', '8', '9', 'A', 'B', 'C', 'D', 'E', 'F']

theorem toUpper_digitChar {n : Nat} (h : n < 16) :
    (Nat.digitChar n).toUpper = upperDigits.getD n '0' := by
  revert n
  decide

/-- A byte is two digits, the high one first. -/
theorem upperPair_eq (b : UInt8) : upperPair b =
    [upperDigits.getD (b.toNat / 16) '0', upperDigits.getD (b.toNat % 16) '0'] := by
  have high : b.toNat / 16 < 16 := by
    have := b.toNat_lt
    omega
  rw [upperPair, pair, List.map_cons, List.map_singleton, toUpper_digitChar high,
    toUpper_digitChar (Nat.mod_lt _ (by decide))]

theorem mem_upperDigits (n : Nat) : upperDigits.getD n '0' ∈ upperDigits := by
  rw [List.getD_eq_getElem?_getD]
  cases h : upperDigits[n]? with
  | none => decide
  | some c => exact List.mem_of_getElem? h

end Hex

/-! ### Items with spaces between them -/

/-- A text with one more item, behind a space unless it is the first. -/
def spaced (text item : String) : String :=
  if text.isEmpty then item else text ++ " " ++ item

theorem foldl_spaced {text : String} (h : text ≠ "") (items : List String) :
    items.foldl spaced text = " ".intercalate (text :: items) := by
  induction items generalizing text with
  | nil => exact String.intercalate_singleton.symm
  | cons item items ih =>
    have further : spaced text item = text ++ " " ++ item :=
      if_neg (mt String.isEmpty_iff.mp h)
    have nonempty : text ++ " " ++ item ≠ "" := by
      simp [String.append_eq_empty_iff]
    rw [List.foldl_cons, further, ih nonempty]
    cases items with
    | nil => rw [String.intercalate_singleton, String.intercalate_cons_cons,
        String.intercalate_singleton]
    | cons next items => simp only [String.intercalate_cons_cons, String.append_assoc]

/-- Items put together one by one have one space between each two of them. -/
theorem foldl_spaced_empty {items : List String} (h : ∀ item ∈ items, item ≠ "") :
    items.foldl spaced "" = " ".intercalate items := by
  cases items with
  | nil => rfl
  | cons item items => exact foldl_spaced (h item (List.mem_cons_self ..)) items

namespace Location

/-! ### The text with every step checked -/

/-- `Location.shownByte`, checked, for a byte and its offset in the stretch that is shown. The index
has to fit into a word. -/
def shownByte? (width : Nat) (l : Location) (first : Nat) (entry : UInt8 × Nat) :
    Option String := do
  let index ← word? width (first + entry.2)
  let digits := String.ofList (Hex.upperPair entry.1)
  return if index = l.byteOffset then "[" ++ digits ++ "]" else digits

/-- `Location.context`, checked. The end of the stretch has to fit into a word, and the stretch has
to be one of the input. The items are put together one by one. -/
def context? (width : Nat) (l : Location) : Option String := do
  let last := min (← word? width (l.byteOffset + 4)) l.input.size
  let first := min (l.byteOffset - 4) last
  let shown ← slice? l.input first last
  let items ← shown.zipIdx.mapM (l.shownByte? width first)
  let text := items.foldl spaced ""
  return if l.input.size ≤ l.byteOffset then spaced text "[<end>]" else text

/-- `Location.text`, checked. -/
def text? (width : Nat) (l : Location) : Option String := do
  let context ← l.context? width
  return "byte offset " ++ toString l.byteOffset ++ ", bit " ++ toString l.bitOffset ++
    " (" ++ context ++ ")"

variable (l : Location)

theorem shownByte_ne_empty (index : Nat) : l.shownByte index ≠ "" := by
  rw [shownByte]
  split
  · simp [String.append_eq_empty_iff]
  · simp [Hex.upperPair, Hex.pair]

theorem ne_empty_of_mem_contextItems {item : String} (h : item ∈ l.contextItems) : item ≠ "" := by
  rcases List.mem_append.mp h with h | h
  · obtain ⟨index, -, rfl⟩ := List.mem_map.mp h
    exact l.shownByte_ne_empty index
  · split at h
    · rw [List.mem_singleton.mp h]
      decide
    · cases h

/-- The bytes of the stretch, one by one, are the items of their indices. -/
theorem mapM_shownByte? {width : Nat} (size : l.input.size < 2 ^ width) :
    (l.input.extract l.shownStart l.shownEnd).toList.zipIdx.mapM (l.shownByte? width l.shownStart) =
      some ((List.range' l.shownStart (l.shownEnd - l.shownStart)).map l.shownByte) := by
  have inside := l.shownEnd_le_size
  have item : ∀ entry ∈ (l.input.extract l.shownStart l.shownEnd).toList.zipIdx,
      l.shownByte? width l.shownStart entry = some (l.shownByte (l.shownStart + entry.2)) := by
    intro entry hentry
    have byte := List.mem_zipIdx_iff_getElem?.mp hentry
    rw [Array.getElem?_toList, Array.getElem?_extract] at byte
    split at byte
    · rw [shownByte?, word?_of_lt (by omega), shownByte, Array.getD_eq_getD_getElem?, byte]
      rfl
    · cases byte
  have length : (l.input.extract l.shownStart l.shownEnd).toList.length =
      l.shownEnd - l.shownStart := by
    rw [Array.length_toList, Array.size_extract, Nat.min_eq_left inside]
  have indices : List.range' l.shownStart (l.shownEnd - l.shownStart) =
      (l.input.extract l.shownStart l.shownEnd).toList.zipIdx.map
        ((l.shownStart + ·) ∘ Prod.snd) := by
    rw [← List.map_map, List.zipIdx_map_snd, length, List.map_add_range', Nat.add_zero]
  rw [mapM_eq_some_map item, indices, List.map_map]
  rfl

/-- **No step in putting a text together goes wrong.** -/
theorem context?_eq {width : Nat} (wide : 3 ≤ width) (position : l.position < 2 ^ width)
    (size : l.input.size < 2 ^ width) : l.context? width = some l.context := by
  have fits : l.byteOffset + 4 < 2 ^ width := by
    have : 2 ^ 3 ≤ 2 ^ width := Nat.pow_le_pow_right (by decide) wide
    unfold byteOffset
    omega
  have slice : slice? l.input l.shownStart l.shownEnd =
      some (l.input.extract l.shownStart l.shownEnd).toList :=
    if_pos ⟨l.shownStart_le_shownEnd, l.shownEnd_le_size⟩
  have text := foldl_spaced_empty fun _ => l.ne_empty_of_mem_contextItems
  rw [contextItems, List.foldl_append] at text
  rw [context?, word?_of_lt fits]
  simp only [Option.bind_eq_bind, Option.bind_some]
  rw [← shownEnd, ← shownStart, slice]
  simp only [Option.bind_some]
  rw [l.mapM_shownByte? size, context, contextItems, ← text]
  simp only [Option.bind_some]
  split <;> rfl

theorem text?_eq {width : Nat} (wide : 3 ≤ width) (position : l.position < 2 ^ width)
    (size : l.input.size < 2 ^ width) : l.text? width = some l.text := by
  rw [text?, l.context?_eq wide position size]
  rfl

/-! ### What is shown -/

/-- The indices of the bytes shown besides the location's own: those of the input that lie up to
four before it or three after it, in ascending order. -/
def neighbours (l : Location) : List Nat :=
  (List.range l.input.size).filter fun i =>
    i ≠ l.byteOffset ∧ l.byteOffset ≤ i + 4 ∧ i ≤ l.byteOffset + 3

/-- The byte at an index, as two digits in upper case. -/
def digitsAt (l : Location) (index : Nat) : List Char :=
  [Hex.upperDigits.getD ((l.input.getD index 0).toNat / 16) '0',
    Hex.upperDigits.getD ((l.input.getD index 0).toNat % 16) '0']

/-- The item in brackets: the byte at the location, or the end. -/
def marked (l : Location) : List Char :=
  if l.byteOffset < l.input.size then '[' :: (l.digitsAt l.byteOffset ++ [']'])
  else ['[', '<', 'e', 'n', 'd', '>', ']']

/-- True of an item in brackets. -/
def isBracketed (item : List Char) : Bool :=
  item.head? == some '[' && item.getLast? == some ']'

/-- The neighbours before the location. -/
def before (l : Location) : List Nat :=
  List.Ico (l.byteOffset - 4) (min l.input.size l.byteOffset)

/-- The neighbours after the location. -/
def after (l : Location) : List Nat :=
  List.Ico (l.byteOffset + 1) (min l.input.size (l.byteOffset + 4))

/-- The neighbours are two intervals. -/
theorem neighbours_eq : l.neighbours = l.before ++ l.after := by
  have cut : List.range l.input.size = List.Ico 0 (min l.input.size l.byteOffset) ++
      List.Ico (min l.input.size l.byteOffset) l.input.size := by
    rw [List.Ico.append_consecutive (Nat.zero_le _) (Nat.min_le_left ..), List.Ico.zero_bot]
  rw [neighbours, cut, List.filter_append]
  congr 1
  · have near : ∀ i ∈ List.Ico 0 (min l.input.size l.byteOffset),
        decide (i ≠ l.byteOffset ∧ l.byteOffset ≤ i + 4 ∧ i ≤ l.byteOffset + 3) =
          decide (l.byteOffset - 4 ≤ i) := by
      intro i hi
      have := List.Ico.mem.mp hi
      exact decide_eq_decide.mpr (by omega)
    rw [List.filter_congr near, List.Ico.filter_le, Nat.zero_max, before]
  · have near : ∀ i ∈ List.Ico (min l.input.size l.byteOffset) l.input.size,
        decide (i ≠ l.byteOffset ∧ l.byteOffset ≤ i + 4 ∧ i ≤ l.byteOffset + 3) =
          (decide (i < l.byteOffset + 4) && decide (l.byteOffset + 1 ≤ i)) := by
      intro i hi
      have := List.Ico.mem.mp hi
      rw [← Bool.decide_and]
      exact decide_eq_decide.mpr (by omega)
    have lower : max (min l.input.size l.byteOffset) (l.byteOffset + 1) = l.byteOffset + 1 := by
      omega
    rw [List.filter_congr near, ← List.filter_filter, List.Ico.filter_le, List.Ico.filter_lt, lower,
      after]

theorem length_neighbours_le :
    l.neighbours.length + (if l.byteOffset < l.input.size then 1 else 0) ≤ 8 := by
  rw [neighbours_eq, List.length_append, before, after, List.Ico.length, List.Ico.length]
  split <;> omega

/-- The stretch that is shown, taken apart at the location. -/
theorem shown_eq : List.Ico l.shownStart l.shownEnd =
    l.before ++ (if l.byteOffset < l.input.size then [l.byteOffset] else []) ++ l.after := by
  by_cases inside : l.byteOffset < l.input.size
  · have start : l.shownStart = l.byteOffset - 4 := by
      unfold shownStart shownEnd
      omega
    have stop : l.byteOffset < l.shownEnd := by
      unfold shownEnd
      omega
    rw [before, after, if_pos inside, Nat.min_eq_right (Nat.le_of_lt inside), start,
      Nat.min_comm l.input.size, ← shownEnd, List.append_assoc, List.singleton_append,
      ← List.Ico.eq_cons stop, List.Ico.append_consecutive (Nat.sub_le ..) (Nat.le_of_lt stop)]
  · have stop : l.shownEnd = l.input.size := by
      unfold shownEnd
      omega
    have none_after : l.after = [] := List.Ico.eq_nil_of_le (by omega)
    have short : min l.input.size l.byteOffset = l.input.size := by omega
    rw [if_neg inside, none_after, List.append_nil, List.append_nil, before, short, shownStart,
      stop]
    -- far past the end both are empty
    rcases Nat.le_total (l.byteOffset - 4) l.input.size with near | far
    · rw [Nat.min_eq_left near]
    · rw [List.Ico.eq_nil_of_le far, Nat.min_eq_right far, List.Ico.self_empty]

theorem toList_shownByte_of_ne {index : Nat} (h : index ≠ l.byteOffset) :
    (l.shownByte index).toList = l.digitsAt index := by
  rw [shownByte, if_neg h, String.toList_ofList, Hex.upperPair_eq, digitsAt]

theorem toList_shownByte_self (h : l.byteOffset < l.input.size) :
    (l.shownByte l.byteOffset).toList = l.marked := by
  rw [shownByte, if_pos rfl, marked, if_pos h, digitsAt, ← Hex.upperPair_eq]
  simp

/-- The items of a text, one after another. -/
theorem contextItems_eq : l.contextItems.map String.toList =
    l.before.map l.digitsAt ++ l.marked :: l.after.map l.digitsAt := by
  have others : ∀ indices : List Nat, (∀ i ∈ indices, i ≠ l.byteOffset) →
      indices.map (String.toList ∘ l.shownByte) = indices.map l.digitsAt :=
    fun indices h => List.map_congr_left fun i hi => l.toList_shownByte_of_ne (h i hi)
  have left := others l.before fun i hi => Nat.ne_of_lt (by have := List.Ico.mem.mp hi; omega)
  have right := others l.after fun i hi => Nat.ne_of_gt (List.Ico.mem.mp hi).1
  rw [contextItems, List.map_append, List.map_map]
  show List.map _ (List.Ico l.shownStart l.shownEnd) ++ _ = _
  rw [shown_eq, List.map_append, List.map_append, left, right]
  by_cases inside : l.byteOffset < l.input.size
  · rw [if_pos inside, if_neg (Nat.not_le.mpr inside)]
    simp [l.toList_shownByte_self inside]
  · have none_after : l.after = [] := List.Ico.eq_nil_of_le (by omega)
    rw [if_neg inside, if_pos (Nat.le_of_not_lt inside), none_after, marked, if_neg inside]
    simp

/-! ### Reading the text back -/

theorem mem_digitsAt {index : Nat} {ch : Char} (h : ch ∈ l.digitsAt index) :
    ch ∈ Hex.upperDigits := by
  rcases List.mem_pair.mp h with rfl | rfl
  · exact Hex.mem_upperDigits _
  · exact Hex.mem_upperDigits _

theorem space_not_mem_digitsAt (index : Nat) : ' ' ∉ l.digitsAt index := fun h =>
  absurd (l.mem_digitsAt h) (by decide)

theorem space_not_mem_marked : ' ' ∉ l.marked := by
  rw [marked]
  split
  · simp [l.space_not_mem_digitsAt]
  · decide

theorem isBracketed_digitsAt (index : Nat) : isBracketed (l.digitsAt index) = false := by
  have digit : (l.digitsAt index).head? ≠ some '[' := fun h =>
    absurd (l.mem_digitsAt (List.mem_of_head? h)) (by decide)
  rw [isBracketed, beq_eq_false_iff_ne.mpr digit, Bool.false_and]

theorem isBracketed_marked : isBracketed l.marked = true := by
  rw [marked]
  split <;> rfl

theorem not_isBracketed_of_mem_map {indices : List Nat} {item : List Char}
    (h : item ∈ indices.map l.digitsAt) : isBracketed item = false := by
  obtain ⟨index, -, rfl⟩ := List.mem_map.mp h
  exact l.isBracketed_digitsAt index

theorem marked_or_digits {item : List Char}
    (h : item ∈ l.before.map l.digitsAt ++ l.marked :: l.after.map l.digitsAt) :
    item = l.marked ∨ ∃ index, item = l.digitsAt index := by
  rcases List.mem_append.mp h with h | h
  · obtain ⟨index, -, rfl⟩ := List.mem_map.mp h
    exact .inr ⟨index, rfl⟩
  · rcases List.mem_cons.mp h with rfl | h
    · exact .inl rfl
    · obtain ⟨index, -, rfl⟩ := List.mem_map.mp h
      exact .inr ⟨index, rfl⟩

/-- The text split at its spaces. -/
theorem splitOn_context : l.context.toList.splitOn ' ' =
    l.before.map l.digitsAt ++ l.marked :: l.after.map l.digitsAt := by
  have solid : ∀ item ∈ l.before.map l.digitsAt ++ l.marked :: l.after.map l.digitsAt,
      ' ' ∉ item := by
    intro item hitem
    rcases l.marked_or_digits hitem with rfl | ⟨index, rfl⟩
    · exact l.space_not_mem_marked
    · exact l.space_not_mem_digitsAt index
  rw [context, String.toList_intercalate, contextItems_eq]
  exact List.splitOn_intercalate ' ' solid (by simp)

/-- **What the text of a location shows.** The stretch of bytes that is shown is one of the input,
and no step in putting the text together goes wrong, wherever the location lies. Split at its
spaces, the text has one item in brackets, which is the byte at the location or the end. The items
before it and after it are the input's bytes from up to four before and up to three after the
location, each of them once and in their order. Eight bytes at most are shown. No item is empty, so
that one space and no more is between two of them, and none at either end. -/
theorem context_shows (l : Location) :
    (l.shownStart ≤ l.shownEnd ∧ l.shownEnd ≤ l.input.size) ∧
    (∀ width, 3 ≤ width → l.position < 2 ^ width → l.input.size < 2 ^ width →
      l.text? width = some l.text) ∧
    (∃ before after, l.context.toList.splitOn ' ' =
        before.map l.digitsAt ++ l.marked :: after.map l.digitsAt ∧
      before ++ after = l.neighbours ∧ (∀ i ∈ before, i < l.byteOffset) ∧
      ∀ i ∈ after, l.byteOffset < i) ∧
    (l.context.toList.splitOn ' ').filter isBracketed = [l.marked] ∧
    (l.context.toList.splitOn ' ').filter (fun item => !isBracketed item) =
      l.neighbours.map l.digitsAt ∧
    l.neighbours.length + (if l.byteOffset < l.input.size then 1 else 0) ≤ 8 ∧
    ∀ item ∈ l.context.toList.splitOn ' ', item ≠ [] := by
  refine ⟨⟨l.shownStart_le_shownEnd, l.shownEnd_le_size⟩, fun width => l.text?_eq, ?_⟩
  rw [l.splitOn_context]
  refine ⟨⟨l.before, l.after, rfl, l.neighbours_eq.symm, fun i hi => ?_, fun i hi => ?_⟩, ?_, ?_,
    l.length_neighbours_le, ?_⟩
  · have := List.Ico.mem.mp hi
    omega
  · exact (List.Ico.mem.mp hi).1
  · have none_else : ∀ indices : List Nat, (indices.map l.digitsAt).filter isBracketed = [] :=
      fun indices => List.filter_eq_nil_iff.mpr fun item h => by
        simp [l.not_isBracketed_of_mem_map h]
    rw [List.filter_append, List.filter_cons_of_pos l.isBracketed_marked, none_else, none_else,
      List.nil_append]
  · have all_else : ∀ indices : List Nat,
        (indices.map l.digitsAt).filter (fun item => !isBracketed item) = indices.map l.digitsAt :=
      fun indices => List.filter_eq_self.mpr fun item h => by
        simp [l.not_isBracketed_of_mem_map h]
    rw [List.filter_append, List.filter_cons_of_neg (by simp [l.isBracketed_marked]), all_else,
      all_else, neighbours_eq, List.map_append]
  · rintro item hitem rfl
    rcases l.marked_or_digits hitem with h | ⟨index, h⟩
    · have := l.isBracketed_marked
      rw [← h] at this
      cases this
    · cases h

/-- One byte past the end of two. -/
theorem context_shows_pastEnd :
    (24 < 2 ^ 64 ∧ (#[0x61, 0x62] : Array UInt8).size < 2 ^ 64) ∧
      (⟨#[0x61, 0x62], 24⟩ : Location).text? 64 =
        some "byte offset 3, bit 0 (61 62 [<end>])" := by
  have shown := (context_shows ⟨#[0x61, 0x62], 24⟩).2.1 64 (by decide) (by decide) (by decide)
  exact ⟨by decide, shown.trans rfl⟩

end Location

end BitGrammar
