import BitGrammar.Value.Text
import Mathlib.Data.List.Forall2

/-!
# The text of a value identifies it

Values are written as text in messages and records. The text shows everything about a value but two
things. A byte from 16 on is written like the number that it stands for, and data of the caller's
own is always written the same. Apart from these, different values have different texts, whatever
their depth.

## What decides the design

`Value.visible` is a value with those two things taken away, and the main result compares this part
of two values with their texts.

The text of a value without parts is a word, which contains no space and no round bracket, and all
words can be read back at once (`Value.ofWord`). In this way each kind of word is looked at by
itself, and not together with all others. Inside a sequence a word is followed by a space or a
bracket and so ends there (`Value.eq_of_append`). What has to be proved by induction about a value
is that its text in front of such a rest determines the value and the rest (`Value.Readable`).

## Main definitions

* `Value.visible`: a value as far as its text shows it
* `Value.ofWord`: the value that a word is the text of

## Main results

* `Value.ofWord_chars`: words can be read back
* `Value.readable`: a text and what comes behind it are told apart
* `Value.text_eq_iff`: two texts are the same when what they show is
-/

namespace BitGrammar

/-! ### Digits -/

namespace Hex

/-- The number that a digit stands for. -/
def digitValue (c : Char) : Nat :=
  if c.isDigit then c.toNat - 48 else c.toNat - 87

/-- The number that digits spell. -/
def value (cs : List Char) : Nat :=
  cs.foldl (fun n c => 16 * n + digitValue c) 0

theorem digitValue_digitChar : ∀ d < 16, digitValue (Nat.digitChar d) = d := by
  decide

theorem digits_of_lt {n : Nat} (h : n < 16) : digits n = [Nat.digitChar n] :=
  Nat.toDigits_of_lt_base h

theorem digits_of_le {n : Nat} (h : 16 ≤ n) :
    digits n = digits (n / 16) ++ [Nat.digitChar (n % 16)] :=
  Nat.toDigits_of_base_le (by decide) h

theorem digits_ne_nil (n : Nat) : digits n ≠ [] :=
  Nat.toDigits_ne_nil

/-- Induction on the digits of a number, of which the last one is taken away. -/
theorem digits_induction {motive : Nat → List Char → Prop}
    (one : ∀ n < 16, motive n [Nat.digitChar n])
    (more : ∀ n, 16 ≤ n → motive (n / 16) (digits (n / 16)) →
      motive n (digits (n / 16) ++ [Nat.digitChar (n % 16)])) (n : Nat) : motive n (digits n) := by
  induction n using Nat.strongRecOn with
  | ind n ih =>
    rcases Nat.lt_or_ge n 16 with h | h
    · rw [digits_of_lt h]
      exact one n h
    · rw [digits_of_le h]
      exact more n h (ih (n / 16) (by omega))

/-- Digits spell the number that they are made from. -/
theorem value_digits (n : Nat) : value (digits n) = n := by
  refine digits_induction (motive := fun n cs => value cs = n) (fun n h => ?_) (fun n _ ih => ?_) n
  · exact (Nat.zero_add _).trans (digitValue_digitChar n h)
  · have last := digitValue_digitChar (n % 16) (Nat.mod_lt n (by decide))
    rw [value, List.foldl_append, ← value, ih, List.foldl_cons, List.foldl_nil, last,
      Nat.div_add_mod]

/-- The first digit of a number is zero for zero only. -/
theorem eq_zero_of_head?_digits {n : Nat} : (digits n).head? = some '0' → n = 0 := by
  refine digits_induction (motive := fun n cs => cs.head? = some '0' → n = 0)
    (fun n _ h => ?_) (fun n hle ih h => ?_) n
  · rwa [List.head?_cons, Option.some_inj, Nat.digitChar_eq_zero] at h
  · rw [List.head?_append_of_ne_nil _ (digits_ne_nil (n / 16))] at h
    have hzero := ih h
    omega

theorem exists_digitChar_of_mem_digits {n : Nat} {c : Char} :
    c ∈ digits n → ∃ d < 16, c = Nat.digitChar d := by
  refine digits_induction (motive := fun _ cs => c ∈ cs → ∃ d < 16, c = Nat.digitChar d)
    (fun n hlt h => ?_) (fun n _ ih h => ?_) n
  · exact ⟨n, hlt, List.mem_singleton.mp h⟩
  · rcases List.mem_append.mp h with h | h
    · exact ih h
    · exact ⟨n % 16, Nat.mod_lt n (by decide), List.mem_singleton.mp h⟩

theorem div_sixteen_lt (b : UInt8) : b.toNat / 16 < 16 := by
  have := b.toNat_lt
  omega

theorem value_pair (b : UInt8) : value (pair b) = b.toNat := by
  have high := digitValue_digitChar _ (div_sixteen_lt b)
  have low := digitValue_digitChar _ (Nat.mod_lt b.toNat (by decide : 0 < 16))
  rw [value, pair, List.foldl_cons, List.foldl_cons, List.foldl_nil, high, low]
  omega

/-- The first of two digits is zero below 16. -/
theorem head?_pair_iff {b : UInt8} : (pair b).head? = some '0' ↔ b.toNat < 16 := by
  rw [pair, List.head?_cons, Option.some_inj, Nat.digitChar_eq_zero]
  omega

theorem exists_digitChar_of_mem_pair {b : UInt8} {c : Char} (h : c ∈ pair b) :
    ∃ d < 16, c = Nat.digitChar d := by
  rcases List.mem_pair.mp h with rfl | rfl
  · exact ⟨_, div_sixteen_lt b, rfl⟩
  · exact ⟨_, Nat.mod_lt _ (by decide), rfl⟩

/-- From 16 on, a byte is written like the number that it stands for. -/
theorem pair_eq_digits {b : UInt8} (h : 16 ≤ b.toNat) : pair b = digits b.toNat := by
  rw [digits_of_le h, digits_of_lt (div_sixteen_lt b)]
  rfl

end Hex

namespace Value

/-! ### Values as far as their texts show them -/

mutual

/-- A value as far as its text shows it: a byte from 16 on is a number, and data of the caller's own
is all the same. -/
def visible : Value → Value
  | .char c => if 16 ≤ c then .uint c.toUInt64 else .char c
  | .sequence items => .sequence (visibleItems items)
  | .user _ _ => .user none (.number 0)
  | v => v
  termination_by structural v => v

/-- The items of a sequence as far as their texts show them. -/
def visibleItems : List Value → List Value
  | [] => []
  | v :: vs => visible v :: visibleItems vs
  termination_by structural vs => vs

end

theorem visibleItems_eq_map (items : List Value) : visibleItems items = items.map visible := by
  induction items with
  | nil => rfl
  | cons v vs ih => rw [visibleItems, ih, List.map_cons]

theorem visible_sequence (items : List Value) :
    (sequence items).visible = .sequence (items.map visible) := by
  rw [visible, visibleItems_eq_map]

theorem visible_char_of_le {c : UInt8} (h : 16 ≤ c) : (char c).visible = .uint c.toUInt64 :=
  if_pos h

theorem visible_char_of_lt {c : UInt8} (h : c < 16) : (char c).visible = .char c :=
  if_neg (UInt8.not_le.mpr h)

/-- What shows is all of the value, but in three cases. -/
theorem visible_cases (v : Value) : v.visible = v ∨ (∃ c, 16 ≤ c ∧ v = .char c) ∨
    (∃ items, v = .sequence items) ∨ ∃ identity data, v = .user identity data := by
  cases v with
  | char c =>
    rcases UInt8.lt_or_le c 16 with h | h
    · exact .inl (visible_char_of_lt h)
    · exact .inr (.inl ⟨c, h, rfl⟩)
  | sequence items => exact .inr (.inr (.inl ⟨items, rfl⟩))
  | user identity data => exact .inr (.inr (.inr ⟨identity, data, rfl⟩))
  | _ => exact .inl rfl

/-- True of a value without parts. -/
def isLeaf : Value → Bool
  | .sequence _ => false
  | _ => true

/-- Induction on values: those without parts, and sequences of values. -/
theorem induction {motive : Value → Prop} (leaf : ∀ v, v.isLeaf → motive v)
    (sequence : ∀ items, (∀ v ∈ items, motive v) → motive (.sequence items)) (v : Value) :
    motive v :=
  @Value.rec motive (fun items => ∀ v ∈ items, motive v)
    (fun data => leaf (.bytes data) rfl) (fun c => leaf (.char c) rfl) (fun n => leaf (.int n) rfl)
    (fun n => leaf (.uint n) rfl) sequence (leaf .unit rfl) (leaf .absent rfl)
    (fun identity data => leaf (.user identity data) rfl) (fun _ h => nomatch h)
    (fun _ _ head tail v h => (List.mem_cons.mp h).elim (fun e => e ▸ head) (tail v)) v

/-! ### Words -/

/-- The characters that words do not contain. -/
def breaks (c : Char) : Bool :=
  c == ' ' || c == '(' || c == ')'

/-- A word ends in front of these characters. -/
def Ends (rest : List Char) : Prop :=
  ∀ c ∈ rest.head?, breaks c = true

theorem breaks_digitChar : ∀ d < 16, breaks (Nat.digitChar d) = false := by
  decide

theorem breaks_of_mem_pair {b : UInt8} {c : Char} (h : c ∈ Hex.pair b) : breaks c = false := by
  obtain ⟨d, hd, rfl⟩ := Hex.exists_digitChar_of_mem_pair h
  exact breaks_digitChar d hd

theorem breaks_of_mem_digits {n : Nat} {c : Char} (h : c ∈ Hex.digits n) : breaks c = false := by
  obtain ⟨d, hd, rfl⟩ := Hex.exists_digitChar_of_mem_digits h
  exact breaks_digitChar d hd

theorem breaks_of_mem_dottedBytes {data : List UInt8} {c : Char} (h : c ∈ dottedBytes data) :
    breaks c = false := by
  induction data with
  | nil => cases h
  | cons b bs ih =>
    cases bs with
    | nil => exact breaks_of_mem_pair h
    | cons b' bs =>
      rcases List.mem_append.mp h with h | h
      · exact breaks_of_mem_pair h
      · rcases List.mem_cons.mp h with rfl | h
        · rfl
        · exact ih h

/-- The characters of words are allowed in words. -/
theorem breaks_of_mem_chars {v : Value} (leaf : v.isLeaf) {c : Char} (h : c ∈ v.chars) :
    breaks c = false := by
  have constant : ∀ {cs : List Char}, cs.all (breaks · == false) → c ∈ cs → breaks c = false :=
    fun all hc => beq_iff_eq.mp (List.all_eq_true.mp all c hc)
  cases v with
  | bytes data =>
    rcases List.mem_cons.mp h with rfl | h
    · rfl
    · rcases List.mem_append.mp h with h | h
      · exact breaks_of_mem_dottedBytes h
      · exact constant rfl h
  | char b => exact (List.mem_append.mp h).elim (constant rfl) breaks_of_mem_pair
  | uint n => exact (List.mem_append.mp h).elim (constant rfl) breaks_of_mem_digits
  | int n =>
    rw [chars_int, signedDigits] at h
    split at h
    · exact (List.mem_append.mp h).elim (constant rfl) breaks_of_mem_digits
    · exact (List.mem_append.mp h).elim (constant rfl) breaks_of_mem_digits
  | sequence items => cases leaf
  | unit => exact constant rfl h
  | absent => exact constant rfl h
  | user identity data => exact constant rfl h

theorem chars_ne_nil (v : Value) : v.chars ≠ [] := by
  cases v with
  | int n =>
    rw [chars_int, signedDigits]
    split <;> exact nofun
  | _ => exact nofun

/-- What does not break words is told apart from a rest that begins with what does. -/
theorem eq_of_append {as bs rest rest' : List Char} (has : ∀ c ∈ as, breaks c = false)
    (hbs : ∀ c ∈ bs, breaks c = false) (hrest : Ends rest) (hrest' : Ends rest')
    (h : as ++ rest = bs ++ rest') : as = bs ∧ rest = rest' := by
  have word : ∀ {cs rest : List Char}, (∀ c ∈ cs, breaks c = false) → Ends rest →
      (cs ++ rest).takeWhile (!breaks ·) = cs := by
    intro cs rest hcs hrest
    rw [List.takeWhile_append_of_pos fun c hc => by rw [hcs c hc]; rfl]
    cases rest with
    | nil => exact List.append_nil cs
    | cons c rest =>
      rw [List.takeWhile_cons_of_neg (by rw [hrest c rfl]; exact nofun), List.append_nil]
  obtain rfl : as = bs := by rw [← word has hrest, h, word hbs hrest']
  exact ⟨rfl, List.append_cancel_left h⟩

/-! ### Reading words back -/

/-- The bytes whose digits stand in pairs, each with a character behind it. -/
def ofDotted : List Char → List UInt8
  | high :: low :: _ :: rest => .ofNat (Hex.value [high, low]) :: ofDotted rest
  | _ => []

/-- The value, as far as it shows, that a word is the text of. -/
def ofWord : List Char → Value
  | '<' :: rest =>
    if rest.head? = some 'u' then .user none (.number 0) else .bytes (ofDotted rest)
  | 'u' :: '0' :: 'x' :: digits =>
    if digits.head? = some '0' ∧ digits.length = 2 then .char (.ofNat (Hex.value digits))
    else .uint (.ofNat (Hex.value digits))
  | 's' :: '-' :: '0' :: 'x' :: digits => .int (.ofInt (-Hex.value digits))
  | 's' :: '0' :: 'x' :: digits => .int (.ofInt (Hex.value digits))
  | 'u' :: _ => .unit
  | _ => .absent

theorem ofWord_unsigned (digits : List Char) : ofWord ('u' :: '0' :: 'x' :: digits) =
    if digits.head? = some '0' ∧ digits.length = 2 then .char (.ofNat (Hex.value digits))
    else .uint (.ofNat (Hex.value digits)) :=
  rfl

theorem ofDotted_dottedBytes (data : List UInt8) : ofDotted (dottedBytes data ++ ['>']) = data := by
  induction data with
  | nil => rfl
  | cons b bs ih =>
    have first : UInt8.ofNat (Hex.value (Hex.pair b)) = b := by
      rw [Hex.value_pair, UInt8.ofNat_toNat]
    cases bs with
    | nil => exact congrArg (· :: []) first
    | cons b' bs => exact List.cons_eq_cons.mpr ⟨first, ih⟩

/-- Bytes begin with a digit, or end at once. -/
theorem head?_dottedBytes (data : List UInt8) : (dottedBytes data ++ ['>']).head? ≠ some 'u' := by
  have first : ∀ b : UInt8, Nat.digitChar (b.toNat / 16) ≠ 'u' := by
    intro b
    have := Hex.div_sixteen_lt b
    have digit : ∀ d < 16, Nat.digitChar d ≠ 'u' := by decide
    exact digit _ this
  cases data with
  | nil => exact nofun
  | cons b bs =>
    cases bs with
    | nil => exact fun h => first b (Option.some.inj h)
    | cons b' bs => exact fun h => first b (Option.some.inj h)

/-- **Words can be read back**, as far as they show a value. -/
theorem ofWord_chars {v : Value} (leaf : v.isLeaf) : ofWord v.chars = v.visible := by
  cases v with
  | bytes data =>
    exact (if_neg (head?_dottedBytes data)).trans (congrArg bytes (ofDotted_dottedBytes data))
  | char c =>
    show ofWord ('u' :: '0' :: 'x' :: Hex.pair c) = _
    rcases UInt8.lt_or_le c 16 with h | h
    · have hnat : c.toNat < 16 := UInt8.lt_iff_toNat_lt.mp h
      rw [ofWord_unsigned, if_pos ⟨Hex.head?_pair_iff.mpr hnat, Hex.length_pair c⟩,
        visible_char_of_lt h, Hex.value_pair, UInt8.ofNat_toNat]
    · have long : ¬ ((Hex.pair c).head? = some '0' ∧ (Hex.pair c).length = 2) := fun small =>
        Nat.not_lt.mpr (UInt8.le_iff_toNat_le.mp h) (Hex.head?_pair_iff.mp small.1)
      rw [ofWord_unsigned, if_neg long, visible_char_of_le h, Hex.value_pair,
        UInt64.ofNat_uInt8ToNat]
  | uint n =>
    have short : ¬ ((Hex.digits n.toNat).head? = some '0' ∧ (Hex.digits n.toNat).length = 2) := by
      rintro ⟨hzero, hlength⟩
      rw [Hex.eq_zero_of_head?_digits hzero] at hlength
      cases hlength
    show ofWord ('u' :: '0' :: 'x' :: Hex.digits n.toNat) = .uint n
    rw [ofWord_unsigned, if_neg short, Hex.value_digits, UInt64.ofNat_toNat]
  | int n =>
    show ofWord (signedDigits n.toInt) = .int n
    rcases Int.lt_or_le n.toInt 0 with neg | nonneg
    · rw [signedDigits, if_pos neg]
      show Value.int (.ofInt (-(Hex.value (Hex.digits n.toInt.natAbs)))) = _
      rw [Hex.value_digits, Int.ofNat_natAbs_of_nonpos (Int.le_of_lt neg), Int.neg_neg,
        Int64.ofInt_toInt]
    · rw [signedDigits, if_neg (Int.not_lt.mpr nonneg)]
      show Value.int (.ofInt (Hex.value (Hex.digits n.toInt.natAbs))) = _
      rw [Hex.value_digits, Int.natAbs_of_nonneg nonneg, Int64.ofInt_toInt]
  | sequence items => cases leaf
  | unit => rfl
  | absent => rfl
  | user identity data => rfl

/-! ### Reading values inside of others -/

/-- The text of a value is told apart from any rest that ends words, and determines the value as far
as it shows. -/
def Readable (v : Value) : Prop :=
  ∀ (w : Value) (rest rest' : List Char), Ends rest → Ends rest' →
    v.chars ++ rest = w.chars ++ rest' → v.visible = w.visible ∧ rest = rest'

/-- The texts of items behind others, each with a space in front. -/
def furtherChars (items : List Value) : List Char :=
  items.flatMap fun v => ' ' :: v.chars

theorem itemChars_cons (v : Value) (items : List Value) :
    itemChars (v :: items) = v.chars ++ furtherChars items := by
  induction items generalizing v with
  | nil => exact (List.append_nil v.chars).symm
  | cons w items ih =>
    rw [itemChars_cons_cons, ih w]
    rfl

theorem chars_sequence_append (items : List Value) (rest : List Char) :
    (sequence items).chars ++ rest = '(' :: (itemChars items ++ ')' :: rest) := by
  rw [chars_sequence, List.cons_append, List.cons_append, List.append_assoc, List.singleton_append]

theorem ends_further (items : List Value) (rest : List Char) :
    Ends (furtherChars items ++ ')' :: rest) := by
  intro c hc
  cases items with
  | nil => exact Option.some.inj hc ▸ rfl
  | cons v items => exact Option.some.inj hc ▸ rfl

/-- No value begins with a space or a closing bracket, and one without parts with no bracket. -/
theorem exists_head_chars (v : Value) : ∃ c cs, v.chars = c :: cs ∧ c ≠ ')' ∧
    (v.isLeaf → c ≠ '(') := by
  cases hleaf : v.isLeaf with
  | true =>
    obtain ⟨c, cs, hchars⟩ := List.exists_cons_of_ne_nil v.chars_ne_nil
    have hc : breaks c = false :=
      breaks_of_mem_chars hleaf (hchars ▸ List.mem_cons_self ..)
    refine ⟨c, cs, hchars, ?_, fun _ => ?_⟩
    · rintro rfl
      cases hc
    · rintro rfl
      cases hc
  | false =>
    cases v with
    | sequence items => exact ⟨'(', _, rfl, nofun, nofun⟩
    | _ => cases hleaf

theorem visible_of_further {items items' : List Value} {rest rest' : List Char}
    (hitems : ∀ v ∈ items, v.Readable)
    (h : furtherChars items ++ ')' :: rest = furtherChars items' ++ ')' :: rest') :
    items.map visible = items'.map visible ∧ rest = rest' := by
  induction items generalizing items' with
  | nil =>
    cases items' with
    | nil => exact ⟨rfl, List.tail_eq_of_cons_eq h⟩
    | cons w items' => cases h
  | cons v items ih =>
    obtain ⟨hv, hitems⟩ := List.forall_mem_cons.mp hitems
    cases items' with
    | nil => cases h
    | cons w items' =>
      simp only [furtherChars, List.flatMap_cons, List.cons_append, List.append_assoc] at h
      obtain ⟨first, hrest⟩ := hv w _ _ (ends_further items rest) (ends_further items' rest')
        (List.tail_eq_of_cons_eq h)
      obtain ⟨others, hrest⟩ := ih hitems hrest
      exact ⟨by rw [List.map_cons, List.map_cons, first, others], hrest⟩

/-- The items of a sequence are read up to the closing bracket. -/
theorem visible_of_items {items items' : List Value} {rest rest' : List Char}
    (hitems : ∀ v ∈ items, v.Readable)
    (h : itemChars items ++ ')' :: rest = itemChars items' ++ ')' :: rest') :
    items.map visible = items'.map visible ∧ rest = rest' := by
  have closed : ∀ (v : Value) (cs cs' : List Char), ')' :: cs ≠ v.chars ++ cs' := by
    intro v cs cs' heq
    obtain ⟨c, _, hchars, hc, -⟩ := v.exists_head_chars
    rw [hchars] at heq
    exact hc (List.head_eq_of_cons_eq heq).symm
  cases items with
  | nil =>
    cases items' with
    | nil => exact ⟨rfl, List.tail_eq_of_cons_eq h⟩
    | cons w items' =>
      rw [itemChars_cons, List.append_assoc] at h
      exact absurd h (closed w _ _)
  | cons v items =>
    cases items' with
    | nil =>
      rw [itemChars_cons, List.append_assoc] at h
      exact absurd h.symm (closed v _ _)
    | cons w items' =>
      obtain ⟨hv, hitems⟩ := List.forall_mem_cons.mp hitems
      rw [itemChars_cons, itemChars_cons, List.append_assoc, List.append_assoc] at h
      obtain ⟨first, hrest⟩ := hv w _ _ (ends_further items rest) (ends_further items' rest') h
      obtain ⟨others, hrest⟩ := visible_of_further hitems hrest
      exact ⟨by rw [List.map_cons, List.map_cons, first, others], hrest⟩

/-- A word is no sequence, whatever follows. -/
theorem chars_append_ne {v : Value} (leaf : v.isLeaf) (items : List Value)
    (rest rest' : List Char) : v.chars ++ rest ≠ (sequence items).chars ++ rest' := by
  intro h
  obtain ⟨c, cs, hchars, -, hc⟩ := v.exists_head_chars
  rw [hchars, chars_sequence_append] at h
  exact hc leaf (List.head_eq_of_cons_eq h)

/-- **Every text can be told apart from what comes behind it**, and determines the value as far as
it shows. -/
theorem readable (v : Value) : v.Readable := by
  induction v using induction with
  | leaf v hv =>
    intro w rest rest' hrest hrest' h
    cases hw : w.isLeaf with
    | true =>
      obtain ⟨hchars, hrests⟩ := eq_of_append (fun c => breaks_of_mem_chars hv)
        (fun c => breaks_of_mem_chars hw) hrest hrest' h
      exact ⟨by rw [← ofWord_chars hv, hchars, ofWord_chars hw], hrests⟩
    | false =>
      cases w with
      | sequence items => exact absurd h (chars_append_ne hv items _ _)
      | _ => cases hw
  | sequence items ih =>
    intro w rest rest' _ _ h
    cases hw : w.isLeaf with
    | true => exact absurd h.symm (chars_append_ne hw items _ _)
    | false =>
      cases w with
      | sequence items' =>
        rw [chars_sequence_append, chars_sequence_append] at h
        obtain ⟨hitems, hrests⟩ := visible_of_items ih (List.tail_eq_of_cons_eq h)
        refine ⟨?_, hrests⟩
        rw [visible_sequence, visible_sequence, hitems]
      | _ => cases hw

/-! ### Texts -/

/-- What does not show makes no difference to a text. -/
theorem chars_visible (v : Value) : v.visible.chars = v.chars := by
  induction v using induction with
  | leaf v hv =>
    cases v with
    | char c =>
      rcases UInt8.lt_or_le c 16 with h | h
      · rw [visible_char_of_lt h]
      · rw [visible_char_of_le h, chars_uint, chars_char, UInt8.toNat_toUInt64,
          Hex.pair_eq_digits (UInt8.le_iff_toNat_le.mp h)]
    | sequence items => cases hv
    | _ => rfl
  | sequence items ih =>
    rw [visible_sequence, chars_sequence, chars_sequence]
    congr 2
    cases items with
    | nil => rfl
    | cons v items =>
      obtain ⟨hv, hitems⟩ := List.forall_mem_cons.mp ih
      rw [List.map_cons, itemChars_cons, itemChars_cons, hv, furtherChars, List.flatMap_map]
      exact congrArg _ (List.flatMap_congr fun w hw => by rw [hitems w hw])

/-- **Texts are the same when what they show is.** -/
theorem text_eq_iff {v w : Value} : v.text = w.text ↔ v.visible = w.visible := by
  rw [text, text, String.ofList_inj]
  constructor
  · intro h
    exact (v.readable w [] [] nofun nofun (by rw [h])).1
  · intro h
    rw [← v.chars_visible, h, w.chars_visible]

/-! ### What a text tells -/

section Visible

variable {v w : Value}

theorem visible_eq_sequence_iff {items : List Value} :
    v.visible = (sequence items).visible ↔
      ∃ items', v = .sequence items' ∧ items'.map visible = items.map visible := by
  rw [visible_sequence]
  cases v with
  | sequence items' => simp [visible_sequence]
  | char c =>
    rcases UInt8.lt_or_le c 16 with h | h
    · simp [visible_char_of_lt h]
    · simp [visible_char_of_le h]
  | _ => simp [visible]

theorem visible_eq_uint_iff {n : UInt64} : v.visible = (uint n).visible ↔
    v = .uint n ∨ ∃ c, 16 ≤ c ∧ v = .char c ∧ c.toUInt64 = n := by
  show v.visible = .uint n ↔ _
  cases v with
  | char c =>
    rcases UInt8.lt_or_le c 16 with h | h
    · simp [visible_char_of_lt h, UInt8.not_le.mpr h]
    · simp [visible_char_of_le h, h]
  | _ => simp [visible]

theorem visible_eq_user_iff {identity : Option Nat} {data : Payload} :
    v.visible = (user identity data).visible ↔ ∃ identity' data', v = .user identity' data' := by
  show v.visible = .user none (.number 0) ↔ _
  cases v with
  | char c =>
    rcases UInt8.lt_or_le c 16 with h | h
    · simp [visible_char_of_lt h]
    · simp [visible_char_of_le h]
  | _ => simp [visible]

end Visible

mutual

/-- True of a value that its text shows all of. -/
def isExact : Value → Bool
  | .char c => c < 16
  | .uint n => n < 16 || 256 ≤ n
  | .sequence items => areExact items
  | .user _ _ => false
  | _ => true
  termination_by structural v => v

/-- True of values that their texts show all of. -/
def areExact : List Value → Bool
  | [] => true
  | v :: vs => isExact v && areExact vs
  termination_by structural vs => vs

end

theorem areExact_eq_all (items : List Value) : areExact items = items.all isExact := by
  induction items with
  | nil => rfl
  | cons v vs ih => rw [areExact, ih, List.all_cons]

/-- A byte from 16 on shows as a number that could have been one. -/
theorem isExact_toUInt64 {c : UInt8} (h : 16 ≤ c) : (uint c.toUInt64).isExact = false := by
  have lower : 16 ≤ c.toUInt64 := by
    rw [UInt64.le_iff_toNat_le, UInt8.toNat_toUInt64]
    exact UInt8.le_iff_toNat_le.mp h
  have upper : c.toUInt64 < 256 := by
    rw [UInt64.lt_iff_toNat_lt, UInt8.toNat_toUInt64]
    exact c.toNat_lt
  rw [isExact, decide_eq_false (UInt64.not_lt.mpr lower), decide_eq_false (UInt64.not_le.mpr upper)]
  rfl

theorem visible_of_exact {w : Value} (leaf : w.isLeaf) (hexact : w.isExact) : w.visible = w := by
  rcases w.visible_cases with hw | ⟨c, hc, rfl⟩ | ⟨items, rfl⟩ | ⟨identity, data, rfl⟩
  · exact hw
  · exact absurd (of_decide_eq_true hexact) (UInt8.not_lt.mpr hc)
  · cases leaf
  · cases hexact

theorem eq_of_map_visible_eq {items items' : List Value}
    (hitems : ∀ w ∈ items, ∀ v : Value, v.visible = w.visible → v = w)
    (h : items'.map visible = items.map visible) : items' = items := by
  induction items generalizing items' with
  | nil => exact List.map_eq_nil_iff.mp h
  | cons w items ih =>
    obtain ⟨hw, hitems⟩ := List.forall_mem_cons.mp hitems
    obtain ⟨v, items', rfl, hv, hrest⟩ := List.map_eq_cons_iff.mp h
    rw [hw v hv, ih hitems hrest]

/-- **A value that its text shows all of is determined by what shows**, whatever its depth. -/
theorem eq_of_visible_eq {w : Value} (hexact : w.isExact) :
    ∀ v : Value, v.visible = w.visible → v = w := by
  induction w using induction with
  | leaf w leaf =>
    intro v h
    rw [visible_of_exact leaf hexact] at h
    rcases v.visible_cases with hv | ⟨c, hc, rfl⟩ | ⟨items, rfl⟩ | ⟨identity, data, rfl⟩
    · exact hv.symm.trans h
    · rw [visible_char_of_le hc] at h
      rw [← h, isExact_toUInt64 hc] at hexact
      cases hexact
    · rw [visible_sequence] at h
      rw [← h] at leaf
      cases leaf
    · rw [← h] at hexact
      cases hexact
  | sequence items ih =>
    intro v h
    rw [isExact, areExact_eq_all, List.all_eq_true] at hexact
    obtain ⟨items', rfl, hitems⟩ := visible_eq_sequence_iff.mp h
    rw [eq_of_map_visible_eq (fun w hw => ih w hw (hexact w hw)) hitems]

/-- **The text of a value identifies it.** Two values of any depth have one text exactly when they
are equal once every byte from 16 on is the number that it stands for and all data of the caller's
own is the same. So a value is identified by its text when it contains no such byte, no number that
one could stand for, and no such data: bytes of every length, every signed integer, bytes below 16,
and what matches nothing or is missing. The text of a sequence is that of sequences of as many items
only, with the same texts for the items. A number without a sign may only be mistaken for such a
byte, and data of the caller's own for other data. -/
theorem text_identifies (v : Value) :
    (∀ w : Value, v.text = w.text ↔ v.visible = w.visible) ∧
    (∀ w : Value, w.isExact → (v.text = w.text ↔ v = w)) ∧
    (∀ items, v.text = (sequence items).text ↔ ∃ items', v = .sequence items' ∧
      List.Forall₂ (fun a b : Value => a.text = b.text) items' items) ∧
    (∀ n, v.text = (uint n).text ↔ v = .uint n ∨ ∃ c, 16 ≤ c ∧ v = .char c ∧ c.toUInt64 = n) ∧
    ∀ identity data, v.text = (user identity data).text ↔
      ∃ identity' data', v = .user identity' data' := by
  refine ⟨fun w => text_eq_iff, fun w hexact => ?_, fun items => ?_, fun n => ?_,
    fun identity data => ?_⟩
  · rw [text_eq_iff]
    exact ⟨eq_of_visible_eq hexact v, congrArg visible⟩
  · simp only [text_eq_iff, visible_eq_sequence_iff, ← List.forall₂_eq_eq_eq,
      List.forall₂_map_left_iff, List.forall₂_map_right_iff]
  · rw [text_eq_iff, visible_eq_uint_iff]
  · rw [text_eq_iff, visible_eq_user_iff]

/-- A sequence with the text of another one, and a sequence with a text of its own. -/
theorem text_identifies_nested :
    (sequence [.char 0x61, .sequence []]).text = (sequence [.uint 0x61, .sequence []]).text ∧
    (sequence [.bytes [], .int .minValue, .char 5]).isExact ∧
    ∀ v : Value, v.text = (sequence [.bytes [], .int .minValue, .char 5]).text ↔
      v = .sequence [.bytes [], .int .minValue, .char 5] := by
  have hexact : (sequence [.bytes [], .int .minValue, .char 5]).isExact := rfl
  obtain ⟨same, -⟩ := text_identifies (sequence [.char 0x61, .sequence []])
  refine ⟨(same _).mpr rfl, hexact, fun v => ?_⟩
  obtain ⟨-, exactly, -⟩ := text_identifies v
  exact exactly _ hexact

end Value

end BitGrammar
