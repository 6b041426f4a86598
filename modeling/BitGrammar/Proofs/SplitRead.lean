import BitGrammar.Proofs.BytesInTurn

/-!
# Reading in one go or in two

Two fields that follow each other can be read as one of their joint width, if the number that comes
out is the two numbers side by side. Where reading stops does not depend on how the bits are
divided. The numbers fit together when bytes and bits go the same way, and in the mixed orders when
the division is at a byte boundary. Read byte by byte, a number of whole bytes is its digits in base
256.

## What decides the design

A number is spelled by the bits at certain places (`ReadOrder.places`), so that the numbers of two
reads fit together when their places do. In the two pure orders the places are the whole range, up
or down, and any division will do. In the mixed orders the pieces of bytes come in one direction
and the bits of each piece in the other; a division within a byte tears a piece apart, while one at
a byte boundary divides the list of pieces and nothing else (`Piece.ofRange_append`). A piece that
is torn apart has its halves exchanged, so that the condition cannot be left out.

## Main results

* `Cursor.peekNat_add_of_mostFirst`, `Cursor.peekNat_add_of_leastFirst`: two numbers side by side
* `Cursor.ReadsBytes.peekNat_of_mostFirst`, `Cursor.ReadsBytes.peekNat_of_leastFirst`: bytes as
  digits
* `Cursor.readNat_add`: reading in one go or in two
-/

namespace BitGrammar

/-! ### The places of two reads -/

namespace ReadOrder

variable {order : ReadOrder} {position m : Nat}

theorem places_big (position count : Nat) :
    ReadOrder.big.places position count = (List.range' position count).reverse := by
  rw [← Piece.flatMap_ofRange position count, List.flatMap_def, List.reverse_flatten, List.map_map]
  rfl

theorem places_little (position count : Nat) :
    ReadOrder.little.places position count = List.range' position count := by
  rw [← Piece.flatMap_ofRange position count, List.flatMap_def]
  rfl

theorem places_add_of_mostFirst
    (h : order = .big ∨ order.bytes = .mostFirst ∧ (position + m) % 8 = 0) (n : Nat) :
    order.places position (m + n) = order.places (position + m) n ++ order.places position m := by
  rcases h with rfl | ⟨bytes, boundary⟩
  · simp only [places_big, ← List.range'_append_1, List.reverse_append]
  · simp [places, bytes, Piece.ofRange_append boundary, Significance.arrange]

theorem places_add_of_leastFirst
    (h : order = .little ∨ order.bytes = .leastFirst ∧ (position + m) % 8 = 0) (n : Nat) :
    order.places position (m + n) = order.places position m ++ order.places (position + m) n := by
  rcases h with rfl | ⟨bytes, boundary⟩
  · simp only [places_little, ← List.range'_append_1]
  · simp [places, bytes, Piece.ofRange_append boundary, Significance.arrange]

end ReadOrder

namespace Cursor

variable {c finish : Cursor} {bytes : List UInt8} {m : Nat}

/-! ### Two numbers side by side -/

/-- **The number read first is the more significant one.** -/
theorem peekNat_add_of_mostFirst
    (h : c.order = .big ∨ c.order.bytes = .mostFirst ∧ (c.advance m).bitOffset = 0) (n : Nat) :
    c.peekNat (m + n) = c.peekNat m * 2 ^ n + (c.advance m).peekNat n := by
  simp only [peekNat_eq_bitsValue]
  rw [ReadOrder.places_add_of_mostFirst h, List.map_append, bitsValue_append, List.length_map,
    ReadOrder.length_places, Nat.mul_comm, Nat.add_comm]
  rfl

/-- **The number read first is the less significant one.** -/
theorem peekNat_add_of_leastFirst
    (h : c.order = .little ∨ c.order.bytes = .leastFirst ∧ (c.advance m).bitOffset = 0) (n : Nat) :
    c.peekNat (m + n) = c.peekNat m + (c.advance m).peekNat n * 2 ^ m := by
  simp only [peekNat_eq_bitsValue]
  rw [ReadOrder.places_add_of_leastFirst h, List.map_append, bitsValue_append, List.length_map,
    ReadOrder.length_places, Nat.mul_comm]
  rfl

-- A byte torn apart in a mixed order: the first half is 1 and the second one is 2.
example : (⟨#[0x12], 0, ⟨.leastFirst, .mostFirst⟩⟩ : Cursor).peekNat 8 ≠ 1 + 2 * 2 ^ 4 := by
  decide

/-! ### Bytes as digits -/

theorem toNat_ofNat_peekNat (c : Cursor) : (UInt8.ofNat (c.peekNat 8)).toNat = c.peekNat 8 :=
  UInt8.toNat_ofNat_of_lt' (c.peekNat_lt 8)

theorem ReadsBytes.peekNat_of_mostFirst (h : c.ReadsBytes bytes finish)
    (order : c.order = .big ∨ c.order.bytes = .mostFirst ∧ c.bitOffset = 0) :
    c.peekNat (8 * bytes.length) = Nat.ofDigits 256 (bytes.reverse.map UInt8.toNat) := by
  induction h with
  | nil c => simp
  | @cons c _ _ _ bytes head tail ih =>
    obtain ⟨-, rfl, rfl⟩ := readByte_eq_ok head
    -- the bit offset is the same behind a byte as before it
    have order' : c.order = .big ∨ c.order.bytes = .mostFirst ∧ (c.advance 8).bitOffset = 0 := by
      rwa [bitOffset_advance_eight c 1]
    rw [List.length_cons, Nat.mul_succ, Nat.add_comm, peekNat_add_of_mostFirst order', ih order',
      List.reverse_cons, List.map_append, Nat.ofDigits_append, List.map_singleton,
      Nat.ofDigits_singleton, toNat_ofNat_peekNat, List.length_map, List.length_reverse,
      Nat.pow_mul, Nat.mul_comm, Nat.add_comm]

theorem ReadsBytes.peekNat_of_leastFirst (h : c.ReadsBytes bytes finish)
    (order : c.order = .little ∨ c.order.bytes = .leastFirst ∧ c.bitOffset = 0) :
    c.peekNat (8 * bytes.length) = Nat.ofDigits 256 (bytes.map UInt8.toNat) := by
  induction h with
  | nil c => simp
  | @cons c _ _ _ bytes head tail ih =>
    obtain ⟨-, rfl, rfl⟩ := readByte_eq_ok head
    have order' : c.order = .little ∨ c.order.bytes = .leastFirst ∧
        (c.advance 8).bitOffset = 0 := by
      rwa [bitOffset_advance_eight c 1]
    rw [List.length_cons, Nat.mul_succ, Nat.add_comm, peekNat_add_of_leastFirst order', ih order',
      List.map_cons, Nat.ofDigits_cons, toNat_ofNat_peekNat, Nat.mul_comm, show 2 ^ 8 = 256 by rfl]

/-! ### Reading -/

/-- **Reading in one go or in two.** Both end at the same cursor. The number read in one go is the
two numbers side by side, the first of them in front or behind, where bytes and bits go the same
way or the division is at a byte boundary. So a number of whole bytes is its bytes as digits. -/
theorem readNat_add (c : Cursor) :
    (∀ m n, m + n ≤ c.remaining → ∃ a b w middle finish,
      c.readNat m = .ok (a, middle) ∧ middle.readNat n = .ok (b, finish) ∧
      c.readNat (m + n) = .ok (w, finish) ∧
      (c.order = .big ∨ c.order.bytes = .mostFirst ∧ middle.bitOffset = 0 → w = a * 2 ^ n + b) ∧
      (c.order = .little ∨ c.order.bytes = .leastFirst ∧ middle.bitOffset = 0 →
        w = a + b * 2 ^ m)) ∧
    ∀ k, 8 * k ≤ c.remaining → ∃ bytes w finish,
      c.readBytes k = .ok (bytes, finish) ∧ c.readNat (8 * k) = .ok (w, finish) ∧
      (c.order = .big ∨ c.order.bytes = .mostFirst ∧ c.bitOffset = 0 →
        w = Nat.ofDigits 256 (bytes.reverse.map UInt8.toNat)) ∧
      (c.order = .little ∨ c.order.bytes = .leastFirst ∧ c.bitOffset = 0 →
        w = Nat.ofDigits 256 (bytes.map UInt8.toNat)) := by
  constructor
  · intro m n enough
    have room : n ≤ (c.advance m).remaining := by
      rw [remaining_advance]
      omega
    have second := readNat_of_le room
    rw [advance_advance] at second
    exact ⟨_, _, _, c.advance m, _, readNat_of_le (by omega), second, readNat_of_le enough,
      fun h => peekNat_add_of_mostFirst h n, fun h => peekNat_add_of_leastFirst h n⟩
  · intro k enough
    obtain ⟨bytes, rfl, reads⟩ := exists_readsBytes enough
    exact ⟨bytes, _, _, readBytes_eq_ok_iff.mpr ⟨rfl, reads⟩, readNat_of_le enough,
      reads.peekNat_of_mostFirst, reads.peekNat_of_leastFirst⟩

/-- Eight bits that lie across a byte boundary, the boundary in the middle of them. -/
theorem readNat_add_acrossBytes : 4 + 4 ≤ (⟨#[0x12, 0x34], 4, .big⟩ : Cursor).remaining ∧
    (∃ a b w middle finish, (⟨#[0x12, 0x34], 4, .big⟩ : Cursor).readNat 4 = .ok (a, middle) ∧
      middle.readNat 4 = .ok (b, finish) ∧
      (⟨#[0x12, 0x34], 4, .big⟩ : Cursor).readNat 8 = .ok (w, finish) ∧ w = a * 2 ^ 4 + b) ∧
    8 * 1 ≤ (⟨#[0x12, 0x34], 4, .big⟩ : Cursor).remaining ∧
    ∃ bytes w finish, (⟨#[0x12, 0x34], 4, .big⟩ : Cursor).readBytes 1 = .ok (bytes, finish) ∧
      (⟨#[0x12, 0x34], 4, .big⟩ : Cursor).readNat 8 = .ok (w, finish) ∧
      w = Nat.ofDigits 256 (bytes.reverse.map UInt8.toNat) := by
  have split := readNat_add ⟨#[0x12, 0x34], 4, .big⟩
  obtain ⟨a, b, w, middle, finish, first, second, both, sum, -⟩ := split.1 4 4 (by decide)
  obtain ⟨bytes, w', finish', taken, number, digits, -⟩ := split.2 1 (by decide)
  exact ⟨by decide, ⟨a, b, w, middle, finish, first, second, both, sum (.inl rfl)⟩, by decide,
    bytes, w', finish', taken, number, digits (.inl rfl)⟩

end Cursor

end BitGrammar
