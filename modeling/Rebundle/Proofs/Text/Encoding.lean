import Rebundle.Proofs.Text.Decoding

/-!
# Writing texts piece by piece

A text that can be written is written alike wherever it stands, so the bytes of two texts in a row are
the bytes of the one and then of the other. A text without surrogates is read back from its bytes, also
by a strict reading.
-/

namespace Rebundle

/-- Whether a text has no surrogates. -/
def Text.Plain (t : Text) : Prop := ∀ c ∈ t, c.isSurrogate = false

instance (t : Text) : Decidable t.Plain := inferInstanceAs (Decidable (∀ c ∈ t, c.isSurrogate = false))

namespace Utf8

/-- What is written for a text does not depend on where it stands. -/
theorem spells_of_encodeEscapedFrom {t : Text} {position : Nat} {bytes : Bytes}
    (made : encodeEscapedFrom position t = .ok bytes) : Spells t bytes := by
  induction t generalizing position bytes with
  | nil =>
      cases made
      exact Spells.nil
  | cons c rest ih =>
      rw [encodeEscapedFrom] at made
      have step {front : Bytes} (first : Spells [c] front)
          (made : (encodeEscapedFrom (position + 1) rest).map (front ++ ·) = .ok bytes) :
          Spells (c :: rest) bytes := by
        cases behind : encodeEscapedFrom (position + 1) rest with
        | error fault =>
            rw [behind] at made
            cases made
        | ok back =>
            rw [behind] at made
            cases made
            exact first.append (ih behind)
      split at made
      · rename_i escape
        have single : Spells [c] [(c.val - 0xDC00).toUInt8] := by
          intro at' back
          simp [encodeEscapedFrom, escape]
        exact step single made
      · split at made
        · cases made
        · rename_i plain
          exact step (spells_point (by simpa using plain)) made

/-- Two texts in a row are written one behind the other. -/
theorem encodeEscaped_append {s t : Text} {bytes : Bytes} (made : encodeEscaped (s ++ t) = .ok bytes) :
    ∃ front back, encodeEscaped s = .ok front ∧ encodeEscaped t = .ok back ∧ bytes = front ++ back := by
  have prefixed : ∀ {s : Text} {position : Nat} {bytes : Bytes},
      encodeEscapedFrom position (s ++ t) = .ok bytes →
        ∃ front, encodeEscapedFrom position s = .ok front := by
    intro s
    induction s with
    | nil => exact fun _ => ⟨[], rfl⟩
    | cons c rest ih =>
        intro position bytes made
        rw [List.cons_append, encodeEscapedFrom] at made
        rw [encodeEscapedFrom]
        have step {f : Bytes → Bytes}
            (made : (encodeEscapedFrom (position + 1) (rest ++ t)).map f = .ok bytes) :
            ∃ front, (encodeEscapedFrom (position + 1) rest).map f = .ok front := by
          cases all : encodeEscapedFrom (position + 1) (rest ++ t) with
          | error fault =>
              rw [all] at made
              cases made
          | ok behind =>
              obtain ⟨front, same⟩ := ih all
              exact ⟨f front, by rw [same]; rfl⟩
        split at made
        · rename_i escape
          rw [if_pos escape]
          exact step made
        · rename_i noEscape
          rw [if_neg noEscape]
          split at made
          · cases made
          · rename_i plain
            rw [if_neg plain]
            exact step made
  obtain ⟨front, first⟩ := prefixed made
  have whole := spells_of_encodeEscapedFrom first 0 t
  rw [encodeEscaped, whole] at made
  cases second : encodeEscapedFrom (0 + s.length) t with
  | error fault =>
      rw [second] at made
      cases made
  | ok back =>
      rw [second] at made
      cases made
      exact ⟨front, back, first, (spells_of_encodeEscapedFrom second).encode, rfl⟩

/-! What is written for a point that is no surrogate is read as one piece. -/

/-- A character that is no ASCII has no ASCII bytes. -/
theorem high_of_encodeEscaped {c : CodePoint} (high : 0x80 ≤ c.val) {bytes : Bytes}
    (made : encodeEscaped [c] = .ok bytes) : ∀ b ∈ bytes, 0x80 ≤ b := by
  have fits := c.val_lt
  have byte {n : Nat} (big : 0x80 ≤ n) (small : n < 0x100) : 0x80 ≤ n.toUInt8 := by
    rw [UInt8.le_iff_toNat_le]
    simp
    omega
  rw [encodeEscaped, encodeEscapedFrom] at made
  split at made
  · rename_i escape
    simp only [CodePoint.isByteEscape, Bool.and_eq_true, decide_eq_true_eq] at escape
    cases made
    exact List.forall_mem_singleton.mpr (byte (by omega) (by omega))
  · split at made
    · cases made
    · simp only [encodeEscapedFrom, Except.map, Except.ok.injEq, List.append_nil] at made
      subst made
      rw [encodePoint, if_neg (by omega)]
      split
      · simp only [List.forall_mem_cons]
        exact ⟨byte (by omega) (by omega), byte (by omega) (by omega), List.forall_mem_nil _⟩
      · split
        · simp only [List.forall_mem_cons]
          exact ⟨byte (by omega) (by omega), byte (by omega) (by omega), byte (by omega) (by omega),
            List.forall_mem_nil _⟩
        · simp only [List.forall_mem_cons]
          exact ⟨byte (by omega) (by omega), byte (by omega) (by omega), byte (by omega) (by omega),
            byte (by omega) (by omega), List.forall_mem_nil _⟩

/-- A code point is written as its own byte, or as bytes that are no ASCII. -/
theorem encodeEscaped_single {c : CodePoint} {bytes : Bytes} (made : encodeEscaped [c] = .ok bytes) :
    c.val < 0x80 ∧ bytes = [c.val.toUInt8] ∨ 0x80 ≤ c.val ∧ bytes ≠ [] ∧ ∀ b ∈ bytes, 0x80 ≤ b := by
  rcases Nat.lt_or_ge c.val 0x80 with small | high
  · rw [encodeEscaped_ascii fun d mem => List.mem_singleton.mp mem ▸ small] at made
    cases made
    exact .inl ⟨small, rfl⟩
  · refine .inr ⟨high, ?_, high_of_encodeEscaped high made⟩
    have full : encodePoint c ≠ [] := by
      rw [encodePoint]
      repeat' split
      all_goals exact List.cons_ne_nil _ _
    rintro rfl
    rw [encodeEscaped, encodeEscapedFrom] at made
    split at made
    · cases made
    · split at made
      · cases made
      · exact full (by simpa [encodeEscapedFrom, Except.map] using made)

/-- The byte that continues a point by six bits. -/
theorem tail_byte : ∀ r < 64, isContinuation (0x80 + r).toUInt8 = true ∧ low (0x80 + r).toUInt8 = r ∧
    (0xA0 ≤ (0x80 + r).toUInt8 ↔ 0x20 ≤ r) ∧ (0x90 ≤ (0x80 + r).toUInt8 ↔ 0x10 ≤ r) := by
  decide

/-- The first byte of two. -/
theorem lead_two : ∀ x < 32, 2 ≤ x → ¬ (0xC0 + x).toUInt8 < 0x80 ∧ ¬ (0xC0 + x).toUInt8 < 0xC2 ∧
    (0xC0 + x).toUInt8 < 0xE0 ∧ ((0xC0 + x).toUInt8 &&& 0x1F).toNat = x := by
  decide

/-- The first byte of three. -/
theorem lead_three : ∀ x < 16, ¬ (0xE0 + x).toUInt8 < 0x80 ∧ ¬ (0xE0 + x).toUInt8 < 0xC2 ∧
    ¬ (0xE0 + x).toUInt8 < 0xE0 ∧ (0xE0 + x).toUInt8 < 0xF0 ∧
    ((0xE0 + x).toUInt8 &&& 0x0F).toNat = x ∧ ((0xE0 + x).toUInt8 = 0xE0 ↔ x = 0) ∧
    ((0xE0 + x).toUInt8 = 0xED ↔ x = 13) := by
  decide

/-- The first byte of four. -/
theorem lead_four : ∀ x < 5, ¬ (0xF0 + x).toUInt8 < 0x80 ∧ ¬ (0xF0 + x).toUInt8 < 0xC2 ∧
    ¬ (0xF0 + x).toUInt8 < 0xE0 ∧ ¬ (0xF0 + x).toUInt8 < 0xF0 ∧ (0xF0 + x).toUInt8 < 0xF5 ∧
    ((0xF0 + x).toUInt8 &&& 0x07).toNat = x ∧ ((0xF0 + x).toUInt8 = 0xF0 ↔ x = 0) ∧
    ((0xF0 + x).toUInt8 = 0xF4 ↔ x = 4) := by
  decide

theorem continued_tail {allowed : UInt8 → Bool} {r : Nat} (small : r < 64)
    (passes : allowed (0x80 + r).toUInt8 = true) (value needed seen : Nat) (rest : Bytes) :
    continued allowed value (needed + 1) seen ((0x80 + r).toUInt8 :: rest) =
      continued (fun _ => true) (value * 64 + r) needed (seen + 1) rest := by
  obtain ⟨continues, bits, _⟩ := tail_byte r small
  rw [continued, continues, passes, bits]
  rfl

theorem piece_one {n : Nat} (ascii : n < 0x80) (rest : Bytes) :
    piece n.toUInt8 rest = .point (CodePoint.ofNat n) 1 := by
  have low : n.toUInt8 < 0x80 := by
    rw [UInt8.lt_iff_toNat_lt]
    simp
    omega
  have same : n.toUInt8.toNat = n := by simp; omega
  simp [piece, low, same]

theorem piece_two {n : Nat} (wide : 0x80 ≤ n) (fits : n < 0x800) (rest : Bytes) :
    piece (0xC0 + n / 64).toUInt8 ((0x80 + n % 64).toUInt8 :: rest) = .point (CodePoint.ofNat n) 2 := by
  obtain ⟨first, second, third, bits⟩ := lead_two (n / 64) (by omega) (by omega)
  rw [piece, if_neg first, if_neg second, if_pos third, bits, continued_tail (by omega) rfl, continued,
    show n / 64 * 64 + n % 64 = n by omega]

/-- The byte behind the first of three is neither that of a shorter point nor that of a surrogate. -/
theorem second_of_three {n : Nat} (wide : 0x800 ≤ n) (fits : n < 0x10000) (plain : n < 0xD800 ∨ 0xDFFF < n) :
    (if ((0xE0 + n / 4096).toUInt8 == 0xE0) = true then decide (0xA0 ≤ (0x80 + n / 64 % 64).toUInt8)
      else if ((0xE0 + n / 4096).toUInt8 == 0xED) = true then decide ((0x80 + n / 64 % 64).toUInt8 < 0xA0)
      else true) = true := by
  obtain ⟨_, _, _, _, _, zero, surrogate⟩ := lead_three (n / 4096) (by omega)
  obtain ⟨_, _, big, _⟩ := tail_byte (n / 64 % 64) (by omega)
  simp only [beq_iff_eq, zero, surrogate]
  split
  · rw [decide_eq_true_eq, big]
    omega
  · split
    · rw [decide_eq_true_eq, ← UInt8.not_le, big]
      omega
    · rfl

theorem piece_three {n : Nat} (wide : 0x800 ≤ n) (fits : n < 0x10000) (plain : n < 0xD800 ∨ 0xDFFF < n)
    (rest : Bytes) :
    piece (0xE0 + n / 4096).toUInt8 ((0x80 + n / 64 % 64).toUInt8 :: (0x80 + n % 64).toUInt8 :: rest) =
      .point (CodePoint.ofNat n) 3 := by
  obtain ⟨first, second, third, fourth, bits, _⟩ := lead_three (n / 4096) (by omega)
  rw [piece, if_neg first, if_neg second, if_neg third, if_pos fourth, bits,
    continued_tail (by omega) (second_of_three wide fits plain), continued_tail (by omega) rfl, continued,
    show (n / 4096 * 64 + n / 64 % 64) * 64 + n % 64 = n by omega]

/-- The byte behind the first of four is neither that of a shorter point nor that of one that does not exist. -/
theorem second_of_four {n : Nat} (wide : 0x10000 ≤ n) (fits : n < 0x110000) :
    (if ((0xF0 + n / 262144).toUInt8 == 0xF0) = true then decide (0x90 ≤ (0x80 + n / 4096 % 64).toUInt8)
      else if ((0xF0 + n / 262144).toUInt8 == 0xF4) = true then decide ((0x80 + n / 4096 % 64).toUInt8 < 0x90)
      else true) = true := by
  obtain ⟨_, _, _, _, _, _, zero, last⟩ := lead_four (n / 262144) (by omega)
  obtain ⟨_, _, _, big⟩ := tail_byte (n / 4096 % 64) (by omega)
  simp only [beq_iff_eq, zero, last]
  split
  · rw [decide_eq_true_eq, big]
    omega
  · split
    · rw [decide_eq_true_eq, ← UInt8.not_le, big]
      omega
    · rfl

theorem piece_four {n : Nat} (wide : 0x10000 ≤ n) (fits : n < 0x110000) (rest : Bytes) :
    piece (0xF0 + n / 262144).toUInt8 ((0x80 + n / 4096 % 64).toUInt8 :: (0x80 + n / 64 % 64).toUInt8 ::
      (0x80 + n % 64).toUInt8 :: rest) = .point (CodePoint.ofNat n) 4 := by
  obtain ⟨first, second, third, fourth, fifth, bits, _⟩ := lead_four (n / 262144) (by omega)
  rw [piece, if_neg first, if_neg second, if_neg third, if_neg fourth, if_pos fifth, bits,
    continued_tail (by omega) (second_of_four wide fits), continued_tail (by omega) rfl,
    continued_tail (by omega) rfl, continued,
    show ((n / 262144 * 64 + n / 4096 % 64) * 64 + n / 64 % 64) * 64 + n % 64 = n by omega]

theorem piece_encodePoint {c : CodePoint} (plain : c.isSurrogate = false) (rest : Bytes) :
    ∃ b tail, encodePoint c = b :: tail ∧ piece b (tail ++ rest) = .point c (tail.length + 1) := by
  have fits := c.val_lt
  have point (width : Nat) : Piece.point (CodePoint.ofNat c.val) width = .point c width := by
    simp [CodePoint.ofNat, fits]
  simp only [CodePoint.isSurrogate, Bool.and_eq_false_iff, decide_eq_false_iff_not] at plain
  rw [encodePoint]
  split
  · rename_i one
    exact ⟨_, _, rfl, (piece_one one rest).trans (point 1)⟩
  · split
    · exact ⟨_, _, rfl, (piece_two (n := c.val) (by omega) (by omega) rest).trans (point 2)⟩
    · split
      · exact ⟨_, _, rfl, (piece_three (n := c.val) (by omega) (by omega) (by omega) rest).trans (point 3)⟩
      · exact ⟨_, _, rfl, (piece_four (n := c.val) (by omega) (by omega) rest).trans (point 4)⟩

theorem piecesFrom_append (run rest : Bytes) : piecesFrom run.length (run ++ rest) = pieces rest := by
  induction run with
  | nil => rfl
  | cons b run ih => exact ih

/-- A text without surrogates is read back. -/
theorem decode_encodeEscaped {t : Text} (plain : t.Plain) {bytes : Bytes}
    (made : encodeEscaped t = .ok bytes) : decode bytes = .ok t := by
  have all : ∀ {t : Text} {bytes : Bytes} {position : Nat}, t.Plain →
      encodeEscaped t = .ok bytes → decodeFrom position (pieces bytes) = .ok t := by
    intro t
    induction t with
    | nil =>
        intro bytes position _ made
        cases made
        rfl
    | cons c rest ih =>
        intro bytes position plain made
        obtain ⟨front, back, first, second, rfl⟩ := encodeEscaped_append (s := [c]) made
        have here := plain c List.mem_cons_self
        rw [(spells_point here).encode] at first
        cases first
        obtain ⟨b, tail, spelt, read⟩ := piece_encodePoint here back
        have cut : pieces (encodePoint c ++ back) =
            (.point c (tail.length + 1), b :: tail) :: pieces back := by
          rw [spelt, List.cons_append, pieces, piecesFrom]
          simp only [read, Piece.width, Nat.add_sub_cancel]
          rw [piecesFrom_append, List.take_succ_cons, List.take_left]
        rw [cut, decodeFrom, ih (fun d mem => plain d (List.mem_cons_of_mem _ mem)) second]
        rfl
  exact all plain made

/-! What is read strictly has no surrogates, and is what a reading with escapes gives. -/

/-- The bytes behind a lead byte that belong to its piece are continuation bytes. -/
theorem continues_piece (b : UInt8) (rest : Bytes) :
    ∀ c ∈ rest.take ((piece b rest).width - 1), isContinuation c = true := by
  have behind (allowed : UInt8 → Bool) (value needed : Nat) :
      ∀ c ∈ rest.take ((continued allowed value needed 0 rest).width - 1), isContinuation c = true := by
    rcases continued_cases allowed value needed 0 rest with
      ⟨run, size, front, continues, _, same⟩ | ⟨reason, n, same, continues⟩
    · rw [same, Piece.width, Nat.zero_add, Nat.add_sub_cancel, ← size, ← List.prefix_iff_eq_take.mp front]
      exact continues
    · rw [same, Piece.width, Nat.zero_add, Nat.add_sub_cancel]
      exact continues
  unfold piece
  repeat' split
  all_goals first | exact behind _ _ _ | simp [Piece.width]

/-- A piece of high bytes is read as characters that are no ASCII. -/
theorem high_escaped_piece {b : UInt8} (high : 0x80 ≤ b) (rest : Bytes) :
    ∀ c ∈ escaped (piece b rest, (b :: rest).take (piece b rest).width), 0x80 ≤ c.val := by
  have written := spells_piece b rest
  obtain ⟨n, width⟩ := Nat.exists_eq_succ_of_ne_zero (Nat.ne_of_gt (width_piece_pos b rest))
  rw [width, List.take_succ_cons] at written ⊢
  cases read : piece b rest with
  | point c width =>
      rw [read] at written
      intro d mem
      obtain rfl : d = c := List.mem_singleton.mp mem
      rcases Nat.lt_or_ge d.val 0x80 with small | big
      · have spelt := written.encode
        rw [escaped, encodeEscaped_ascii fun c mem => List.mem_singleton.mp mem ▸ small] at spelt
        have same : d.val.toUInt8 = b := (List.cons.inj (Except.ok.inj spelt)).1
        rw [← same, UInt8.le_iff_toNat_le] at high
        simp at high
        omega
      · exact big
  | bad reason width =>
      intro d mem
      obtain ⟨byte, known, rfl⟩ := List.mem_map.mp mem
      rw [escapeByte, CodePoint.val_ofNat (by have := byte.toNat_lt; omega)]
      omega

/-- A point that takes one byte is ASCII. -/
theorem ascii_of_piece {b : UInt8} {rest : Bytes} {c : CodePoint} (read : piece b rest = .point c 1) : b < 0x80 := by
  have longer (allowed : UInt8 → Bool) (value needed : Nat) :
      continued allowed value (needed + 1) 0 rest ≠ .point c 1 := by
    rcases continued_cases allowed value (needed + 1) 0 rest with ⟨_, _, _, _, _, same⟩ | ⟨_, _, same, _⟩
    · rw [same]
      simp
    · rw [same]
      exact Piece.noConfusion
  unfold piece at read
  repeat' split at read
  all_goals first | assumption | exact absurd read (longer _ _ _) | cases read

theorem plain_of_piece {b : UInt8} {rest : Bytes} {c : CodePoint} {width : Nat}
    (read : piece b rest = .point c width) : c.isSurrogate = false := by
  have written := (spells_piece b rest).encode
  rw [read, escaped, encodeEscaped, encodeEscapedFrom] at written
  split at written
  · rename_i escape
    simp only [encodeEscapedFrom, Except.map, Except.ok.injEq] at written
    have one : width = 1 := by
      have size := congrArg List.length written
      have room := width_piece_le b rest
      rw [read] at room
      simp only [Piece.width, List.length_take, List.length_cons, List.length_nil] at size room
      omega
    subst one
    rw [Piece.width, List.take_succ_cons, List.take_zero, List.cons.injEq] at written
    have low := ascii_of_piece read
    simp only [CodePoint.isByteEscape, Bool.and_eq_true, decide_eq_true_eq] at escape
    rw [← written.1, UInt8.lt_iff_toNat_lt] at low
    simp at low
    omega
  · split at written
    · cases written
    · rename_i plain
      simpa using plain

/-- What is read strictly has no surrogates and is written as it was read. -/
theorem plain_of_decode {bytes : Bytes} {t : Text} (read : decode bytes = .ok t) :
    t.Plain ∧ decodeEscaped bytes = t := by
  have all : ∀ {bytes : Bytes} {owned position : Nat} {t : Text},
      decodeFrom position (piecesFrom owned bytes) = .ok t →
        t.Plain ∧ (piecesFrom owned bytes).flatMap escaped = t := by
    intro bytes
    induction bytes with
    | nil =>
        intro owned position t read
        have none : piecesFrom owned [] = [] := by cases owned <;> rfl
        rw [none] at read ⊢
        cases read
        exact ⟨fun _ mem => absurd mem List.not_mem_nil, rfl⟩
    | cons b rest ih =>
        intro owned position t read
        cases owned with
        | succ owned => exact ih read
        | zero =>
            rw [piecesFrom] at read ⊢
            cases here : piece b rest with
            | bad reason width =>
                rw [here] at read
                cases read
            | point c width =>
                rw [here, decodeFrom] at read
                cases behind : decodeFrom (position + width)
                    (piecesFrom ((Piece.point c width).width - 1) rest) with
                | error fault =>
                    rw [behind] at read
                    cases read
                | ok back =>
                    rw [behind] at read
                    cases read
                    obtain ⟨plain, same⟩ := ih behind
                    exact ⟨List.forall_mem_cons.mpr ⟨plain_of_piece here, plain⟩,
                      by rw [List.flatMap_cons, same]; rfl⟩
  exact all read

/-- The text that is read from the file of a text: undecodable bytes that stand behind each other may be
read as a character. -/
def reread (t : Text) : Text :=
  match encodeEscaped t with
  | .ok bytes => decodeEscaped bytes
  | .error _ => t

theorem encodes_of_plain {t : Text} (plain : t.Plain) : ∃ bytes, encodeEscaped t = .ok bytes := by
  suffices spelt : ∃ bytes, Spells t bytes from spelt.imp fun _ spells => spells.encode
  induction t with
  | nil => exact ⟨[], Spells.nil⟩
  | cons c rest ih =>
      obtain ⟨here, behind⟩ := List.forall_mem_cons.mp plain
      obtain ⟨bytes, spells⟩ := ih behind
      exact ⟨encodePoint c ++ bytes, (spells_point here).append spells⟩

theorem reread_of_plain {t : Text} (plain : t.Plain) : reread t = t := by
  obtain ⟨bytes, made⟩ := encodes_of_plain plain
  rw [reread, made]
  exact (plain_of_decode (decode_encodeEscaped plain made)).2

end Utf8

end Rebundle
