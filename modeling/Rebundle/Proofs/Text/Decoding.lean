import Rebundle.Text.Utf8

/-!
# Decoding with escapes

Every byte sequence is read as a text that is written back as the same bytes, so the reading loses
nothing. An ASCII byte ends every run of bytes in front of it: where a later piece begins with such a
byte, decoding can be done piece by piece.
-/

namespace Rebundle.Utf8

theorem isContinuation_of_ascii {b : UInt8} (ascii : b < 0x80) : isContinuation b = false := by
  have all : ∀ n : Fin 256, UInt8.ofNat n < 0x80 → isContinuation (UInt8.ofNat n) = false := by
    decide +kernel
  have known := all ⟨b.toNat, b.toNat_lt⟩
  simp only [UInt8.ofNat_toNat] at known
  exact known ascii

/-- Pieces that are the same up to the reason why they are bad. -/
inductive Piece.Alike : Piece → Piece → Prop where
  | same (p : Piece) : Alike p p
  | bad (r s : Reason) (width : Nat) : Alike (.bad r width) (.bad s width)

namespace Piece

theorem Alike.width {p q : Piece} (alike : p.Alike q) : p.width = q.width := by
  cases alike <;> rfl

end Piece

/-- What a piece with these bytes is read as. -/
def escaped : Piece × Bytes → Text
  | (.point c _, _) => [c]
  | (.bad _ _, run) => run.map escapeByte

theorem decodeEscaped_eq (bytes : Bytes) :
    decodeEscaped bytes = (piecesFrom 0 bytes).flatMap escaped := rfl

theorem escaped_alike {p q : Piece} (alike : p.Alike q) (run : Bytes) :
    escaped (p, run) = escaped (q, run) := by
  cases alike <;> rfl

/-- Whether a byte sequence is empty or begins with an ASCII byte. -/
def StartsAscii (bytes : Bytes) : Prop := ∀ b ∈ bytes.head?, b < 0x80

section

variable {back : Bytes} (ascii : StartsAscii back)

include ascii

theorem continued_append (allowed : UInt8 → Bool) (value needed seen : Nat) (rest : Bytes) :
    (continued allowed value needed seen (rest ++ back)).Alike
      (continued allowed value needed seen rest) := by
  induction needed generalizing allowed value seen rest with
  | zero => exact .same _
  | succ needed ih =>
      cases rest with
      | nil =>
          cases back with
          | nil => exact .same _
          | cons b _ =>
              have stops := isContinuation_of_ascii (ascii b rfl)
              simp only [List.nil_append, continued, stops, Bool.false_and, Bool.false_eq_true,
                if_false]
              exact .bad _ _ _
      | cons b rest =>
          simp only [List.cons_append, continued]
          split
          · exact ih _ _ _ rest
          · exact .same _

theorem piece_append (b : UInt8) (rest : Bytes) : (piece b (rest ++ back)).Alike (piece b rest) := by
  unfold piece
  split
  · exact .same _
  · split
    · exact .same _
    · split
      · exact continued_append ascii _ _ _ _ rest
      · split
        · exact continued_append ascii _ _ _ _ rest
        · split
          · exact continued_append ascii _ _ _ _ rest
          · exact .same _

end

theorem width_continued_le (allowed : UInt8 → Bool) (value needed seen : Nat) (rest : Bytes) :
    (continued allowed value needed seen rest).width ≤ seen + 1 + rest.length := by
  induction needed generalizing allowed value seen rest with
  | zero => simp [continued, Piece.width]
  | succ needed ih =>
      cases rest with
      | nil => simp [continued, Piece.width]
      | cons b rest =>
          rw [continued]
          split
          · have := ih (fun _ => true) (value * 64 + low b) (seen + 1) rest
            simp only [List.length_cons]
            omega
          · simp [Piece.width]

theorem width_piece_le (b : UInt8) (rest : Bytes) : (piece b rest).width ≤ rest.length + 1 := by
  have bound := fun allowed value needed => width_continued_le allowed value needed 0 rest
  simp only [Nat.zero_add, Nat.add_comm 1] at bound
  unfold piece
  repeat' split
  all_goals first | exact bound _ _ _ | simp [Piece.width]

theorem flatMap_piecesFrom_append {back : Bytes} (ascii : StartsAscii back) (front : Bytes)
    (owned : Nat) (fits : owned ≤ front.length) :
    (piecesFrom owned (front ++ back)).flatMap escaped =
      (piecesFrom owned front).flatMap escaped ++ (piecesFrom 0 back).flatMap escaped := by
  induction front generalizing owned with
  | nil =>
      cases owned with
      | zero => simp [piecesFrom]
      | succ owned => simp at fits
  | cons b rest ih =>
      cases owned with
      | succ owned =>
          rw [List.cons_append, piecesFrom, piecesFrom]
          exact ih owned (Nat.le_of_succ_le_succ fits)
      | zero =>
          have alike := piece_append ascii b rest
          have room := width_piece_le b rest
          rw [List.cons_append, piecesFrom, piecesFrom, alike.width, List.flatMap_cons,
            List.flatMap_cons, ih _ (by omega), escaped_alike alike, List.append_assoc]
          congr 2
          rw [← List.cons_append,
            List.take_append_of_le_length (by simp only [List.length_cons]; omega)]

/-- Decoding in front of an ASCII byte and from there on. -/
theorem decodeEscaped_append (front : Bytes) {back : Bytes} (ascii : StartsAscii back) :
    decodeEscaped (front ++ back) = decodeEscaped front ++ decodeEscaped back := by
  rw [decodeEscaped_eq, decodeEscaped_eq, decodeEscaped_eq]
  exact flatMap_piecesFrom_append ascii front 0 (Nat.zero_le _)

/-- Whether a text is written as these bytes, wherever it stands. -/
def Spells (t : Text) (bytes : Bytes) : Prop :=
  ∀ position rest, encodeEscapedFrom position (t ++ rest) =
    (encodeEscapedFrom (position + t.length) rest).map (bytes ++ ·)

theorem Spells.nil : Spells [] [] := by
  intro position rest
  cases h : encodeEscapedFrom position rest <;> simp [h, Except.map]

theorem Spells.append {s t : Text} {a b : Bytes} (first : Spells s a) (second : Spells t b) :
    Spells (s ++ t) (a ++ b) := by
  intro position rest
  rw [List.append_assoc, first, second, List.length_append, Nat.add_assoc]
  cases encodeEscapedFrom (position + (s.length + t.length)) rest <;> simp [Except.map]

theorem Spells.encode {t : Text} {bytes : Bytes} (spells : Spells t bytes) :
    encodeEscaped t = .ok bytes := by
  have whole := spells 0 []
  rw [encodeEscaped]
  simpa [encodeEscapedFrom, Except.map] using whole

/-- A byte that is no ASCII is written as the surrogate that stands for it. -/
theorem spells_escapeByte {b : UInt8} (high : 0x80 ≤ b) : Spells [escapeByte b] [b] := by
  have size := b.toNat_lt
  have big : 0x80 ≤ b.toNat := UInt8.le_iff_toNat_le.mp high
  have value : (escapeByte b).val = 0xDC00 + b.toNat := CodePoint.val_ofNat (by omega)
  have escape : (escapeByte b).isByteEscape = true := by
    simp only [CodePoint.isByteEscape, value, Bool.and_eq_true, decide_eq_true_eq]
    omega
  intro position rest
  simp only [List.cons_append, List.nil_append, encodeEscapedFrom, escape, if_true, value,
    Nat.add_sub_cancel_left, List.length_cons, List.length_nil, Nat.toUInt8_eq, UInt8.ofNat_toNat]

/-- A code point that is no surrogate is written by the general scheme. -/
theorem spells_point {c : CodePoint} (plain : c.isSurrogate = false) :
    Spells [c] (encodePoint c) := by
  have noEscape : c.isByteEscape = false := by
    simp only [CodePoint.isSurrogate, CodePoint.isByteEscape, Bool.and_eq_false_iff,
      decide_eq_false_iff_not] at *
    omega
  intro position rest
  simp [encodeEscapedFrom, noEscape, plain]

theorem continuation_eq {b : UInt8} (continues : isContinuation b = true) :
    b.toNat = 0x80 + low b ∧ low b < 0x40 := by
  have all : ∀ n : Fin 256, isContinuation (UInt8.ofNat n) = true →
      (UInt8.ofNat n).toNat = 0x80 + low (UInt8.ofNat n) ∧ low (UInt8.ofNat n) < 0x40 := by
    decide +kernel
  have known := all ⟨b.toNat, b.toNat_lt⟩
  simp only [UInt8.ofNat_toNat] at known
  exact known continues

/-- The bits of a lead byte for two, three and four bytes. -/
theorem lead_eq (b : UInt8) :
    (0xC2 ≤ b → b < 0xE0 → b.toNat = 0xC0 + (b &&& 0x1F).toNat ∧ 2 ≤ (b &&& 0x1F).toNat ∧
      (b &&& 0x1F).toNat < 0x20) ∧
    (0xE0 ≤ b → b < 0xF0 → b.toNat = 0xE0 + (b &&& 0x0F).toNat ∧ (b &&& 0x0F).toNat < 0x10) ∧
    (0xF0 ≤ b → b < 0xF5 → b.toNat = 0xF0 + (b &&& 0x07).toNat ∧ (b &&& 0x07).toNat < 5) := by
  have all : ∀ n : Fin 256,
      (0xC2 ≤ UInt8.ofNat n → UInt8.ofNat n < 0xE0 →
        (UInt8.ofNat n).toNat = 0xC0 + (UInt8.ofNat n &&& 0x1F).toNat ∧
          2 ≤ (UInt8.ofNat n &&& 0x1F).toNat ∧ (UInt8.ofNat n &&& 0x1F).toNat < 0x20) ∧
      (0xE0 ≤ UInt8.ofNat n → UInt8.ofNat n < 0xF0 →
        (UInt8.ofNat n).toNat = 0xE0 + (UInt8.ofNat n &&& 0x0F).toNat ∧
          (UInt8.ofNat n &&& 0x0F).toNat < 0x10) ∧
      (0xF0 ≤ UInt8.ofNat n → UInt8.ofNat n < 0xF5 →
        (UInt8.ofNat n).toNat = 0xF0 + (UInt8.ofNat n &&& 0x07).toNat ∧
          (UInt8.ofNat n &&& 0x07).toNat < 5) := by
    decide +kernel
  have known := all ⟨b.toNat, b.toNat_lt⟩
  simp only [UInt8.ofNat_toNat] at known
  exact known

/-- What reading continuation bytes gives: all that are needed, the first of them allowed, or a bad
run of continuation bytes. -/
theorem continued_cases (allowed : UInt8 → Bool) (value needed seen : Nat) (rest : Bytes) :
    (∃ run, run.length = needed ∧ run <+: rest ∧ (∀ c ∈ run, isContinuation c = true) ∧
      (∀ c ∈ run.head?, allowed c = true) ∧
      continued allowed value needed seen rest =
        .point (CodePoint.ofNat (run.foldl (fun v c => v * 64 + low c) value)) (seen + needed + 1)) ∨
    ∃ reason n, continued allowed value needed seen rest = .bad reason (seen + n + 1) ∧
      ∀ c ∈ rest.take n, isContinuation c = true := by
  induction needed generalizing allowed value seen rest with
  | zero => exact .inl ⟨[], rfl, List.nil_prefix, by simp, by simp, rfl⟩
  | succ needed ih =>
      cases rest with
      | nil => exact .inr ⟨_, 0, rfl, by simp⟩
      | cons b rest =>
          rw [continued]
          split
          · rename_i fits
            rw [Bool.and_eq_true] at fits
            rcases ih (fun _ => true) (value * 64 + low b) (seen + 1) rest with
              ⟨run, size, front, continues, _, same⟩ | ⟨reason, n, same, continues⟩
            · refine .inl ⟨b :: run, by simp [size], ?_, ?_, ?_, ?_⟩
              · exact List.cons_prefix_cons.mpr ⟨rfl, front⟩
              · intro c mem
                cases mem with
                | head => exact fits.1
                | tail _ mem => exact continues c mem
              · intro c head
                cases head
                exact fits.2
              · rw [same, List.foldl_cons]
                congr 1
                omega
            · refine .inr ⟨reason, n + 1, ?_, ?_⟩
              · rw [same]
                congr 1
                omega
              · intro c mem
                rw [List.take_succ_cons] at mem
                cases mem with
                | head => exact fits.1
                | tail _ mem => exact continues c mem
          · exact .inr ⟨_, 0, rfl, by simp⟩

theorem high_of_continuation {b : UInt8} (continues : isContinuation b = true) : 0x80 ≤ b := by
  have := (continuation_eq continues).1
  rw [UInt8.le_iff_toNat_le]
  change 0x80 ≤ b.toNat
  omega

theorem spells_run {run : Bytes} (high : ∀ b ∈ run, 0x80 ≤ b) : Spells (run.map escapeByte) run := by
  induction run with
  | nil => exact Spells.nil
  | cons b rest ih =>
      exact (spells_escapeByte (high b List.mem_cons_self)).append
        (ih fun c mem => high c (List.mem_cons_of_mem _ mem))

/-- A bad run is a byte that is no ASCII with continuation bytes behind it. -/
theorem spells_bad {b : UInt8} {rest : Bytes} {n : Nat} (reason : Reason) (high : 0x80 ≤ b)
    (continues : ∀ c ∈ rest.take n, isContinuation c = true) :
    Spells (escaped (.bad reason (n + 1), (b :: rest).take (n + 1))) ((b :: rest).take (n + 1)) := by
  apply spells_run
  intro c mem
  rw [List.take_succ_cons] at mem
  cases mem with
  | head => exact high
  | tail _ mem => exact high_of_continuation (continues c mem)

theorem spells_value {value : Nat} {run bytes : Bytes} {width : Nat} (fits : value < 0x110000)
    (plain : value < 0xD800 ∨ 0xE000 ≤ value)
    (same : encodePoint (CodePoint.ofNat value) = bytes) :
    Spells (escaped (.point (CodePoint.ofNat value) width, run)) bytes := by
  have noSurrogate : (CodePoint.ofNat value).isSurrogate = false := by
    simp only [CodePoint.isSurrogate, CodePoint.val_ofNat fits, Bool.and_eq_false_iff,
      decide_eq_false_iff_not]
    omega
  rw [← same]
  exact spells_point noSurrogate

theorem toUInt8_of_toNat {b : UInt8} {n : Nat} (same : b.toNat = n) : n.toUInt8 = b := by
  rw [← same, Nat.toUInt8_eq, UInt8.ofNat_toNat]

theorem encodePoint_ne_nil (c : CodePoint) : encodePoint c ≠ [] := by
  unfold encodePoint
  dsimp only
  repeat' split
  all_goals exact List.cons_ne_nil _ _

theorem encodePoint_two {b c : UInt8} {x : Nat} (lead : b.toNat = 0xC0 + x) (least : 2 ≤ x)
    (most : x < 0x20) (continues : isContinuation c = true) :
    encodePoint (CodePoint.ofNat (x * 64 + low c)) = [b, c] := by
  obtain ⟨second, bound⟩ := continuation_eq continues
  rw [encodePoint, CodePoint.val_ofNat (by omega)]
  rw [if_neg (by omega), if_pos (by omega), toUInt8_of_toNat (b := b) (by omega),
    toUInt8_of_toNat (b := c) (by omega)]

theorem encodePoint_three {b c d : UInt8} {x : Nat} (lead : b.toNat = 0xE0 + x) (most : x < 0x10)
    (least : x = 0 → 0x20 ≤ low c) (second : isContinuation c = true)
    (third : isContinuation d = true) :
    encodePoint (CodePoint.ofNat ((x * 64 + low c) * 64 + low d)) = [b, c, d] := by
  obtain ⟨second, bound⟩ := continuation_eq second
  obtain ⟨third, bound'⟩ := continuation_eq third
  rw [encodePoint, CodePoint.val_ofNat (by omega)]
  rw [if_neg (by omega), if_neg (by omega), if_pos (by omega), toUInt8_of_toNat (b := b) (by omega),
    toUInt8_of_toNat (b := c) (by omega), toUInt8_of_toNat (b := d) (by omega)]

theorem encodePoint_four {b c d e : UInt8} {x : Nat} (lead : b.toNat = 0xF0 + x) (most : x < 5)
    (least : x = 0 → 0x10 ≤ low c) (last : x = 4 → low c < 0x10) (second : isContinuation c = true)
    (third : isContinuation d = true) (fourth : isContinuation e = true) :
    encodePoint (CodePoint.ofNat (((x * 64 + low c) * 64 + low d) * 64 + low e)) = [b, c, d, e] := by
  obtain ⟨second, bound⟩ := continuation_eq second
  obtain ⟨third, bound'⟩ := continuation_eq third
  obtain ⟨fourth, bound''⟩ := continuation_eq fourth
  rw [encodePoint, CodePoint.val_ofNat (by omega)]
  rw [if_neg (by omega), if_neg (by omega), if_neg (by omega),
    toUInt8_of_toNat (b := b) (by omega), toUInt8_of_toNat (b := c) (by omega),
    toUInt8_of_toNat (b := d) (by omega), toUInt8_of_toNat (b := e) (by omega)]

/-- The first continuation byte rules out overlong forms and surrogates. -/
theorem three_allowed {b c : UInt8} {x : Nat} (lead : b.toNat = 0xE0 + x)
    (second : isContinuation c = true)
    (allows : (if b == 0xE0 then decide (0xA0 ≤ c) else if b == 0xED then decide (c < 0xA0) else true)
      = true) : (x = 0 → 0x20 ≤ low c) ∧ (x = 13 → low c < 0x20) := by
  have value := (continuation_eq second).1
  constructor
  · rintro rfl
    have is : b = 0xE0 := UInt8.toNat_inj.mp lead
    have fits : 0xA0 ≤ c := by simpa [is] using allows
    have above : 0xA0 ≤ c.toNat := UInt8.le_iff_toNat_le.mp fits
    omega
  · rintro rfl
    have is : b = 0xED := UInt8.toNat_inj.mp lead
    have fits : c < 0xA0 := by simpa [is] using allows
    have below : c.toNat < 0xA0 := UInt8.lt_iff_toNat_lt.mp fits
    omega

/-- The first continuation byte rules out overlong forms and values past the last code point. -/
theorem four_allowed {b c : UInt8} {x : Nat} (lead : b.toNat = 0xF0 + x)
    (second : isContinuation c = true)
    (allows : (if b == 0xF0 then decide (0x90 ≤ c) else if b == 0xF4 then decide (c < 0x90) else true)
      = true) : (x = 0 → 0x10 ≤ low c) ∧ (x = 4 → low c < 0x10) := by
  have value := (continuation_eq second).1
  constructor
  · rintro rfl
    have is : b = 0xF0 := UInt8.toNat_inj.mp lead
    have fits : 0x90 ≤ c := by simpa [is] using allows
    have above : 0x90 ≤ c.toNat := UInt8.le_iff_toNat_le.mp fits
    omega
  · rintro rfl
    have is : b = 0xF4 := UInt8.toNat_inj.mp lead
    have fits : c < 0x90 := by simpa [is] using allows
    have below : c.toNat < 0x90 := UInt8.lt_iff_toNat_lt.mp fits
    omega

/-- What a lead byte and its continuation bytes are read as is written back as these bytes, when the
code point of a full run is. -/
theorem spells_continued {b : UInt8} {allowed : UInt8 → Bool} {value needed : Nat} (rest : Bytes)
    (high : 0x80 ≤ b)
    (full : ∀ run : Bytes, run.length = needed → (∀ c ∈ run, isContinuation c = true) →
      (∀ c ∈ run.head?, allowed c = true) → ∃ point < 0x110000,
        run.foldl (fun v c => v * 64 + low c) value = point ∧ (point < 0xD800 ∨ 0xE000 ≤ point) ∧
          encodePoint (CodePoint.ofNat point) = b :: run) :
    Spells (escaped (continued allowed value needed 0 rest,
        (b :: rest).take (continued allowed value needed 0 rest).width))
      ((b :: rest).take (continued allowed value needed 0 rest).width) := by
  rcases continued_cases allowed value needed 0 rest with
    ⟨run, size, front, continues, first, same⟩ | ⟨reason, n, same, continues⟩
  · obtain ⟨behind, rfl⟩ := front
    obtain ⟨point, fits, read, plain, written⟩ := full run size continues first
    rw [same, read]
    refine spells_value fits plain ?_
    rw [written, ← size, Piece.width, Nat.zero_add, List.take_succ_cons, List.take_left]
  · rw [same, Nat.zero_add]
    exact spells_bad reason high continues

/-! What begins with a lead byte is written back, however many bytes the lead byte asks for. -/

section

variable {b : UInt8} (rest : Bytes)

theorem spells_two (atLeast : 0xC2 ≤ b) (below : b < 0xE0) :
    let read := continued (fun _ => true) (b &&& 0x1F).toNat 1 0 rest
    Spells (escaped (read, (b :: rest).take read.width)) ((b :: rest).take read.width) := by
  obtain ⟨lead, least, most⟩ := (lead_eq b).1 atLeast below
  refine spells_continued rest (UInt8.le_trans (by decide) atLeast) ?_
  intro run size continues _
  match run, size with
  | [c], _ =>
      have second := continues c (by simp)
      have bound := continuation_eq second
      exact ⟨(b &&& 0x1F).toNat * 64 + low c, by omega, rfl, by omega, encodePoint_two lead least most second⟩

theorem spells_three (atLeast : 0xE0 ≤ b) (below : b < 0xF0) :
    let read := continued (fun c => if b == 0xE0 then 0xA0 ≤ c else if b == 0xED then c < 0xA0 else true)
      (b &&& 0x0F).toNat 2 0 rest
    Spells (escaped (read, (b :: rest).take read.width)) ((b :: rest).take read.width) := by
  obtain ⟨lead, most⟩ := (lead_eq b).2.1 atLeast below
  refine spells_continued rest (UInt8.le_trans (by decide) atLeast) ?_
  intro run size continues first
  match run, size with
  | [c, d], _ =>
      have second := continues c (by simp)
      have third := continues d (by simp)
      have bound := (continuation_eq second).2
      have bound' := (continuation_eq third).2
      obtain ⟨least, noSurrogate⟩ := three_allowed lead second (first c rfl)
      exact ⟨((b &&& 0x0F).toNat * 64 + low c) * 64 + low d, by omega, rfl, by omega,
        encodePoint_three lead most least second third⟩

theorem spells_four (atLeast : 0xF0 ≤ b) (below : b < 0xF5) :
    let read := continued (fun c => if b == 0xF0 then 0x90 ≤ c else if b == 0xF4 then c < 0x90 else true)
      (b &&& 0x07).toNat 3 0 rest
    Spells (escaped (read, (b :: rest).take read.width)) ((b :: rest).take read.width) := by
  obtain ⟨lead, most⟩ := (lead_eq b).2.2 atLeast below
  refine spells_continued rest (UInt8.le_trans (by decide) atLeast) ?_
  intro run size continues first
  match run, size with
  | [c, d, e], _ =>
      have second := continues c (by simp)
      have third := continues d (by simp)
      have fourth := continues e (by simp)
      have bound := (continuation_eq second).2
      have bound' := (continuation_eq third).2
      have bound'' := (continuation_eq fourth).2
      obtain ⟨least, last⟩ := four_allowed lead second (first c rfl)
      exact ⟨(((b &&& 0x07).toNat * 64 + low c) * 64 + low d) * 64 + low e, by omega, rfl, by omega,
        encodePoint_four lead most least last second third fourth⟩

end

/-- A piece is written back as its bytes. -/
theorem spells_piece (b : UInt8) (rest : Bytes) :
    Spells (escaped (piece b rest, (b :: rest).take (piece b rest).width))
      ((b :: rest).take (piece b rest).width) := by
  unfold piece
  split
  · rename_i ascii
    have small : b.toNat < 0x80 := UInt8.lt_iff_toNat_lt.mp ascii
    refine spells_value (by omega) (by omega) ?_
    rw [encodePoint, CodePoint.val_ofNat (by omega), if_pos (by omega),
      toUInt8_of_toNat (b := b) rfl]
    rfl
  · rename_i noAscii
    have high : 0x80 ≤ b := UInt8.not_lt.mp noAscii
    split
    · exact spells_bad _ high (n := 0) (by simp)
    · rename_i two
      split
      · rename_i belowThree
        exact spells_two rest (UInt8.not_lt.mp two) belowThree
      · rename_i three
        split
        · rename_i belowFour
          exact spells_three rest (UInt8.not_lt.mp three) belowFour
        · rename_i four
          split
          · rename_i belowFive
            exact spells_four rest (UInt8.not_lt.mp four) belowFive
          · exact spells_bad _ high (n := 0) (by simp)

theorem width_continued_pos (allowed : UInt8 → Bool) (value needed seen : Nat) (rest : Bytes) :
    0 < (continued allowed value needed seen rest).width := by
  rcases continued_cases allowed value needed seen rest with
    ⟨_, _, _, _, _, same⟩ | ⟨_, _, same, _⟩
  · simp [same, Piece.width]
  · simp [same, Piece.width]

theorem width_piece_pos (b : UInt8) (rest : Bytes) : 0 < (piece b rest).width := by
  unfold piece
  repeat' split
  all_goals first | exact width_continued_pos _ _ _ _ _ | simp [Piece.width]

theorem spells_piecesFrom (bytes : Bytes) (owned : Nat) :
    Spells ((piecesFrom owned bytes).flatMap escaped) (bytes.drop owned) := by
  induction bytes generalizing owned with
  | nil => simpa [piecesFrom] using Spells.nil
  | cons b rest ih =>
      cases owned with
      | succ owned => exact ih owned
      | zero =>
          have positive := width_piece_pos b rest
          have one := (spells_piece b rest).append (ih ((piece b rest).width - 1))
          rw [piecesFrom, List.flatMap_cons]
          obtain ⟨n, width⟩ := Nat.exists_eq_succ_of_ne_zero (Nat.ne_of_gt positive)
          rw [width, Nat.succ_sub_one] at one ⊢
          rw [List.take_succ_cons] at one ⊢
          simpa [List.take_append_drop] using one

/-- Every byte sequence is written back as it was read. -/
theorem encodeEscaped_decodeEscaped (bytes : Bytes) :
    encodeEscaped (decodeEscaped bytes) = .ok bytes :=
  (spells_piecesFrom bytes 0).encode

theorem decodeEscaped_injective {a b : Bytes} (same : decodeEscaped a = decodeEscaped b) : a = b := by
  have written := congrArg encodeEscaped same
  rw [encodeEscaped_decodeEscaped, encodeEscaped_decodeEscaped] at written
  exact Except.ok.inj written

/-- Whether every code point of a text is ASCII. -/
def Ascii (t : Text) : Prop := ∀ c ∈ t, c.val < 0x80

instance (t : Text) : Decidable (Ascii t) := inferInstanceAs (Decidable (∀ c ∈ t, c.val < 0x80))

/-- The bytes of an ASCII text. -/
def asciiBytes (t : Text) : Bytes := t.map fun c => c.val.toUInt8

theorem encodeEscaped_ascii {t : Text} (ascii : Ascii t) : encodeEscaped t = .ok (asciiBytes t) := by
  apply Spells.encode
  induction t with
  | nil => exact Spells.nil
  | cons c rest ih =>
      have small : c.val < 0x80 := ascii c List.mem_cons_self
      have plain : c.isSurrogate = false := by
        simp only [CodePoint.isSurrogate, Bool.and_eq_false_iff, decide_eq_false_iff_not]
        omega
      have point := spells_point plain
      rw [encodePoint, if_pos small] at point
      exact point.append (ih fun d mem => ascii d (List.mem_cons_of_mem _ mem))

theorem decodeEscaped_ascii_append {t : Text} (ascii : Ascii t) (back : Bytes) :
    decodeEscaped (asciiBytes t ++ back) = t ++ decodeEscaped back := by
  induction t with
  | nil => rfl
  | cons c rest ih =>
      have small : c.val < 0x80 := ascii c List.mem_cons_self
      have value : c.val.toUInt8.toNat = c.val := by simp; omega
      have low : c.val.toUInt8 < 0x80 := by
        rw [UInt8.lt_iff_toNat_lt, value]
        exact small
      have same : CodePoint.ofNat c.val = c := by simp [CodePoint.ofNat, c.val_lt]
      have ih := ih fun d mem => ascii d (List.mem_cons_of_mem _ mem)
      rw [decodeEscaped_eq] at ih ⊢
      simp only [asciiBytes, List.map_cons, List.cons_append, piecesFrom, piece, low, if_true,
        List.flatMap_cons, escaped, value, same, Piece.width, Nat.sub_self]
      simp only [asciiBytes] at ih
      rw [ih]
      rfl

theorem startsAscii_append {t : Text} (ascii : Ascii t) (some : t ≠ []) (back : Bytes) :
    StartsAscii (asciiBytes t ++ back) := by
  cases t with
  | nil => exact absurd rfl some
  | cons c rest =>
      have small : c.val < 0x80 := ascii c List.mem_cons_self
      intro b head
      cases head
      rw [UInt8.lt_iff_toNat_lt]
      change c.val.toUInt8.toNat < 0x80
      simp
      omega

end Rebundle.Utf8
