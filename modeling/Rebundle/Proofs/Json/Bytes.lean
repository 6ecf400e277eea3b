import Rebundle.Proofs.Json.Literal
import Rebundle.Proofs.Text.Encoding

/-!
# Literals in bytes

Only ASCII characters are escaped in a literal, so escaping can be done byte by byte. The bytes that are
no ASCII stay where they are and are read as before: a literal that was written with undecodable bytes in
it is read as the literal of what these bytes are read as alone.
-/

namespace Rebundle

namespace Json

open Utf8

/-- What stands in a literal for one byte. -/
def escapedByte (b : UInt8) : Bytes :=
  if b < 0x80 then asciiBytes (escapedPoint (CodePoint.ofNat b.toNat)) else [b]

theorem escapedByte_high {b : UInt8} (high : 0x80 ≤ b) : escapedByte b = [b] :=
  if_neg (UInt8.not_lt.mpr high)

theorem flatMap_escapedByte {bytes : Bytes} (high : ∀ b ∈ bytes, 0x80 ≤ b) :
    bytes.flatMap escapedByte = bytes := by
  induction bytes with
  | nil => rfl
  | cons b rest ih =>
      rw [List.flatMap_cons, escapedByte_high (high b List.mem_cons_self),
        ih fun c mem => high c (List.mem_cons_of_mem _ mem)]
      rfl

theorem escapedPoint_ascii : ∀ n < 0x80, Ascii (escapedPoint (CodePoint.ofNat n)) ∧
    escapedPoint (CodePoint.ofNat n) ≠ [] := by
  decide +kernel

/-- An ASCII byte is escaped by ASCII bytes. -/
theorem escapedByte_low {b : UInt8} (small : b < 0x80) : ∃ c tail, escapedByte b = c :: tail ∧ c < 0x80 := by
  obtain ⟨ascii, full⟩ := escapedPoint_ascii b.toNat (UInt8.lt_iff_toNat_lt.mp small)
  have starts := startsAscii_append ascii full []
  rw [List.append_nil] at starts
  rw [escapedByte, if_pos small]
  cases written : asciiBytes (escapedPoint (CodePoint.ofNat b.toNat)) with
  | nil => exact absurd (List.map_eq_nil_iff.mp written) full
  | cons c tail => exact ⟨c, tail, rfl, starts c (by rw [written]; rfl)⟩

theorem letterEscaped?_high {c : CodePoint} (high : 0x80 ≤ c.val) : letterEscaped? c = none := by
  have differ {d : CodePoint} (small : d.val < 0x80) : c ≠ d := by
    rintro rfl
    omega
  rw [letterEscaped?, if_neg (differ (by decide)), if_neg (differ (by decide)), if_neg (differ (by decide)),
    if_neg (differ (by decide)), if_neg (differ (by decide)), if_neg (by omega), if_neg (by omega)]

theorem escapedPoint_high {c : CodePoint} (high : 0x80 ≤ c.val) : escapedPoint c = [c] := by
  rw [escapedPoint, letterEscaped?_high high]
  exact if_neg (by omega)

theorem flatMap_escapedPoint {t : Text} (high : ∀ c ∈ t, 0x80 ≤ c.val) : t.flatMap escapedPoint = t := by
  induction t with
  | nil => rfl
  | cons c rest ih =>
      rw [List.flatMap_cons, escapedPoint_high (high c List.mem_cons_self),
        ih fun d mem => high d (List.mem_cons_of_mem _ mem)]
      rfl

/-- Escaping a text escapes its bytes. -/
theorem encodeEscaped_flatMap {t : Text} {bytes : Bytes} (made : encodeEscaped t = .ok bytes) :
    encodeEscaped (t.flatMap escapedPoint) = .ok (bytes.flatMap escapedByte) := by
  suffices spelt : Spells (t.flatMap escapedPoint) (bytes.flatMap escapedByte) from spelt.encode
  induction t generalizing bytes with
  | nil =>
      cases made
      exact Spells.nil
  | cons c rest ih =>
      obtain ⟨front, back, first, second, rfl⟩ := encodeEscaped_append (s := [c]) made
      rw [List.flatMap_cons, List.flatMap_append]
      refine Spells.append ?_ (ih second)
      rcases Nat.lt_or_ge c.val 0x80 with small | high
      · have low : Ascii [c] := fun d mem => List.mem_singleton.mp mem ▸ small
        have self : CodePoint.ofNat c.val = c := by simp [CodePoint.ofNat, c.val_lt]
        have ascii := (escapedPoint_ascii c.val small).1
        rw [self] at ascii
        have size : c.val.toUInt8.toNat = c.val := by simp; omega
        have byte : escapedByte c.val.toUInt8 = asciiBytes (escapedPoint c) := by
          rw [escapedByte, size, self, if_pos (by rw [UInt8.lt_iff_toNat_lt, size]; exact small)]
        rw [encodeEscaped_ascii low] at first
        cases first
        rw [asciiBytes, List.map_cons, List.map_nil, List.flatMap_singleton, byte]
        exact spells_of_encodeEscapedFrom (encodeEscaped_ascii ascii)
      · rw [escapedPoint_high high, flatMap_escapedByte (high_of_encodeEscaped high first)]
        exact spells_of_encodeEscapedFrom first

/-- A text can be written when it can be written with escapes. -/
theorem encodes_of_flatMap {t : Text} {bytes : Bytes} (made : encodeEscaped (t.flatMap escapedPoint) = .ok bytes) :
    ∃ own, encodeEscaped t = .ok own := by
  induction t generalizing bytes with
  | nil => exact ⟨[], rfl⟩
  | cons c rest ih =>
      rw [List.flatMap_cons] at made
      obtain ⟨front, back, first, second, rfl⟩ := encodeEscaped_append made
      obtain ⟨behind, later⟩ := ih second
      obtain ⟨own, here⟩ : ∃ own, encodeEscaped [c] = .ok own := by
        rcases Nat.lt_or_ge c.val 0x80 with small | high
        · exact ⟨_, encodeEscaped_ascii fun d mem => List.mem_singleton.mp mem ▸ small⟩
        · rw [escapedPoint_high high] at first
          exact ⟨front, first⟩
      exact ⟨own ++ behind, ((spells_of_encodeEscapedFrom here).append (spells_of_encodeEscapedFrom later)).encode⟩

/-- Behind a lead byte that is no ASCII the same piece is found when the bytes are escaped. -/
theorem piece_flatMap {b : UInt8} (high : 0x80 ≤ b) (rest : Bytes) :
    piece b (rest.flatMap escapedByte) = piece b rest := by
  have behind (allowed : UInt8 → Bool) (value needed seen : Nat) (rest : Bytes) :
      continued allowed value needed seen (rest.flatMap escapedByte) = continued allowed value needed seen rest := by
    induction needed generalizing allowed value seen rest with
    | zero => rfl
    | succ needed ih =>
        cases rest with
        | nil => rfl
        | cons c rest =>
            rcases UInt8.lt_or_le c 0x80 with small | high
            · obtain ⟨d, tail, same, small'⟩ := escapedByte_low small
              rw [List.flatMap_cons, same, List.cons_append, continued, continued,
                isContinuation_of_ascii small, isContinuation_of_ascii small']
              rfl
            · rw [List.flatMap_cons, escapedByte_high high, List.singleton_append, continued, continued, ih]
  have noAscii : ¬ b < 0x80 := UInt8.not_lt.mpr high
  rw [piece, piece, if_neg noAscii, if_neg noAscii]
  simp only [behind]

/-- Escaped bytes are read as the escaped text. -/
theorem decodeEscaped_flatMap (bytes : Bytes) :
    decodeEscaped (bytes.flatMap escapedByte) = (decodeEscaped bytes).flatMap escapedPoint := by
  have all : ∀ {bytes : Bytes} {owned : Nat}, (∀ b ∈ bytes.take owned, 0x80 ≤ b) →
      (piecesFrom owned (bytes.flatMap escapedByte)).flatMap escaped =
        ((piecesFrom owned bytes).flatMap escaped).flatMap escapedPoint := by
    intro bytes
    induction bytes with
    | nil =>
        intro owned _
        cases owned <;> rfl
    | cons b rest ih =>
        intro owned highs
        cases owned with
        | succ owned =>
            rw [List.take_succ_cons, List.forall_mem_cons] at highs
            rw [List.flatMap_cons, escapedByte_high highs.1]
            exact ih highs.2
        | zero =>
            rcases UInt8.lt_or_le b 0x80 with small | high
            · have ascii := (escapedPoint_ascii b.toNat (UInt8.lt_iff_toNat_lt.mp small)).1
              have front := decodeEscaped_ascii_append ascii (rest.flatMap escapedByte)
              rw [decodeEscaped_eq, decodeEscaped_eq, ih (by simp)] at front
              rw [List.flatMap_cons, escapedByte, if_pos small, front, piecesFrom, piece, if_pos small,
                List.flatMap_cons, List.flatMap_append]
              exact congrArg (· ++ _) (List.flatMap_singleton _ _).symm
            · have room := width_piece_le b rest
              obtain ⟨n, width⟩ := Nat.exists_eq_succ_of_ne_zero (Nat.ne_of_gt (width_piece_pos b rest))
              have highs : ∀ c ∈ rest.take n, 0x80 ≤ c := fun c mem =>
                high_of_continuation (continues_piece b rest c (by rwa [width]))
              have own : (rest.flatMap escapedByte).take n = rest.take n := by
                rw [← List.take_append_drop n rest, List.flatMap_append, List.take_append_drop,
                  flatMap_escapedByte highs, List.take_left' (by simp; omega)]
              have same := flatMap_escapedPoint (high_escaped_piece high rest)
              rw [width, List.take_succ_cons] at same
              rw [List.flatMap_cons, escapedByte_high high, List.singleton_append, piecesFrom, piecesFrom,
                piece_flatMap high, width, List.flatMap_cons, List.flatMap_cons, List.flatMap_append,
                List.take_succ_cons, List.take_succ_cons, own, same, Nat.succ_sub_one, ih highs]
  exact all (by simp)

/-- A literal in front of more is read as the literal of the text that is read from its bytes. -/
theorem decodeEscaped_literal {t : Text} {bytes : Bytes} (made : encodeEscaped (literal t) = .ok bytes)
    (back : Bytes) : decodeEscaped (bytes ++ back) = literal (reread t) ++ decodeEscaped back := by
  have quote : Ascii (Text.ofString "\"") := by decide
  rw [literal] at made
  obtain ⟨front, closing, opened, last, rfl⟩ := encodeEscaped_append made
  obtain ⟨opening, escapes, first, inner, rfl⟩ := encodeEscaped_append opened
  rw [encodeEscaped_ascii quote] at first last
  cases first
  cases last
  obtain ⟨own, spelt⟩ := encodes_of_flatMap inner
  rw [encodeEscaped_flatMap spelt] at inner
  cases inner
  rw [List.append_assoc, List.append_assoc, decodeEscaped_ascii_append quote,
    decodeEscaped_append _ (startsAscii_append quote (by decide) back), decodeEscaped_flatMap,
    decodeEscaped_ascii_append quote, reread, spelt, literal]
  simp only [List.append_assoc]

end Json

end Rebundle
