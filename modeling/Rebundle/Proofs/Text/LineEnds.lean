import Rebundle.Proofs.Text.Encoding

/-!
# Unified line ends

A text with unified line ends has no carriage return. Reading keeps such a text as it is, and writing it
gives bytes without a carriage return: of all code points only this one is written with its byte.
-/

namespace Rebundle

namespace Text

/-- Whether a text has no carriage return. -/
def Unified (t : Text) : Prop := ∀ c ∈ t, c ≠ '\r'

instance (t : Text) : Decidable t.Unified := inferInstanceAs (Decidable (∀ c ∈ t, c ≠ '\r'))

/-- Reading leaves a text alone whose line ends are unified. -/
theorem unifyLineEnds_eq {t : Text} (unified : t.Unified) : unifyLineEnds t = t := by
  rw [unifyLineEnds]
  induction t with
  | nil => rfl
  | cons c t ih =>
      rw [unifyLineEndsFrom, if_neg (unified c List.mem_cons_self),
        ih fun d mem => unified d (List.mem_cons_of_mem _ mem)]
      simp

theorem unified_unifyLineEnds (t : Text) : (unifyLineEnds t).Unified := by
  have all (returned : Bool) : (unifyLineEndsFrom returned t).Unified := by
    induction t generalizing returned with
    | nil => exact fun _ mem => nomatch mem
    | cons c t ih =>
        intro d mem
        rw [unifyLineEndsFrom] at mem
        split at mem
        · rcases List.mem_cons.mp mem with rfl | mem
          · decide
          · exact ih true d mem
        · rename_i other
          split at mem
          · exact ih false d mem
          · rcases List.mem_cons.mp mem with rfl | mem
            · exact other
            · exact ih false d mem
  exact all false

end Text

namespace Utf8

/-- Whether bytes have no carriage return. -/
def Unified (bytes : Bytes) : Prop := 0x0D ∉ bytes

instance (bytes : Bytes) : Decidable (Unified bytes) := inferInstanceAs (Decidable (_ ∉ _))

/-- ASCII code points are told apart by their bytes. -/
theorem byte_eq_iff {c d : CodePoint} (first : c.val < 0x80) (second : d.val < 0x80) :
    c.val.toUInt8 = d.val.toUInt8 ↔ c = d := by
  refine ⟨fun same => ?_, fun same => same ▸ rfl⟩
  have value := congrArg UInt8.toNat same
  simp only [Nat.toUInt8_eq, UInt8.toNat_ofNat'] at value
  rw [Nat.mod_eq_of_lt (by omega), Nat.mod_eq_of_lt (by omega)] at value
  obtain ⟨n, _⟩ := c
  obtain ⟨m, _⟩ := d
  cases value
  rfl

/-- Bytes are unified just when the text that they are written from is. -/
theorem unified_encodeEscaped {t : Text} {bytes : Bytes} (made : encodeEscaped t = .ok bytes) :
    Unified bytes ↔ t.Unified := by
  induction t generalizing bytes with
  | nil =>
      cases made
      exact iff_of_true (fun mem => nomatch mem) fun _ mem => nomatch mem
  | cons c rest ih =>
      obtain ⟨front, back, first, second, rfl⟩ := encodeEscaped_append (s := [c]) made
      have here : Unified front ↔ c ≠ '\r' := by
        rcases encodeEscaped_single first with ⟨small, rfl⟩ | ⟨high, _, highs⟩
        · rw [Unified, List.mem_singleton, eq_comm]
          exact not_congr (byte_eq_iff (d := '\r') small (by decide))
        · refine iff_of_true (fun mem => absurd (highs _ mem) (by decide)) ?_
          rintro rfl
          exact absurd high (by decide)
      have later := ih second
      simp only [Unified, Text.Unified, List.mem_append, not_or, List.forall_mem_cons] at here later ⊢
      exact and_congr here later

theorem unified_decodeEscaped {bytes : Bytes} : (decodeEscaped bytes).Unified ↔ Unified bytes :=
  (unified_encodeEscaped (encodeEscaped_decodeEscaped bytes)).symm

/-! Line ends can be unified in the bytes of a text. -/

def unifyLineEndsFrom : Bool → Bytes → Bytes
  | _, [] => []
  | returned, b :: rest =>
      if b = 0x0D then 0x0A :: unifyLineEndsFrom true rest
      else if b = 0x0A && returned then unifyLineEndsFrom false rest
      else b :: unifyLineEndsFrom false rest

/-- Line ends written as carriage return, alone or before a line feed, become line feeds. -/
def unifyLineEnds (bytes : Bytes) : Bytes := unifyLineEndsFrom false bytes

theorem unifyLineEndsFrom_high {front : Bytes} (full : front ≠ []) (high : ∀ b ∈ front, 0x80 ≤ b)
    (returned : Bool) (back : Bytes) :
    unifyLineEndsFrom returned (front ++ back) = front ++ unifyLineEndsFrom false back := by
  have single {b : UInt8} (high : 0x80 ≤ b) (returned : Bool) (rest : Bytes) :
      unifyLineEndsFrom returned (b :: rest) = b :: unifyLineEndsFrom false rest := by
    have other {d : UInt8} (low : d < 0x80) : b ≠ d := by
      rintro rfl
      exact absurd high (UInt8.not_le.mpr low)
    have feed : b ≠ 0x0A := other (by decide)
    have carriage : b ≠ 0x0D := other (by decide)
    rw [unifyLineEndsFrom, if_neg carriage, decide_eq_false feed]
    rfl
  induction front generalizing returned with
  | nil => exact absurd rfl full
  | cons b rest ih =>
      rw [List.cons_append, single (high b List.mem_cons_self)]
      cases rest with
      | nil => rfl
      | cons d rest =>
          rw [ih (List.cons_ne_nil d rest) (fun e mem => high e (List.mem_cons_of_mem _ mem)) false]
          rfl

/-- Writing a text with unified line ends is unifying the line ends of its bytes. -/
theorem encodeEscaped_unifyLineEnds {t : Text} {bytes : Bytes} (made : encodeEscaped t = .ok bytes) :
    encodeEscaped (Text.unifyLineEnds t) = .ok (unifyLineEnds bytes) := by
  have all (returned : Bool) : Spells (Text.unifyLineEndsFrom returned t) (unifyLineEndsFrom returned bytes) := by
    induction t generalizing bytes returned with
    | nil =>
        cases made
        exact Spells.nil
    | cons c rest ih =>
        obtain ⟨front, back, first, second, rfl⟩ := encodeEscaped_append (s := [c]) made
        have point := spells_of_encodeEscapedFrom first
        rcases encodeEscaped_single first with ⟨small, rfl⟩ | ⟨high, full, highs⟩
        · have feed : c.val.toUInt8 = 0x0A ↔ c = '\n' := byte_eq_iff (d := '\n') small (by decide)
          have carriage : c.val.toUInt8 = 0x0D ↔ c = '\r' := byte_eq_iff (d := '\r') small (by decide)
          rw [Text.unifyLineEndsFrom, List.singleton_append, unifyLineEndsFrom]
          simp only [feed, carriage]
          split
          · exact (show Spells [('\n' : CodePoint)] [0x0A] from spells_point rfl).append (ih second true)
          · split
            · exact ih second false
            · exact point.append (ih second false)
        · have other {d : CodePoint} (low : d.val < 0x80) : c ≠ d := by
            rintro rfl
            omega
          have feed : c ≠ '\n' := other (by decide)
          have carriage : c ≠ '\r' := other (by decide)
          rw [Text.unifyLineEndsFrom, if_neg carriage, decide_eq_false feed,
            unifyLineEndsFrom_high full highs]
          exact point.append (ih second false)
  exact (all false).encode

end Utf8

end Rebundle
