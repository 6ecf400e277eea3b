import Mathlib.Data.Nat.Log
import Rebundle.Number.Binary64

/-!
# Rounded shares

A part of a whole, rounded to a binary64 number, is at most one, and a share of nothing is zero. So a threshold
that is not below one is below no share, and a threshold that is not negative is not below the share of nothing.
-/

namespace Rebundle

/-- Rounding does not pass a whole number. -/
theorem roundQuotient_le {num den bound : Nat} (some : 0 < den) (small : num ≤ bound * den) :
    roundQuotient num den ≤ bound := by
  have whole : num / den ≤ bound := Nat.div_le_of_le_mul (Nat.mul_comm bound den ▸ small)
  rcases Nat.lt_or_eq_of_le whole with less | same
  · have parity := Nat.mod_lt (num / den) (show 0 < 2 by decide)
    simp only [roundQuotient]
    split
    · exact whole
    · split
      · exact less
      · omega
  · -- nothing is left to be rounded up
    have parts := Nat.div_add_mod num den
    rw [same, Nat.mul_comm den bound] at parts
    have exact : num % den = 0 := by omega
    rw [roundQuotient, exact, if_pos (by omega)]
    exact whole

namespace Binary64

/-- A part of a whole needs a negative exponent. -/
theorem exponentOf_lt {num den : Nat} (part : num ≤ den) : exponentOf num den ≤ -52 := by
  have logs : num.log2 ≤ den.log2 := by
    rw [Nat.log2_eq_log_two, Nat.log2_eq_log_two]
    exact Nat.log_mono_right part
  simp only [exponentOf, leastExponent]
  split <;> omega

/-- A finite number that is not negative and has a negative exponent. -/
theorem place?_finite {mantissa : Nat} {exponent : Int} (negative : exponent < 0) :
    (Number.real (.finite false mantissa exponent)).place? =
      some (.quotient mantissa (Nat.pow 2 (-exponent).toNat)) := by
  simp only [Number.place?, magnitude, if_pos negative, Bool.false_eq_true, if_false]

/-- A share is a quotient of at most one. -/
theorem exists_place?_ofRatio {num den : Nat} (part : num ≤ den) : ∃ a b : Nat,
    (Number.real (ofRatio false num den)).place? = some (.quotient a b) ∧ a ≤ b := by
  rw [ofRatio]
  split
  · exact ⟨0, _, place?_finite (by decide), Nat.zero_le _⟩
  · rename_i filled
    have exponent := exponentOf_lt part
    generalize exponentOf num den = e at exponent
    obtain ⟨k, rfl⟩ : ∃ k : Nat, e = -(k : Int) := ⟨(-e).toNat, by omega⟩
    have bound : roundQuotient (num * Nat.pow 2 k) den ≤ Nat.pow 2 k :=
      roundQuotient_le (by omega) (by
        rw [Nat.mul_comm (Nat.pow 2 k)]
        exact Nat.mul_le_mul_right _ part)
    simp only [scaled, if_pos (show -(k : Int) < 0 by omega), Int.neg_neg, Int.toNat_natCast]
    generalize roundQuotient (num * Nat.pow 2 k) den = mantissa at bound
    split
    · -- the carry: half of the mantissa at the next exponent
      rename_i full
      rw [if_neg (by unfold greatestExponent; omega)]
      refine ⟨_, _, place?_finite (by omega), ?_⟩
      rw [full] at bound
      have late : 53 ≤ k := (Nat.pow_le_pow_iff_right (by decide)).mp bound
      exact Nat.pow_le_pow_right (by decide) (by omega)
    · rw [if_neg (by unfold greatestExponent; omega)]
      refine ⟨_, _, place?_finite (by omega), ?_⟩
      rwa [Int.neg_neg, Int.toNat_natCast]

end Binary64

namespace Number

open Binary64

/-- Whether a number is not below another is decided by their places. -/
theorem below_quotient {a b : Number} {num : Int} {den : Nat} (place : b.place? = some (.quotient num den)) :
    a.below b = match a.place? with
      | some p => p.below (.quotient num den)
      | none => false := by
  rw [below, place]
  cases a.place? <;> rfl

/-- A threshold that is not below a whole number is not below what that number bounds. -/
theorem not_below_of_le {threshold share : Number} {bound num : Int} {den : Nat}
    (place : share.place? = some (.quotient num den)) (atMost : num ≤ bound * den)
    (reached : threshold.below (.whole bound) = false) : threshold.below share = false := by
  have whole : (Number.whole bound).place? = some (.quotient bound 1) := rfl
  rw [below_quotient whole] at reached
  rw [below_quotient place]
  split at reached
  · rename_i p _
    cases p with
    | least => cases reached
    | greatest => rfl
    | quotient c d =>
        simp only [Extended.below, decide_eq_false_iff_not, Int.not_lt] at reached ⊢
        rw [Int.natCast_one, Int.mul_one] at reached
        calc
          num * d ≤ bound * den * d := Int.mul_le_mul_of_nonneg_right atMost (Int.natCast_nonneg d)
          _ = bound * d * den := Int.mul_right_comm _ _ _
          _ ≤ c * den := Int.mul_le_mul_of_nonneg_right reached (Int.natCast_nonneg den)
  · rfl

/-- A threshold that is not below one is below no share. -/
theorem not_below_share {threshold : Number} {num den : Nat} (one : threshold.below (.whole 1) = false)
    (part : num ≤ den) : threshold.below (.real (ofRatio false num den)) = false := by
  obtain ⟨a, b, place, atMost⟩ := exists_place?_ofRatio part
  exact not_below_of_le place (by omega) one

/-- A threshold that is not negative is not below the share of nothing. -/
theorem not_below_none {threshold : Number} (den : Nat) (positive : threshold.below (.whole 0) = false) :
    threshold.below (.real (ofRatio false 0 den)) = false := by
  have least : leastExponent < 0 := by decide
  have place : (Number.real (ofRatio false 0 den)).place? = some (.quotient (0 : Nat) _) := place?_finite least
  refine not_below_of_le place ?_ positive
  rw [Int.zero_mul]
  exact Int.le_refl _

end Number

end Rebundle
