import Mathlib.Data.List.Nodup
import Mathlib.Data.List.Perm.Subperm
import Mathlib.Data.Nat.Count
import Rebundle.Rewrite.Context

/-!
# Fresh names

The candidates for a fresh name are different from each other, and there is one more of them than names in use. So
the one that is taken is not in use. Fresh names taken one after the other are the first candidates that are not in
use at the beginning.
-/

namespace Rebundle

theorem CodePoint.ofChar_injective : Function.Injective CodePoint.ofChar := by
  intro a b same
  exact Char.ext (UInt32.toNat_inj.mp (congrArg CodePoint.val same))

theorem Text.ofNat_injective : Function.Injective Text.ofNat := by
  intro m n same
  have digits : Nat.toDigits 10 m = Nat.toDigits 10 n := CodePoint.ofChar_injective.list_map same
  have read := congrArg (fun digits => Nat.ofDigitChars 10 digits 0) digits
  simpa using read

namespace Names

theorem candidate_injective (base : Text) : Function.Injective (candidate base) := by
  have longer (n : Nat) : base ++ Text.ofNat (n + 1) ≠ base := by
    intro same
    have none : Text.ofNat (n + 1) = [] := List.append_right_eq_self.mp same
    exact Nat.toDigits_ne_nil (List.map_eq_nil_iff.mp none)
  intro i j same
  simp only [candidate] at same
  split at same <;> split at same
  · omega
  · exact absurd same.symm (longer j)
  · exact absurd same (longer i)
  · exact Nat.succ.inj (Text.ofNat_injective (List.append_cancel_left same))

/-- Of more names than are in use, each different from the others, one is not in use. -/
theorem exists_not_mem {names used : List Text} (distinct : names.Nodup) (more : used.length < names.length) :
    ∃ name ∈ names, name ∉ used := by
  by_contra all
  have among : names ⊆ used := fun name mem => by
    by_contra absent
    exact all ⟨name, mem, absent⟩
  exact absurd (List.subperm_of_subset distinct among).length_le (Nat.not_le.mpr more)

/-- The first candidate for a fresh name. -/
def base (hint : Text) : Text := "_" ++ hint.dropWhile (· == ('_' : CodePoint))

/-- A fresh name is the first candidate that is not in use. -/
theorem exists_fresh (hint : Text) (used : List Text) : ∃ i, fresh hint used = candidate (base hint) i ∧
    candidate (base hint) i ∉ used ∧ ∀ j < i, candidate (base hint) j ∈ used := by
  have distinct : ((List.range (used.length + 1)).map (candidate (base hint))).Nodup :=
    List.Nodup.map (candidate_injective (base hint)) List.nodup_range
  have more : used.length < ((List.range (used.length + 1)).map (candidate (base hint))).length := by simp
  have taken : fresh hint used = (((List.range (used.length + 1)).find?
      fun i => !used.contains (candidate (base hint) i)).map (candidate (base hint))).getD (base hint) :=
    congrArg (·.getD (base hint)) List.find?_map
  cases found : (List.range (used.length + 1)).find? fun i => !used.contains (candidate (base hint) i) with
  | none =>
      obtain ⟨name, mem, free⟩ := exists_not_mem distinct more
      obtain ⟨i, inside, rfl⟩ := List.mem_map.mp mem
      have used := List.find?_eq_none.mp found i inside
      simp [free] at used
  | some i =>
      obtain ⟨free, _, before⟩ := List.find?_range_eq_some.mp found
      rw [taken, found]
      exact ⟨i, rfl, by simpa using free, fun j lower => by simpa using before j lower⟩

theorem fresh_not_mem (hint : Text) (used : List Text) : fresh hint used ∉ used := by
  obtain ⟨i, same, free, _⟩ := exists_fresh hint used
  rw [same]
  exact free

/-- Fresh names that are taken one after the other. -/
def freshRow (hint : Text) : (used : List Text) → Nat → List Text
  | _, 0 => []
  | used, n + 1 => fresh hint used :: freshRow hint (fresh hint used :: used) n

theorem length_freshRow (hint : Text) (used : List Text) (n : Nat) : (freshRow hint used n).length = n := by
  induction n generalizing used with
  | zero => rfl
  | succ n ih => rw [freshRow, List.length_cons, ih]

/-- Of the candidates that are not in use, one less is free before a later one when the first is taken. -/
theorem count_free {base : Text} {used : List Text} {first : Nat} (free : candidate base first ∉ used) (i : Nat) :
    Nat.count (fun j => candidate base j ∉ used) i =
      Nat.count (fun j => candidate base j ∉ candidate base first :: used) i + if first < i then 1 else 0 := by
  induction i with
  | zero => rfl
  | succ i ih =>
      have left : candidate base i ∉ candidate base first :: used ↔ i ≠ first ∧ candidate base i ∉ used := by
        rw [List.mem_cons, not_or, (candidate_injective base).eq_iff]
      rw [Nat.count_succ, Nat.count_succ, ih]
      simp only [left]
      by_cases here : i = first
      · subst here
        simp [free]
      · have later : first < i + 1 ↔ first < i := by omega
        simp only [ne_eq, here, not_false_eq_true, true_and, later]
        omega

/-- Fresh names taken one after the other are the candidates not in use, as many as are taken. -/
theorem mem_freshRow_iff {hint : Text} {used : List Text} {n : Nat} {name : Text} :
    name ∈ freshRow hint used n ↔ ∃ i, name = candidate (base hint) i ∧ name ∉ used ∧
      Nat.count (fun j => candidate (base hint) j ∉ used) i < n := by
  induction n generalizing used with
  | zero => simp [freshRow]
  | succ n ih =>
      obtain ⟨first, head, free, before⟩ := exists_fresh hint used
      have start : Nat.count (fun j => candidate (base hint) j ∉ used) first = 0 :=
        Nat.count_iff_forall_not.mpr fun j lower absent => absent (before j lower)
      rw [freshRow, List.mem_cons, ih, head]
      constructor
      · rintro (rfl | ⟨i, rfl, absent, few⟩)
        · exact ⟨first, rfl, free, by omega⟩
        · refine ⟨i, rfl, fun mem => absent (List.mem_cons_of_mem _ mem), ?_⟩
          rw [count_free free]
          split <;> omega
      · rintro ⟨i, rfl, absent, few⟩
        by_cases here : i = first
        · exact .inl (here ▸ rfl)
        · have later : first < i := by
            refine Nat.lt_of_le_of_ne (Nat.not_lt.mp fun lower => absent (before i lower)) (Ne.symm here)
          refine .inr ⟨i, rfl, List.not_mem_cons_of_ne_of_not_mem ((candidate_injective _).ne here) absent, ?_⟩
          rw [count_free free, if_pos later] at few
          omega

end Names

end Rebundle
