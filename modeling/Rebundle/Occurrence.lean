import Rebundle.Text.Utf8

/-!
# Occurrences of a pattern

An occurrence cuts a row of bytes into what stands before it, the pattern, and what stands behind it.
An empty pattern occurs nowhere.
-/

namespace Rebundle

/-- What stands before and behind an occurrence of a pattern. -/
structure Occurrence where
  before : Bytes
  behind : Bytes
deriving DecidableEq

namespace Occurrence

/-- The occurrence one byte further on. -/
def shift (b : UInt8) (found : Occurrence) : Occurrence := { found with before := b :: found.before }

/-- The occurrence at the very front. -/
def atFront? (pattern bytes : Bytes) : Option Occurrence :=
  if !pattern.isEmpty && pattern.isPrefixOf bytes then some ⟨[], bytes.drop pattern.length⟩ else none

/-- The occurrence that begins first. -/
def first? (pattern : Bytes) : Bytes → Option Occurrence
  | [] => none
  | b :: rest =>
      match atFront? pattern (b :: rest) with
      | some found => some found
      | none => (first? pattern rest).map (shift b)

/-- The occurrence that begins last. -/
def last? (pattern : Bytes) : Bytes → Option Occurrence
  | [] => none
  | b :: rest =>
      match last? pattern rest with
      | some found => some (found.shift b)
      | none => atFront? pattern (b :: rest)

/-- Where the pattern begins. -/
def offset (found : Occurrence) : Nat := found.before.length

theorem atFront?_eq {pattern bytes : Bytes} {found : Occurrence}
    (h : atFront? pattern bytes = some found) : bytes = found.before ++ pattern ++ found.behind := by
  unfold atFront? at h
  split at h
  · rename_i front
    simp only [Bool.and_eq_true, List.isPrefixOf_iff_prefix] at front
    obtain ⟨rest, rfl⟩ := front.2
    simp only [Option.some.injEq] at h
    subst h
    simp
  · exact absurd h (by simp)

/-- The first occurrence takes the bytes apart without loss. -/
theorem first?_eq {pattern bytes : Bytes} {found : Occurrence}
    (h : first? pattern bytes = some found) : bytes = found.before ++ pattern ++ found.behind := by
  induction bytes generalizing found with
  | nil => exact absurd h (by simp [first?])
  | cons b rest ih =>
      simp only [first?] at h
      split at h
      · rename_i front
        simp only [Option.some.injEq] at h
        subst h
        exact atFront?_eq front
      · simp only [Option.map_eq_some_iff] at h
        obtain ⟨inner, found, rfl⟩ := h
        simp [shift, ih found]

/-- The last occurrence takes the bytes apart without loss. -/
theorem last?_eq {pattern bytes : Bytes} {found : Occurrence}
    (h : last? pattern bytes = some found) : bytes = found.before ++ pattern ++ found.behind := by
  induction bytes generalizing found with
  | nil => exact absurd h (by simp [last?])
  | cons b rest ih =>
      simp only [last?] at h
      split at h
      · rename_i inner back
        simp only [Option.some.injEq] at h
        subst h
        simp [shift, ih back]
      · exact atFront?_eq h

end Occurrence

end Rebundle
