import Rebundle.Document.Edit
import Rebundle.Proofs.Document.Outermost

/-!
# The extent of a removal

A removal is widened over blanks only: to the left up to the beginning of its line, to the right up to
the next line feed, or over the spaces and tabs behind it. Ranges that begin and end with more than
blanks keep their distance: what was disjoint before the widening is disjoint after it.
-/

namespace Rebundle

/-- Whether the byte at an offset is anything but a space, a tab or the end of a line. -/
def Dark (source : Bytes) (i : Nat) : Prop := ∃ b, source[i]? = some b ∧ isLineBlank b = false

/-- A range that begins with a dark byte and ends on the line of its last dark byte. -/
structure Solid (source : Bytes) (range : Range) : Prop where
  first : Dark source range.start
  last : ∃ i, range.start ≤ i ∧ i < range.stop ∧ Dark source i ∧
    ∀ j, i < j → j < range.stop → source[j]? ≠ some 0x0A

instance (source : Bytes) (i : Nat) : Decidable (Dark source i) :=
  decidable_of_iff (source[i]?.any (fun b => !isLineBlank b) = true)
    (by simp [Dark, Option.any_eq_true])

instance (source : Bytes) (range : Range) : Decidable (Solid source range) :=
  decidable_of_iff (Dark source range.start ∧ ∃ i, i < range.stop ∧ range.start ≤ i ∧
      Dark source i ∧ ∀ j, j < range.stop → i < j → source[j]? ≠ some 0x0A)
    ⟨fun ⟨first, i, ends, begins, dark, line⟩ =>
        ⟨first, i, begins, ends, dark, fun j behind inside => line j inside behind⟩,
      fun ⟨first, i, begins, ends, dark, line⟩ =>
        ⟨first, i, ends, begins, dark, fun j inside behind => line j behind inside⟩⟩

theorem Solid.start_lt_stop {source : Bytes} {range : Range} (solid : Solid source range) :
    range.start < range.stop := by
  obtain ⟨i, begins, ends, _⟩ := solid.last
  omega

theorem dark_not_lineFeed {source : Bytes} {i : Nat} (dark : Dark source i) :
    source[i]? ≠ some 0x0A := by
  obtain ⟨b, found, plain⟩ := dark
  rw [found]
  intro same
  cases same
  revert plain
  decide

namespace Source

/-- A range widened over the blanks around another. -/
structure Widened (source : Bytes) (inner outer : Range) : Prop where
  begins : outer.start ≤ inner.start
  ends : inner.stop ≤ outer.stop
  fits : outer.stop ≤ source.length
  left : ∀ i, outer.start ≤ i → i < inner.start → ∃ b, source[i]? = some b ∧ isIndent b = true
  right : ∀ i, inner.stop ≤ i → i < outer.stop → ∃ b, source[i]? = some b ∧ isLineBlank b = true
  oneLine : ∀ i, inner.stop ≤ i → i + 1 < outer.stop → source[i]? ≠ some 0x0A
  lineStart : outer.start = inner.start ∨ outer.start = 0 ∨ source[outer.start - 1]? = some 0x0A

namespace Widened

variable {source : Bytes} {inner outer inner' outer' other : Range}

theorem left_light (widened : Widened source inner outer) {i : Nat} (begins : outer.start ≤ i)
    (ends : i < inner.start) : ¬ Dark source i := by
  rintro ⟨b, found, plain⟩
  obtain ⟨b', found', blank⟩ := widened.left i begins ends
  rw [found] at found'
  cases found'
  simp [isLineBlank, blank] at plain

theorem right_light (widened : Widened source inner outer) {i : Nat} (begins : inner.stop ≤ i)
    (ends : i < outer.stop) : ¬ Dark source i := by
  rintro ⟨b, found, plain⟩
  obtain ⟨b', found', blank⟩ := widened.right i begins ends
  rw [found] at found'
  cases found'
  rw [blank] at plain
  cases plain

/-- What ends in front of a range ends in front of the line that it is widened to, or there begins
no line. -/
theorem stop_le (widened : Widened source inner outer) (solid : Solid source other)
    (before : other.stop ≤ inner.start) :
    outer.start = inner.start ∨ other.stop < outer.start ∧ source[outer.start - 1]? = some 0x0A := by
  obtain ⟨i, _, ends, dark, line⟩ := solid.last
  have front : i < outer.start := by
    rw [← Nat.not_le]
    intro inside
    exact widened.left_light inside (by omega) dark
  rcases widened.lineStart with same | zero | feed
  · exact .inl same
  · omega
  · refine .inr ⟨?_, feed⟩
    have apart : outer.start - 1 ≠ i := by
      intro same
      exact dark_not_lineFeed dark (same ▸ feed)
    rw [← Nat.not_le]
    intro inside
    exact line (outer.start - 1) (by omega) (by omega) feed

theorem before (widened : Widened source inner outer) (solid : Solid source other)
    (apart : other.stop ≤ inner.start) : other.stop ≤ outer.start := by
  rcases widened.stop_le solid apart with same | ⟨front, _⟩ <;> omega

theorem behind (widened : Widened source inner outer) (solid : Solid source other)
    (apart : inner.stop ≤ other.start) : outer.stop ≤ other.start := by
  rw [← Nat.not_lt]
  intro inside
  exact widened.right_light apart inside solid.first

theorem both (widened : Widened source inner outer) (widened' : Widened source inner' outer')
    (solid : Solid source inner) (solid' : Solid source inner') (apart : inner.stop ≤ inner'.start) :
    outer.stop ≤ outer'.start := by
  have far := widened.behind solid' apart
  rcases widened'.stop_le solid apart with same | ⟨front, feed⟩
  · omega
  · rw [← Nat.not_lt]
    intro inside
    exact widened.oneLine (outer'.start - 1) (by omega) (by omega) feed

end Widened

/-- Every element in the front run of a list passes. -/
theorem getElem?_of_lt_takeWhile {p : UInt8 → Bool} {l : Bytes} {i : Nat}
    (front : i < (l.takeWhile p).length) : ∃ b, l[i]? = some b ∧ p b = true := by
  induction l generalizing i with
  | nil => simp at front
  | cons b rest ih =>
      rw [List.takeWhile_cons] at front
      split at front
      · rename_i passes
        cases i with
        | zero => exact ⟨b, rfl, passes⟩
        | succ i => exact ih (by simpa using front)
      · simp at front

/-- The element behind the front run of a list, if there is one, does not pass. -/
theorem getElem?_length_takeWhile {p : UInt8 → Bool} {l : Bytes}
    (more : (l.takeWhile p).length < l.length) :
    ∃ b, l[(l.takeWhile p).length]? = some b ∧ p b = false := by
  induction l with
  | nil => simp at more
  | cons b rest ih =>
      rw [List.takeWhile_cons] at *
      split at more
      · rename_i passes
        simp only [passes, if_true] at *
        simpa using ih (by simpa using more)
      · rename_i stops
        exact ⟨b, by simp [stops], by simpa using stops⟩

/-- A byte of the source in front of an offset, counted from the offset. -/
theorem getElem?_reverse_take {source : Bytes} {offset i : Nat} (fits : offset ≤ source.length)
    (front : i < offset) : (source.take offset).reverse[i]? = source[offset - 1 - i]? := by
  have size : (source.take offset).length = offset := by rw [List.length_take]; omega
  rw [List.getElem?_reverse (by omega), size, List.getElem?_take_of_lt (by omega)]

/-- A line begins at the front of the source or behind a line feed. -/
theorem lineStart_feed {source : Bytes} {offset : Nat} (fits : offset ≤ source.length) :
    lineStart source offset = 0 ∨ source[lineStart source offset - 1]? = some 0x0A := by
  have size : (source.take offset).length = offset := by rw [List.length_take]; omega
  generalize run : ((source.take offset).reverse.takeWhile (· != 0x0A)).length = n
  have bound : n ≤ offset := by
    have := ((source.take offset).reverse.takeWhile_sublist (· != 0x0A)).length_le
    rw [List.length_reverse, size] at this
    omega
  have start : lineStart source offset = offset - n := by simp only [lineStart, size, run]
  rw [start]
  by_cases whole : n = offset
  · exact .inl (by omega)
  · right
    obtain ⟨b, found, stops⟩ := getElem?_length_takeWhile (p := (· != 0x0A))
      (l := (source.take offset).reverse) (by rw [List.length_reverse, run, size]; omega)
    rw [run, getElem?_reverse_take fits (by omega)] at found
    rw [show offset - n - 1 = offset - 1 - n by omega, found]
    simpa using stops

/-- What stands behind an offset on its line: everything up to the next line feed, which is last. -/
theorem lineRest_clear (source : Bytes) (offset i : Nat)
    (inside : i + 1 < (lineRest source offset).length) : source[offset + i]? ≠ some 0x0A := by
  have early : i < ((source.drop offset).takeWhile fun b => !isLineFeed b).length := by
    simp only [lineRest, List.length_take] at inside
    omega
  obtain ⟨b, found, plain⟩ := getElem?_of_lt_takeWhile early
  rw [List.getElem?_drop] at found
  rw [found]
  intro same
  cases same
  revert plain
  decide

theorem getElem?_lineRest {source : Bytes} {offset i : Nat}
    (inside : i < (lineRest source offset).length) :
    (lineRest source offset)[i]? = source[offset + i]? := by
  simp only [lineRest, List.length_take] at *
  rw [List.getElem?_take_of_lt (by omega), List.getElem?_drop]

theorem getElem?_slice {source : Bytes} {start stop i : Nat} (ordered : start ≤ stop)
    (fits : stop ≤ source.length) (inside : i < stop - start) :
    (slice source start stop)[i]? = source[start + i]? := by
  rw [slice, resolve_natCast (Nat.le_trans ordered fits), resolve_natCast fits,
    List.getElem?_take_of_lt inside,
    List.getElem?_drop]

/-- The range that a removal is widened to. -/
def extent (source : Bytes) (range : Range) : Range :=
  let (start, stop) := lineExtent source range.start range.stop
  ⟨start.toNat, stop.toNat⟩

theorem all_getElem? {p : UInt8 → Bool} {l : Bytes} (all : l.all p = true) {i : Nat} {b : UInt8}
    (found : l[i]? = some b) : p b = true :=
  List.all_eq_true.mp all b (List.mem_of_getElem? found)

/-- A range that stands alone on its lines, with these lines. -/
theorem widened_line {source : Bytes} {range : Range} (ordered : range.start ≤ range.stop)
    (fits : range.stop ≤ source.length)
    (front : (slice source (lineStart source range.start) range.start).all isIndent = true)
    (behind : (lineRest source range.stop).all isLineBlank = true) :
    Widened source range
      ⟨lineStart source range.start, range.stop + (lineRest source range.stop).length⟩ := by
  have early := lineStart_le source range.start
  have room := length_lineRest_le source range.stop
  constructor
  case begins => exact early
  case ends => exact Nat.le_add_right _ _
  case fits =>
    simp only
    omega
  case left =>
    intro i begins ends
    simp only at begins
    have inside : i < source.length := by omega
    refine ⟨source[i], List.getElem?_eq_getElem inside, ?_⟩
    apply all_getElem? (i := i - lineStart source range.start) front
    rw [getElem?_slice early (Nat.le_trans ordered fits) (by omega),
      show lineStart source range.start + (i - lineStart source range.start) = i by omega,
      List.getElem?_eq_getElem inside]
  case right =>
    intro i begins ends
    simp only at ends
    have inside : i < source.length := by omega
    refine ⟨source[i], List.getElem?_eq_getElem inside, ?_⟩
    apply all_getElem? (i := i - range.stop) behind
    rw [getElem?_lineRest (by omega), show range.stop + (i - range.stop) = i by omega,
      List.getElem?_eq_getElem inside]
  case oneLine =>
    intro i begins ends
    simp only at ends
    have clear := lineRest_clear source range.stop (i - range.stop) (by omega)
    rwa [show range.stop + (i - range.stop) = i by omega] at clear
  case lineStart => exact .inr (lineStart_feed (Nat.le_trans ordered fits))

/-- A range with the blanks behind it. -/
theorem widened_blanks {source : Bytes} {range : Range} (fits : range.stop ≤ source.length) :
    Widened source range ⟨range.start, range.stop + blanksAt source range.stop⟩ := by
  have indent : ∀ i, range.stop ≤ i → i < range.stop + blanksAt source range.stop →
      ∃ b, source[i]? = some b ∧ isIndent b = true := by
    intro i begins ends
    rw [blanksAt_natCast fits] at ends
    obtain ⟨b, found, passes⟩ := getElem?_of_lt_takeWhile
      (p := isIndent) (l := source.drop range.stop) (i := i - range.stop) (by omega)
    rw [List.getElem?_drop, show range.stop + (i - range.stop) = i by omega] at found
    exact ⟨b, found, passes⟩
  have bound := blanksAt_le fits
  constructor
  case begins => exact Nat.le_refl _
  case ends => exact Nat.le_add_right _ _
  case fits =>
    simp only
    omega
  case left =>
    intro i begins ends
    exact absurd ends (Nat.not_lt.mpr begins)
  case right =>
    intro i begins ends
    obtain ⟨b, found, passes⟩ := indent i begins ends
    exact ⟨b, found, by simp [isLineBlank, passes]⟩
  case oneLine =>
    intro i begins ends
    obtain ⟨b, found, passes⟩ := indent i begins (Nat.lt_of_succ_lt ends)
    rw [found]
    intro same
    cases same
    revert passes
    decide
  case lineStart => exact .inl rfl

/-- Widening does not turn a range around, wherever it lies. -/
theorem extent_ordered {source : Bytes} {range : Range} (ordered : range.start ≤ range.stop) :
    (extent source range).start ≤ (extent source range).stop := by
  have resolved : resolve source.length range.start ≤ resolve source.length range.stop := by
    simp only [resolve]
    rw [if_pos (by omega), if_pos (by omega)]
    omega
  have := lineStart_le source (resolve source.length range.start)
  simp only [extent, lineExtent]
  generalize (if (range.stop : Int) ≤ source.length then
    lineRest source (resolve source.length range.stop) else []) = rest
  split <;> simp only <;> omega

/-- Widening a range of the source reaches over blanks only. -/
theorem widened_extent {source : Bytes} {range : Range} (ordered : range.start ≤ range.stop)
    (fits : range.stop ≤ source.length) : Widened source range (extent source range) := by
  simp only [extent, lineExtent, resolve_natCast fits, resolve_natCast (Nat.le_trans ordered fits)]
  rw [if_pos (show ((range.stop : Int) ≤ source.length) by omega)]
  split
  · rename_i blank
    rw [Bool.and_eq_true] at blank
    exact widened_line ordered fits blank.1 blank.2
  · exact widened_blanks fits

end Source

end Rebundle
