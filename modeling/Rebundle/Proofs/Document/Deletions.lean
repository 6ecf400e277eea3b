import Rebundle.Proofs.Document.Gaps

/-!
# Deleting trimmed ranges

Ranges that begin and end with a dark byte are removed from a document that has no other edits. What is
recorded for one of them has nothing more than blanks and one line feed, and the lines of the range exactly
when the range stands alone on them. The recorded ranges keep apart, so each of them is written, and the
dark bytes of the rendering are those of the source outside of the removed ranges.
-/

namespace Rebundle

/-- Whether two ranges have no byte in common, whichever of them stands first. -/
def Range.Apart (a b : Range) : Prop := a.stop ≤ b.start ∨ b.stop ≤ a.start

instance (a b : Range) : Decidable (a.Apart b) := inferInstanceAs (Decidable (_ ∨ _))

theorem Range.Apart.symm {a b : Range} (apart : a.Apart b) : b.Apart a := Or.symm apart

/-- A range that begins and ends with a dark byte. -/
structure Trimmed (source : Bytes) (range : Range) : Prop where
  filled : range.start < range.stop
  first : Dark source range.start
  last : Dark source (range.stop - 1)

instance (source : Bytes) (range : Range) : Decidable (Trimmed source range) :=
  decidable_of_iff (range.start < range.stop ∧ Dark source range.start ∧ Dark source (range.stop - 1))
    ⟨fun ⟨filled, first, last⟩ => ⟨filled, first, last⟩,
      fun ⟨filled, first, last⟩ => ⟨filled, first, last⟩⟩

namespace Trimmed

variable {source : Bytes} {range : Range} (trimmed : Trimmed source range)

include trimmed

theorem solid : Solid source range where
  first := trimmed.first
  last := by
    have filled := trimmed.filled
    exact ⟨range.stop - 1, by omega, by omega, trimmed.last, fun j behind inside => by omega⟩

theorem fits : range.stop ≤ source.length := by
  obtain ⟨b, found, _⟩ := trimmed.last
  obtain ⟨inside, _⟩ := List.getElem?_eq_some_iff.mp found
  omega

end Trimmed

namespace Source

/-- Whether no line feed stands between two offsets. -/
def Unbroken (source : Bytes) (start stop : Nat) : Prop := ∀ i, start ≤ i → i < stop → source[i]? ≠ some 0x0A

/-- Whether on its first line a range has only spaces and tabs before it, and on its last line only spaces, tabs
and carriage returns behind it. -/
structure Alone (source : Bytes) (range : Range) : Prop where
  front : ∀ i < range.start, Unbroken source i range.start → ∃ b, source[i]? = some b ∧ isIndent b = true
  behind : ∀ i < source.length, range.stop ≤ i → Unbroken source range.stop (i + 1) →
    ∃ b, source[i]? = some b ∧ (isIndent b = true ∨ b = 0x0D)

/-- Whether a range has the lines of another, from the beginning of the first to behind the line feed of the last,
or to the end of the source when no line feed is left. -/
structure WholeLines (source : Bytes) (inner outer : Range) : Prop where
  around : outer.start ≤ inner.start ∧ inner.stop ≤ outer.stop
  begins : outer.start = 0 ∨ source[outer.start - 1]? = some 0x0A
  front : Unbroken source outer.start inner.start
  ends : outer.stop = source.length ∧ Unbroken source inner.stop outer.stop ∨
    inner.stop < outer.stop ∧ source[outer.stop - 1]? = some 0x0A ∧ Unbroken source inner.stop (outer.stop - 1)

/-- The bytes that a range has more than another inside of it. -/
def margins (source : Bytes) (inner outer : Range) : Bytes :=
  slice source outer.start inner.start ++ slice source inner.stop outer.stop

theorem mem_slice {source : Bytes} {start stop : Nat} (ordered : start ≤ stop) (fits : stop ≤ source.length)
    {b : UInt8} : b ∈ slice source start stop ↔ ∃ i, start ≤ i ∧ i < stop ∧ source[i]? = some b := by
  rw [← uncovered_nil ordered fits, mem_uncovered]
  simp

/-- What holds of each byte between two offsets holds of the bytes of the slice. -/
theorem of_mem_slice {source : Bytes} {start stop : Nat} {holds : UInt8 → Prop} (ordered : start ≤ stop)
    (fits : stop ≤ source.length) (each : ∀ i, start ≤ i → i < stop → ∃ b, source[i]? = some b ∧ holds b)
    {b : UInt8} (mem : b ∈ slice source start stop) : holds b := by
  obtain ⟨i, begins, ends, found⟩ := (mem_slice ordered fits).mp mem
  obtain ⟨b', found', fact⟩ := each i begins ends
  rw [found] at found'
  cases found'
  exact fact

section

variable {source : Bytes} {offset : Nat} (fits : offset ≤ source.length)

include fits

theorem lineStart_unbroken : Unbroken source (lineStart source offset) offset := by
  intro i begins ends
  have size : (source.take offset).length = offset := by rw [List.length_take]; omega
  simp only [lineStart, size] at begins
  obtain ⟨b, found, plain⟩ := getElem?_of_lt_takeWhile (p := (· != 0x0A)) (l := (source.take offset).reverse)
    (i := offset - 1 - i) (by omega)
  rw [getElem?_reverse_take fits (by omega), show offset - 1 - (offset - 1 - i) = i by omega] at found
  rw [found]
  rintro same
  cases same
  simp at plain

/-- A line goes on to the end of the source or to behind a line feed. -/
theorem lineRest_ends :
    offset + (lineRest source offset).length = source.length ∧
        Unbroken source offset (offset + (lineRest source offset).length) ∨
      0 < (lineRest source offset).length ∧
        source[offset + (lineRest source offset).length - 1]? = some 0x0A := by
  generalize run : ((source.drop offset).takeWhile fun b => !isLineFeed b).length = n
  have bound : n ≤ source.length - offset := by
    have := ((source.drop offset).takeWhile_sublist fun b => !isLineFeed b).length_le
    rw [List.length_drop] at this
    omega
  have size : (lineRest source offset).length = min (n + 1) (source.length - offset) := by
    simp only [lineRest, List.length_take, List.length_drop, run]
  rcases Nat.lt_or_eq_of_le bound with more | all
  · right
    obtain ⟨b, found, feed⟩ := getElem?_length_takeWhile (p := fun b => !isLineFeed b) (l := source.drop offset)
      (by rw [run, List.length_drop]; exact more)
    rw [run, List.getElem?_drop] at found
    rw [size, show offset + min (n + 1) (source.length - offset) - 1 = offset + n by omega, found]
    refine ⟨by omega, ?_⟩
    simpa [isLineFeed] using feed
  · left
    refine ⟨by omega, fun i begins ends => ?_⟩
    obtain ⟨b, found, plain⟩ := getElem?_of_lt_takeWhile (p := fun b => !isLineFeed b) (l := source.drop offset)
      (i := i - offset) (by omega)
    rw [List.getElem?_drop, show offset + (i - offset) = i by omega] at found
    rw [found]
    rintro same
    cases same
    revert plain
    decide

end

section

variable {source : Bytes} {range : Range} (ordered : range.start ≤ range.stop) (fits : range.stop ≤ source.length)

include ordered fits

theorem wholeLines_line : WholeLines source range
    ⟨lineStart source range.start, range.stop + (lineRest source range.stop).length⟩ where
  around := ⟨lineStart_le source range.start, Nat.le_add_right _ _⟩
  begins := lineStart_feed (Nat.le_trans ordered fits)
  front := lineStart_unbroken (Nat.le_trans ordered fits)
  ends := by
    rcases lineRest_ends fits with whole | ⟨some, feed⟩
    · exact .inl whole
    · refine .inr ⟨Nat.lt_add_of_pos_right some, feed, fun i begins ends => ?_⟩
      simp only at ends
      have clear := lineRest_clear source range.stop (i - range.stop) (by omega)
      rwa [show range.stop + (i - range.stop) = i by omega] at clear

/-- The lines of a range that stands alone on them are found blank. -/
theorem Alone.blank (alone : Alone source range) :
    (slice source (lineStart source range.start) range.start).all isIndent = true ∧
      (lineRest source range.stop).all isLineBlank = true := by
  have begins := lineStart_unbroken (Nat.le_trans ordered fits)
  constructor
  · rw [List.all_eq_true]
    intro b mem
    have indent (i : Nat) (late : lineStart source range.start ≤ i) (early : i < range.start) :
        ∃ b, source[i]? = some b ∧ isIndent b = true :=
      alone.front i early fun j behind inside => begins j (Nat.le_trans late behind) inside
    exact of_mem_slice (lineStart_le source range.start) (Nat.le_trans ordered fits) indent mem
  · rw [List.all_eq_true]
    intro b mem
    obtain ⟨i, inside, found⟩ := List.getElem_of_mem mem
    have found : source[range.stop + i]? = some b := by
      rw [← getElem?_lineRest inside, List.getElem?_eq_getElem inside, found]
    by_cases feed : b = 0x0A
    · subst feed
      decide
    · have room := length_lineRest_le source range.stop
      obtain ⟨b', found', blank⟩ := alone.behind (range.stop + i) (by omega) (Nat.le_add_right _ _) (by
        intro j begins ends
        rcases Nat.lt_or_eq_of_le (Nat.le_of_lt_succ ends) with before | rfl
        · have clear := lineRest_clear source range.stop (j - range.stop) (by omega)
          rwa [show range.stop + (j - range.stop) = j by omega] at clear
        · rw [found]
          exact fun same => feed (Option.some.inj same))
      rw [found] at found'
      cases found'
      rcases blank with indent | rfl
      · simp [isLineBlank, indent]
      · decide

theorem extent_alone (alone : Alone source range) : extent source range =
    ⟨lineStart source range.start, range.stop + (lineRest source range.stop).length⟩ := by
  obtain ⟨front, behind⟩ := alone.blank ordered fits
  simp only [extent, lineExtent, resolve_natCast fits, resolve_natCast (Nat.le_trans ordered fits)]
  rw [if_pos (show ((range.stop : Int) ≤ source.length) by omega), front, behind]
  rfl

end

namespace Widened

variable {source : Bytes} {inner outer : Range} (widened : Widened source inner outer)

include widened

/-- A range that is widened to whole lines stands alone on them. -/
theorem alone (whole : WholeLines source inner outer) : Alone source inner where
  front := by
    intro i before clear
    refine widened.left i ?_ before
    rw [← Nat.not_lt]
    intro early
    rcases whole.begins with zero | feed
    · omega
    · have := widened.begins
      exact clear (outer.start - 1) (by omega) (by omega) feed
  behind := by
    intro i inside behind clear
    have early : i < outer.stop := by
      rw [← Nat.not_le]
      intro late
      rcases whole.ends with ⟨all, _⟩ | ⟨more, feed, _⟩
      · omega
      · exact clear (outer.stop - 1) (by omega) (by omega) feed
    obtain ⟨b, found, blank⟩ := widened.right i behind early
    have plain : b ≠ 0x0A := fun same => clear i behind (Nat.lt_succ_self i) (same ▸ found)
    refine ⟨b, found, ?_⟩
    simpa [isLineBlank, isLineFeed, plain] using blank

theorem mem_margins (ordered : inner.start ≤ inner.stop) {b : UInt8} (mem : b ∈ margins source inner outer) :
    isLineBlank b = true := by
  have fits := widened.fits
  have ends := widened.ends
  rcases List.mem_append.mp mem with mem | mem
  · have indent : isIndent b = true := of_mem_slice widened.begins (by omega) widened.left mem
    simp [isLineBlank, indent]
  · exact of_mem_slice ends fits widened.right mem

/-- The only line feed in the margins is the last byte of the outer range. -/
theorem count_margins (ordered : inner.start ≤ inner.stop) : (margins source inner outer).count 0x0A ≤ 1 := by
  have fits := widened.fits
  have ends := widened.ends
  have front : (slice source outer.start inner.start).count 0x0A = 0 := by
    rw [List.count_eq_zero]
    intro feed
    have indent : isIndent 0x0A = true := of_mem_slice widened.begins (by omega) widened.left feed
    exact absurd indent (by decide)
  rw [margins, List.count_append, front, Nat.zero_add]
  rcases Nat.eq_or_lt_of_le ends with same | more
  · rw [same, slice, Nat.sub_self, List.take_zero]
    exact Nat.zero_le _
  · have middle : (slice source inner.stop (outer.stop - 1 : Nat)).count 0x0A = 0 := by
      rw [List.count_eq_zero]
      intro feed
      obtain ⟨i, behind, inside, found⟩ := (mem_slice (by omega) (by omega)).mp feed
      exact widened.oneLine i behind (by omega) found
    have last : (slice source (outer.stop - 1 : Nat) outer.stop).length ≤ 1 := by
      rw [slice, List.length_take, resolve_natCast fits, resolve_natCast (i := outer.stop - 1) (by omega)]
      omega
    have parts : slice source inner.stop outer.stop =
        slice source inner.stop (outer.stop - 1 : Nat) ++ slice source (outer.stop - 1 : Nat) outer.stop :=
      slice_append (by omega) (by omega) (by omega) (by omega)
    rw [parts, List.count_append, middle, Nat.zero_add]
    exact Nat.le_trans List.count_le_length last

end Widened

/-- A range is widened to whole lines exactly when it stands alone on them. -/
theorem wholeLines_extent_iff {source : Bytes} {range : Range} (ordered : range.start ≤ range.stop)
    (fits : range.stop ≤ source.length) : WholeLines source range (extent source range) ↔ Alone source range := by
  refine ⟨(widened_extent ordered fits).alone, fun alone => ?_⟩
  rw [extent_alone ordered fits alone]
  exact wholeLines_line ordered fits

/-- The bytes of a source in none of some ranges. -/
def outside (source : Bytes) (ranges : List Range) : Bytes :=
  (List.range source.length).filterMap fun i =>
    if ranges.any fun range => range.start ≤ i && i < range.stop then none else source[i]?

/-- The bytes without the blanks. -/
def inked (bytes : Bytes) : Bytes := bytes.filter fun b => !isLineBlank b

theorem uncovered_eq_outside (source : Bytes) (edits : List Edit) :
    uncovered source edits 0 source.length = outside source (edits.map Edit.range) := by
  simp only [uncovered, outside, Nat.sub_zero, List.range_eq_range', List.any_map]
  rfl

/-- Ranges that have the same dark bytes leave the same bytes but for blanks. -/
theorem inked_outside_congr {source : Bytes} {ranges others : List Range}
    (same : ∀ i, Dark source i → ((∃ range ∈ ranges, range.start ≤ i ∧ i < range.stop) ↔
      ∃ range ∈ others, range.start ≤ i ∧ i < range.stop)) :
    inked (outside source ranges) = inked (outside source others) := by
  simp only [inked, outside, List.filter_filterMap]
  apply List.filterMap_congr
  intro i _
  by_cases dark : Dark source i
  · have agree : (ranges.any fun range => range.start ≤ i && i < range.stop) =
        others.any fun range => range.start ≤ i && i < range.stop := by
      rw [Bool.eq_iff_iff, List.any_eq_true, List.any_eq_true]
      simpa using same i dark
    rw [agree]
  · have light : (source[i]?).filter (fun b => !isLineBlank b) = none := by
      rw [Option.filter_eq_none_iff]
      intro b found plain
      exact dark ⟨b, found, by simpa using plain⟩
    have none (ranges : List Range) : (if ranges.any fun range => range.start ≤ i && i < range.stop then none
        else source[i]?).filter (fun b => !isLineBlank b) = none := by
      split
      · rfl
      · exact light
    rw [none, none]

end Source

open Source

namespace Document

/-- Removes the ranges one after the other, each with its lines where it stands alone on them. -/
def removeAll (reason : Range → Text) : List Range → Document → Except RangeFault Document
  | [], doc => .ok doc
  | range :: rest, doc => do
      let (_, next) ← doc.remove range.start range.stop true (reason range)
      removeAll reason rest next

/-- What a removal records. -/
def removal (source : Bytes) (reason : Range → Text) (range : Range) : Replacement :=
  ⟨(extent source range).start, (extent source range).stop, [.text []], reason range⟩

theorem body_removal (source : Bytes) (reason : Range → Text) (range : Range) :
    (removal source reason range).body = ((extent source range).start, (extent source range).stop, [.text []]) := by
  simp only [Replacement.body, removal, Int.toNat_natCast]

theorem remove_eq_replace (range : Range) (reason : Text) (doc : Document) :
    doc.remove range.start range.stop true reason = doc.replace (extent doc.source range).start
      (extent doc.source range).stop [.text []] reason := by
  have natural : lineExtent doc.source range.start range.stop =
      (((extent doc.source range).start : Int), ((extent doc.source range).stop : Int)) := by
    simp only [extent, lineExtent]
    generalize (if (range.stop : Int) ≤ doc.source.length then
      lineRest doc.source (resolve doc.source.length range.stop) else []) = rest
    split
    · simp only [Int.toNat_natCast, ← Int.natCast_add]
    · simp only [Int.toNat_natCast, ← Int.natCast_add]
  rw [remove, if_pos rfl, natural]

theorem removeAll_eq_replaceAll (reason : Range → Text) (ranges : List Range) (doc : Document) :
    doc.removeAll reason ranges = doc.replaceAll (ranges.map (removal doc.source reason)) := by
  induction ranges generalizing doc with
  | nil => rfl
  | cons range rest ih =>
      rw [removeAll, List.map_cons, replaceAll, remove_eq_replace]
      simp only [removal]
      cases made : doc.replace (extent doc.source range).start (extent doc.source range).stop [.text []]
          (reason range) with
      | error fault => rfl
      | ok next =>
          obtain ⟨edit, next⟩ := next
          obtain ⟨_, _, _, recorded⟩ := replace_ok made
          have unchanged : next.source = doc.source := by rw [(Prod.mk.inj recorded).2]
          have later := ih next
          rw [unchanged] at later
          exact later

/-- A document of which nothing but ranges that keep apart is deleted. -/
structure Cleared (source : Bytes) (doc : Document) : Prop where
  kept : doc.Kept
  unchanged : doc.source = source
  deletes : ∀ edit ∈ doc.edits, edit.start < edit.stop ∧ edit.parts = [.text []]
  apart : (doc.edits.map Edit.range).Pairwise Range.Apart

namespace Cleared

variable {source : Bytes} {doc : Document} (cleared : Cleared source doc)

include cleared

theorem apart_of_ne {a b : Edit} (memA : a ∈ doc.edits) (memB : b ∈ doc.edits) (differ : a ≠ b) :
    a.stop ≤ b.start ∨ b.stop ≤ a.start := by
  have either := List.pairwise_map.mp cleared.apart
  have : Std.Symm fun a b : Edit => a.range.Apart b.range := ⟨fun _ _ => Range.Apart.symm⟩
  exact either.forall memA memB differ

theorem sound : doc.pane.Sound source.length where
  begins := Int.le_refl _
  proper := Int.natCast_nonneg _
  ends := by
    rw [← cleared.unchanged]
    exact Int.le_refl _
  orderly := by
    refine ⟨cleared.kept.sorted, ?_, fun edit mem => (cleared.kept.inside edit mem).1, ?_,
      cleared.kept.numbered.nodup_iff.mpr List.nodup_range⟩
    · intro a memA b memB
      by_cases same : a = b
      · subst same
        exact .inl ⟨Nat.le_refl _, Nat.le_refl _⟩
      · exact .inr (.inr (cleared.apart_of_ne memA memB same))
    · intro edit mem span part
      rw [(cleared.deletes edit mem).2] at part
      simp at part

/-- All the deletions are written. -/
theorem mem_edited {edit : Edit} : edit ∈ doc.pane.edited ↔ edit ∈ doc.edits := by
  rw [cleared.sound.mem_edited]
  refine ⟨fun facts => facts.1, fun mem => ⟨mem, ?_, ?_⟩⟩
  · have := cleared.kept.inside edit mem
    rw [Edit.within_iff]
    simp only [pane]
    omega
  · intro other among _
    rw [Bool.eq_false_iff, ne_eq, Edit.dominates_iff]
    rintro ⟨begins, inside, ends, earlier⟩
    by_cases same : other = edit
    · subst same
      exact Nat.lt_irrefl _ (earlier rfl rfl)
    · have := cleared.apart_of_ne among mem same
      have := (cleared.deletes edit mem).1
      omega

/-- What is rendered is the source outside of the deleted ranges. -/
theorem render : doc.render = .ok (outside source (doc.edits.map Edit.range)) := by
  have sound := cleared.sound
  have inside (edit : Edit) (mem : edit ∈ doc.pane.edited) :
      edit.start < edit.stop ∧ edit.stop ≤ source.length := by
    have known := cleared.mem_edited.mp mem
    rw [← cleared.unchanged]
    exact ⟨(cleared.deletes edit known).1, (cleared.kept.inside edit known).2⟩
  have front : doc.pane.Clear (0 : Nat) := by
    intro edit mem
    have := inside edit mem
    omega
  have back : doc.pane.Clear source.length := by
    intro edit mem
    have := inside edit mem
    omega
  have whole := sound.assemble_deletions front back (Nat.zero_le _) (Nat.le_refl _) fun edit mem _ =>
    (cleared.deletes edit (cleared.mem_edited.mp mem)).2
  have all : doc.pane.stretch (0 : Nat) source.length = doc.pane.pieces := by
    rw [← sound.stretch_self, ← cleared.unchanged]
    rfl
  rw [render_eq_assemble, cleared.unchanged, ← all, whole, ← uncovered_eq_outside]
  congr 1
  apply uncovered_congr
  intro i _ _
  simp only [cleared.mem_edited]

end Cleared

section

variable {source : Bytes} {ranges : List Range} (trimmed : ∀ range ∈ ranges, Trimmed source range)

include trimmed

theorem widened_trimmed {range : Range} (mem : range ∈ ranges) : Widened source range (extent source range) :=
  widened_extent (Nat.le_of_lt (trimmed range mem).filled) (trimmed range mem).fits

/-- Widening trimmed ranges that keep apart keeps them apart. -/
theorem extents_apart (apart : ranges.Pairwise Range.Apart) :
    (ranges.map (extent source)).Pairwise Range.Apart := by
  rw [List.pairwise_map]
  refine List.Pairwise.imp_of_mem ?_ apart
  intro a b memA memB either
  have solidA := (trimmed a memA).solid
  have solidB := (trimmed b memB).solid
  rcases either with before | behind
  · exact .inl ((widened_trimmed trimmed memA).both (widened_trimmed trimmed memB) solidA solidB before)
  · exact .inr ((widened_trimmed trimmed memB).both (widened_trimmed trimmed memA) solidB solidA behind)

/-- Removing trimmed ranges that keep apart clears them and their margins, in whatever order it is done. -/
theorem cleared_removeAll (reason : Range → Text) (apart : ranges.Pairwise Range.Apart) :
    ∃ doc, (ofSource source).removeAll reason ranges = .ok doc ∧ Cleared source doc ∧
      (doc.edits.map Edit.range).Perm (ranges.map (extent source)) := by
  obtain ⟨doc, made⟩ := replaceAll_ok (ranges.map (removal source reason)) (ofSource source) (by
    intro replacement mem
    obtain ⟨range, known, rfl⟩ := List.mem_map.mp mem
    have widened := widened_trimmed trimmed known
    have := (trimmed range known).filled
    have := widened.begins
    have := widened.ends
    have := widened.fits
    simp only [Replacement.Fits, removal, ofSource]
    omega)
  have bodies := bodies_replaceAll made
  simp only [ofSource, List.map_nil, List.append_nil, List.map_map] at bodies
  have ranged : (doc.edits.map Edit.range).Perm (ranges.map (extent source)) := by
    have placed := bodies.map fun body : Nat × Nat × List Part => (⟨body.1, body.2.1⟩ : Range)
    simp only [List.map_map, Function.comp_def, body_removal] at placed
    generalize extent source = widen at placed ⊢
    exact placed
  refine ⟨doc, ?_, ⟨(Kept.ofSource source).replaceAll made, source_replaceAll made, ?_, ?_⟩, ranged⟩
  · rw [removeAll_eq_replaceAll]
    exact made
  · intro edit mem
    obtain ⟨range, known, same⟩ := List.mem_map.mp (bodies.mem_iff.mp (List.mem_map_of_mem mem))
    have widened := widened_trimmed trimmed known
    have := (trimmed range known).filled
    have := widened.begins
    have := widened.ends
    rw [Function.comp_apply, body_removal, Edit.body, Prod.mk.injEq, Prod.mk.injEq] at same
    obtain ⟨start, stop, parts⟩ := same
    exact ⟨by omega, parts.symm⟩
  · exact (extents_apart trimmed apart).perm ranged.symm fun either => either.symm

end

/-- Trimmed ranges that keep apart are removed with blanks only. Each is recorded with its extent, which has only
blanks and at most one line feed more, and has the lines of the range exactly when the range stands alone on
them; the extents keep apart; and what is rendered has the bytes of the source outside of the ranges, up to
blanks. -/
theorem render_removeAll {source : Bytes} {ranges : List Range} (reason : Range → Text)
    (apart : ranges.Pairwise Range.Apart) (trimmed : ∀ range ∈ ranges, Trimmed source range) :
    ∃ doc, (ofSource source).removeAll reason ranges = .ok doc ∧
      (doc.edits.map Edit.range).Perm (ranges.map (extent source)) ∧
      (doc.edits.map Edit.range).Pairwise Range.Apart ∧
      (∀ range ∈ ranges,
        (extent source range).start ≤ range.start ∧ range.stop ≤ (extent source range).stop ∧
          (∀ b ∈ margins source range (extent source range), isLineBlank b = true) ∧
          (margins source range (extent source range)).count 0x0A ≤ 1 ∧
          (WholeLines source range (extent source range) ↔ Alone source range)) ∧
      ∃ bytes, doc.render = .ok bytes ∧ inked bytes = inked (outside source ranges) := by
  obtain ⟨doc, made, cleared, ranged⟩ := cleared_removeAll trimmed reason apart
  refine ⟨doc, made, ranged, cleared.apart, fun range mem => ?_, _, cleared.render, ?_⟩
  · have widened := widened_trimmed trimmed mem
    have ordered := Nat.le_of_lt (trimmed range mem).filled
    exact ⟨widened.begins, widened.ends, fun b => widened.mem_margins ordered, widened.count_margins ordered,
      wholeLines_extent_iff ordered (trimmed range mem).fits⟩
  · apply inked_outside_congr
    intro i dark
    constructor
    · rintro ⟨outer, mem, begins, ends⟩
      obtain ⟨range, known, rfl⟩ := List.mem_map.mp (ranged.mem_iff.mp mem)
      have widened := widened_trimmed trimmed known
      -- a dark byte lies in the range itself, since the margins have none
      exact ⟨range, known, Nat.not_lt.mp fun before => widened.left_light begins before dark,
        Nat.not_le.mp fun behind => widened.right_light behind ends dark⟩
    · rintro ⟨range, known, begins, ends⟩
      have widened := widened_trimmed trimmed known
      exact ⟨extent source range, ranged.mem_iff.mpr (List.mem_map_of_mem known),
        Nat.le_trans widened.begins begins, Nat.lt_of_lt_of_le ends widened.ends⟩

/-- Of the lines ` a; b;` and `c` all three statements are removed, the last of them first. -/
theorem render_removeAll_statements :
    ([⟨8, 9⟩, ⟨1, 3⟩, ⟨4, 6⟩] : List Range).Pairwise Range.Apart ∧
      (∀ range ∈ ([⟨8, 9⟩, ⟨1, 3⟩, ⟨4, 6⟩] : List Range),
        Trimmed [0x20, 0x61, 0x3B, 0x20, 0x62, 0x3B, 0x0D, 0x0A, 0x63, 0x0A] range) ∧
      ∃ doc, (ofSource [0x20, 0x61, 0x3B, 0x20, 0x62, 0x3B, 0x0D, 0x0A, 0x63, 0x0A]).removeAll (fun _ => "")
          [⟨8, 9⟩, ⟨1, 3⟩, ⟨4, 6⟩] = .ok doc ∧
        ∃ bytes, doc.render = .ok bytes ∧ inked bytes = [] := by
  have apart : ([⟨8, 9⟩, ⟨1, 3⟩, ⟨4, 6⟩] : List Range).Pairwise Range.Apart := by decide
  have trimmed : ∀ range ∈ ([⟨8, 9⟩, ⟨1, 3⟩, ⟨4, 6⟩] : List Range),
      Trimmed [0x20, 0x61, 0x3B, 0x20, 0x62, 0x3B, 0x0D, 0x0A, 0x63, 0x0A] range := by decide
  obtain ⟨doc, made, _, _, _, bytes, written, left⟩ := render_removeAll (fun _ => "") apart trimmed
  exact ⟨apart, trimmed, doc, made, bytes, written, left⟩

end Document

end Rebundle
