import Rebundle.Extraction

/-!
# Where a buffer is cut

A search is right when it cuts the bytes at the first, or at the last, of all places where the pattern stands.
Occurrences may overlap each other, so they are compared by what stands before or behind them. A buffer is cut
at the first header, and what is behind that at the last tail.
-/

namespace Rebundle

namespace Occurrence

variable {pattern bytes : Bytes} {found other : Occurrence}

/-- Whether the pattern stands between what is before and what is behind. -/
def Cuts (pattern bytes : Bytes) (found : Occurrence) : Prop := bytes = found.before ++ pattern ++ found.behind

/-- A cut before which there is as little as possible. -/
structure First (pattern bytes : Bytes) (found : Occurrence) : Prop where
  cuts : Cuts pattern bytes found
  least : ∀ other, Cuts pattern bytes other → found.before.length ≤ other.before.length

/-- A cut behind which there is as little as possible. -/
structure Last (pattern bytes : Bytes) (found : Occurrence) : Prop where
  cuts : Cuts pattern bytes found
  least : ∀ other, Cuts pattern bytes other → found.behind.length ≤ other.behind.length

theorem exists_cuts_iff : (∃ found, Cuts pattern bytes found) ↔ pattern <:+: bytes :=
  ⟨fun ⟨found, cut⟩ => ⟨found.before, found.behind, Eq.symm cut⟩,
    fun ⟨before, behind, cut⟩ => ⟨⟨before, behind⟩, Eq.symm cut⟩⟩

theorem Cuts.length (cut : Cuts pattern bytes found) :
    bytes.length = found.before.length + pattern.length + found.behind.length := by
  rw [show bytes = _ from cut, List.length_append, List.length_append]

/-- Nothing but an empty pattern stands in no bytes. -/
theorem Cuts.pattern_nil (cut : Cuts pattern [] found) : pattern = [] := by
  have size := cut.length
  rw [List.length_nil] at size
  exact List.length_eq_zero_iff.mp (by omega)

/-- An occurrence stands at the very front or further on. -/
theorem Cuts.cases {b : UInt8} (cut : Cuts pattern (b :: bytes) found) :
    found.before = [] ∨ ∃ inner, Cuts pattern bytes inner ∧ found = inner.shift b := by
  obtain ⟨_ | ⟨c, before⟩, behind⟩ := found
  · exact .inl rfl
  · obtain ⟨rfl, rest⟩ := List.cons.inj (show b :: bytes = c :: (before ++ pattern ++ behind) from cut)
    exact .inr ⟨⟨before, behind⟩, rest, rfl⟩

/-- Two occurrences with equally much before them are the same. -/
theorem Cuts.eq_of_length (cut : Cuts pattern bytes found) (cut' : Cuts pattern bytes other)
    (same : found.before.length = other.before.length) : found = other := by
  obtain ⟨before, behind⟩ := found
  obtain ⟨before', behind'⟩ := other
  have both : before ++ pattern ++ behind = before' ++ pattern ++ behind' := Eq.symm cut |>.trans cut'
  rw [List.append_assoc, List.append_assoc] at both
  obtain ⟨rfl, rest⟩ := List.append_inj both same
  rw [List.append_cancel_left rest]

theorem First.eq (first : First pattern bytes found) (first' : First pattern bytes other) : found = other :=
  first.cuts.eq_of_length first'.cuts (Nat.le_antisymm (first.least other first'.cuts) (first'.least found first.cuts))

theorem Last.eq (last : Last pattern bytes found) (last' : Last pattern bytes other) : found = other := by
  refine last.cuts.eq_of_length last'.cuts ?_
  have size := last.cuts.length.symm.trans last'.cuts.length
  have least := last.least other last'.cuts
  have least' := last'.least found last.cuts
  omega

theorem atFront?_eq_some (full : pattern ≠ []) (cut : Cuts pattern bytes found) (front : found.before = []) :
    atFront? pattern bytes = some found := by
  obtain ⟨before, behind⟩ := found
  obtain rfl : before = [] := front
  obtain rfl : bytes = pattern ++ behind := cut
  have leads : pattern.isPrefixOf (pattern ++ behind) = true := List.isPrefixOf_iff_prefix.mpr (List.prefix_append _ _)
  simp [atFront?, full, leads]

theorem before_of_atFront? (front : atFront? pattern bytes = some found) : found.before = [] := by
  unfold atFront? at front
  split at front
  · cases front
    rfl
  · cases front

/-- An empty pattern is not found. -/
theorem atFront?_nil (bytes : Bytes) : atFront? [] bytes = none := rfl

theorem first?_nil (bytes : Bytes) : first? [] bytes = none := by
  induction bytes with
  | nil => rfl
  | cons b rest ih => rw [first?, atFront?_nil, ih]; rfl

theorem last?_nil (bytes : Bytes) : last? [] bytes = none := by
  induction bytes with
  | nil => rfl
  | cons b rest ih => rw [last?, ih, atFront?_nil]

/-- Where a pattern stands, the first occurrence of it is found. -/
theorem exists_first? (full : pattern ≠ []) (cut : Cuts pattern bytes found) :
    ∃ least, first? pattern bytes = some least ∧ First pattern bytes least := by
  suffices known : ∀ {found : Occurrence}, Cuts pattern bytes found →
      ∃ least, first? pattern bytes = some least ∧ least.before.length ≤ found.before.length by
    obtain ⟨least, search, _⟩ := known cut
    refine ⟨least, search, first?_eq search, fun other cut' => ?_⟩
    obtain ⟨again, search', less⟩ := known cut'
    cases search.symm.trans search'
    exact less
  clear cut
  induction bytes with
  | nil =>
      intro found cut
      exact absurd cut.pattern_nil full
  | cons b rest ih =>
      intro found cut
      rw [first?]
      cases front : atFront? pattern (b :: rest) with
      | some least => exact ⟨least, rfl, by simp [before_of_atFront? front]⟩
      | none =>
          rcases cut.cases with here | ⟨inner, later, rfl⟩
          · cases (atFront?_eq_some full cut here).symm.trans front
          · obtain ⟨least, search, less⟩ := ih later
            exact ⟨least.shift b, by rw [search]; rfl, Nat.succ_le_succ less⟩

/-- Where a pattern stands, the last occurrence of it is found. -/
theorem exists_last? (full : pattern ≠ []) (cut : Cuts pattern bytes found) :
    ∃ least, last? pattern bytes = some least ∧ Last pattern bytes least := by
  suffices known : ∀ {found : Occurrence}, Cuts pattern bytes found →
      ∃ least, last? pattern bytes = some least ∧ found.before.length ≤ least.before.length by
    obtain ⟨least, search, _⟩ := known cut
    refine ⟨least, search, last?_eq search, fun other cut' => ?_⟩
    obtain ⟨again, search', more⟩ := known cut'
    cases search.symm.trans search'
    have size := (Cuts.length (last?_eq search)).symm.trans cut'.length
    omega
  clear cut
  induction bytes with
  | nil =>
      intro found cut
      exact absurd cut.pattern_nil full
  | cons b rest ih =>
      intro found cut
      rw [last?]
      rcases cut.cases with here | ⟨inner, later, rfl⟩
      · cases search : last? pattern rest with
        | some back => exact ⟨back.shift b, rfl, by simp [here]⟩
        | none => exact ⟨found, atFront?_eq_some full cut here, Nat.le_refl _⟩
      · obtain ⟨least, search, more⟩ := ih later
        exact ⟨least.shift b, by rw [search], Nat.succ_le_succ more⟩

/-- A search that finds the best occurrence where there is any, unless the pattern is empty. -/
theorem cases_of_search {search : Option Occurrence} {Best : Occurrence → Prop}
    (empty : pattern = [] → search = none)
    (sound : ∀ found, search = some found → Cuts pattern bytes found)
    (finds : ∀ found, pattern ≠ [] → Cuts pattern bytes found → ∃ best, search = some best ∧ Best best) :
    (search = none ∧ (pattern = [] ∨ ¬ pattern <:+: bytes)) ∨
      pattern ≠ [] ∧ ∃ found, search = some found ∧ Best found := by
  by_cases full : pattern = []
  · exact .inl ⟨empty full, .inl full⟩
  · by_cases stands : pattern <:+: bytes
    · obtain ⟨found, cut⟩ := exists_cuts_iff.mpr stands
      exact .inr ⟨full, finds found full cut⟩
    · refine .inl ⟨?_, .inr stands⟩
      cases result : search with
      | none => rfl
      | some found => exact absurd (exists_cuts_iff.mp ⟨found, sound found result⟩) stands

/-- The search from the front finds the first occurrence, if the pattern has bytes and stands anywhere. -/
theorem first?_cases (pattern bytes : Bytes) :
    (first? pattern bytes = none ∧ (pattern = [] ∨ ¬ pattern <:+: bytes)) ∨
      pattern ≠ [] ∧ ∃ found, first? pattern bytes = some found ∧ First pattern bytes found :=
  cases_of_search (fun empty => empty ▸ first?_nil bytes) (fun _ => first?_eq) fun _ => exists_first?

/-- The search from the back finds the last occurrence, if the pattern has bytes and stands anywhere. -/
theorem last?_cases (pattern bytes : Bytes) :
    (last? pattern bytes = none ∧ (pattern = [] ∨ ¬ pattern <:+: bytes)) ∨
      pattern ≠ [] ∧ ∃ found, last? pattern bytes = some found ∧ Last pattern bytes found :=
  cases_of_search (fun empty => empty ▸ last?_nil bytes) (fun _ => last?_eq) fun _ => exists_last?

theorem First.stands (first : First pattern bytes found) : pattern <:+: bytes :=
  exists_cuts_iff.mp ⟨found, first.cuts⟩

theorem Last.stands (last : Last pattern bytes found) : pattern <:+: bytes := exists_cuts_iff.mp ⟨found, last.cuts⟩

/-- Behind the last of all occurrences of nothing there is nothing. -/
theorem Last.behind_nil (last : Last [] bytes found) : found.behind = [] := by
  have least := last.least ⟨bytes, []⟩ (by simp [Cuts])
  exact List.length_eq_zero_iff.mp (Nat.le_zero.mp least)

end Occurrence

namespace Extraction

open Occurrence (First Last)

/-- What is behind the header is cut at the last tail. -/
theorem ofBuffer_behind {markers : Markers} {buffer : Bytes} {head : Occurrence}
    (search : Occurrence.first? markers.header buffer = some head) :
    (markers.tail = [] ∨ ¬ markers.tail <:+: head.behind →
      ofBuffer markers buffer = .tailMissing head.before.length head.behind) ∧
    (∀ found, markers.tail ≠ [] → Last markers.tail head.behind found →
      ofBuffer markers buffer = .stripped head.before.length found.before.length found.before) := by
  rw [ofBuffer, search]
  rcases Occurrence.last?_cases markers.tail head.behind with ⟨none, missing⟩ | ⟨full, found, back, last⟩
  · simp only [none]
    refine ⟨fun _ => rfl, fun found full last => ?_⟩
    exact absurd last.stands (missing.resolve_left full)
  · simp only [back]
    refine ⟨fun missing => absurd last.stands (missing.resolve_left full), fun found' _ last' => ?_⟩
    rw [last.eq last']
    rfl

/-- A buffer in which no header stands is taken as it is. In any other one the first header is cut off with all
that is before it, and the last tail behind it with all that is behind the tail; without a tail nothing is cut off
there. An empty marker counts as missing. So of a buffer that was put together around the two markers the part between
them is left, when no header stands earlier and no tail later. -/
theorem ofBuffer_decomposes (markers : Markers) (buffer : Bytes) :
    (markers.header = [] ∨ ¬ markers.header <:+: buffer → ofBuffer markers buffer = .headerMissing buffer) ∧
    (markers.header ≠ [] ∧ markers.header <:+: buffer → ∃ head, First markers.header buffer head ∧
      (markers.tail = [] ∨ ¬ markers.tail <:+: head.behind →
        ofBuffer markers buffer = .tailMissing head.before.length head.behind) ∧
      (markers.tail ≠ [] ∧ markers.tail <:+: head.behind → ∃ found, Last markers.tail head.behind found ∧
        ofBuffer markers buffer = .stripped head.before.length found.before.length found.before)) ∧
    ∀ before payload behind, markers.header ≠ [] →
      First markers.header buffer ⟨before, payload ++ markers.tail ++ behind⟩ →
      Last markers.tail (payload ++ markers.tail ++ behind) ⟨payload, behind⟩ →
        (ofBuffer markers buffer).payload = payload := by
  rcases Occurrence.first?_cases markers.header buffer with ⟨none, missing⟩ | ⟨full, head, search, first⟩
  · refine ⟨fun _ => by rw [ofBuffer, none], fun ⟨full, stands⟩ => ?_, fun _ _ _ full first _ => ?_⟩
    · exact absurd stands (missing.resolve_left full)
    · exact absurd first.stands (missing.resolve_left full)
  · obtain ⟨uncut, cut⟩ := ofBuffer_behind search
    refine ⟨fun missing => absurd first.stands (missing.resolve_left full),
      fun _ => ⟨head, first, uncut, fun ⟨bytes, stands⟩ => ?_⟩, fun before payload behind _ first' last => ?_⟩
    · rcases Occurrence.last?_cases markers.tail head.behind with ⟨_, missing⟩ | ⟨_, found, _, last⟩
      · exact absurd stands (missing.resolve_left bytes)
      · exact ⟨found, last, cut found bytes last⟩
    · obtain rfl := first.eq first'
      by_cases empty : markers.tail = []
      · rw [uncut (.inl empty), Extraction.payload]
        rw [empty] at last
        have nothing : behind = [] := last.behind_nil
        simp [empty, nothing]
      · rw [cut _ empty last, Extraction.payload]

-- The header overlaps itself, and the tail is a part of it.
example : ofBuffer ⟨[1, 1], [1]⟩ [0, 1, 1, 1, 2, 1, 3] = .stripped 1 2 [1, 2] := by decide

end Extraction

end Rebundle
