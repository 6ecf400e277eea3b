import Rebundle.Release.Version

/-!
# The announced version

An announcement is complete when its value stands between two quotes and has a character. The search tries
every place of a script from the left, so an announcement that is empty or never closed does not keep it from
a complete one, wherever the two stand.
-/

namespace Rebundle

namespace Text

/-- A text is cut at the first mark. -/
theorem cut?_eq_some_iff {mark : CodePoint} {t front back : Text} :
    cut? mark t = some (front, back) ↔ t = front ++ mark :: back ∧ mark ∉ front := by
  rw [cut?]
  constructor
  · intro cut
    have whole := List.takeWhile_append_dropWhile (p := (· != mark)) (l := t)
    have clear : mark ∉ t.takeWhile (· != mark) := fun mem => by
      simpa using List.all_eq_true.mp List.all_takeWhile mark mem
    split at cut
    · cases cut
    · rename_i c rest behind
      obtain ⟨rfl, rfl⟩ := Prod.mk.inj (Option.some.inj cut)
      have stops := List.head?_dropWhile_not (· != mark) t
      simp only [behind, List.head?_cons, bne_eq_false_iff_eq] at stops
      rw [behind, stops] at whole
      exact ⟨whole.symm, clear⟩
  · rintro ⟨rfl, free⟩
    have passes : ∀ c ∈ front, (c != mark) = true := by
      intro c mem
      rw [bne_iff_ne]
      rintro rfl
      exact free mem
    rw [List.dropWhile_append_of_pos passes, List.takeWhile_append_of_pos passes]
    simp

theorem after?_eq_some_iff {lead t rest : Text} : after? lead t = some rest ↔ t = lead ++ rest := by
  rw [after?]
  constructor
  · intro found
    split at found
    · rename_i leads
      obtain ⟨behind, rfl⟩ := List.isPrefixOf_iff_prefix.mp leads
      rw [List.drop_left] at found
      rw [Option.some.inj found]
    · cases found
  · rintro rfl
    rw [if_pos (List.isPrefixOf_iff_prefix.mpr (List.prefix_append _ _)), List.drop_left]

end Text

namespace Version

/-- A script cut at an announcement: what stands before it, its value, and what stands behind it. -/
structure Announcement where
  before : Text
  value : Text
  behind : Text

namespace Announcement

/-- The announcement one character further on. -/
def shift (c : CodePoint) (found : Announcement) : Announcement := { found with before := c :: found.before }

/-- Whether a script has a complete announcement there. -/
structure Stands (script : Text) (found : Announcement) : Prop where
  cuts : script = found.before ++ opening ++ found.value ++ ('"' : CodePoint) :: found.behind
  full : found.value ≠ []
  unquoted : ('"' : CodePoint) ∉ found.value

/-- A complete announcement before which there is as little as possible. -/
structure Leftmost (script : Text) (found : Announcement) : Prop where
  stands : Stands script found
  least : ∀ other, Stands script other → found.before.length ≤ other.before.length

variable {script rest : Text} {c : CodePoint} {found other : Announcement}

theorem not_stands_nil : ¬ Stands [] found := by
  intro stands
  have cuts := congrArg List.length stands.cuts
  simp at cuts

theorem Stands.shift (stands : Stands rest found) : Stands (c :: rest) (found.shift c) where
  cuts := congrArg (c :: ·) stands.cuts
  full := stands.full
  unquoted := stands.unquoted

/-- An announcement stands at the very front or further on. -/
theorem Stands.cases (stands : Stands (c :: rest) found) :
    found.before = [] ∨ ∃ inner, Stands rest inner ∧ found = inner.shift c := by
  obtain ⟨cuts, full, unquoted⟩ := stands
  obtain ⟨_ | ⟨d, before⟩, value, behind⟩ := found
  · exact .inl rfl
  · obtain ⟨rfl, later⟩ := List.cons.inj cuts
    exact .inr ⟨⟨before, value, behind⟩, ⟨later, full, unquoted⟩, rfl⟩

/-- Announcements with equally much before them have the same value: each value ends at the next quote. -/
theorem Stands.value_eq (stands : Stands script found) (stands' : Stands script other)
    (same : found.before.length = other.before.length) : found.value = other.value := by
  have both := stands.cuts.symm.trans stands'.cuts
  rw [List.append_assoc, List.append_assoc, List.append_assoc, List.append_assoc] at both
  obtain ⟨_, both⟩ := List.append_inj both same
  have cut : Text.cut? '"' (found.value ++ ('"' : CodePoint) :: found.behind) = some (found.value, found.behind) :=
    Text.cut?_eq_some_iff.mpr ⟨rfl, stands.unquoted⟩
  have cut' := Text.cut?_eq_some_iff.mpr ⟨List.append_cancel_left both, stands'.unquoted⟩
  exact congrArg Prod.fst (Option.some.inj (cut.symm.trans cut'))

theorem Leftmost.value_eq (leftmost : Leftmost script found) (leftmost' : Leftmost script other) :
    found.value = other.value :=
  leftmost.stands.value_eq leftmost'.stands
    (Nat.le_antisymm (leftmost.least other leftmost'.stands) (leftmost'.least found leftmost.stands))

end Announcement

open Announcement

variable {script value : Text}

/-- At the very front exactly the complete announcements are read. -/
theorem atFront?_eq_some_iff :
    atFront? script = some value ↔ ∃ behind, Stands script ⟨[], value, behind⟩ := by
  rw [atFront?]
  constructor
  · intro read
    split at read
    · cases read
    · rename_i rest opens
      split at read
      · rename_i c front behind cut
        cases read
        obtain ⟨rfl, unquoted⟩ := Text.cut?_eq_some_iff.mp cut
        refine ⟨behind, ?_, List.cons_ne_nil _ _, unquoted⟩
        rw [Text.after?_eq_some_iff.mp opens, List.nil_append, List.append_assoc]
      · cases read
  · rintro ⟨behind, cuts, full, unquoted⟩
    rw [List.nil_append, List.append_assoc] at cuts
    rw [Text.after?_eq_some_iff.mpr cuts]
    obtain ⟨c, front, rfl⟩ := List.exists_cons_of_ne_nil full
    simp only [Text.cut?_eq_some_iff.mpr ⟨rfl, unquoted⟩]

/-- The search gives the value of the leftmost complete announcement, if there is any. -/
theorem announced?_cases (script : Text) :
    (announced? script = none ∧ ∀ found, ¬ Stands script found) ∨
      ∃ found, announced? script = some found.value ∧ Leftmost script found := by
  induction script with
  | nil => exact .inl ⟨rfl, fun _ => not_stands_nil⟩
  | cons c rest ih =>
      rw [announced?]
      cases front : atFront? (c :: rest) with
      | some value =>
          obtain ⟨behind, stands⟩ := atFront?_eq_some_iff.mp front
          exact .inr ⟨⟨[], value, behind⟩, rfl, stands, fun _ _ => Nat.zero_le _⟩
      | none =>
          -- what stands in the script does not stand at its front, so it stands in the rest
          have further {other : Announcement} (stands : Stands (c :: rest) other) :
              ∃ inner, Stands rest inner ∧ other = inner.shift c := by
            rcases stands.cases with here | later
            · obtain ⟨before, value, behind⟩ := other
              obtain rfl : before = [] := here
              rw [atFront?_eq_some_iff.mpr ⟨behind, stands⟩] at front
              cases front
            · exact later
          rcases ih with ⟨none, missing⟩ | ⟨found, search, leftmost⟩
          · refine .inl ⟨none, fun other stands => ?_⟩
            obtain ⟨inner, later, _⟩ := further stands
            exact missing inner later
          · refine .inr ⟨found.shift c, search, leftmost.stands.shift, fun other stands => ?_⟩
            obtain ⟨inner, later, rfl⟩ := further stands
            exact Nat.succ_le_succ (leftmost.least inner later)

/-- A script announces a version exactly when it is the value of the leftmost complete announcement, and it
announces none exactly when no complete announcement stands in it, whatever else does. -/
theorem announced?_leftmost (script : Text) :
    (∀ value, announced? script = some value ↔ ∃ found, Leftmost script found ∧ found.value = value) ∧
      (announced? script = none ↔ ∀ found, ¬ Stands script found) := by
  rcases announced?_cases script with ⟨none, missing⟩ | ⟨found, search, leftmost⟩
  · refine ⟨fun value => ?_, by simpa [none] using missing⟩
    rw [none]
    constructor
    · intro impossible
      cases impossible
    · rintro ⟨other, leftmost, _⟩
      exact absurd leftmost.stands (missing other)
  · rw [search]
    refine ⟨fun value => ?_, ?_⟩
    · constructor
      · intro same
        exact ⟨found, leftmost, Option.some.inj same⟩
      · rintro ⟨other, leftmost', rfl⟩
        rw [leftmost.value_eq leftmost']
    · constructor
      · intro impossible
        cases impossible
      · intro missing
        exact absurd leftmost.stands (missing found)

-- An empty announcement in front and one that is never closed behind.
example : announced? "VER=\"\" VER=\"1\" VER=\"2" = some "1" := by decide

end Version

end Rebundle
