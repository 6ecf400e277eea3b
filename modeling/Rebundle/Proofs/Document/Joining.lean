import Rebundle.Proofs.Document.Depth
import Rebundle.Proofs.Document.Emitted
import Rebundle.Proofs.Document.Untouched

/-!
# Windows side by side

A window can be written from two windows that meet at an offset, when no edit reaches across the offset and none
inserts there. Each of the edits then lies on one side, and neither side meets the edits of the other: in the left
window they begin too late, and the right window begins behind them.
-/

namespace Rebundle

namespace Edit

/-- Whether an edit lies on one side of an offset: it does not reach across, and it does not insert there. -/
def Aside (middle : Nat) (edit : Edit) : Prop :=
  ¬ (edit.start < middle ∧ middle < edit.stop) ∧ ¬ (edit.start = middle ∧ edit.stop = middle)

theorem Aside.cases {middle : Nat} {edit : Edit} (aside : edit.Aside middle) (proper : edit.start ≤ edit.stop) :
    (edit.start < middle ∧ edit.stop ≤ middle) ∨ (middle ≤ edit.start ∧ middle < edit.stop) := by
  obtain ⟨across, inserts⟩ := aside
  omega

end Edit

namespace Source

variable {source : Bytes} {f : Edit → Except Utf8.EncodeFault Bytes} {edits : List Edit}
  {start middle stop cursor : Nat}

/-- Splices of edits on either side of an offset are put together from the two sides. -/
theorem splice_apart {front back : List Edit} (first : cursor ≤ middle) (second : middle ≤ stop)
    (fits : stop ≤ source.length) (before : ∀ edit ∈ front, edit.stop ≤ middle)
    (behind : ∀ edit ∈ back, middle ≤ edit.start ∧ edit.start ≤ stop) :
    splice source f stop cursor (front ++ back) = (do
      let left ← splice source f middle cursor front
      let right ← splice source f stop middle back
      return left ++ right) := by
  have cut {cursor limit : Nat} (first : cursor ≤ middle) (second : middle ≤ limit) (fits : limit ≤ stop) :
      slice source cursor limit = slice source cursor middle ++ slice source middle limit :=
    slice_append (Int.natCast_nonneg cursor) (by omega) (by omega) (by omega)
  induction front generalizing cursor with
  | nil =>
      cases back with
      | nil => simp only [List.nil_append, splice, cut first second (Nat.le_refl _)]; rfl
      | cons edit rest =>
          obtain ⟨reaches, ends⟩ := behind edit List.mem_cons_self
          simp only [List.nil_append, splice, cut first reaches ends]
          cases f edit with
          | error fault => rfl
          | ok text =>
              cases splice source f stop edit.stop rest with
              | error fault => rfl
              | ok right => simp [Bind.bind, Except.bind, Pure.pure, Except.pure]
  | cons edit rest ih =>
      have later := ih (before edit List.mem_cons_self) fun other mem => before other (List.mem_cons_of_mem _ mem)
      simp only [List.cons_append, splice, later]
      cases f edit with
      | error fault => rfl
      | ok text =>
          cases splice source f middle edit.stop rest with
          | error fault => rfl
          | ok left =>
              cases splice source f stop middle back with
              | error fault => rfl
              | ok right => simp [Bind.bind, Except.bind, Pure.pure, Except.pure]

/-- The edits that a window chooses are those that its two sides choose. -/
theorem chosen_append (sorted : edits.Pairwise fun a b => a.start ≤ b.start)
    (proper : ∀ edit ∈ edits, edit.start ≤ edit.stop) (aside : ∀ edit ∈ edits, edit.Aside middle)
    (first : cursor ≤ middle) (second : middle ≤ stop) :
    chosen stop cursor edits = chosen middle cursor edits ++ chosen stop middle (fromOffset middle edits) := by
  induction edits generalizing cursor with
  | nil => rfl
  | cons edit rest ih =>
      obtain ⟨ahead, sortedRest⟩ := List.pairwise_cons.mp sorted
      have later {cursor : Nat} := @ih cursor sortedRest (fun other mem => proper other (List.mem_cons_of_mem _ mem))
        fun other mem => aside other (List.mem_cons_of_mem _ mem)
      rcases (aside edit List.mem_cons_self).cases (proper edit List.mem_cons_self) with
        ⟨early, ends⟩ | ⟨late, _⟩
      · -- the edit lies on the left, and the window takes it where its left side does
        have passed : fromOffset middle (edit :: rest) = fromOffset middle rest :=
          List.dropWhile_cons_of_pos (by simpa using early)
        have inside {limit : Nat} (fits : middle ≤ limit) : ¬ (limit : Int) < edit.start := by omega
        have within {limit : Nat} (fits : middle ≤ limit) : decide ((limit : Int) < edit.stop) = false := by
          simp only [decide_eq_false_iff_not]
          omega
        rw [passed, chosen, chosen, if_neg (inside second), if_neg (inside (Nat.le_refl _)), within second,
          within (Nat.le_refl _)]
        split
        · exact later first
        · rw [later ends, List.cons_append]
      · -- from here on all edits lie on the right
        have behind : ∀ other ∈ edit :: rest, middle ≤ other.start := by
          intro other mem
          rcases List.mem_cons.mp mem with rfl | mem
          · exact late
          · exact Nat.le_trans late (ahead other mem)
        have none : chosen middle cursor (edit :: rest) = [] := by
          refine chosen_eq_nil fun other mem => .inr ?_
          rcases (aside other mem).cases (proper other mem) with ⟨early, _⟩ | ⟨_, ends⟩
          · exact absurd (behind other mem) (Nat.not_le_of_lt early)
          · exact Int.ofNat_lt.mpr ends
        have kept : fromOffset middle (edit :: rest) = edit :: rest :=
          List.dropWhile_cons_of_neg (by simpa using late)
        rw [none, kept, List.nil_append]
        exact chosen_of_behind (by omega) fun other mem => Int.ofNat_le.mpr (behind other mem)

theorem fromOffset_fromOffset (sorted : edits.Pairwise fun a b => a.precedes b = true) {start middle : Int}
    (first : start ≤ middle) : fromOffset middle (fromOffset start edits) = fromOffset middle edits := by
  rw [fromOffset_eq_filter (sorted.sublist (fromOffset_sublist start edits)), fromOffset_eq_filter sorted,
    fromOffset_eq_filter sorted, List.filter_filter]
  refine List.filter_congr fun edit _ => ?_
  rw [Bool.eq_iff_iff]
  simp only [Bool.and_eq_true, decide_eq_true_eq]
  omega

/-- A window is written from two windows that meet where no edit stands. -/
theorem window_append (sorted : edits.Pairwise fun a b => a.precedes b = true)
    (proper : ∀ edit ∈ edits, edit.start ≤ edit.stop) (aside : ∀ edit ∈ edits, edit.Aside middle)
    (first : start ≤ middle) (second : middle ≤ stop) (fits : stop ≤ source.length) :
    window source edits start stop = (do
      let left ← window source edits start middle
      let right ← window source edits middle stop
      return left ++ right) := by
  have within := fromOffset_sublist start edits
  have ascending : (fromOffset start edits).Pairwise fun a b => a.start ≤ b.start :=
    (sorted.imp Edit.start_le_of_precedes).sublist within
  have sides := chosen_append ascending (fun edit mem => proper edit (within.mem mem))
    (fun edit mem => aside edit (within.mem mem)) first second
  rw [window_eq, window_eq, window_eq, sides, fromOffset_fromOffset sorted (Int.ofNat_le.mpr first)]
  refine splice_apart first second fits (fun edit mem => ?_) fun edit mem => ?_
  · have bounds := chosen_within (fun other mem => proper other (within.mem mem)) mem
    exact Int.ofNat_le.mp bounds.2
  · have bounds := chosen_within (fun other mem => proper other ((fromOffset_sublist _ _).mem mem)) mem
    exact ⟨Int.ofNat_le.mp bounds.1, Int.ofNat_le.mp (start_le_of_chosen mem)⟩

end Source

/-- Whatever is recorded and hidden: a window is written from two windows that meet at an offset which lies inside
no visible edit and at which none inserts. -/
theorem Document.window_joins (source : Bytes) (calls : List Call) (hidden : List Nat) {start middle stop : Nat}
    (first : start ≤ middle) (second : middle ≤ stop) (fits : stop ≤ source.length)
    (aside : ∀ edit ∈ (serve source calls).2.edits, edit.seq ∉ hidden →
      ¬ (edit.start < middle ∧ middle < edit.stop) ∧ ¬ (edit.start = middle ∧ edit.stop = middle)) :
    let window := Source.window source (Edit.visible hidden (serve source calls).2.edits)
    window start stop = do
      let left ← window start middle
      let right ← window middle stop
      return left ++ right := by
  obtain ⟨served, _⟩ := serve_ledger source calls
  have visible := Edit.visible_sublist hidden (serve source calls).2.edits
  refine Source.window_append (served.kept.sorted.sublist visible)
    (fun edit mem => (served.kept.inside edit (visible.mem mem)).1) (fun edit mem => ?_) first second fits
  obtain ⟨known, seen⟩ := List.mem_filter.mp mem
  exact aside edit known (by simpa using seen)

/-- An edit across the offset that is hidden, and one on each side. -/
def Document.spaced : List Call :=
  [.remove 1 3 false [], .insert 1 [.span ⟨2, 4, []⟩] [], .replace 2 3 [.span ⟨0, 2, [0]⟩] []]

theorem Document.window_joins_spaced :
    let window := Source.window [0x61, 0x62, 0x63, 0x64]
      (Edit.visible [0] (serve [0x61, 0x62, 0x63, 0x64] spaced).2.edits)
    window 0 4 = (do
      let left ← window 0 2
      let right ← window 2 4
      return left ++ right) :=
  window_joins [0x61, 0x62, 0x63, 0x64] spaced [0] (by decide) (by decide) (by decide) (by decide)

end Rebundle
