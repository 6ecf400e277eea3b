import Rebundle.Proofs.Document.Gaps

/-!
# Untouched runs

Between edits the source is written as it is: where no edit reaches into a run of the source, what is written is
what stands for the source in front of the run, the run itself, and what stands for the source behind it.
-/

namespace Rebundle

namespace Source

variable {source : Bytes} {f : Edit → Except Utf8.EncodeFault Bytes} {edits : List Edit}

/-- Where a scan begins does not matter in front of the edits that it meets. -/
theorem chosen_of_behind {stop cursor start : Int} (before : cursor ≤ start)
    (behind : ∀ edit ∈ edits, start ≤ edit.start) : chosen stop cursor edits = chosen stop start edits := by
  induction edits with
  | nil => rfl
  | cons edit rest ih =>
      have late := behind edit List.mem_cons_self
      rw [chosen, chosen, ih fun other mem => behind other (List.mem_cons_of_mem _ mem),
        decide_eq_false (show ¬ (edit.start : Int) < cursor by omega),
        decide_eq_false (show ¬ (edit.start : Int) < start by omega)]

theorem splice_of_behind {cursor start : Nat} (before : cursor ≤ start) (fits : start ≤ source.length)
    (behind : ∀ edit ∈ edits, start ≤ edit.start ∧ edit.start ≤ source.length) :
    splice source f source.length cursor edits =
      (splice source f source.length start edits).map (slice source cursor start ++ ·) := by
  have begins : (0 : Int) ≤ cursor := Int.natCast_nonneg cursor
  cases edits with
  | nil =>
      rw [splice, splice, slice_append begins (Int.ofNat_le.mpr before) (Int.ofNat_le.mpr fits) (Int.le_refl _)]
      rfl
  | cons edit rest =>
      obtain ⟨late, inside⟩ := behind edit List.mem_cons_self
      have cut := slice_append begins (Int.ofNat_le.mpr before) (Int.ofNat_le.mpr late) (Int.ofNat_le.mpr inside)
      rw [splice, splice, cut]
      cases f edit with
      | error fault => rfl
      | ok text =>
          cases splice source f source.length edit.stop rest with
          | error fault => rfl
          | ok rest => simp [Bind.bind, Except.bind, Pure.pure, Except.pure, Except.map]

theorem start_le_of_chosen {stop cursor : Int} {edit : Edit} (mem : edit ∈ chosen stop cursor edits) :
    (edit.start : Int) ≤ stop := by
  induction edits generalizing cursor with
  | nil => cases mem
  | cons other rest ih =>
      rw [chosen] at mem
      split at mem
      · cases mem
      · rename_i inside
        split at mem
        · exact ih mem
        · rcases List.mem_cons.mp mem with rfl | mem
          · omega
          · exact ih mem

/-- An edit that ends in front of the limit is chosen unless it begins in front of the scan. -/
theorem chosen_of_before {limit cursor : Nat} {edit : Edit} {rest : List Edit} (proper : edit.start ≤ edit.stop)
    (ends : edit.stop ≤ limit) : chosen limit cursor (edit :: rest) =
      if edit.start < cursor then chosen limit cursor rest else edit :: chosen limit edit.stop rest := by
  rw [chosen, if_neg (by omega), decide_eq_false (show ¬ (limit : Int) < edit.stop by omega), Bool.or_false]
  simp only [decide_eq_true_eq, Int.ofNat_lt]

/-- Where all edits lie behind a run, the source is written up to its end. -/
theorem splice_around_of_behind {cursor start stop : Nat} (behind : ∀ edit ∈ edits, stop ≤ edit.start)
    (before : cursor ≤ start) (run : start < stop) (fits : stop ≤ source.length) :
    splice source f source.length cursor (chosen source.length cursor edits) =
      (splice source f source.length stop (chosen source.length stop edits)).map
        (slice source cursor start ++ slice source start stop ++ ·) := by
  have cut : slice source cursor stop = slice source cursor start ++ slice source start stop :=
    slice_append (Int.natCast_nonneg cursor) (Int.ofNat_le.mpr before) (Int.ofNat_le.mpr (Nat.le_of_lt run))
      (Int.ofNat_le.mpr fits)
  have among : ∀ other ∈ chosen source.length stop edits, stop ≤ other.start ∧ other.start ≤ source.length :=
    fun other mem => ⟨behind other ((chosen_sublist _ _ _).mem mem), Int.ofNat_le.mp (start_le_of_chosen mem)⟩
  rw [chosen_of_behind (by omega) fun other mem => Int.ofNat_le.mpr (behind other mem),
    splice_of_behind (by omega) fits among, cut]

/-- Splices fall apart around a run that no edit touches. -/
theorem splice_around {cursor start stop : Nat} (sorted : edits.Pairwise fun a b => a.start ≤ b.start)
    (proper : ∀ edit ∈ edits, edit.start ≤ edit.stop)
    (untouched : ∀ edit ∈ edits, edit.stop ≤ start ∨ stop ≤ edit.start) (before : cursor ≤ start)
    (run : start < stop) (fits : stop ≤ source.length) :
    splice source f source.length cursor (chosen source.length cursor edits) = (do
      let front ← splice source f start cursor (chosen start cursor edits)
      let back ← splice source f source.length stop (chosen source.length stop (fromOffset stop edits))
      return front ++ slice source start stop ++ back) := by
  induction edits generalizing cursor with
  | nil => exact splice_around_of_behind (fun _ none => absurd none List.not_mem_nil) before run fits
  | cons edit rest ih =>
      obtain ⟨first, sortedRest⟩ := List.pairwise_cons.mp sorted
      have ordered := proper edit List.mem_cons_self
      have later {cursor : Nat} := @ih cursor sortedRest (fun other mem => proper other (List.mem_cons_of_mem _ mem))
        fun other mem => untouched other (List.mem_cons_of_mem _ mem)
      rcases untouched edit List.mem_cons_self with early | late
      · -- the edit lies in front of the run and is chosen on both sides or on none
        have passed : fromOffset stop (edit :: rest) = fromOffset stop rest :=
          List.dropWhile_cons_of_pos (by simp; omega)
        rw [passed, chosen_of_before ordered (by omega), chosen_of_before ordered early]
        split
        · exact later before
        · rw [splice, splice, later early]
          simp only [Bind.bind, Except.bind, Pure.pure, Except.pure]
          cases f edit with
          | error fault => rfl
          | ok text =>
              cases splice source f start edit.stop (chosen start edit.stop rest) with
              | error fault => rfl
              | ok front =>
                  cases splice source f source.length stop (chosen source.length stop (fromOffset stop rest)) with
                  | error fault => rfl
                  | ok back => simp
      · -- all edits from here on lie behind the run
        have behind : ∀ other ∈ edit :: rest, stop ≤ other.start := by
          intro other mem
          rcases List.mem_cons.mp mem with rfl | mem
          · exact late
          · exact Nat.le_trans late (first other mem)
        have none : chosen start cursor (edit :: rest) = [] := by rw [chosen, if_pos (by omega)]
        have kept : fromOffset stop (edit :: rest) = edit :: rest :=
          List.dropWhile_cons_of_neg (by simpa using late)
        rw [splice_around_of_behind behind before run fits, none, kept, splice]
        rfl

end Source

namespace Document

/-- A run of the source into which no edit reaches. -/
structure Untouched (doc : Document) (start stop : Nat) : Prop where
  run : start < stop
  fits : stop ≤ doc.source.length
  apart : ∀ edit ∈ doc.edits, edit.stop ≤ start ∨ stop ≤ edit.start

/-- A rendering falls apart around a run of the source that no edit touches: it is what stands for the source in
front of the run, the run itself, and what stands for the source behind the run. -/
theorem render_around {doc : Document} (sorted : doc.edits.Pairwise fun a b => a.start ≤ b.start)
    (proper : ∀ edit ∈ doc.edits, edit.start ≤ edit.stop) {start stop : Nat}
    (untouched : doc.Untouched start stop)
    {rendered : Bytes} (made : doc.render = .ok rendered) :
    ∃ front back, Source.window doc.source doc.edits 0 start = .ok front ∧
      Source.window doc.source doc.edits stop doc.source.length = .ok back ∧
      rendered = front ++ Source.slice doc.source start stop ++ back := by
  have all : Source.fromOffset 0 doc.edits = doc.edits := by
    unfold Source.fromOffset
    cases doc.edits with
    | nil => rfl
    | cons edit rest => exact List.dropWhile_cons_of_neg (by simp)
  have around := @Source.splice_around doc.source (Source.replacement doc.source doc.edits) doc.edits 0 start stop
    sorted proper untouched.apart (Nat.zero_le start) untouched.run untouched.fits
  rw [Document.render, Source.window_eq, all] at made
  rw [Source.window_eq, Source.window_eq, all]
  rw [Int.natCast_zero, made] at around
  cases front : Source.splice doc.source (Source.replacement doc.source doc.edits) start 0
      (Source.chosen start 0 doc.edits) with
  | error fault =>
      rw [front] at around
      cases around
  | ok front' =>
      cases back : Source.splice doc.source (Source.replacement doc.source doc.edits) doc.source.length stop
          (Source.chosen doc.source.length stop (Source.fromOffset stop doc.edits)) with
      | error fault =>
          rw [front, back] at around
          cases around
      | ok back' =>
          rw [front, back] at around
          exact ⟨front', back', rfl, rfl, Except.ok.inj around⟩

end Document

end Rebundle
