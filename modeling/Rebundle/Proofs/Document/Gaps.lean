import Rebundle.Proofs.Document.Erasure
import Rebundle.Proofs.Document.Extent

/-!
# Gaps between edits

What a pane writes can be taken apart at an offset that no edit stands across. Where edits only delete,
what is left are the bytes of the source that they do not cover.
-/

namespace Rebundle

/-- A row can be cut where it stops to have a property for good. -/
theorem List.filter_append_filter_not_of_pairwise {α : Type} {p : α → Bool} {l : List α}
    (falls : l.Pairwise fun a b => p b = true → p a = true) :
    l = l.filter p ++ l.filter fun a => !p a := by
  induction l with
  | nil => rfl
  | cons a rest ih =>
      obtain ⟨first, later⟩ := List.pairwise_cons.mp falls
      cases here : p a with
      | true => simpa [here] using ih later
      | false =>
          have none : rest.filter p = [] := by
            rw [List.filter_eq_nil_iff]
            intro b mem holds
            rw [first b mem holds] at here
            cases here
          have all : (rest.filter fun a => !p a) = rest := by
            rw [List.filter_eq_self]
            intro b mem
            rw [Bool.not_eq_true', Bool.eq_false_iff]
            exact fun holds => by rw [first b mem holds] at here; cases here
          simp [here, none, all]

namespace Source

theorem slice_append {source : Bytes} {start middle stop : Int} (begins : 0 ≤ start)
    (first : start ≤ middle) (second : middle ≤ stop) (fits : stop ≤ (source.length : Int)) :
    slice source start stop = slice source start middle ++ slice source middle stop := by
  obtain ⟨i, rfl⟩ := Int.eq_ofNat_of_zero_le begins
  obtain ⟨j, rfl⟩ := Int.eq_ofNat_of_zero_le (Int.le_trans begins first)
  obtain ⟨k, rfl⟩ := Int.eq_ofNat_of_zero_le (Int.le_trans (Int.le_trans begins first) second)
  simp only [slice, resolve_natCast (show i ≤ source.length by omega),
    resolve_natCast (show j ≤ source.length by omega), resolve_natCast (show k ≤ source.length by omega)]
  rw [show k - i = (j - i) + (k - j) by omega, List.take_add, List.drop_drop,
    show i + (j - i) = j by omega]

/-- Cuts at edits on either side of an offset are put together from the two sides. -/
theorem assemble_cut_append {source : Bytes} {inner : Edit → List Piece} {stop cursor middle : Int}
    {front back : List Edit} (begins : 0 ≤ cursor) (first : cursor ≤ middle) (second : middle ≤ stop)
    (fits : stop ≤ (source.length : Int))
    (before : ∀ edit ∈ front, edit.start ≤ edit.stop ∧ (edit.stop : Int) ≤ middle)
    (behind : ∀ edit ∈ back, middle ≤ (edit.start : Int) ∧ (edit.start : Int) ≤ stop) :
    Piece.assemble source (cut inner stop cursor (front ++ back)) = (do
      let start ← Piece.assemble source (cut inner middle cursor front)
      let rest ← Piece.assemble source (cut inner stop middle back)
      return start ++ rest) := by
  rw [← Piece.assemble_append]
  induction front generalizing cursor with
  | nil =>
      cases back with
      | nil =>
          simp only [List.nil_append, cut, List.cons_append, Piece.assemble, Piece.bytes, Bind.bind,
            Except.bind, Pure.pure, Except.pure, List.append_nil]
          rw [slice_append begins first second fits]
      | cons edit rest =>
          obtain ⟨reaches, ends⟩ := behind edit List.mem_cons_self
          simp only [List.nil_append, cut, List.cons_append, Piece.assemble, Piece.bytes, Bind.bind,
            Except.bind, Pure.pure, Except.pure]
          rw [slice_append begins first reaches (by omega)]
          cases Piece.assemble source (inner edit ++ cut inner stop edit.stop rest) with
          | error fault => rfl
          | ok bytes => simp
  | cons edit rest ih =>
      obtain ⟨proper, ends⟩ := before edit List.mem_cons_self
      have later := @ih edit.stop (by omega) ends
        fun other mem => before other (List.mem_cons_of_mem _ mem)
      simp only [List.cons_append, cut, List.append_assoc, Piece.assemble, Piece.assemble_append source (inner edit)]
      rw [later]

/-- The bytes of a range that no edit covers. -/
def uncovered (source : Bytes) (edits : List Edit) (start stop : Nat) : Bytes :=
  (List.range' start (stop - start)).filterMap fun i =>
    if edits.any fun edit => edit.start ≤ i && i < edit.stop then none else source[i]?

theorem mem_uncovered {source : Bytes} {edits : List Edit} {start stop : Nat} {b : UInt8} :
    b ∈ uncovered source edits start stop ↔ ∃ i, start ≤ i ∧ i < stop ∧ source[i]? = some b ∧
      ∀ edit ∈ edits, ¬ (edit.start ≤ i ∧ i < edit.stop) := by
  simp only [uncovered, List.mem_filterMap, List.mem_range'_1]
  constructor
  · rintro ⟨i, inside, found⟩
    split at found
    · cases found
    · rename_i free
      refine ⟨i, inside.1, by omega, found, fun edit mem covers => free ?_⟩
      exact List.any_eq_true.mpr ⟨edit, mem, by simpa using covers⟩
  · rintro ⟨i, begins, ends, found, free⟩
    refine ⟨i, ⟨begins, by omega⟩, ?_⟩
    rw [if_neg]
    · exact found
    · rw [List.any_eq_true]
      rintro ⟨edit, mem, covers⟩
      exact free edit mem (by simpa using covers)

theorem uncovered_append {source : Bytes} {edits : List Edit} {start middle stop : Nat}
    (first : start ≤ middle) (second : middle ≤ stop) : uncovered source edits start stop =
      uncovered source edits start middle ++ uncovered source edits middle stop := by
  simp only [uncovered]
  rw [← List.filterMap_append, show stop - start = (middle - start) + (stop - middle) by omega,
    ← List.range'_append_1, show start + (middle - start) = middle by omega]

theorem uncovered_congr {source : Bytes} {edits fewer : List Edit} {start stop : Nat}
    (same : ∀ i, start ≤ i → i < stop →
      ((∃ edit ∈ edits, edit.start ≤ i ∧ i < edit.stop) ↔
        ∃ edit ∈ fewer, edit.start ≤ i ∧ i < edit.stop)) :
    uncovered source edits start stop = uncovered source fewer start stop := by
  simp only [uncovered]
  apply List.filterMap_congr
  intro i mem
  rw [List.mem_range'_1] at mem
  have agree : (edits.any fun edit => edit.start ≤ i && i < edit.stop) =
      fewer.any fun edit => edit.start ≤ i && i < edit.stop := by
    rw [Bool.eq_iff_iff, List.any_eq_true, List.any_eq_true]
    simpa using same i mem.1 (by omega)
  rw [agree]

theorem uncovered_nil {source : Bytes} {start stop : Nat} (ordered : start ≤ stop)
    (fits : stop ≤ source.length) : uncovered source [] start stop = slice source start stop := by
  simp only [uncovered, List.any_nil, Bool.false_eq_true, if_false]
  rw [slice, resolve_natCast (Nat.le_trans ordered fits), resolve_natCast fits]
  obtain ⟨count, rfl⟩ := Nat.exists_eq_add_of_le ordered
  rw [Nat.add_sub_cancel_left]
  induction count generalizing start with
  | zero => rfl
  | succ count ih =>
      have later := ih (Nat.le_add_right (start + 1) count) (by omega)
      have inside : start < source.length := by omega
      rw [List.range'_succ, List.filterMap_cons, List.getElem?_eq_getElem inside, later,
        List.drop_eq_getElem_cons inside, List.take_succ_cons]

/-- Where a range is covered by one edit nothing is left of it. -/
theorem uncovered_of_covered {source : Bytes} {edits : List Edit} {edit : Edit} (mem : edit ∈ edits) :
    uncovered source edits edit.start edit.stop = [] := by
  rw [List.eq_nil_iff_forall_not_mem]
  intro b left
  obtain ⟨i, begins, ends, _, free⟩ := mem_uncovered.mp left
  exact free edit mem ⟨begins, ends⟩

/-- Cuts at edits that only delete leave what the edits do not cover. -/
theorem assemble_cut_deletions {source : Bytes} {inner : Edit → List Piece} {start stop : Nat}
    {edits : List Edit} (ordered : start ≤ stop) (fits : stop ≤ source.length)
    (deletes : ∀ edit ∈ edits, inner edit = [.text edit []])
    (apart : edits.Pairwise fun a b => a.stop ≤ b.start)
    (inside : ∀ edit ∈ edits, start ≤ edit.start ∧ edit.start ≤ edit.stop ∧ edit.stop ≤ stop) :
    Piece.assemble source (cut inner stop start edits) = .ok (uncovered source edits start stop) := by
  induction edits generalizing start with
  | nil =>
      rw [uncovered_nil ordered fits, cut]
      simp only [Piece.assemble, Piece.bytes, Bind.bind, Except.bind, Pure.pure, Except.pure, List.append_nil]
  | cons edit rest ih =>
      obtain ⟨later, apartRest⟩ := List.pairwise_cons.mp apart
      obtain ⟨begins, proper, ends⟩ := inside edit List.mem_cons_self
      have behind := ih ends (fun other mem => deletes other (List.mem_cons_of_mem _ mem)) apartRest
        fun other mem => ⟨later other mem, (inside other (List.mem_cons_of_mem _ mem)).2⟩
      have front : uncovered source (edit :: rest) start edit.start = slice source start edit.start := by
        rw [← uncovered_nil begins (by omega)]
        apply uncovered_congr
        intro i _ before
        simp only [List.not_mem_nil, false_and, exists_false, iff_false]
        rintro ⟨other, mem, covers⟩
        rcases List.mem_cons.mp mem with rfl | mem
        · omega
        · have := later other mem
          omega
      have back : uncovered source (edit :: rest) edit.stop stop = uncovered source rest edit.stop stop := by
        apply uncovered_congr
        intro i behind _
        constructor
        · rintro ⟨other, mem, covers⟩
          rcases List.mem_cons.mp mem with rfl | mem
          · omega
          · exact ⟨other, mem, covers⟩
        · rintro ⟨other, mem, covers⟩
          exact ⟨other, List.mem_cons_of_mem _ mem, covers⟩
      rw [uncovered_append begins (Nat.le_trans proper ends), uncovered_append proper ends, front, back,
        uncovered_of_covered List.mem_cons_self, cut, deletes edit List.mem_cons_self]
      simp only [List.cons_append, List.nil_append, Piece.assemble, Piece.bytes, behind, Bind.bind, Except.bind,
        Utf8.encodeEscaped]
      rfl

end Source

namespace Pane

/-- The pieces that a pane is written in between two offsets. -/
def stretch (pane : Pane) (start stop : Int) : List Piece :=
  Source.cut pane.replaced stop start (pane.edited.filter fun edit => edit.within start stop)

/-- Whether every edit that a pane writes stands on one side of an offset. -/
def Clear (pane : Pane) (middle : Int) : Prop :=
  ∀ edit ∈ pane.edited, (edit.start < middle ∧ edit.stop ≤ middle) ∨
    (middle ≤ edit.start ∧ middle < edit.stop)

namespace Sound

open Source

variable {source : Bytes} {pane : Pane} (sound : pane.Sound source.length)

include sound

/-- The whole of a pane is what is written between its ends. -/
theorem stretch_self : pane.stretch pane.start pane.stop = pane.pieces := by
  rw [pane.pieces_eq, stretch, List.filter_eq_self.mpr]
  intro edit mem
  exact (sound.mem_edited.mp mem).2.1

/-- What is written between two offsets is put together from two sides of a clear offset. -/
theorem assemble_stretch {start middle stop : Int} (clear : pane.Clear middle) (begins : 0 ≤ start)
    (first : start ≤ middle) (second : middle ≤ stop) (fits : stop ≤ (source.length : Int)) :
    Piece.assemble source (pane.stretch start stop) = (do
      let front ← Piece.assemble source (pane.stretch start middle)
      let back ← Piece.assemble source (pane.stretch middle stop)
      return front ++ back) := by
  have proper : ∀ edit ∈ pane.edited, edit.start ≤ edit.stop := fun edit mem =>
    sound.orderly.proper edit (pane.edited_sublist.mem mem)
  have ordered : (pane.edited.filter fun edit => edit.within start stop).Pairwise fun a b =>
      decide ((b.stop : Int) ≤ middle) = true → decide ((a.stop : Int) ≤ middle) = true := by
    refine List.Pairwise.imp_of_mem ?_ (sound.edited_ordered.sublist List.filter_sublist)
    intro a b _ memB before
    have := proper b (List.mem_of_mem_filter memB)
    simp only [decide_eq_true_eq]
    omega
  have front : (pane.edited.filter fun edit => edit.within start stop).filter
      (fun edit => decide ((edit.stop : Int) ≤ middle)) =
        pane.edited.filter fun edit => edit.within start middle := by
    rw [List.filter_filter]
    apply List.filter_congr
    intro edit _
    rw [Bool.eq_iff_iff, Bool.and_eq_true, decide_eq_true_eq, Edit.within_iff, Edit.within_iff]
    omega
  have back : (pane.edited.filter fun edit => edit.within start stop).filter
      (fun edit => !decide ((edit.stop : Int) ≤ middle)) =
        pane.edited.filter fun edit => edit.within middle stop := by
    rw [List.filter_filter]
    apply List.filter_congr
    intro edit mem
    have side := clear edit mem
    rw [Bool.eq_iff_iff, Bool.and_eq_true, Bool.not_eq_true', decide_eq_false_iff_not, Edit.within_iff,
      Edit.within_iff]
    omega
  have split := List.filter_append_filter_not_of_pairwise ordered
  rw [front, back] at split
  rw [stretch, split]
  refine assemble_cut_append begins first second fits ?_ ?_
  · intro edit mem
    obtain ⟨known, inside⟩ := List.mem_filter.mp mem
    exact ⟨proper edit known, (Edit.within_iff.mp inside).2⟩
  · intro edit mem
    obtain ⟨known, inside⟩ := List.mem_filter.mp mem
    have inside := Edit.within_iff.mp inside
    have := proper edit known
    omega

/-- Between clear offsets where a pane only deletes it writes what the deletions do not cover. -/
theorem assemble_deletions {start stop : Nat} (clearStart : pane.Clear start) (clearStop : pane.Clear stop)
    (ordered : start ≤ stop) (fits : stop ≤ source.length)
    (deletes : ∀ edit ∈ pane.edited, edit.within start stop = true → edit.parts = [.text []]) :
    Piece.assemble source (pane.stretch start stop) = .ok (uncovered source pane.edited start stop) := by
  rw [stretch, assemble_cut_deletions ordered fits]
  · congr 1
    apply uncovered_congr
    intro i begins ends
    constructor
    · rintro ⟨edit, mem, covers⟩
      exact ⟨edit, List.mem_of_mem_filter mem, covers⟩
    · rintro ⟨edit, mem, covers⟩
      have := clearStart edit mem
      have := clearStop edit mem
      refine ⟨edit, List.mem_filter.mpr ⟨mem, Edit.within_iff.mpr ?_⟩, covers⟩
      omega
  · intro edit mem
    obtain ⟨known, inside⟩ := List.mem_filter.mp mem
    rw [replaced, Edit.pieces, deletes edit known inside]
    rfl
  · exact sound.edited_ordered.sublist List.filter_sublist
  · intro edit mem
    obtain ⟨known, inside⟩ := List.mem_filter.mp mem
    have inside := Edit.within_iff.mp inside
    have := sound.orderly.proper edit (pane.edited_sublist.mem known)
    omega

end Sound

end Pane

end Rebundle
