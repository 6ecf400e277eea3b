import Rebundle.Document.Edit

/-!
# The order of recorded edits

Recording puts an edit at its place: an outer range stands before the ranges inside it, and equal
ranges stand in the order of recording. A document keeps this order through every replacement, and
it numbers its edits without gaps.
-/

namespace Rebundle

namespace Edit

theorem precedes_iff {a b : Edit} :
    a.precedes b = true ↔
      a.start < b.start ∨
        a.start = b.start ∧ (b.stop < a.stop ∨ b.stop = a.stop ∧ a.seq < b.seq) := by
  simp [precedes]

theorem precedes_trans {a b c : Edit} (ab : a.precedes b = true) (bc : b.precedes c = true) :
    a.precedes c = true := by
  rw [precedes_iff] at *
  omega

theorem start_le_of_precedes {a b : Edit} (ab : a.precedes b = true) : a.start ≤ b.start := by
  rw [precedes_iff] at ab
  omega

/-- Of two edits with different numbers one stands before the other. -/
theorem precedes_total {a b : Edit} (distinct : a.seq ≠ b.seq) (no : a.precedes b = false) :
    b.precedes a = true := by
  have no : ¬ a.precedes b = true := by simp [no]
  rw [precedes_iff] at *
  omega

theorem insert_perm (edit : Edit) (edits : List Edit) : (edit.insert edits).Perm (edit :: edits) := by
  induction edits with
  | nil => exact List.Perm.refl _
  | cons other rest ih =>
      unfold insert
      split
      · exact List.Perm.refl _
      · exact (ih.cons other).trans (List.Perm.swap edit other rest)

theorem mem_insert {edit other : Edit} {edits : List Edit} :
    other ∈ edit.insert edits ↔ other = edit ∨ other ∈ edits := by
  rw [(insert_perm edit edits).mem_iff, List.mem_cons]

/-- An edit that stands in front of none is put at the end. -/
theorem insert_eq_append {edit : Edit} {edits : List Edit}
    (last : ∀ other ∈ edits, edit.precedes other = false) : edit.insert edits = edits ++ [edit] := by
  induction edits with
  | nil => rfl
  | cons other rest ih =>
      rw [insert, last other List.mem_cons_self, ih fun e mem => last e (List.mem_cons_of_mem _ mem)]
      rfl

/-- An edit that a filter rejects leaves no trace behind the filter. -/
theorem filter_insert {p : Edit → Bool} {edit : Edit} (rejected : p edit = false)
    (edits : List Edit) : (edit.insert edits).filter p = edits.filter p := by
  induction edits with
  | nil => simp [insert, rejected]
  | cons other rest ih =>
      unfold insert
      split
      · simp [rejected]
      · rw [List.filter_cons, List.filter_cons, ih]

/-- An edit with a number of its own is put where the order asks for it. -/
theorem insert_sorted {edit : Edit} {edits : List Edit}
    (sorted : edits.Pairwise fun a b => a.precedes b = true)
    (distinct : ∀ other ∈ edits, edit.seq ≠ other.seq) :
    (edit.insert edits).Pairwise fun a b => a.precedes b = true := by
  induction edits with
  | nil => simp [insert]
  | cons other rest ih =>
      obtain ⟨before, sortedRest⟩ := List.pairwise_cons.mp sorted
      unfold insert
      split
      · rename_i first
        refine List.pairwise_cons.mpr ⟨?_, sorted⟩
        intro behind mem
        cases mem with
        | head => exact first
        | tail _ mem => exact precedes_trans first (before behind mem)
      · rename_i later
        have first : other.precedes edit = true :=
          precedes_total (distinct other (List.mem_cons_self)) (by simpa using later)
        have tail := ih sortedRest fun e mem => distinct e (List.mem_cons_of_mem _ mem)
        refine List.pairwise_cons.mpr ⟨?_, tail⟩
        intro behind mem
        rcases mem_insert.mp mem with rfl | mem
        · exact first
        · exact before behind mem

/-- Edits stay in the order of their beginnings, whatever is recorded. -/
theorem insert_ascending (edit : Edit) {edits : List Edit} (sorted : edits.Pairwise fun a b => a.start ≤ b.start) :
    (edit.insert edits).Pairwise fun a b => a.start ≤ b.start := by
  induction edits with
  | nil => simp [insert]
  | cons other rest ih =>
      obtain ⟨before, sortedRest⟩ := List.pairwise_cons.mp sorted
      unfold insert
      split
      · rename_i first
        have here := start_le_of_precedes first
        refine List.pairwise_cons.mpr ⟨?_, sorted⟩
        intro behind mem
        rcases List.mem_cons.mp mem with rfl | mem
        · exact here
        · exact Nat.le_trans here (before behind mem)
      · rename_i later
        refine List.pairwise_cons.mpr ⟨?_, ih sortedRest⟩
        intro behind mem
        rcases mem_insert.mp mem with rfl | mem
        · rw [precedes_iff] at later
          omega
        · exact before behind mem

end Edit

namespace Document

/-- What holds of a document at all times: its edits stand in order, they carry the numbers below
`recorded`, each once, and their ranges lie inside the source. -/
structure Kept (doc : Document) : Prop where
  sorted : doc.edits.Pairwise fun a b => a.precedes b = true
  numbered : (doc.edits.map (·.seq)).Perm (List.range doc.recorded)
  inside : ∀ edit ∈ doc.edits, edit.start ≤ edit.stop ∧ edit.stop ≤ doc.source.length

namespace Kept

theorem ofSource (source : Bytes) : (Document.ofSource source).Kept :=
  ⟨List.Pairwise.nil, List.Perm.refl _, by simp [Document.ofSource]⟩

theorem seq_lt {doc : Document} (kept : doc.Kept) {edit : Edit} (mem : edit ∈ doc.edits) :
    edit.seq < doc.recorded :=
  List.mem_range.mp (kept.numbered.mem_iff.mp (List.mem_map_of_mem mem))

theorem record {doc : Document} (kept : doc.Kept) {start stop : Nat} {parts : List Part}
    {reason : Text} (ordered : start ≤ stop) (fits : stop ≤ doc.source.length) :
    (doc.record start stop parts reason).2.Kept where
  sorted :=
    Edit.insert_sorted kept.sorted fun other mem => by
      have := kept.seq_lt mem
      simp only
      omega
  numbered := by
    have moved := (Edit.insert_perm ⟨start, stop, parts, doc.recorded, reason⟩ doc.edits).map (·.seq)
    have grown := moved.trans (kept.numbered.cons doc.recorded)
    refine grown.trans ?_
    change (doc.recorded :: List.range doc.recorded).Perm (List.range (doc.recorded + 1))
    rw [List.range_succ]
    exact (List.perm_append_comm : ([doc.recorded] ++ _).Perm _)
  inside := by
    intro edit mem
    rcases Edit.mem_insert.mp mem with rfl | mem
    · exact ⟨ordered, fits⟩
    · exact kept.inside edit mem

end Kept

theorem replace_ok {doc next : Document} {start stop : Int} {parts : List Part} {reason : Text}
    {edit : Edit} (h : doc.replace start stop parts reason = .ok (edit, next)) :
    0 ≤ start ∧ start ≤ stop ∧ stop ≤ doc.source.length ∧
      (edit, next) = doc.record start.toNat stop.toNat parts reason := by
  unfold replace at h
  split at h
  · cases h
  · rename_i inside
    simp only [Bool.or_eq_true, decide_eq_true_eq, not_or, Int.not_lt] at inside
    obtain ⟨⟨first, second⟩, third⟩ := inside
    exact ⟨first, second, third, (Except.ok.inj h).symm⟩

end Document

end Rebundle
