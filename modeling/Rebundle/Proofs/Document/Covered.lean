import Mathlib.Order.Monotone.Basic
import Rebundle.Proofs.Document.Recording

/-!
# Covered edits

What an edit is numbered leaves no trace in a window, as long as the numbers stay apart. An edit that
another one dominates leaves none either, when the other one is written wherever it would be. So two
documents render alike when one of them has the edits of the other, under other numbers, and besides only
edits that are covered.
-/

namespace Rebundle

namespace Span

def renumber (f : Nat → Nat) (span : Span) : Span := { span with hidden := span.hidden.map f }

end Span

namespace Part

def renumber (f : Nat → Nat) : Part → Part
  | text t => text t
  | span s => span (s.renumber f)

end Part

namespace Edit

/-- The edit under another number, with the edits it hides. -/
def renumber (f : Nat → Nat) (edit : Edit) : Edit :=
  { edit with parts := edit.parts.map (Part.renumber f), seq := f edit.seq }

variable {f : Nat → Nat}

theorem without_renumber (apart : Function.Injective f) (edit : Edit) (hidden : List Nat)
    (edits : List Edit) :
    (edit.renumber f).without (hidden.map f) (edits.map (renumber f)) =
      (edit.without hidden edits).map (renumber f) := by
  rw [without, without, List.filter_map]
  congr 1
  apply List.filter_congr
  intro other _
  have same : (f other.seq != f edit.seq) = (other.seq != edit.seq) := by
    rw [Bool.eq_iff_iff]
    simp [apart.eq_iff]
  have listed : (hidden.map f).contains (f other.seq) = hidden.contains other.seq := by
    rw [Bool.eq_iff_iff]
    simp [apart.eq_iff]
  change (f other.seq != f edit.seq && !(hidden.map f).contains (f other.seq)) = _
  rw [same, listed]

/-- Numbers in the same order leave the edits in their order. -/
theorem precedes_renumber (mono : StrictMono f) (a b : Edit) :
    (a.renumber f).precedes (b.renumber f) = a.precedes b := by
  rw [Bool.eq_iff_iff, precedes_iff, precedes_iff]
  simp only [renumber, mono.lt_iff_lt]

end Edit

namespace Source

variable {source : Bytes} {f : Nat → Nat}

theorem chosen_renumber (f : Nat → Nat) (stop cursor : Int) (edits : List Edit) :
    chosen stop cursor (edits.map (Edit.renumber f)) =
      (chosen stop cursor edits).map (Edit.renumber f) := by
  induction edits generalizing cursor with
  | nil => rfl
  | cons edit rest ih =>
      simp only [List.map_cons, chosen, Edit.renumber]
      split
      · rfl
      · split
        · exact ih cursor
        · rw [List.map_cons, ← ih]
          rfl

theorem fromOffset_renumber (f : Nat → Nat) (start : Int) (edits : List Edit) :
    fromOffset start (edits.map (Edit.renumber f)) =
      (fromOffset start edits).map (Edit.renumber f) := by
  rw [fromOffset, List.dropWhile_map]
  rfl

theorem splice_renumber {g : Edit → Except Utf8.EncodeFault Bytes} (f : Nat → Nat) (stop cursor : Int)
    (edits : List Edit) :
    splice source g stop cursor (edits.map (Edit.renumber f)) =
      splice source (fun edit => g (edit.renumber f)) stop cursor edits := by
  induction edits generalizing cursor with
  | nil => rfl
  | cons edit rest ih =>
      rw [List.map_cons, splice, splice, ih]
      rfl

theorem written_renumber (g : Span → Except Utf8.EncodeFault Bytes) (f : Nat → Nat)
    (parts : List Part) :
    written g (parts.map (Part.renumber f)) = written (fun span => g (span.renumber f)) parts := by
  induction parts with
  | nil => rfl
  | cons part rest ih =>
      cases part with
      | text t => rw [List.map_cons, written, ← ih]; rfl
      | span span => rw [List.map_cons, written, ← ih]; rfl

/-- The numbers of the edits leave no trace in a window. -/
theorem window_renumber (apart : Function.Injective f) (edits : List Edit) (start stop : Int) :
    window source (edits.map (Edit.renumber f)) start stop = window source edits start stop := by
  generalize size : edits.length = n
  induction n using Nat.strongRecOn generalizing edits start stop with
  | _ n ih =>
      rw [window_eq, window_eq, fromOffset_renumber, chosen_renumber, splice_renumber]
      apply splice_congr
      intro edit mem
      have known : edit ∈ edits := by
        have queued : edit ∈ fromOffset start edits := (chosen_sublist _ _ _).mem mem
        exact (List.dropWhile_sublist _).mem queued
      rw [replacement, replacement]
      change written _ (edit.parts.map (Part.renumber f)) = _
      rw [written_renumber]
      apply written_congr
      intro span _
      change window source ((edit.renumber f).without (span.hidden.map f) (edits.map (Edit.renumber f)))
        span.start span.stop = _
      rw [Edit.without_renumber apart]
      exact ih _ (by rw [← size]; exact Edit.length_without_lt known _) _ _ _ rfl

/-- Dropping edits that others of the window dominate leaves its undominated edits. -/
theorem undominated_covered {edits : List Edit} {keeps : Edit → Bool} {start stop : Int}
    (covered : ∀ edit ∈ edits, keeps edit = false → edit.within start stop = true →
      ∃ guard ∈ edits, keeps guard = true ∧ guard.within start stop = true ∧
        guard.dominates edit = true) :
    undominated (edits.filter keeps) start stop = undominated edits start stop := by
  have same (edit : Edit) :
      ((edits.filter keeps).any fun other => other.within start stop && other.dominates edit) =
        edits.any fun other => other.within start stop && other.dominates edit := by
    rw [Bool.eq_iff_iff, List.any_eq_true, List.any_eq_true]
    constructor
    · rintro ⟨other, mem, both⟩
      exact ⟨other, (List.mem_filter.mp mem).1, both⟩
    · rintro ⟨other, mem, both⟩
      cases kept : keeps other with
      | true => exact ⟨other, List.mem_filter.mpr ⟨mem, kept⟩, both⟩
      | false =>
          rw [Bool.and_eq_true] at both
          obtain ⟨guard, memGuard, keptGuard, lies, above⟩ := covered other mem kept both.1
          refine ⟨guard, List.mem_filter.mpr ⟨memGuard, keptGuard⟩, ?_⟩
          rw [Bool.and_eq_true]
          exact ⟨lies, Edit.dominates_trans above both.2⟩
  rw [undominated, undominated, List.filter_filter]
  apply List.filter_congr
  intro edit mem
  rw [same]
  cases kept : keeps edit with
  | true => simp
  | false =>
      cases lies : edit.within start stop with
      | false => rfl
      | true =>
          obtain ⟨guard, memGuard, _, lies, above⟩ := covered edit mem kept lies
          have found : (edits.any fun other => other.within start stop && other.dominates edit) = true := by
            rw [List.any_eq_true]
            exact ⟨guard, memGuard, by simp [lies, above]⟩
          simp [found]

/-- Whether the guards of the edits that are not kept lie in a window with them. -/
def Closed (guards : Edit → Edit → Prop) (keeps : Edit → Bool) (edits : List Edit) (start stop : Int) :
    Prop :=
  ∀ edit ∈ edits, keeps edit = false → edit.within start stop = true →
    ∀ guard ∈ edits, guards guard edit → guard.within start stop = true

/-- Edits of which some are covered: each of these has a guard that dominates it and is hidden nowhere, and
a range that is written again has the guards of what lies in it. -/
structure Covering (guards : Edit → Edit → Prop) (keeps : Edit → Bool) (edits : List Edit) : Prop where
  guarded : ∀ edit ∈ edits, keeps edit = false → ∃ guard ∈ edits, keeps guard = true ∧ guards guard edit
  dominates : ∀ guard ∈ edits, ∀ edit ∈ edits, guards guard edit → guard.dominates edit = true
  visible : ∀ other ∈ edits, ∀ span, .span span ∈ other.parts →
    ∀ guard ∈ edits, ∀ edit ∈ edits, guards guard edit →
      guard.seq ≠ other.seq ∧ guard.seq ∉ span.hidden
  inner : ∀ start stop, Closed guards keeps edits start stop →
    ∀ other ∈ edits, other.within start stop = true →
      (∀ guard ∈ edits, ∀ edit ∈ edits, keeps edit = false → guards guard edit →
        guard.within start stop = true → guard.dominates other = false) →
      ∀ span, .span span ∈ other.parts → Closed guards keeps edits span.start span.stop

/-- Covered edits leave no trace in an outline. -/
theorem Covering.outline {guards : Edit → Edit → Prop} {keeps : Edit → Bool} {all : List Edit}
    (covering : Covering guards keeps all) {edits : List Edit} (among : edits.Sublist all)
    (guarded : ∀ guard ∈ all, ∀ edit ∈ all, guards guard edit → guard ∈ edits) {start stop : Int}
    (closed : Closed guards keeps all start stop) :
    outline source (edits.filter keeps) start stop = outline source edits start stop := by
  generalize size : edits.length = n
  induction n using Nat.strongRecOn generalizing edits start stop with
  | _ n ih =>
      rw [outline_eq, outline_eq source edits, undominated_covered]
      · apply splice_congr
        intro other mem
        obtain ⟨known, lies, free⟩ := mem_undominated.mp mem
        apply written_congr
        intro span written
        have fewer := Edit.without_sublist other span.hidden edits
        have comm : other.without span.hidden (edits.filter keeps) =
            (other.without span.hidden edits).filter keeps := by
          rw [Edit.without, Edit.without, List.filter_filter, List.filter_filter]
          congr 1
          funext edit
          exact Bool.and_comm _ _
        rw [comm]
        refine ih _ (size ▸ Edit.length_without_lt known span.hidden) (fewer.trans among) ?_ ?_ rfl
        · intro guard memGuard edit memEdit guards
          have visible := covering.visible other (among.mem known) span written guard memGuard edit memEdit
            guards
          rw [Edit.without, List.mem_filter]
          exact ⟨guarded guard memGuard edit memEdit guards, by simp [visible]⟩
        · refine covering.inner start stop closed other (among.mem known) lies ?_ span written
          intro guard memGuard edit memEdit _ guards lies'
          exact free guard (guarded guard memGuard edit memEdit guards) lies'
      · intro edit mem dropped lies
        have known := among.mem mem
        obtain ⟨guard, memGuard, kept, guards⟩ := covering.guarded edit known dropped
        exact ⟨guard, guarded guard memGuard edit known guards, kept,
          closed edit known dropped lies guard memGuard guards,
          covering.dominates guard memGuard edit known guards⟩

end Source

namespace Document

/-- One document has the edits of another, under numbers that `f` gives, and besides only the `extra`
ones. The next edit that both record has its number in either. -/
structure Extends (f : Nat → Nat) (extra : List Nat) (before after : Document) : Prop where
  unchanged : after.source = before.source
  mono : StrictMono f
  next : ∀ n, f (before.recorded + n) = after.recorded + n
  apart : ∀ n, f n ∉ extra
  common : (after.edits.filter fun edit => !extra.contains edit.seq).Perm
    (before.edits.map (Edit.renumber f))

/-- Whether every extra edit has a guard that is none. -/
def Guarded (guards : Edit → Edit → Prop) (extra : List Nat) (doc : Document) : Prop :=
  ∀ edit ∈ doc.edits, edit.seq ∈ extra → ∃ guard ∈ doc.edits, guard.seq ∉ extra ∧ guards guard edit

namespace Extends

variable {f : Nat → Nat} {extra : List Nat} {before after : Document}

theorem refl (doc : Document) : Extends id [] doc doc where
  unchanged := rfl
  mono := strictMono_id
  next _ := rfl
  apart _ := List.not_mem_nil
  common := by
    have same : (Edit.renumber id) = id := by
      funext edit
      have parts : ∀ part : Part, part.renumber id = part := by
        rintro (_ | span)
        · rfl
        · simp [Part.renumber, Span.renumber]
      simp [Edit.renumber, funext parts]
    have all : (doc.edits.filter fun edit => !([] : List Nat).contains edit.seq) = doc.edits :=
      List.filter_eq_self.mpr fun _ _ => rfl
    rw [same, List.map_id, all]

theorem number (extended : Extends f extra before after) : f before.recorded = after.recorded :=
  extended.next 0

theorem recorded_not_mem (extended : Extends f extra before after) : after.recorded ∉ extra :=
  extended.number ▸ extended.apart before.recorded

/-- Recording the same edit in both. -/
theorem record (extended : Extends f extra before after) (start stop : Nat) (parts : List Part)
    (reason : Text) :
    Extends f extra (before.record start stop parts reason).2
      (after.record start stop (parts.map (Part.renumber f)) reason).2 where
  unchanged := extended.unchanged
  mono := extended.mono
  next n := by
    change f (before.recorded + 1 + n) = after.recorded + 1 + n
    rw [Nat.add_assoc, extended.next, Nat.add_assoc]
  apart := extended.apart
  common := by
    change ((Edit.insert ⟨start, stop, parts.map (Part.renumber f), after.recorded, reason⟩
      after.edits).filter fun edit => !extra.contains edit.seq).Perm
        ((Edit.insert ⟨start, stop, parts, before.recorded, reason⟩ before.edits).map (Edit.renumber f))
    refine ((Edit.insert_perm _ _).filter _).trans ?_
    refine List.Perm.trans ?_ ((Edit.insert_perm _ _).map _).symm
    rw [List.filter_cons_of_pos (by simpa using extended.recorded_not_mem), List.map_cons,
      Edit.renumber, extended.number]
    exact extended.common.cons _

/-- The numbers when the second document records one edit more: from the next one on they grow by one. -/
def shift (f : Nat → Nat) (recorded n : Nat) : Nat := if n < recorded then f n else f n + 1

theorem strictMono_shift (mono : StrictMono f) (recorded : Nat) : StrictMono (shift f recorded) := by
  intro a b less
  have := mono less
  unfold shift
  split <;> split <;> omega

/-- What was recorded earlier keeps its numbers. -/
theorem renumber_shift {recorded : Nat} {edit : Edit} (number : edit.seq < recorded)
    (hidden : ∀ span, .span span ∈ edit.parts → ∀ n ∈ span.hidden, n < recorded) :
    edit.renumber (shift f recorded) = edit.renumber f := by
  have parts : edit.parts.map (Part.renumber (shift f recorded)) = edit.parts.map (Part.renumber f) := by
    apply List.map_congr_left
    rintro (_ | span) written
    · rfl
    · have hides : span.hidden.map (shift f recorded) = span.hidden.map f :=
        List.map_congr_left fun n mem => if_pos (hidden span written n mem)
      simp only [Part.renumber, Span.renumber, hides]
  simp only [Edit.renumber, parts, shift, if_pos number]

/-- The edit that is recorded in the second document only gets a number that no common edit has. -/
theorem shift_apart (extended : Extends f extra before after) (n : Nat) :
    shift f before.recorded n ≠ after.recorded ∧ shift f before.recorded n ∉ extra := by
  rw [shift]
  split
  · rename_i early
    have := extended.mono early
    rw [extended.number] at this
    exact ⟨by omega, extended.apart n⟩
  · rename_i late
    obtain ⟨m, rfl⟩ : ∃ m, n = before.recorded + m := ⟨n - before.recorded, by omega⟩
    have here := extended.next m
    have there := extended.next (m + 1)
    refine ⟨by omega, ?_⟩
    rw [show f (before.recorded + m) + 1 = f (before.recorded + (m + 1)) by omega]
    exact extended.apart _

/-- Recording an edit in the second document only. -/
theorem add (extended : Extends f extra before after) (kept : after.Kept)
    (early : ∀ edit ∈ before.edits, edit.seq < before.recorded ∧
      ∀ span, .span span ∈ edit.parts → ∀ n ∈ span.hidden, n < before.recorded)
    (start stop : Nat) (parts : List Part) (reason : Text) :
    Extends (shift f before.recorded) (after.recorded :: extra) before
      (after.record start stop parts reason).2 where
  unchanged := extended.unchanged
  mono := strictMono_shift extended.mono before.recorded
  next n := by
    change shift f before.recorded (before.recorded + n) = after.recorded + 1 + n
    rw [shift, if_neg (by omega), extended.next]
    omega
  apart n := by
    rw [List.mem_cons, not_or]
    exact extended.shift_apart n
  common := by
    rw [List.map_congr_left fun edit mem => renumber_shift (early edit mem).1 (early edit mem).2]
    refine List.Perm.trans ?_ extended.common
    change ((Edit.insert ⟨start, stop, parts, after.recorded, reason⟩ after.edits).filter
      fun edit => !(after.recorded :: extra).contains edit.seq).Perm _
    rw [Edit.filter_insert (by simp)]
    refine List.Perm.of_eq (List.filter_congr fun edit mem => ?_)
    have differ : edit.seq ≠ after.recorded := Nat.ne_of_lt (kept.seq_lt mem)
    simp [differ]

/-- When the extra edits are covered, the documents render alike. -/
theorem render (extended : Extends f extra before after) (first : before.Kept) (second : after.Kept)
    (nested : ∀ a ∈ after.edits, ∀ b ∈ after.edits, a.range.NestedOrDisjoint b.range)
    {guards : Edit → Edit → Prop}
    (covering : Source.Covering guards (fun edit => !extra.contains edit.seq) after.edits)
    (closed : Source.Closed guards (fun edit => !extra.contains edit.seq) after.edits 0
      after.source.length) :
    after.render = before.render := by
  have proper := fun edit mem => (second.inside edit mem).1
  have fewer : (after.edits.filter fun edit => !extra.contains edit.seq).Sublist after.edits :=
    List.filter_sublist
  have same : (after.edits.filter fun edit => !extra.contains edit.seq) =
      before.edits.map (Edit.renumber f) := by
    refine List.Perm.eq_of_pairwise ?_ (second.sorted.sublist fewer) ?_ extended.common
    · intro a b _ _ ab ba
      rw [Edit.precedes_iff] at ab ba
      omega
    · rw [List.pairwise_map]
      exact first.sorted.imp fun ab => (Edit.precedes_renumber extended.mono _ _).trans ab
  calc after.render
      = Source.outline after.source after.edits 0 after.source.length :=
        Source.window_eq_outline second.sorted nested proper _ _
    _ = Source.outline after.source (after.edits.filter fun edit => !extra.contains edit.seq) 0
          after.source.length :=
        (covering.outline (List.Sublist.refl _) (fun guard mem _ _ _ => mem) closed).symm
    _ = Source.window after.source (before.edits.map (Edit.renumber f)) 0 after.source.length := by
        rw [← same, Source.window_eq_outline (second.sorted.sublist fewer)
          (fun a ma b mb => nested a (fewer.mem ma) b (fewer.mem mb))
          fun edit mem => proper edit (fewer.mem mem)]
    _ = before.render := by
        rw [Source.window_renumber extended.mono.injective, Document.render, extended.unchanged]

end Extends

namespace Guarded

variable {guards : Edit → Edit → Prop} {extra : List Nat} {doc : Document}

theorem record (guarded : Guarded guards extra doc) (fresh : doc.recorded ∉ extra) (start stop : Nat)
    (parts : List Part) (reason : Text) :
    Guarded guards extra (doc.record start stop parts reason).2 := by
  intro edit mem extraSeq
  rcases Edit.mem_insert.mp mem with rfl | mem
  · exact absurd extraSeq fresh
  · obtain ⟨guard, known, kept, guarding⟩ := guarded edit mem extraSeq
    exact ⟨guard, Edit.mem_insert.mpr (.inr known), kept, guarding⟩

/-- An extra edit that is recorded right before its guard. -/
theorem cover (guarded : Guarded guards extra doc) (kept : doc.Kept)
    (fresh : doc.recorded + 1 ∉ doc.recorded :: extra) {start stop start' stop' : Nat}
    {parts parts' : List Part} {reason reason' : Text}
    (guarding : guards ⟨start', stop', parts', doc.recorded + 1, reason'⟩
      ⟨start, stop, parts, doc.recorded, reason⟩) :
    Guarded guards (doc.recorded :: extra)
      (((doc.record start stop parts reason).2).record start' stop' parts' reason').2 := by
  intro edit mem extraSeq
  have recorded : (⟨start', stop', parts', doc.recorded + 1, reason'⟩ : Edit) ∈
      (((doc.record start stop parts reason).2).record start' stop' parts' reason').2.edits :=
    Edit.mem_insert.mpr (.inl rfl)
  rcases Edit.mem_insert.mp mem with rfl | mem
  · exact absurd extraSeq fresh
  · rcases Edit.mem_insert.mp mem with rfl | mem
    · exact ⟨_, recorded, fresh, guarding⟩
    · have differ : edit.seq ≠ doc.recorded := Nat.ne_of_lt (kept.seq_lt mem)
      obtain ⟨guard, known, free, guards⟩ := guarded edit mem (by simpa [differ] using extraSeq)
      have apart : guard.seq ≠ doc.recorded := Nat.ne_of_lt (kept.seq_lt known)
      exact ⟨guard, Edit.mem_insert.mpr (.inr (Edit.mem_insert.mpr (.inr known))),
        by simp [apart, free], guards⟩

end Guarded

end Document

end Rebundle
