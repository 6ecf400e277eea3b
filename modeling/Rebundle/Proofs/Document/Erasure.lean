import Mathlib.Data.List.Nodup
import Mathlib.Data.List.Pairwise
import Rebundle.Proofs.Document.Pieces

/-!
# Erased ranges

A range that an edit covers is written nowhere, when every span that touches it is written with that edit
at hand: in each pane the edit, or one above it, stands for the range.
-/

namespace Rebundle

open Source

/-- A row of edits in the order of a document: their ranges are nested or disjoint, and what they write
again lies in the source. -/
structure Orderly (length : Nat) (edits : List Edit) : Prop where
  sorted : edits.Pairwise fun a b => a.precedes b = true
  nested : ∀ a ∈ edits, ∀ b ∈ edits, a.range.NestedOrDisjoint b.range
  proper : ∀ edit ∈ edits, edit.start ≤ edit.stop
  spans : ∀ edit ∈ edits, ∀ span, .span span ∈ edit.parts →
    0 ≤ span.start ∧ span.start ≤ span.stop ∧ span.stop ≤ (length : Int)
  distinct : (edits.map (·.seq)).Nodup

namespace Orderly

variable {length : Nat} {edits fewer : List Edit}

theorem sublist (orderly : Orderly length edits) (among : fewer.Sublist edits) :
    Orderly length fewer where
  sorted := orderly.sorted.sublist among
  nested a memA b memB := orderly.nested a (among.mem memA) b (among.mem memB)
  proper edit mem := orderly.proper edit (among.mem mem)
  spans edit mem := orderly.spans edit (among.mem mem)
  distinct := orderly.distinct.sublist (among.map _)

theorem eq_of_seq (orderly : Orderly length edits) {a b : Edit} (memA : a ∈ edits) (memB : b ∈ edits)
    (same : a.seq = b.seq) : a = b :=
  List.inj_on_of_nodup_map orderly.distinct memA memB same

/-- Over every edit of a window lies one that is written: the edit itself, or one that dominates it. -/
theorem exists_undominated (orderly : Orderly length edits) {edit : Edit} (mem : edit ∈ edits)
    {start stop : Int} (lies : edit.within start stop = true) :
    ∃ top ∈ undominated edits start stop, top = edit ∨ top.dominates edit = true := by
  let above := edits.filter fun other =>
    other.within start stop && (decide (other = edit) || other.dominates edit)
  have found : edit ∈ above := List.mem_filter.mpr ⟨mem, by simp [lies]⟩
  obtain ⟨top, rest, row⟩ := List.exists_cons_of_ne_nil (List.ne_nil_of_mem found)
  have known : top ∈ above := by rw [row]; exact List.mem_cons_self
  obtain ⟨topMem, facts⟩ := List.mem_filter.mp known
  simp only [Bool.and_eq_true, Bool.or_eq_true, decide_eq_true_eq] at facts
  refine ⟨top, mem_undominated.mpr ⟨topMem, facts.1, ?_⟩, facts.2⟩
  -- what dominates the first of them would stand in front of it
  intro other otherMem within
  rw [Bool.eq_false_iff]
  intro dominates
  have overEdit : other.dominates edit = true := by
    rcases facts.2 with rfl | higher
    · exact dominates
    · exact Edit.dominates_trans dominates higher
  have among : other ∈ above := List.mem_filter.mpr ⟨otherMem, by simp [within, overEdit]⟩
  have sorted := orderly.sorted.filter fun other : Edit =>
    other.within start stop && (decide (other = edit) || other.dominates edit)
  rw [show edits.filter _ = top :: rest from row] at sorted
  rw [row] at among
  have ahead := Edit.precedes_iff.mp (Edit.precedes_of_dominates dominates)
  rcases List.mem_cons.mp among with rfl | later
  · omega
  · have := Edit.precedes_iff.mp ((List.pairwise_cons.mp sorted).1 other later)
    omega

end Orderly

/-- A pane that lies in the source, with its edits in order. -/
structure Pane.Sound (length : Nat) (pane : Pane) : Prop where
  orderly : Orderly length pane.edits
  begins : 0 ≤ pane.start
  proper : pane.start ≤ pane.stop
  ends : pane.stop ≤ (length : Int)

namespace Pane.Sound

variable {length : Nat} {pane top : Pane}

theorem edited_eq (sound : pane.Sound length) :
    pane.edited = undominated pane.edits pane.start pane.stop :=
  chosen_eq_undominated sound.orderly.sorted sound.orderly.nested sound.orderly.proper _ _

theorem mem_edited (sound : pane.Sound length) {edit : Edit} :
    edit ∈ pane.edited ↔ edit ∈ pane.edits ∧ edit.within pane.start pane.stop = true ∧
      ∀ other ∈ pane.edits, other.within pane.start pane.stop = true → other.dominates edit = false := by
  rw [sound.edited_eq, mem_undominated]

/-- The edits that a pane writes follow each other. -/
theorem edited_ordered (sound : pane.Sound length) :
    pane.edited.Pairwise fun a b => a.stop ≤ b.start := by
  rw [sound.edited_eq]
  exact (undominated_ordered sound.orderly.sorted sound.orderly.nested sound.orderly.proper _ _).imp
    fun facts => facts.1

theorem edited_apart (sound : pane.Sound length) {a b : Edit} (memA : a ∈ pane.edited)
    (memB : b ∈ pane.edited) : a = b ∨ a.stop ≤ b.start ∨ b.stop ≤ a.start := by
  have either : pane.edited.Pairwise fun a b => a.stop ≤ b.start ∨ b.stop ≤ a.start :=
    sound.edited_ordered.imp .inl
  by_cases same : a = b
  · exact .inl same
  · have : Std.Symm fun a b : Edit => a.stop ≤ b.start ∨ b.stop ≤ a.start := ⟨fun _ _ => Or.symm⟩
    exact .inr (either.forall memA memB same)

theorem under (sound : pane.Sound length) {edit : Edit} (mem : edit ∈ pane.edits) {span : Span}
    (part : .span span ∈ edit.parts) : (pane.under edit span).Sound length := by
  obtain ⟨begins, proper, ends⟩ := sound.orderly.spans edit mem span part
  exact ⟨sound.orderly.sublist (Edit.without_sublist _ _ _), begins, proper, ends⟩

theorem opened (sound : top.Sound length) (opens : top.Opens pane) : pane.Sound length := by
  induction opens with
  | here => exact sound
  | @span pane edit span _ written part ih => exact ih.under (pane.edited_sublist.mem written) part

/-- What a pane copies lies in it, apart from the edits that it writes. -/
theorem copied (sound : pane.Sound length) {piece : Piece}
    (mem : piece ∈ cut (fun _ => []) pane.stop pane.start pane.edited) :
    ∃ start stop, piece = .copied start stop ∧ pane.start ≤ start ∧ start ≤ stop ∧ stop ≤ pane.stop ∧
      ∀ edit ∈ pane.edited, stop ≤ edit.start ∨ edit.stop ≤ start := by
  have row : ∀ edits : List Edit, ∀ cursor : Int, cursor ≤ pane.stop →
      edits.Pairwise (fun a b => a.stop ≤ b.start) →
      (∀ edit ∈ edits, cursor ≤ edit.start ∧ edit.start ≤ edit.stop ∧ edit.stop ≤ pane.stop) →
      piece ∈ cut (fun _ => []) pane.stop cursor edits →
      ∃ start stop, piece = .copied start stop ∧ cursor ≤ start ∧ start ≤ stop ∧ stop ≤ pane.stop ∧
        ∀ edit ∈ edits, stop ≤ edit.start ∨ edit.stop ≤ start := by
    intro edits
    induction edits with
    | nil =>
        intro cursor inside _ _ mem
        exact ⟨cursor, pane.stop, by simpa [cut] using mem, Int.le_refl _, inside, Int.le_refl _, by simp⟩
    | cons edit rest ih =>
        intro cursor inside ordered bounds mem
        obtain ⟨later, orderedRest⟩ := List.pairwise_cons.mp ordered
        obtain ⟨begins, proper, ends⟩ := bounds edit List.mem_cons_self
        simp only [cut, List.nil_append, List.mem_cons] at mem
        rcases mem with rfl | mem
        · refine ⟨cursor, edit.start, rfl, Int.le_refl _, begins, by omega, ?_⟩
          intro other known
          rcases List.mem_cons.mp known with rfl | known
          · exact .inl (Int.le_refl _)
          · have := later other known
            omega
        · obtain ⟨start, stop, same, first, second, third, clear⟩ := ih edit.stop ends orderedRest
            (fun other known => ⟨by have := later other known; omega,
              (bounds other (List.mem_cons_of_mem _ known)).2⟩) mem
          refine ⟨start, stop, same, by omega, second, third, ?_⟩
          intro other known
          rcases List.mem_cons.mp known with rfl | known
          · exact .inr first
          · exact clear other known
  have ordered := undominated_ordered sound.orderly.sorted sound.orderly.nested sound.orderly.proper
    pane.start pane.stop
  rw [← sound.edited_eq] at ordered
  refine row pane.edited pane.start sound.proper (ordered.imp fun facts => facts.1) ?_ mem
  intro edit known
  obtain ⟨known, lies, _⟩ := sound.mem_edited.mp known
  have := sound.orderly.proper edit known
  rw [Edit.within_iff] at lies
  omega

end Pane.Sound

namespace Pane

theorem mem_under {pane : Pane} {edit other : Edit} {span : Span} :
    other ∈ (pane.under edit span).edits ↔
      other ∈ pane.edits ∧ other.seq ≠ edit.seq ∧ other.seq ∉ span.hidden := by
  simp [under, Edit.without]

end Pane

/-- Whether a span touches nothing of a range. -/
def Span.Apart (span : Span) (range : Range) : Prop :=
  span.stop ≤ (range.start : Int) ∨ (range.stop : Int) ≤ span.start

/-- Whether a span lies in the range of an edit. -/
def Span.Inside (span : Span) (edit : Edit) : Prop :=
  (edit.start : Int) ≤ span.start ∧ span.stop ≤ (edit.stop : Int)

/-- An edit that writes something away from its own place, and another one that it needs at hand: as long
as the first one is there, a guard stands over the other one, which is therefore never written itself. -/
structure Shelters (edits : List Edit) (outer eraser guard : Edit) : Prop where
  mem : guard ∈ edits
  higher : guard.dominates eraser = true
  plain : ∀ span, .span span ∉ guard.parts
  others : ∀ edit ∈ edits, edit.seq ≠ outer.seq → ∀ span, .span span ∈ edit.parts →
    eraser.seq ∉ span.hidden ∧ guard.seq ∉ span.hidden ∧ span.Inside edit ∧
      (eraser.within span.start span.stop = true → guard.dominates edit = true)

/-- An edit that covers a range, and that is at hand wherever a part of the range could be written again:
a span that touches the range has the edit inside, or its own edit never stands where this one does. -/
structure Erases (edits : List Edit) (eraser : Edit) (range : Range) : Prop where
  mem : eraser ∈ edits
  begins : eraser.start ≤ range.start
  nonempty : range.start < range.stop
  ends : range.stop ≤ eraser.stop
  spans : ∀ edit ∈ edits, ∀ span, .span span ∈ edit.parts → span.Apart range ∨
    (eraser.seq ≠ edit.seq ∧ eraser.seq ∉ span.hidden ∧
      eraser.within span.start span.stop = true) ∨
    eraser.dominates edit = true ∧ span.Inside edit
  outer : ∀ edit ∈ edits, ∀ span, .span span ∈ edit.parts → span.Inside edit ∨ span.Apart range ∨
    ∃ guard, Shelters edits edit eraser guard

section

variable {length : Nat} {top pane : Pane} {eraser : Edit} {range : Range}

namespace Shelters

variable {outer guard : Edit}

/-- Where the outer edit is at hand, the edit that it needs is at hand. -/
theorem opened (shelters : Shelters top.edits outer eraser guard) (sound : top.Sound length)
    (known : eraser ∈ top.edits) (covers : guard.within top.start top.stop = true)
    (opens : top.Opens pane) (here : outer ∈ pane.edits) :
    guard ∈ pane.edits ∧ eraser ∈ pane.edits ∧
      (eraser.within pane.start pane.stop = true → guard.within pane.start pane.stop = true) := by
  induction opens with
  | here => exact ⟨shelters.mem, known, fun _ => covers⟩
  | @span pane edit span opens written part ih =>
      obtain ⟨here, differs, _⟩ := Pane.mem_under.mp here
      obtain ⟨guardHere, eraserHere, together⟩ := ih here
      have among := opens.edits_sublist.mem (pane.edited_sublist.mem written)
      obtain ⟨_, lies, free⟩ := ((sound.opened opens).mem_edited).mp written
      obtain ⟨eraserSeen, guardSeen, inward, higher⟩ :=
        shelters.others edit among (Ne.symm differs) span part
      -- what lies in the pane does not stand over the edit that is written there
      have notOver {other : Edit} (mem : other ∈ pane.edits)
          (within : other.within pane.start pane.stop = true) : other.dominates edit ≠ true :=
        Bool.eq_false_iff.mp (free other mem within)
      refine ⟨Pane.mem_under.mpr ⟨guardHere, ?_, guardSeen⟩,
        Pane.mem_under.mpr ⟨eraserHere, ?_, eraserSeen⟩, ?_⟩
      · intro same
        exact shelters.plain span (sound.orderly.eq_of_seq shelters.mem among same ▸ part)
      · intro same
        have equal := sound.orderly.eq_of_seq known among same
        subst equal
        exact notOver guardHere (together lies) shelters.higher
      · intro inside
        refine absurd (higher inside) (notOver guardHere (together ?_))
        rw [Edit.within_iff] at lies inside ⊢
        simp only [Pane.under, Span.Inside] at inside inward
        omega

end Shelters

namespace Erases

/-- An edit that erases a range erases what lies in it. -/
theorem narrow {edits : List Edit} (erases : Erases edits eraser range) {inner : Range}
    (begins : range.start ≤ inner.start) (nonempty : inner.start < inner.stop)
    (ends : inner.stop ≤ range.stop) : Erases edits eraser inner where
  mem := erases.mem
  begins := Nat.le_trans erases.begins begins
  nonempty := nonempty
  ends := Nat.le_trans ends erases.ends
  spans edit mem span part := by
    refine (erases.spans edit mem span part).imp_left ?_
    unfold Span.Apart
    omega
  outer edit mem span part := by
    refine (erases.outer edit mem span part).imp_right (Or.imp_left ?_)
    unfold Span.Apart
    omega

/-- In every pane that is opened the range is missing, or the edit is at hand. -/
theorem opened (erases : Erases top.edits eraser range) (sound : top.Sound length)
    (all : ∀ edit ∈ top.edits, edit.within top.start top.stop = true) (opens : top.Opens pane) :
    pane.stop ≤ (range.start : Int) ∨ (range.stop : Int) ≤ pane.start ∨
      (eraser ∈ pane.edits ∧ eraser.within pane.start pane.stop = true) := by
  induction opens with
  | here => exact .inr (.inr ⟨erases.mem, all eraser erases.mem⟩)
  | @span pane edit span opens written part ih =>
      have among := opens.edits_sublist.mem (pane.edited_sublist.mem written)
      obtain ⟨here, lies, free⟩ := ((sound.opened opens).mem_edited).mp written
      rcases erases.spans edit among span part with (before | behind) | ⟨other, seen, inside⟩ | higher
      · exact .inl before
      · exact .inr (.inl behind)
      · have inSpan := Edit.within_iff.mp inside
        have begins := erases.begins
        have nonempty := erases.nonempty
        have ends := erases.ends
        -- the edit is at hand in the pane: the pane lies around the span, or the span shelters the edit
        have atHand : eraser ∈ pane.edits := by
          rcases erases.outer edit among span part with inward | apart | ⟨guard, shelters⟩
          · rw [Edit.within_iff] at lies
            unfold Span.Inside at inward
            rcases ih with before | behind | ⟨here, _⟩
            · omega
            · omega
            · exact here
          · unfold Span.Apart at apart
            omega
          · exact (shelters.opened sound erases.mem (all guard shelters.mem) opens here).2.1
        exact .inr (.inr ⟨Pane.mem_under.mpr ⟨atHand, other, seen⟩, inside⟩)
      · -- in a pane with the range the edit would stand over the one that is written
        obtain ⟨higher, inward⟩ := higher
        rw [Edit.within_iff] at lies
        simp only [Span.Inside] at inward
        simp only [Pane.under]
        rcases ih with before | behind | ⟨known, within⟩
        · exact .inl (by omega)
        · exact .inr (.inl (by omega))
        · rw [free eraser known within] at higher
          cases higher

/-- What a pane writes on a part of the range is the edit, or stands over it. -/
theorem written (erases : Erases top.edits eraser range) (sound : top.Sound length)
    (all : ∀ edit ∈ top.edits, edit.within top.start top.stop = true) (opens : top.Opens pane)
    {edit : Edit} (writes : edit ∈ pane.edited) (begins : edit.start < range.stop)
    (ends : range.start < edit.stop) : edit = eraser ∨ edit.dominates eraser = true := by
  have inner := sound.opened opens
  have nonempty := erases.nonempty
  have before := erases.begins
  have behind := erases.ends
  have lies := Edit.within_iff.mp (inner.mem_edited.mp writes).2.1
  rcases erases.opened sound all opens with left | right | ⟨here, within⟩
  · omega
  · omega
  · obtain ⟨higher, written, covers⟩ := inner.orderly.exists_undominated here within
    rw [← inner.edited_eq] at written
    rcases inner.edited_apart writes written with rfl | apart
    · exact covers
    · have := Edit.covers_of_over covers
      omega

/-- In a pane with a part of the range the edit is written, or one that stands over it. -/
theorem exists_over (erases : Erases top.edits eraser range) (sound : top.Sound length)
    (all : ∀ edit ∈ top.edits, edit.within top.start top.stop = true) (opens : top.Opens pane)
    (begins : pane.start < range.stop) (ends : range.start < pane.stop) :
    ∃ edit ∈ pane.edited, edit = eraser ∨ edit.dominates eraser = true := by
  have inner := sound.opened opens
  rcases erases.opened sound all opens with left | right | ⟨here, within⟩
  · omega
  · omega
  · rw [inner.edited_eq]
    exact inner.orderly.exists_undominated here within

/-- What is copied into the rendering is a piece of the source that does not touch the range. -/
theorem copied (erases : Erases top.edits eraser range) (sound : top.Sound length)
    (all : ∀ edit ∈ top.edits, edit.within top.start top.stop = true) {start stop : Int}
    (mem : .copied start stop ∈ top.pieces) :
    0 ≤ start ∧ start ≤ stop ∧ stop ≤ (length : Int) ∧
      (stop ≤ (range.start : Int) ∨ (range.stop : Int) ≤ start) := by
  obtain ⟨pane, opens, copied | ⟨_, _, _, _, same⟩⟩ := Pane.mem_pieces mem
  · have inner := sound.opened opens
    obtain ⟨start', stop', same, begins, proper, ends, clear⟩ := inner.copied copied
    cases same
    have nonempty := erases.nonempty
    have before := erases.begins
    have behind := erases.ends
    refine ⟨Int.le_trans inner.begins begins, proper, Int.le_trans ends inner.ends, ?_⟩
    by_contra touches
    obtain ⟨higher, written, covers⟩ := erases.exists_over sound all opens (by omega) (by omega)
    have apart := clear higher written
    have := Edit.covers_of_over covers
    omega
  · cases same

/-- A text of the rendering that stands for a part of the range is one of the edit, or of one that stands
over it. -/
theorem text (erases : Erases top.edits eraser range) (sound : top.Sound length)
    (all : ∀ edit ∈ top.edits, edit.within top.start top.stop = true) {edit : Edit} {t : Text}
    (mem : .text edit t ∈ top.pieces) (begins : edit.start < range.stop) (ends : range.start < edit.stop) :
    edit ∈ top.edits ∧ .text t ∈ edit.parts ∧ (edit = eraser ∨ edit.dominates eraser = true) := by
  obtain ⟨pane, opens, copied | ⟨edit, written, t, part, same⟩⟩ := Pane.mem_pieces mem
  · obtain ⟨_, _, same, _⟩ := (sound.opened opens).copied copied
    cases same
  · cases same
    exact ⟨opens.edits_sublist.mem (pane.edited_sublist.mem written), part,
      erases.written sound all opens written begins ends⟩

end Erases

end

end Rebundle
