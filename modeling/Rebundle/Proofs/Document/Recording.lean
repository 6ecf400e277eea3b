import Rebundle.Proofs.Document.Outermost

/-!
# Recording in any order

Replacements recorded one after the other make a document that keeps its order, so rendering writes
the outline of its edits. When the replacements are plain text and no two have the same range, the
order of recording leaves no trace in the rendered bytes.
-/

namespace Rebundle

/-- A replacement that is asked for. -/
structure Replacement where
  start : Int
  stop : Int
  parts : List Part
  reason : Text

namespace Replacement

def Fits (length : Nat) (replacement : Replacement) : Prop :=
  0 ≤ replacement.start ∧ replacement.start ≤ replacement.stop ∧ replacement.stop ≤ length

def range (replacement : Replacement) : Int × Int := (replacement.start, replacement.stop)

end Replacement

/-- What rendering reads of an edit without spans: its range and its parts. -/
def Edit.body (edit : Edit) : Nat × Nat × List Part := (edit.start, edit.stop, edit.parts)

def Replacement.body (replacement : Replacement) : Nat × Nat × List Part :=
  (replacement.start.toNat, replacement.stop.toNat, replacement.parts)

namespace Document

/-- Records the replacements one after the other. -/
def replaceAll : List Replacement → Document → Except RangeFault Document
  | [], doc => .ok doc
  | replacement :: rest, doc => do
      let (_, next) ← doc.replace replacement.start replacement.stop replacement.parts
        replacement.reason
      replaceAll rest next

theorem replaceAll_cons {replacement : Replacement} {rest : List Replacement} {doc last : Document}
    (h : replaceAll (replacement :: rest) doc = .ok last) :
    replacement.Fits doc.source.length ∧
      replaceAll rest (doc.record replacement.start.toNat replacement.stop.toNat replacement.parts
        replacement.reason).2 = .ok last := by
  rw [replaceAll] at h
  cases made : doc.replace replacement.start replacement.stop replacement.parts replacement.reason with
  | error fault => rw [made] at h; cases h
  | ok next =>
      obtain ⟨edit, next⟩ := next
      rw [made] at h
      obtain ⟨first, second, third, recorded⟩ := replace_ok made
      refine ⟨⟨first, second, third⟩, ?_⟩
      rw [← recorded]
      exact h

theorem replaceAll_ok (replacements : List Replacement) (doc : Document)
    (fits : ∀ replacement ∈ replacements, replacement.Fits doc.source.length) :
    ∃ last, replaceAll replacements doc = .ok last := by
  induction replacements generalizing doc with
  | nil => exact ⟨doc, rfl⟩
  | cons replacement rest ih =>
      obtain ⟨first, second, third⟩ := fits replacement List.mem_cons_self
      obtain ⟨last, made⟩ := ih
        (doc.record replacement.start.toNat replacement.stop.toNat replacement.parts
          replacement.reason).2
        (fun other mem => fits other (List.mem_cons_of_mem _ mem))
      refine ⟨last, ?_⟩
      rw [replaceAll, replace_eq_ok _ _ first second third]
      exact made

theorem fits_of_replaceAll {replacements : List Replacement} {doc last : Document}
    (made : replaceAll replacements doc = .ok last) :
    ∀ replacement ∈ replacements, replacement.Fits doc.source.length := by
  induction replacements generalizing doc with
  | nil => simp
  | cons replacement rest ih =>
      obtain ⟨fits, made⟩ := replaceAll_cons made
      intro other mem
      cases mem with
      | head => exact fits
      | tail _ mem => exact ih made other mem

theorem source_replaceAll {replacements : List Replacement} {doc last : Document}
    (made : replaceAll replacements doc = .ok last) : last.source = doc.source := by
  induction replacements generalizing doc with
  | nil => exact congrArg source (Except.ok.inj made).symm
  | cons replacement rest ih =>
      have later := ih (replaceAll_cons made).2
      exact later

theorem Kept.replaceAll {replacements : List Replacement} {doc last : Document} (kept : doc.Kept)
    (made : replaceAll replacements doc = .ok last) : last.Kept := by
  induction replacements generalizing doc with
  | nil => exact Except.ok.inj made ▸ kept
  | cons replacement rest ih =>
      obtain ⟨⟨first, second, third⟩, made⟩ := replaceAll_cons made
      exact ih (kept.record (Int.toNat_le_toNat second) (by omega)) made

/-- The document holds one edit for each replacement. -/
theorem bodies_replaceAll {replacements : List Replacement} {doc last : Document}
    (made : replaceAll replacements doc = .ok last) :
    (last.edits.map Edit.body).Perm (replacements.map Replacement.body ++ doc.edits.map Edit.body) := by
  induction replacements generalizing doc with
  | nil =>
      cases made
      exact List.Perm.refl _
  | cons replacement rest ih =>
      have later := ih (replaceAll_cons made).2
      have inserted := (Edit.insert_perm ⟨replacement.start.toNat, replacement.stop.toNat,
        replacement.parts, doc.recorded, replacement.reason⟩ doc.edits).map Edit.body
      refine later.trans ((inserted.append_left (rest.map Replacement.body)).trans ?_)
      exact List.perm_middle

end Document

namespace Source

theorem written_plain {f g : Span → Except Utf8.EncodeFault Bytes} {parts : List Part}
    (plain : ∀ part ∈ parts, ∃ t, part = .text t) : written f parts = written g parts := by
  apply written_congr
  intro span mem
  obtain ⟨t, same⟩ := plain _ mem
  cases same

theorem chosen_bodies {stop cursor : Int} {edits others : List Edit}
    (same : edits.map Edit.body = others.map Edit.body) :
    (chosen stop cursor edits).map Edit.body = (chosen stop cursor others).map Edit.body := by
  induction edits generalizing others cursor with
  | nil =>
      cases others with
      | nil => rfl
      | cons other rest => simp at same
  | cons edit rest ih =>
      cases others with
      | nil => simp at same
      | cons other rest' =>
          simp only [List.map_cons, List.cons.injEq] at same
          obtain ⟨head, tail⟩ := same
          have start : edit.start = other.start := congrArg (·.1) head
          have stop' : edit.stop = other.stop := congrArg (·.2.1) head
          rw [chosen, chosen, start, stop']
          split
          · rfl
          · split
            · exact ih tail
            · rw [List.map_cons, List.map_cons, head, ih tail]

theorem fromOffset_bodies {start : Int} {edits others : List Edit}
    (same : edits.map Edit.body = others.map Edit.body) :
    (fromOffset start edits).map Edit.body = (fromOffset start others).map Edit.body := by
  have moved (l : List Edit) :
      (fromOffset start l).map Edit.body =
        (l.map Edit.body).dropWhile fun body => (body.1 : Int) < start := by
    rw [List.dropWhile_map]
    rfl
  rw [moved, moved, same]

theorem splice_bodies {source : Bytes} {f g : Edit → Except Utf8.EncodeFault Bytes}
    {stop cursor : Int} {edits others : List Edit}
    (same : edits.map Edit.body = others.map Edit.body)
    (agree : ∀ edit ∈ edits, ∀ other ∈ others, edit.body = other.body → f edit = g other) :
    splice source f stop cursor edits = splice source g stop cursor others := by
  induction edits generalizing others cursor with
  | nil =>
      cases others with
      | nil => rfl
      | cons other rest => simp at same
  | cons edit rest ih =>
      cases others with
      | nil => simp at same
      | cons other rest' =>
          simp only [List.map_cons, List.cons.injEq] at same
          obtain ⟨head, tail⟩ := same
          have start : edit.start = other.start := congrArg (·.1) head
          have stop' : edit.stop = other.stop := congrArg (·.2.1) head
          have text := agree edit List.mem_cons_self other List.mem_cons_self head
          rw [splice, splice, start, stop', text, ih tail fun a ma b mb =>
            agree a (List.mem_cons_of_mem _ ma) b (List.mem_cons_of_mem _ mb)]

theorem chosen_sublist (stop cursor : Int) (edits : List Edit) :
    (chosen stop cursor edits).Sublist edits := by
  induction edits generalizing cursor with
  | nil => exact List.Sublist.refl _
  | cons edit rest ih =>
      rw [chosen]
      split
      · exact List.nil_sublist _
      · split
        · exact (ih cursor).cons edit
        · exact (ih edit.stop).cons_cons edit

theorem fromOffset_sublist (start : Int) (edits : List Edit) :
    (fromOffset start edits).Sublist edits :=
  List.dropWhile_sublist _

/-- Plain edits with the same ranges and texts give the same windows, whatever their numbers are. -/
theorem window_bodies {source : Bytes} {edits others : List Edit}
    (same : edits.map Edit.body = others.map Edit.body)
    (plain : ∀ edit ∈ edits, ∀ part ∈ edit.parts, ∃ t, part = .text t) (start stop : Int) :
    window source edits start stop = window source others start stop := by
  rw [window_eq, window_eq]
  apply splice_bodies (chosen_bodies (fromOffset_bodies same))
  intro edit mem other _ head
  have known := (fromOffset_sublist start edits).mem ((chosen_sublist _ _ _).mem mem)
  have parts : edit.parts = other.parts := congrArg (·.2.2) head
  rw [replacement, replacement, ← parts]
  exact written_plain (plain edit known)

end Source

namespace Document

/-- The place of a body in the order of edits: by the beginning, and an outer range first. -/
def Before (a b : Nat × Nat × List Part) : Prop := a.1 < b.1 ∨ a.1 = b.1 ∧ b.2.1 < a.2.1

def Apart (a b : Nat × Nat × List Part) : Prop := a.1 ≠ b.1 ∨ a.2.1 ≠ b.2.1

theorem Kept.bodies_sorted {doc : Document} (kept : doc.Kept)
    (distinct : (doc.edits.map Edit.body).Pairwise Apart) :
    (doc.edits.map Edit.body).Pairwise Before := by
  rw [List.pairwise_map] at *
  refine (kept.sorted.and distinct).imp ?_
  rintro a b ⟨before, apart⟩
  rw [Edit.precedes_iff] at before
  simp only [Before, Apart, Edit.body] at *
  omega

/-- When no two replacements have the same range, the edits stand in one order only. -/
theorem bodies_eq_of_perm {source : Bytes} {replacements others : List Replacement}
    {doc doc' : Document}
    (made : (ofSource source).replaceAll replacements = .ok doc)
    (made' : (ofSource source).replaceAll others = .ok doc')
    (distinct : replacements.Pairwise fun a b => a.range ≠ b.range) (perm : replacements.Perm others) :
    doc.edits.map Edit.body = doc'.edits.map Edit.body := by
  have bodies := bodies_replaceAll made
  have bodies' := (bodies_replaceAll made').trans
    (((perm.map Replacement.body).append_right _).symm.trans bodies.symm)
  simp only [ofSource, List.map_nil, List.append_nil] at bodies
  have apart : (replacements.map Replacement.body).Pairwise Apart := by
    rw [List.pairwise_map]
    refine List.Pairwise.imp_of_mem ?_ distinct
    intro a b memA memB differ
    obtain ⟨firstA, secondA, _⟩ := fits_of_replaceAll made a memA
    obtain ⟨firstB, secondB, _⟩ := fits_of_replaceAll made b memB
    simp only [Replacement.range, ne_eq, Prod.mk.injEq] at differ
    simp only [Apart, Replacement.body]
    omega
  have swap : ∀ {a b}, Apart a b → Apart b a := by
    intro a b h
    unfold Apart at *
    omega
  have apart := apart.perm bodies.symm swap
  have kept := (Kept.ofSource source).replaceAll made
  have kept' := (Kept.ofSource source).replaceAll made'
  refine List.Perm.eq_of_pairwise ?_ (kept.bodies_sorted apart)
    (kept'.bodies_sorted (apart.perm bodies'.symm swap)) bodies'.symm
  intro a b _ _ ab ba
  unfold Before at *
  omega

/-- A document whose edits are nested or disjoint renders as its outline. In every window the edits
written stand in the order of their places, and in the order of recording at one place. Plain
replacements of different ranges give the same bytes in whatever order they are recorded. -/
theorem render_outermost {source : Bytes} {replacements : List Replacement} {doc : Document}
    (made : (ofSource source).replaceAll replacements = .ok doc)
    (nested : ∀ a ∈ doc.edits, ∀ b ∈ doc.edits, a.range.NestedOrDisjoint b.range) :
    doc.render = Source.outline source doc.edits 0 source.length ∧
      (∀ edits, edits.Sublist doc.edits → ∀ start stop : Int,
        (Source.undominated edits start stop).Pairwise fun a b =>
          a.stop ≤ b.start ∧ (a.range = b.range → a.seq < b.seq)) ∧
      ((∀ replacement ∈ replacements, ∀ part ∈ replacement.parts, ∃ t, part = .text t) →
        replacements.Pairwise (fun a b => a.range ≠ b.range) →
        ∀ others, replacements.Perm others →
          ∃ doc', (ofSource source).replaceAll others = .ok doc' ∧ doc'.render = doc.render) := by
  have kept := (Kept.ofSource source).replaceAll made
  have unchanged : doc.source = source := source_replaceAll made
  have proper := fun edit mem => (kept.inside edit mem).1
  refine ⟨?_, ?_, ?_⟩
  · rw [render, unchanged]
    exact Source.window_eq_outline kept.sorted nested proper _ _
  · intro edits fewer start stop
    exact Source.undominated_ordered (kept.sorted.sublist fewer)
      (fun a ma b mb => nested a (fewer.mem ma) b (fewer.mem mb))
      (fun edit mem => proper edit (fewer.mem mem)) start stop
  · intro plain distinct others perm
    obtain ⟨doc', made'⟩ := replaceAll_ok others (ofSource source)
      fun replacement mem => fits_of_replaceAll made replacement (perm.mem_iff.mpr mem)
    refine ⟨doc', made', ?_⟩
    have same := bodies_eq_of_perm made made' distinct perm
    have texts : ∀ edit ∈ doc.edits, ∀ part ∈ edit.parts, ∃ t, part = .text t := by
      intro edit mem
      have known := (bodies_replaceAll made).mem_iff.mp (List.mem_map_of_mem mem)
      simp only [ofSource, List.map_nil, List.append_nil, List.mem_map] at known
      obtain ⟨replacement, mem, same⟩ := known
      have parts : replacement.parts = edit.parts := congrArg (·.2.2) same
      rw [← parts]
      exact plain replacement mem
    rw [render, render, source_replaceAll made', unchanged]
    exact (Source.window_bodies same texts _ _).symm

/-- The document `f(b)` with the call wrapped, its argument replaced and text put behind it. -/
def wrapped : Document :=
  ⟨[0x66, 0x28, 0x62, 0x29],
    [⟨0, 4, [.text "w", .span ⟨0, 4, []⟩], 1, ""⟩, ⟨2, 3, [.text "c"], 0, ""⟩,
      ⟨4, 4, [.text ";"], 2, ""⟩], 3⟩

/-- The document `f(b)` with the call and its argument replaced, the argument first. -/
def replaced : Document :=
  ⟨[0x66, 0x28, 0x62, 0x29], [⟨0, 4, [.text "d"], 1, ""⟩, ⟨2, 3, [.text "c"], 0, ""⟩], 2⟩

theorem render_wrapped :
    ((ofSource [0x66, 0x28, 0x62, 0x29]).replaceAll
        [⟨2, 3, [.text "c"], ""⟩, ⟨0, 4, [.text "w", .span ⟨0, 4, []⟩], ""⟩,
          ⟨4, 4, [.text ";"], ""⟩] = .ok wrapped ∧
      (∀ a ∈ wrapped.edits, ∀ b ∈ wrapped.edits, a.range.NestedOrDisjoint b.range) ∧
      wrapped.render = Source.outline [0x66, 0x28, 0x62, 0x29] wrapped.edits 0 4) ∧
    ((ofSource [0x66, 0x28, 0x62, 0x29]).replaceAll
        [⟨2, 3, [.text "c"], ""⟩, ⟨0, 4, [.text "d"], ""⟩] = .ok replaced ∧
      ∃ doc', (ofSource [0x66, 0x28, 0x62, 0x29]).replaceAll
          [⟨0, 4, [.text "d"], ""⟩, ⟨2, 3, [.text "c"], ""⟩] = .ok doc' ∧
        doc'.render = replaced.render) := by
  refine ⟨⟨rfl, by decide, ?_⟩, rfl, ?_⟩
  · have made : (ofSource [0x66, 0x28, 0x62, 0x29]).replaceAll
        [⟨2, 3, [.text "c"], ""⟩, ⟨0, 4, [.text "w", .span ⟨0, 4, []⟩], ""⟩,
          ⟨4, 4, [.text ";"], ""⟩] = .ok wrapped := rfl
    exact (render_outermost made (by decide)).1
  · have made : (ofSource [0x66, 0x28, 0x62, 0x29]).replaceAll
        [⟨2, 3, [.text "c"], ""⟩, ⟨0, 4, [.text "d"], ""⟩] = .ok replaced := rfl
    exact (render_outermost made (by decide)).2.2 (by simp) (by decide) _ (List.Perm.swap _ _ [])

end Document

end Rebundle
