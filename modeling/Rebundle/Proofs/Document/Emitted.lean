import Mathlib.Data.List.Basic
import Mathlib.Data.List.Nodup
import Rebundle.Proofs.Document.Pieces

/-!
# How often an edit is written

A rendering writes the edits of its pane and, behind each of them, those that its spans write. An edit
is written at most once unless another edit doubles it. Only an insertion can be doubled: the window of
a span is closed on both sides, so that an insertion at the end of an edit is written behind the edit
and once more by a span that reaches this end, and one where two spans of an edit meet is written by
both of them.
-/

namespace Rebundle

section Counting

variable {α β : Type} [BEq β] [LawfulBEq β] {f : α → List β} {b : β} {l : List α}

theorem count_flatMap_le_one (each : ∀ a ∈ l, (f a).count b ≤ 1)
    (apart : l.Pairwise fun a a' => b ∈ f a → b ∉ f a') : (l.flatMap f).count b ≤ 1 := by
  induction l with
  | nil => simp
  | cons a rest ih =>
      obtain ⟨first, later⟩ := List.pairwise_cons.mp apart
      rw [List.flatMap_cons, List.count_append]
      by_cases here : b ∈ f a
      · have none : (rest.flatMap f).count b = 0 := by
          rw [List.count_eq_zero, List.mem_flatMap]
          rintro ⟨a', mem, there⟩
          exact first a' mem here there
        have := each a List.mem_cons_self
        omega
      · have none : (f a).count b = 0 := List.count_eq_zero.mpr here
        have := ih (fun a' mem => each a' (List.mem_cons_of_mem _ mem)) later
        omega

theorem two_le_count_flatMap {a a' : α} (mem : a ∈ l) (mem' : a' ∈ l) (differ : a ≠ a')
    (here : b ∈ f a) (there : b ∈ f a') : 2 ≤ (l.flatMap f).count b := by
  obtain ⟨front, back, rfl⟩ := List.append_of_mem mem
  have other : b ∈ (front ++ back).flatMap f := by
    refine List.mem_flatMap.mpr ⟨a', ?_, there⟩
    simp only [List.mem_append, List.mem_cons] at mem' ⊢
    rcases mem' with ahead | rfl | behind
    · exact .inl ahead
    · exact absurd rfl differ
    · exact .inr behind
  have first := List.count_pos_iff.mpr here
  have second := List.count_pos_iff.mpr other
  simp only [List.flatMap_append, List.flatMap_cons, List.count_append] at second ⊢
  omega

omit [BEq β] [LawfulBEq β] in
theorem infix_flatMap {a : α} (mem : a ∈ l) : f a <:+: l.flatMap f := by
  obtain ⟨front, back, rfl⟩ := List.append_of_mem mem
  rw [List.flatMap_append, List.flatMap_cons, ← List.append_assoc]
  exact List.infix_append _ _ _

end Counting

/-- Whether a span writes an edit again when the edit is left over for it. -/
def Span.Shows (span : Span) (edit : Edit) : Prop :=
  span.start ≤ edit.start ∧ (edit.stop : Int) ≤ span.stop ∧ edit.seq ∉ span.hidden

instance (span : Span) (edit : Edit) : Decidable (span.Shows edit) :=
  inferInstanceAs (Decidable (_ ∧ _ ∧ _))

/-- Whether two spans have no byte in common. -/
def Span.Disjoint (a b : Span) : Prop := min a.stop b.stop ≤ max a.start b.start

instance (a b : Span) : Decidable (a.Disjoint b) := inferInstanceAs (Decidable (_ ≤ _))

namespace Edit

def texts (edit : Edit) : List Text :=
  edit.parts.filterMap fun
    | .text t => some t
    | .span _ => none

def spans (edit : Edit) : List Span :=
  edit.parts.filterMap fun
    | .text _ => none
    | .span span => some span

theorem mem_spans {edit : Edit} {span : Span} : span ∈ edit.spans ↔ .span span ∈ edit.parts := by
  rw [spans, List.mem_filterMap]
  constructor
  · rintro ⟨_ | part, mem, same⟩
    · cases same
    · cases same
      exact mem
  · exact fun mem => ⟨_, mem, rfl⟩

/-- Whether the spans of an edit lie inside the edit. -/
def Encloses (edit : Edit) : Prop :=
  ∀ span ∈ edit.spans, (edit.start : Int) ≤ span.start ∧ span.stop ≤ (edit.stop : Int)

instance (edit : Edit) : Decidable edit.Encloses := inferInstanceAs (Decidable (∀ _ ∈ _, _))

/-- Whether an edit shows another one at its own end, or in two of its spans. -/
def Doubles (other edit : Edit) : Prop :=
  other ≠ edit ∧
    ((other.stop = edit.start ∧ ∃ span ∈ other.spans, span.Shows edit) ∨
      ¬ other.spans.Pairwise fun a b => ¬ (a.Shows edit ∧ b.Shows edit))

/-- What is doubled is an insertion. -/
theorem not_doubles {other edit : Edit} (encloses : other.Encloses) (apart : other.spans.Pairwise Span.Disjoint)
    (filled : edit.start < edit.stop) : ¬ other.Doubles edit := by
  rintro ⟨_, ⟨ends, span, part, begins, reaches, _⟩ | twice⟩
  · have := (encloses span part).2
    omega
  · refine twice (apart.imp ?_)
    rintro a b apart ⟨⟨beginsA, endsA, _⟩, beginsB, endsB, _⟩
    unfold Span.Disjoint at apart
    omega

end Edit

namespace Source

variable {stop cursor : Int} {edits : List Edit}

theorem chosen_within {edit : Edit} (proper : ∀ edit ∈ edits, edit.start ≤ edit.stop)
    (mem : edit ∈ chosen stop cursor edits) : cursor ≤ edit.start ∧ edit.stop ≤ stop := by
  induction edits generalizing cursor with
  | nil => cases mem
  | cons first rest ih =>
      have later := fun cursor => @ih cursor fun other mem => proper other (List.mem_cons_of_mem _ mem)
      have ordered := proper first List.mem_cons_self
      rw [chosen] at mem
      split at mem
      · cases mem
      · split at mem
        · exact later _ mem
        · rename_i written
          simp only [Bool.or_eq_true, decide_eq_true_eq, not_or, Int.not_lt] at written
          rcases List.mem_cons.mp mem with rfl | mem
          · exact written
          · have := later _ mem
            omega

/-- What a scan writes stands one behind the other, whatever the ranges are. -/
theorem chosen_ordered (proper : ∀ edit ∈ edits, edit.start ≤ edit.stop) :
    (chosen stop cursor edits).Pairwise fun a b => a.stop ≤ b.start := by
  induction edits generalizing cursor with
  | nil => exact List.Pairwise.nil
  | cons first rest ih =>
      have properRest : ∀ edit ∈ rest, edit.start ≤ edit.stop :=
        fun other mem => proper other (List.mem_cons_of_mem _ mem)
      rw [chosen]
      split
      · exact List.Pairwise.nil
      · split
        · exact ih properRest
        · refine List.pairwise_cons.mpr ⟨fun other mem => ?_, ih properRest⟩
          have := (chosen_within properRest mem).1
          omega

/-- An insertion at the end of the window is always written. -/
theorem mem_chosen_of_stop {edit : Edit} (sorted : edits.Pairwise fun a b => a.precedes b = true)
    (mem : edit ∈ edits) (empty : edit.start = edit.stop) (ends : edit.stop = stop)
    (before : cursor ≤ stop) : edit ∈ chosen stop cursor edits := by
  induction edits generalizing cursor with
  | nil => cases mem
  | cons first rest ih =>
      obtain ⟨ahead, sortedRest⟩ := List.pairwise_cons.mp sorted
      rw [chosen]
      rcases List.mem_cons.mp mem with rfl | mem
      · rw [if_neg (by omega), if_neg (by simp; omega)]
        exact List.mem_cons_self
      · have := Edit.start_le_of_precedes (ahead edit mem)
        rw [if_neg (by omega)]
        split
        · exact ih sortedRest mem before
        · rename_i written
          simp only [Bool.or_eq_true, decide_eq_true_eq, not_or, Int.not_lt] at written
          exact List.mem_cons_of_mem _ (ih sortedRest mem written.2)

theorem mem_fromOffset {edit : Edit} (mem : edit ∈ edits) (begins : cursor ≤ edit.start) :
    edit ∈ fromOffset cursor edits := by
  obtain ⟨before, whole, early⟩ := exists_fromOffset cursor edits
  rw [← whole] at mem
  rcases List.mem_append.mp mem with mem | mem
  · have := early edit mem
    omega
  · exact mem

end Source

namespace Pane

/-- The edits that a pane writes, each with those that its spans write behind it. -/
def emitted (pane : Pane) : List Edit :=
  pane.edited.flatMap fun edit =>
    edit :: edit.spans.flatMap fun span =>
      if _mem : edit ∈ pane.edits then emitted (pane.under edit span) else []
termination_by pane.edits.length
decreasing_by exact Edit.length_without_lt _mem _

/-- The edits that the spans of an edit write. -/
def shown (pane : Pane) (edit : Edit) : List Edit :=
  edit.spans.flatMap fun span => (pane.under edit span).emitted

theorem emitted_eq (pane : Pane) : pane.emitted = pane.edited.flatMap fun edit => edit :: pane.shown edit := by
  rw [emitted]
  refine List.flatMap_congr fun edit mem => ?_
  simp only [dif_pos (pane.edited_sublist.mem mem), shown]

/-- What an opened pane writes stands together. -/
theorem Opens.emitted_stand {top pane : Pane} (opened : top.Opens pane) : pane.emitted <:+: top.emitted := by
  induction opened with
  | here => exact List.infix_refl _
  | @span pane edit span _ written part ih =>
      refine List.IsInfix.trans ?_ ih
      have part' : span ∈ edit.spans := Edit.mem_spans.mpr part
      have inside : (pane.under edit span).emitted <:+: pane.shown edit :=
        infix_flatMap (f := fun span => (pane.under edit span).emitted) part'
      rw [pane.emitted_eq]
      exact (inside.trans (List.suffix_cons edit _).isInfix).trans
        (infix_flatMap (f := fun edit => edit :: pane.shown edit) written)

/-- What a pane emits are the edits that the panes it opens write. -/
theorem mem_emitted {top : Pane} {edit : Edit} :
    edit ∈ top.emitted ↔ ∃ pane, top.Opens pane ∧ edit ∈ pane.edited := by
  constructor
  · intro mem
    generalize size : top.edits.length = n
    induction n using Nat.strongRecOn generalizing top with
    | _ n ih =>
        rw [emitted_eq, List.mem_flatMap] at mem
        obtain ⟨other, written, mem⟩ := mem
        rcases List.mem_cons.mp mem with rfl | mem
        · exact ⟨top, .here, written⟩
        · obtain ⟨span, part, inside⟩ := List.mem_flatMap.mp mem
          have smaller := Edit.length_without_lt (top.edited_sublist.mem written) span.hidden
          obtain ⟨pane, opened, found⟩ :=
            @ih _ (by rw [← size]; exact smaller) (top.under other span) inside rfl
          exact ⟨pane, (Opens.span .here written (Edit.mem_spans.mp part)).trans opened, found⟩
  · rintro ⟨pane, opened, written⟩
    refine opened.emitted_stand.subset ?_
    rw [emitted_eq]
    exact List.mem_flatMap.mpr ⟨edit, written, List.mem_cons_self⟩

theorem mem_of_mem_emitted {pane : Pane} {edit : Edit} (mem : edit ∈ pane.emitted) : edit ∈ pane.edits := by
  obtain ⟨_, opened, written⟩ := mem_emitted.mp mem
  exact opened.edits_sublist.mem ((edited_sublist _).mem written)

/-- What holds of the panes of a document whose edits enclose their spans. -/
structure Tidy (pane : Pane) : Prop where
  sorted : pane.edits.Pairwise fun a b => a.precedes b = true
  proper : ∀ edit ∈ pane.edits, edit.start ≤ edit.stop
  encloses : ∀ edit ∈ pane.edits, edit.Encloses
  distinct : (pane.edits.map (·.seq)).Nodup

namespace Tidy

variable {pane : Pane} {edit other : Edit} {span : Span} (tidy : pane.Tidy)

include tidy

theorem under (edit : Edit) (span : Span) : (pane.under edit span).Tidy where
  sorted := tidy.sorted.sublist (Edit.without_sublist _ _ _)
  proper other mem := tidy.proper other ((Edit.without_sublist _ _ _).mem mem)
  encloses other mem := tidy.encloses other ((Edit.without_sublist _ _ _).mem mem)
  distinct := tidy.distinct.sublist ((Edit.without_sublist _ _ _).map _)

theorem opened {pane' : Pane} (opened : pane.Opens pane') : pane'.Tidy := by
  induction opened with
  | here => exact tidy
  | span _ _ _ ih => exact ih.under _ _

theorem edited_within (mem : edit ∈ pane.edited) : pane.start ≤ edit.start ∧ edit.stop ≤ pane.stop :=
  Source.chosen_within
    (fun other mem => tidy.proper other ((Source.fromOffset_sublist _ _).mem mem)) mem

theorem edited_ordered :
    pane.edited.Pairwise fun a b => a.stop ≤ b.start ∧ a.precedes b = true :=
  (Source.chosen_ordered
    fun other mem => tidy.proper other ((Source.fromOffset_sublist _ _).mem mem)).and
      (tidy.sorted.sublist pane.edited_sublist)

/-- A pane that is opened lies inside the pane that opens it. -/
theorem opened_within {inner : Pane} (opened : pane.Opens inner) :
    pane.start ≤ inner.start ∧ inner.stop ≤ pane.stop := by
  induction opened with
  | here => exact ⟨Int.le_refl _, Int.le_refl _⟩
  | @span inner edit span opened written part ih =>
      have outer := (tidy.opened opened).edited_within written
      have enclosed := (tidy.opened opened).encloses edit (inner.edited_sublist.mem written) span
        (Edit.mem_spans.mpr part)
      simp only [Pane.under]
      omega

theorem emitted_within (mem : edit ∈ pane.emitted) : pane.start ≤ edit.start ∧ edit.stop ≤ pane.stop := by
  obtain ⟨inner, opened, written⟩ := mem_emitted.mp mem
  have outer := tidy.opened_within opened
  have lies := (tidy.opened opened).edited_within written
  omega

/-- What a span of an edit writes is another edit that the span shows. -/
theorem of_mem_under (mem : edit ∈ (pane.under other span).emitted) :
    edit ∈ pane.edits ∧ other ≠ edit ∧ span.Shows edit := by
  have among := mem_of_mem_emitted mem
  obtain ⟨begins, ends⟩ := (tidy.under other span).emitted_within mem
  simp only [Pane.under, Edit.without, List.mem_filter, Bool.and_eq_true, bne_iff_ne, ne_eq,
    Bool.not_eq_true', List.contains_eq_mem, decide_eq_false_iff_not] at among
  exact ⟨among.1, fun same => among.2.1 (same ▸ rfl), begins, ends, among.2.2⟩

theorem of_mem_shown (mem : edit ∈ pane.shown other) :
    edit ∈ pane.edits ∧ other ≠ edit ∧ ∃ span ∈ other.spans, span.Shows edit := by
  obtain ⟨span, part, inside⟩ := List.mem_flatMap.mp mem
  obtain ⟨known, differ, shows⟩ := tidy.of_mem_under inside
  exact ⟨known, differ, span, part, shows⟩

/-- Of two edits that a pane writes, only one writes an edit that neither of them doubles. -/
theorem written_apart (single : ∀ other ∈ pane.edits, ¬ other.Doubles edit) :
    pane.edited.Pairwise fun a b => edit ∈ a :: pane.shown a → edit ∉ b :: pane.shown b := by
  refine List.Pairwise.imp_of_mem ?_ tidy.edited_ordered
  rintro a b memA memB ⟨apart, ahead⟩ inA inB
  have knownA := pane.edited_sublist.mem memA
  have knownB := pane.edited_sublist.mem memB
  have insideB : edit ∈ pane.edits ∧ b.start ≤ edit.start := by
    rcases List.mem_cons.mp inB with rfl | inB
    · exact ⟨knownB, Nat.le_refl _⟩
    · obtain ⟨known, _, span, part, begins, _⟩ := tidy.of_mem_shown inB
      have := tidy.encloses b knownB span part
      exact ⟨known, by omega⟩
  have proper := tidy.proper edit insideB.1
  rcases List.mem_cons.mp inA with rfl | inA
  · -- the edit stands in front of `b`, which begins at the same place and so is empty too
    rw [Edit.precedes_iff] at ahead
    rcases List.mem_cons.mp inB with rfl | inB
    · omega
    · obtain ⟨_, differ, shows⟩ := tidy.of_mem_shown inB
      have := tidy.proper b knownB
      exact single b knownB ⟨differ, .inl ⟨by omega, shows⟩⟩
  · obtain ⟨_, differ, span, part, shows⟩ := tidy.of_mem_shown inA
    have := (tidy.encloses a knownA span part).2
    have reaches := shows.2.1
    exact single a knownA ⟨differ, .inl ⟨by omega, span, part, shows⟩⟩

/-- An edit that no edit doubles is written at most once. -/
theorem count_emitted_le_one (single : ∀ other ∈ pane.edits, ¬ other.Doubles edit) :
    pane.emitted.count edit ≤ 1 := by
  generalize size : pane.edits.length = n
  induction n using Nat.strongRecOn generalizing pane with
  | _ n ih =>
      rw [emitted_eq]
      refine count_flatMap_le_one (fun other written => ?_) (tidy.written_apart single)
      have known := pane.edited_sublist.mem written
      by_cases same : other = edit
      · subst same
        have none : (pane.shown other).count other = 0 :=
          List.count_eq_zero.mpr fun mem => (tidy.of_mem_shown mem).2.1 rfl
        exact Nat.le_of_eq (List.count_cons_self.trans (congrArg (· + 1) none))
      · rw [List.count_cons_of_ne same]
        have once : other.spans.Pairwise fun a b => ¬ (a.Shows edit ∧ b.Shows edit) :=
          Decidable.of_not_not fun twice => single other known ⟨same, .inr twice⟩
        refine count_flatMap_le_one (fun span _ => ?_) (once.imp ?_)
        · exact ih _ (by rw [← size]; exact Edit.length_without_lt known span.hidden)
            (tidy.under other span)
            (fun outer mem => single outer ((Edit.without_sublist _ _ _).mem mem)) rfl
        · intro a b once inA inB
          exact once ⟨(tidy.of_mem_under inA).2.2, (tidy.of_mem_under inB).2.2⟩

/-- An insertion that is written behind an edit is written once more by a span that reaches the end of
this edit and shows the insertion. -/
theorem two_le_count_emitted (written : edit ∈ pane.edited) (empty : edit.start = edit.stop)
    (beside : other ∈ pane.edited) (differ : other ≠ edit) (ends : other.stop = edit.start)
    (part : span ∈ other.spans) (shows : span.Shows edit) : 2 ≤ pane.emitted.count edit := by
  obtain ⟨begins, reaches, visible⟩ := shows
  have known := pane.edited_sublist.mem beside
  have inner := (tidy.encloses other known span part).2
  have apart : edit.seq ≠ other.seq := fun same =>
    differ (List.inj_on_of_nodup_map tidy.distinct known (pane.edited_sublist.mem written) same.symm)
  have again : edit ∈ (pane.under other span).edited := by
    have sorted := (tidy.under other span).sorted
    have left : edit ∈ (pane.under other span).edits :=
      List.mem_filter.mpr ⟨pane.edited_sublist.mem written, by simp [apart, visible]⟩
    refine Source.mem_chosen_of_stop (sorted.sublist (Source.fromOffset_sublist _ _))
      (Source.mem_fromOffset left begins) empty ?_ ?_
    · change (edit.stop : Int) = span.stop
      omega
    · change span.start ≤ span.stop
      omega
  rw [emitted_eq]
  refine two_le_count_flatMap written beside differ.symm List.mem_cons_self
    (List.mem_cons_of_mem _ (List.mem_flatMap.mpr ⟨span, part, ?_⟩))
  rw [emitted_eq]
  exact List.mem_flatMap.mpr ⟨edit, again, List.mem_cons_self⟩

end Tidy

end Pane

/-- The text of a piece, when it is one of an edit. -/
def Piece.textOf (edit : Edit) : Piece → Option Text
  | .copied _ _ => none
  | .text other t => if other = edit then some t else none

theorem Source.textOf_cut {edit : Edit} {inner : Edit → List Piece} {stop cursor : Int} {edits : List Edit} :
    (cut inner stop cursor edits).filterMap (Piece.textOf edit) =
      edits.flatMap fun other => (inner other).filterMap (Piece.textOf edit) := by
  induction edits generalizing cursor with
  | nil => rfl
  | cons other rest ih =>
      rw [cut, List.filterMap_cons_none rfl, List.filterMap_append, ih, List.flatMap_cons]

namespace Edit

variable {edit other : Edit} {inner : Span → List Piece}

/-- Among the pieces of an edit that its spans do not write are its own texts. -/
theorem textOf_pieces_self
    (free : ∀ span ∈ edit.spans, (inner span).filterMap (Piece.textOf edit) = []) :
    (edit.pieces inner).filterMap (Piece.textOf edit) = edit.texts := by
  unfold pieces texts
  simp only [mem_spans] at free
  generalize edit.parts = parts at free
  induction parts with
  | nil => rfl
  | cons part rest ih =>
      have later := ih fun span mem => free span (List.mem_cons_of_mem _ mem)
      rw [List.flatMap_cons, List.filterMap_append, later]
      cases part with
      | text t => simp [Piece.textOf]
      | span span => rw [free span List.mem_cons_self, List.filterMap_cons_none rfl, List.nil_append]

/-- Among the pieces of another edit are those that its spans write. -/
theorem textOf_pieces_other (differ : other ≠ edit) :
    (other.pieces inner).filterMap (Piece.textOf edit) =
      other.spans.flatMap fun span => (inner span).filterMap (Piece.textOf edit) := by
  unfold pieces spans
  generalize other.parts = parts
  induction parts with
  | nil => rfl
  | cons part rest ih =>
      rw [List.flatMap_cons, List.filterMap_append, ih]
      cases part with
      | text t => simp [Piece.textOf, differ]
      | span span => simp

end Edit

/-- The texts of an edit in a pane are those of each time that it is written. -/
theorem Pane.textOf_pieces (pane : Pane) (edit : Edit) :
    pane.pieces.filterMap (Piece.textOf edit) =
      (pane.emitted.filter (· == edit)).flatMap Edit.texts := by
  generalize size : pane.edits.length = n
  induction n using Nat.strongRecOn generalizing pane with
  | _ n ih =>
      rw [pieces_eq, emitted_eq, Source.textOf_cut, List.filter_flatMap, List.flatMap_assoc]
      refine List.flatMap_congr fun other written => ?_
      have known := pane.edited_sublist.mem written
      have inner (span : Span) := ih _ (by rw [← size]; exact Edit.length_without_lt known span.hidden)
        (pane.under other span) rfl
      by_cases same : other = edit
      · subst same
        have free (span : Span) : (pane.under other span).emitted.filter (· == other) = [] := by
          rw [List.filter_eq_nil_iff]
          intro among mem
          have := mem_of_mem_emitted mem
          simp only [under, Edit.without, List.mem_filter] at this
          rintro same
          simp [beq_iff_eq.mp same] at this
        have none : (pane.shown other).filter (· == other) = [] := by
          rw [shown, List.filter_flatMap]
          exact List.flatMap_eq_nil_iff.mpr fun span _ => free span
        rw [replaced, Edit.textOf_pieces_self fun span _ => by rw [inner, free]; rfl,
          List.filter_cons_of_pos (by simp), none, List.flatMap_singleton]
      · rw [replaced, Edit.textOf_pieces_other same, List.filter_cons_of_neg (by simpa using same),
          shown, List.filter_flatMap, List.flatMap_assoc]
        exact List.flatMap_congr fun span _ => inner span

namespace Document

theorem Kept.tidy {doc : Document} (kept : doc.Kept) (encloses : ∀ edit ∈ doc.edits, edit.Encloses) :
    doc.pane.Tidy where
  sorted := kept.sorted
  proper edit mem := (kept.inside edit mem).1
  encloses := encloses
  distinct := kept.numbered.nodup_iff.mpr List.nodup_range

/-- A rendering is put together from pieces. An edit that no edit doubles is written at most once: its
texts stand there once, in their order, or not at all. Where the spans of every edit lie inside it and
have no byte in common, every edit that replaces something is such an edit, and an insertion is one
unless it stands at the end of an edit with a span that reaches this end, or where two spans of an edit
meet. In the first case, when both are written in one pane, the insertion is written twice or more. -/
theorem render_emitted {source : Bytes} {replacements : List Replacement} {doc : Document}
    (made : (ofSource source).replaceAll replacements = .ok doc)
    (encloses : ∀ edit ∈ doc.edits, edit.Encloses)
    (apart : ∀ edit ∈ doc.edits, edit.spans.Pairwise Span.Disjoint) :
    doc.render = Piece.assemble source doc.pane.pieces ∧
      (∀ edit ∈ doc.edits, (∀ other ∈ doc.edits, ¬ other.Doubles edit) →
        doc.pane.emitted.count edit ≤ 1 ∧
          doc.pane.pieces.filterMap (Piece.textOf edit) =
            if edit ∈ doc.pane.emitted then edit.texts else []) ∧
      (∀ edit, edit.start < edit.stop → ∀ other ∈ doc.edits, ¬ other.Doubles edit) ∧
      ∀ pane, doc.pane.Opens pane → ∀ edit ∈ pane.edited, edit.start = edit.stop →
        ∀ other ∈ pane.edited, other ≠ edit → other.stop = edit.start →
          (∃ span ∈ other.spans, span.Shows edit) → 2 ≤ doc.pane.emitted.count edit := by
  have kept := (Kept.ofSource source).replaceAll made
  have tidy := kept.tidy encloses
  refine ⟨?_, ?_, ?_, ?_⟩
  · rw [render_eq_assemble, source_replaceAll made]
    rfl
  · intro edit _ single
    have once := tidy.count_emitted_le_one single
    refine ⟨once, ?_⟩
    rw [Pane.textOf_pieces, List.filter_beq]
    split
    · rename_i mem
      have := List.count_pos_iff.mpr mem
      rw [show doc.pane.emitted.count edit = 1 by omega]
      simp
    · rename_i absent
      rw [List.count_eq_zero.mpr absent]
      rfl
  · intro edit filled other mem
    exact Edit.not_doubles (encloses other mem) (apart other mem) filled
  · rintro pane opened edit written empty other beside differ ends ⟨span, part, shows⟩
    have twice := (tidy.opened opened).two_le_count_emitted written empty beside differ ends part shows
    exact Nat.le_trans twice (opened.emitted_stand.sublist.count_le edit)

/-- The document `ab` with its first letter written again, the letter replaced inside that, and text
inserted behind it. -/
def marked : Document :=
  ⟨[0x61, 0x62],
    [⟨0, 1, [.span ⟨0, 1, []⟩], 0, ""⟩, ⟨0, 1, [.text "y"], 1, ""⟩, ⟨1, 1, [.text "x"], 2, ""⟩], 3⟩

theorem render_emitted_marked :
    (ofSource [0x61, 0x62]).replaceAll
        [⟨0, 1, [.span ⟨0, 1, []⟩], ""⟩, ⟨0, 1, [.text "y"], ""⟩, ⟨1, 1, [.text "x"], ""⟩] =
          .ok marked ∧
      (∀ a ∈ marked.edits, ∀ b ∈ marked.edits, a.range.NestedOrDisjoint b.range) ∧
      (∀ edit ∈ marked.edits, edit.Encloses ∧ edit.spans.Pairwise Span.Disjoint) ∧
      marked.pane.emitted.count ⟨0, 1, [.text "y"], 1, ""⟩ ≤ 1 ∧
      2 ≤ marked.pane.emitted.count ⟨1, 1, [.text "x"], 2, ""⟩ := by
  have made : (ofSource [0x61, 0x62]).replaceAll
      [⟨0, 1, [.span ⟨0, 1, []⟩], ""⟩, ⟨0, 1, [.text "y"], ""⟩, ⟨1, 1, [.text "x"], ""⟩] =
        .ok marked := rfl
  obtain ⟨_, once, filled, twice⟩ := render_emitted made (by decide) (by decide)
  refine ⟨made, by decide, by decide, ?_, ?_⟩
  · exact (once _ (by decide) (filled _ (by decide))).1
  · exact twice _ .here _ (by decide) rfl ⟨0, 1, [.span ⟨0, 1, []⟩], 0, ""⟩ (by decide) (by decide) rfl
      ⟨⟨0, 1, []⟩, by decide, by decide⟩

end Document

end Rebundle
