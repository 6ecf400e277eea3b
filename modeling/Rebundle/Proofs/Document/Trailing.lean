import Rebundle.Proofs.Document.Outermost

/-!
# Insertions at the end

Edits outside a window do not matter to it when every edit writes again only what lies inside it. So
an insertion at the end of the source is written once, behind everything else, unless an edit writes
a range again that reaches the end: then the insertion appears there too.
-/

namespace Rebundle

/-- Whether an edit writes only ranges again that lie inside it. -/
def Edit.Inward (edit : Edit) : Prop :=
  ∀ span, .span span ∈ edit.parts →
    (edit.start : Int) ≤ span.start ∧ span.start ≤ span.stop ∧ span.stop ≤ (edit.stop : Int)

/-- Whether an edit writes a range again that ends at an offset. -/
def Edit.Trails (stop : Nat) (edit : Edit) : Prop :=
  ∃ span, .span span ∈ edit.parts ∧ span.stop = (stop : Int)

instance (stop : Nat) (edit : Edit) : Decidable (edit.Trails stop) :=
  decidable_of_iff (edit.parts.any (fun
      | .text _ => false
      | .span span => span.stop == (stop : Int)) = true) <| by
    rw [List.any_eq_true]
    constructor
    · rintro ⟨_ | span, mem, ends⟩
      · cases ends
      · exact ⟨span, mem, by simpa using ends⟩
    · rintro ⟨span, mem, ends⟩
      exact ⟨.span span, mem, by simpa using ends⟩

namespace Source

theorem append_ok {a b : Except Utf8.EncodeFault Bytes} {out : Bytes}
    (made : (do
      let front ← a
      let behind ← b
      return front ++ behind) = .ok out) :
    ∃ front behind, a = .ok front ∧ b = .ok behind ∧ out = front ++ behind := by
  cases a with
  | error fault => cases made
  | ok front =>
      cases b with
      | error fault => cases made
      | ok behind => exact ⟨front, behind, rfl, rfl, (Except.ok.inj made).symm⟩

/-- When the second gives a text, so does the first, and its text is shorter by a gap or more. -/
def Shorter (gap : Nat) (a b : Except Utf8.EncodeFault Bytes) : Prop :=
  ∀ long, b = .ok long → ∃ short, a = .ok short ∧ short.length + gap ≤ long.length

theorem Shorter.weaken {gap less : Nat} {a b : Except Utf8.EncodeFault Bytes}
    (shorter : Shorter gap a b) (le : less ≤ gap) : Shorter less a b := by
  intro long made
  obtain ⟨short, same, bound⟩ := shorter long made
  exact ⟨short, same, by omega⟩

theorem splice_cons_ok {source : Bytes} {f : Edit → Except Utf8.EncodeFault Bytes} {stop cursor : Int}
    {edit : Edit} {rest : List Edit} {out : Bytes} :
    splice source f stop cursor (edit :: rest) = .ok out ↔
      ∃ text behind, f edit = .ok text ∧ splice source f stop edit.stop rest = .ok behind ∧
        out = slice source cursor edit.start ++ text ++ behind := by
  rw [splice]
  cases f edit with
  | error fault => simp [Bind.bind, Except.bind]
  | ok text =>
      cases splice source f stop edit.stop rest with
      | error fault => simp [Bind.bind, Except.bind]
      | ok behind => simp [Bind.bind, Except.bind, Pure.pure, Except.pure, eq_comm]

/-- The gaps of the members of a row together. -/
def gaps {α : Type} (gap : α → Nat) : List α → Nat
  | [] => 0
  | a :: rest => gap a + gaps gap rest

theorem gap_le_gaps {α : Type} (gap : α → Nat) {row : List α} {a : α} (mem : a ∈ row) :
    gap a ≤ gaps gap row := by
  induction row with
  | nil => cases mem
  | cons first rest ih =>
      rw [gaps]
      cases mem with
      | head => exact Nat.le_add_right _ _
      | tail _ mem =>
          have later := ih mem
          omega

/-- The gap of a part: that of its span, if it is one. -/
def partGap (gap : Span → Nat) : Part → Nat
  | .text _ => 0
  | .span span => gap span

theorem shorter_written {f g : Span → Except Utf8.EncodeFault Bytes} {parts : List Part}
    (gap : Span → Nat) (each : ∀ span, .span span ∈ parts → Shorter (gap span) (f span) (g span)) :
    Shorter (gaps (partGap gap) parts) (written f parts) (written g parts) := by
  induction parts with
  | nil => exact fun long made => ⟨long, made, Nat.le_refl _⟩
  | cons part rest ih =>
      have later := ih fun span mem => each span (List.mem_cons_of_mem _ mem)
      intro long made
      cases part with
      | text t =>
          obtain ⟨bytes, behind, first, second, rfl⟩ := append_ok made
          obtain ⟨short, same, less⟩ := later behind second
          refine ⟨bytes ++ short, by rw [written, first, same]; rfl, ?_⟩
          simp only [List.length_append, gaps, partGap]
          omega
      | span span =>
          obtain ⟨bytes, behind, first, second, rfl⟩ := append_ok made
          obtain ⟨front, same, less⟩ := each span List.mem_cons_self bytes first
          obtain ⟨short, same', less'⟩ := later behind second
          refine ⟨front ++ short, by rw [written, same, same']; rfl, ?_⟩
          simp only [List.length_append, gaps, partGap]
          omega

theorem shorter_splice {source : Bytes} {f g : Edit → Except Utf8.EncodeFault Bytes}
    {stop cursor : Int} {edits : List Edit} (gap : Edit → Nat)
    (each : ∀ edit ∈ edits, Shorter (gap edit) (f edit) (g edit)) :
    Shorter (gaps gap edits) (splice source f stop cursor edits)
      (splice source g stop cursor edits) := by
  induction edits generalizing cursor with
  | nil => exact fun long made => ⟨long, made, Nat.le_refl _⟩
  | cons edit rest ih =>
      intro long made
      obtain ⟨text, behind, first, second, rfl⟩ := splice_cons_ok.mp made
      obtain ⟨short, same, less⟩ := each edit List.mem_cons_self text first
      obtain ⟨shortBehind, same', less'⟩ :=
        ih (fun other mem => each other (List.mem_cons_of_mem _ mem)) behind second
      refine ⟨_, splice_cons_ok.mpr ⟨short, shortBehind, same, same', rfl⟩, ?_⟩
      simp only [List.length_append, gaps]
      omega

/-- A splice whose last edit is an insertion at the end of its window. -/
theorem splice_append {source : Bytes} {f : Edit → Except Utf8.EncodeFault Bytes} {stop cursor : Int}
    {edits : List Edit} {last : Edit} (starts : last.start = stop) (stops : last.stop = stop) :
    splice source f stop cursor (edits ++ [last]) = (do
      let front ← splice source f stop cursor edits
      let text ← f last
      return front ++ text) := by
  have empty : slice source stop stop = [] := by simp [slice]
  induction edits generalizing cursor with
  | nil =>
      simp only [List.nil_append, splice, starts, stops, empty, Bind.bind, Except.bind]
      cases f last <;> simp [Pure.pure, Except.pure]
  | cons edit rest ih =>
      simp only [List.cons_append, splice, ih, Bind.bind, Except.bind]
      cases f edit with
      | error fault => rfl
      | ok text =>
          cases splice source f stop edit.stop rest with
          | error fault => rfl
          | ok behind => cases f last <;> simp [Pure.pure, Except.pure]

/-- Dropping edits outside a window leaves its undominated edits. -/
theorem undominated_filter {edits : List Edit} {p : Edit → Bool} {start stop : Int}
    (kept : ∀ edit ∈ edits, edit.within start stop = true → p edit = true) :
    undominated (edits.filter p) start stop = undominated edits start stop := by
  have same (edit : Edit) :
      ((edits.filter p).any fun other => other.within start stop && other.dominates edit) =
        edits.any fun other => other.within start stop && other.dominates edit := by
    rw [Bool.eq_iff_iff, List.any_eq_true, List.any_eq_true]
    constructor
    · rintro ⟨other, mem, both⟩
      exact ⟨other, (List.mem_filter.mp mem).1, both⟩
    · rintro ⟨other, mem, both⟩
      rw [Bool.and_eq_true] at both
      exact ⟨other, List.mem_filter.mpr ⟨mem, kept other mem both.1⟩, by simp [both]⟩
  rw [undominated, undominated, List.filter_filter]
  apply List.filter_congr
  intro edit mem
  rw [same]
  by_cases lies : edit.within start stop = true
  · simp [kept edit mem lies]
  · simp [lies]

theorem within_of_inward {edit other : Edit} {span : Span} {start stop : Int}
    (inward : edit.Inward) (written : .span span ∈ edit.parts) (lies : edit.within start stop = true)
    (inside : other.within span.start span.stop = true) : other.within start stop = true := by
  obtain ⟨begins, _, ends⟩ := inward span written
  rw [Edit.within_iff] at *
  omega

/-- Edits outside a window do not matter to it. -/
theorem outline_filter {source : Bytes} {edits : List Edit} {p : Edit → Bool} {start stop : Int}
    (inward : ∀ edit ∈ edits, p edit = true → edit.Inward)
    (kept : ∀ edit ∈ edits, edit.within start stop = true → p edit = true) :
    outline source (edits.filter p) start stop = outline source edits start stop := by
  generalize size : edits.length = n
  induction n using Nat.strongRecOn generalizing edits start stop with
  | _ n ih =>
      rw [outline_eq, outline_eq source edits, undominated_filter kept]
      apply splice_congr
      intro edit mem
      have known := (undominated_sublist edits start stop).mem mem
      have lies := (mem_undominated.mp mem).2.1
      have inwardHere := inward edit known (kept edit known lies)
      apply written_congr
      intro span written
      have fewer := Edit.without_sublist edit span.hidden edits
      have comm : edit.without span.hidden (edits.filter p) =
          (edit.without span.hidden edits).filter p := by
        rw [Edit.without, Edit.without, List.filter_filter, List.filter_filter]
        congr 1
        funext other
        exact Bool.and_comm _ _
      rw [comm]
      refine ih _ (size ▸ Edit.length_without_lt known span.hidden) ?_ ?_ rfl
      · exact fun other mem => inward other (fewer.mem mem)
      · intro other mem inside
        exact kept other (fewer.mem mem) (within_of_inward inwardHere written lies inside)

/-- An insertion at the end of the source, with a number that no other edit has or hides. -/
structure AtEnd (source : Bytes) (edits : List Edit) (last : Edit) : Prop where
  starts : last.start = source.length
  stops : last.stop = source.length
  fits : ∀ edit ∈ edits, edit.stop ≤ source.length
  inward : ∀ edit ∈ edits, edit.Inward
  distinct : ∀ edit ∈ edits, edit.seq ≠ last.seq
  visible : ∀ edit ∈ edits, ∀ span, .span span ∈ edit.parts → last.seq ∉ span.hidden

namespace AtEnd

variable {source : Bytes} {edits fewer : List Edit} {last : Edit} (atEnd : AtEnd source edits last)

include atEnd

theorem sublist (among : fewer.Sublist edits) : AtEnd source fewer last where
  starts := atEnd.starts
  stops := atEnd.stops
  fits edit mem := atEnd.fits edit (among.mem mem)
  inward edit mem := atEnd.inward edit (among.mem mem)
  distinct edit mem := atEnd.distinct edit (among.mem mem)
  visible edit mem := atEnd.visible edit (among.mem mem)

theorem filter_append : (edits ++ [last]).filter (fun edit => edit.seq != last.seq) = edits := by
  rw [List.filter_append, List.filter_eq_self.mpr, List.filter_eq_nil_iff.mpr]
  · exact List.append_nil edits
  · simp
  · intro edit mem
    simpa using atEnd.distinct edit mem

/-- A span of another edit is written with the insertion, wherever the insertion matters. -/
theorem without_append {edit : Edit} (mem : edit ∈ edits) {span : Span}
    (written : .span span ∈ edit.parts) :
    edit.without span.hidden (edits ++ [last]) = edit.without span.hidden edits ++ [last] := by
  have distinct := atEnd.distinct edit mem
  have visible := atEnd.visible edit mem span written
  rw [Edit.without, Edit.without, List.filter_append, List.filter_cons_of_pos]
  · rfl
  · simp [visible, Ne.symm distinct]

omit atEnd in
/-- A span of the insertion is written without it. -/
theorem without_last (hidden : List Nat) :
    last.without hidden (edits ++ [last]) = last.without hidden edits := by
  rw [Edit.without, Edit.without, List.filter_append, List.filter_cons_of_neg]
  · exact List.append_nil _
  · simp

theorem undominated_append {start : Int} (begins : start ≤ source.length) :
    undominated (edits ++ [last]) start source.length =
      undominated edits start source.length ++ [last] := by
  have starts := atEnd.starts
  have stops := atEnd.stops
  have weak (edit : Edit) : last.dominates edit = false := by
    rw [Bool.eq_false_iff, ne_eq, Edit.dominates_iff]
    omega
  have free (other : Edit) (mem : other ∈ edits) : other.dominates last = false := by
    have := atEnd.fits other mem
    rw [Bool.eq_false_iff, ne_eq, Edit.dominates_iff]
    omega
  have lies : last.within start source.length = true := by
    rw [Edit.within_iff]
    omega
  rw [undominated, undominated, List.filter_append]
  congr 1
  · apply List.filter_congr
    intro edit _
    simp [weak]
  · rw [List.filter_cons_of_pos]
    · rfl
    · have none : (edits.any fun other => other.within start source.length && other.dominates last) =
          false := by
        rw [List.any_eq_false]
        intro other mem
        simp [free other mem]
      simp [lies, none, weak]

theorem not_within {start stop : Int} (early : stop < source.length) :
    last.within start stop = false := by
  have stops := atEnd.stops
  rw [Bool.eq_false_iff, ne_eq, Edit.within_iff]
  omega

/-- Windows that end earlier do not see the insertion. -/
theorem outline_early {start stop : Int} (early : stop < source.length) :
    outline source (edits ++ [last]) start stop = outline source edits start stop := by
  have dropped : outline source ((edits ++ [last]).filter fun edit => edit.seq != last.seq) start stop =
      outline source (edits ++ [last]) start stop := outline_filter ?_ ?_
  · rw [← dropped, atEnd.filter_append]
  · intro edit mem other
    rcases List.mem_append.mp mem with mem | mem
    · exact atEnd.inward edit mem
    · rw [List.mem_singleton.mp mem] at other
      simp at other
  · intro edit mem inside
    rcases List.mem_append.mp mem with mem | mem
    · simpa using atEnd.distinct edit mem
    · rw [List.mem_singleton.mp mem, atEnd.not_within early] at inside
      cases inside

/-- When no edit of a window writes its end again, the insertion is written once, behind the window. -/
theorem outline_append {start : Int} (begins : start ≤ source.length)
    (quiet : ∀ edit ∈ undominated edits start source.length, ¬ edit.Trails source.length) :
    outline source (edits ++ [last]) start source.length = (do
      let front ← outline source edits start source.length
      let text ← written
        (fun span => outline source (last.without span.hidden edits) span.start span.stop) last.parts
      return front ++ text) := by
  rw [outline_eq, outline_eq source edits, atEnd.undominated_append begins,
    splice_append (by rw [atEnd.starts]) (by rw [atEnd.stops])]
  congr 1
  · apply splice_congr
    intro edit mem
    have known := (undominated_sublist edits start source.length).mem mem
    apply written_congr
    intro span written
    have fits := atEnd.fits edit known
    obtain ⟨_, _, ends⟩ := atEnd.inward edit known span written
    have inside : span.stop ≠ source.length := fun same => quiet edit mem ⟨span, written, same⟩
    rw [atEnd.without_append known written]
    exact (atEnd.sublist (Edit.without_sublist edit span.hidden edits)).outline_early (by omega)
  · funext front
    congr 1
    apply written_congr
    intro span _
    rw [without_last]

theorem undominated_early {start stop : Int} (outside : last.within start stop = false) :
    undominated (edits ++ [last]) start stop = undominated edits start stop := by
  rw [← undominated_filter (p := fun edit => edit.seq != last.seq), atEnd.filter_append]
  intro edit mem inside
  rcases List.mem_append.mp mem with mem | mem
  · simpa using atEnd.distinct edit mem
  · rw [List.mem_singleton.mp mem, outside] at inside
    cases inside

/-- The insertion makes no splice shorter when it makes nothing shorter that is written again. -/
theorem shorter_undominated {start stop : Int}
    (each : ∀ edit ∈ edits, ∀ span, .span span ∈ edit.parts →
      Shorter 0 (outline source (edit.without span.hidden edits) span.start span.stop)
        (outline source (edit.without span.hidden edits ++ [last]) span.start span.stop)) :
    Shorter 0
      (splice source (fun edit => written (fun span =>
        outline source (edit.without span.hidden edits) span.start span.stop) edit.parts)
        stop start (undominated edits start stop))
      (splice source (fun edit => written (fun span =>
        outline source (edit.without span.hidden (edits ++ [last])) span.start span.stop) edit.parts)
        stop start (undominated edits start stop)) := by
  refine (shorter_splice (fun _ => 0) fun edit mem => ?_).weaken (Nat.zero_le _)
  have known := (undominated_sublist edits start stop).mem mem
  refine (shorter_written (fun _ => 0) fun span written => ?_).weaken (Nat.zero_le _)
  rw [atEnd.without_append known written]
  exact each edit known span written

/-- The insertion makes no window shorter, and a window that ends with the source longer by what
the insertion weighs. -/
theorem shorter {weight : Nat}
    (heavy : ∀ f text, written f last.parts = .ok text → weight ≤ text.length)
    {start stop : Int} (bound : stop ≤ source.length) :
    Shorter (if last.within start stop then weight else 0) (outline source edits start stop)
      (outline source (edits ++ [last]) start stop) := by
  generalize size : edits.length = n
  induction n using Nat.strongRecOn generalizing edits start stop with
  | _ n ih =>
      have front := @shorter_undominated _ _ _ atEnd start stop fun edit known span written => by
        have fits := atEnd.fits edit known
        obtain ⟨_, _, ends⟩ := atEnd.inward edit known span written
        exact (ih _ (size ▸ Edit.length_without_lt known span.hidden)
          (atEnd.sublist (Edit.without_sublist edit span.hidden edits)) (by omega) rfl).weaken
          (Nat.zero_le _)
      rw [outline_eq, outline_eq source (edits ++ [last])]
      split
      · rename_i lies
        obtain ⟨begins, ends⟩ := Edit.within_iff.mp lies
        rw [atEnd.starts] at begins
        rw [atEnd.stops] at ends
        obtain rfl : stop = source.length := by omega
        rw [atEnd.undominated_append begins,
          splice_append (by rw [atEnd.starts]) (by rw [atEnd.stops])]
        intro long made
        obtain ⟨whole, text, first, second, rfl⟩ := append_ok made
        obtain ⟨short, same, less⟩ := front whole first
        have some := heavy _ _ second
        refine ⟨short, same, ?_⟩
        rw [List.length_append]
        omega
      · rename_i outside
        rw [atEnd.undominated_early (by simpa using outside)]
        exact front

/-- When an edit of a window writes its end again, the insertion makes the window longer by its own
text and by what it weighs at least. -/
theorem length_le_of_trails {weight : Nat}
    (heavy : ∀ f text, written f last.parts = .ok text → weight ≤ text.length)
    {start : Int} (begins : start ≤ source.length) {edit : Edit}
    (mem : edit ∈ undominated edits start source.length) (trails : edit.Trails source.length)
    {long : Bytes} (made : outline source (edits ++ [last]) start source.length = .ok long) :
    ∃ short text, outline source edits start source.length = .ok short ∧
      written (fun span => outline source (last.without span.hidden edits) span.start span.stop)
        last.parts = .ok text ∧ short.length + text.length + weight ≤ long.length := by
  rw [outline_eq, atEnd.undominated_append begins,
    splice_append (by rw [atEnd.starts]) (by rw [atEnd.stops])] at made
  obtain ⟨whole, text, first, second, rfl⟩ := append_ok made
  simp only [without_last] at second
  let lighter (span : Span) : Nat := if last.within span.start span.stop then weight else 0
  have each : ∀ other ∈ undominated edits start source.length,
      Shorter (gaps (partGap lighter) other.parts)
        (written (fun span =>
          outline source (other.without span.hidden edits) span.start span.stop) other.parts)
        (written (fun span =>
          outline source (other.without span.hidden (edits ++ [last])) span.start span.stop)
          other.parts) := by
    intro other mem
    have known := (undominated_sublist edits start source.length).mem mem
    apply shorter_written
    intro span written
    have fits := atEnd.fits other known
    obtain ⟨_, _, ends⟩ := atEnd.inward other known span written
    rw [atEnd.without_append known written]
    exact (atEnd.sublist (Edit.without_sublist other span.hidden edits)).shorter heavy (by omega)
  obtain ⟨short, same, less⟩ := shorter_splice _ each whole first
  refine ⟨short, text, by rw [outline_eq]; exact same, second, ?_⟩
  -- the edit that writes the end again is longer, so the whole is
  obtain ⟨span, again, ends⟩ := trails
  have known := (undominated_sublist edits start source.length).mem mem
  have lies : last.within span.start span.stop = true := by
    obtain ⟨_, ordered, _⟩ := atEnd.inward edit known span again
    rw [Edit.within_iff, atEnd.starts, atEnd.stops]
    omega
  have here : lighter span ≤ gaps (partGap lighter) edit.parts := gap_le_gaps (partGap lighter) again
  have among := gap_le_gaps (fun other : Edit => gaps (partGap lighter) other.parts) mem
  have full : lighter span = weight := if_pos lies
  rw [List.length_append]
  omega

end AtEnd

end Source

end Rebundle
