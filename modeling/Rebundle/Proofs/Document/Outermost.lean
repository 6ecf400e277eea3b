import Rebundle.Document.Render
import Rebundle.Proofs.Document.Order

/-!
# Outermost edits

A window is written in two steps that do not depend on each other: the scan chooses the edits that are written, and
the chosen edits are spliced into the source. What an edit is replaced by depends on the edits of the document only
through the windows of its spans.

Of edits that are nested or disjoint, the scan writes exactly those that no other edit dominates, and
copies the source between them. A span is written by the same rule among the edits that its own edit
and the edits it hides are missing from.
-/

namespace Rebundle

namespace Source

/-- The text of a row of parts, when `render` writes the spans. -/
def written (render : Span → Except Utf8.EncodeFault Bytes) :
    List Part → Except Utf8.EncodeFault Bytes
  | [] => .ok []
  | .text t :: parts => do
      let bytes ← Utf8.encodeEscaped t
      let behind ← written render parts
      return bytes ++ behind
  | .span span :: parts => do
      let bytes ← render span
      let behind ← written render parts
      return bytes ++ behind

/-- What an edit is replaced by among these edits. -/
def replacement (source : Bytes) (edits : List Edit) (edit : Edit) :
    Except Utf8.EncodeFault Bytes :=
  written (fun span => window source (edit.without span.hidden edits) span.start span.stop) edit.parts

/-- The source from `cursor` to `stop`, with each of these edits replaced. -/
def splice (source : Bytes) (replaced : Edit → Except Utf8.EncodeFault Bytes) (stop cursor : Int) :
    List Edit → Except Utf8.EncodeFault Bytes
  | [] => .ok (slice source cursor stop)
  | edit :: rest => do
      let text ← replaced edit
      let behind ← splice source replaced stop edit.stop rest
      return slice source cursor edit.start ++ text ++ behind

/-- The edits that a scan from `cursor` to `stop` writes: those that begin behind what is written and
end in time. -/
def chosen (stop cursor : Int) : List Edit → List Edit
  | [] => []
  | edit :: rest =>
      if stop < edit.start then []
      else if edit.start < cursor || stop < edit.stop then chosen stop cursor rest
      else edit :: chosen stop edit.stop rest

/-- The edits from an offset on. -/
def fromOffset (start : Int) (edits : List Edit) : List Edit :=
  edits.dropWhile fun edit => edit.start < start

theorem expand_eq (source : Bytes) (edits : List Edit) (edit : Edit) (mem : edit ∈ edits)
    (parts : List Part) :
    expand source edits edit mem parts =
      written (fun span => window source (edit.without span.hidden edits) span.start span.stop)
        parts := by
  induction parts with
  | nil => rw [expand, written]
  | cons part parts ih =>
      cases part with
      | text t => rw [expand, written, ih]
      | span span => rw [expand, written, ih]

theorem scan_eq (source : Bytes) (edits : List Edit) (stop cursor : Int)
    (queue : List { edit // edit ∈ edits }) :
    scan source edits stop cursor queue =
      splice source (replacement source edits) stop cursor
        (chosen stop cursor (queue.map Subtype.val)) := by
  induction queue generalizing cursor with
  | nil => rw [scan]; rfl
  | cons entry queue ih =>
      obtain ⟨edit, mem⟩ := entry
      rw [scan, List.map_cons, chosen]
      split
      · rfl
      · split
        · exact ih cursor
        · rw [splice, expand_eq, ih]
          rfl

theorem window_eq (source : Bytes) (edits : List Edit) (start stop : Int) :
    window source edits start stop =
      splice source (replacement source edits) stop start
        (chosen stop start (fromOffset start edits)) := by
  rw [window, scan_eq]
  have unattached :
      (edits.attach.dropWhile fun edit => edit.val.start < start).map Subtype.val =
        fromOffset start edits := by
    have moved := List.dropWhile_map (f := (Subtype.val : { edit // edit ∈ edits } → Edit))
      (p := fun edit => decide ((edit.start : Int) < start)) (l := edits.attach)
    rw [List.attach_map_subtype_val] at moved
    exact moved.symm
  rw [unattached]

/-- Where nothing is recorded a window is a slice, which can be computed. -/
theorem window_nil_eq : window = fun source edits start stop =>
    match edits with
    | [] => .ok (slice source start stop)
    | edit :: rest => window source (edit :: rest) start stop := by
  funext source edits start stop
  cases edits with
  | nil =>
      rw [window]
      simp [scan]
  | cons edit rest => rfl

end Source

/-- One range lies inside the other, or one ends where the other begins or before. -/
def Range.NestedOrDisjoint (a b : Range) : Prop :=
  (a.start ≤ b.start ∧ b.stop ≤ a.stop) ∨ (b.start ≤ a.start ∧ a.stop ≤ b.stop) ∨
    a.stop ≤ b.start ∨ b.stop ≤ a.start

instance (a b : Range) : Decidable (a.NestedOrDisjoint b) :=
  inferInstanceAs (Decidable (_ ∨ _ ∨ _ ∨ _))

theorem Range.NestedOrDisjoint.symm {a b : Range} (h : a.NestedOrDisjoint b) :
    b.NestedOrDisjoint a := by
  unfold NestedOrDisjoint at *
  omega

namespace Edit

def within (start stop : Int) (edit : Edit) : Bool := start ≤ edit.start && edit.stop ≤ stop

/-- Whether an edit covers another that begins inside it. Of equal ranges the one that was recorded
earlier dominates. -/
def dominates (a b : Edit) : Bool :=
  a.start ≤ b.start && b.start < a.stop && b.stop ≤ a.stop && (a.range != b.range || a.seq < b.seq)

theorem within_iff {start stop : Int} {edit : Edit} :
    edit.within start stop = true ↔ start ≤ edit.start ∧ edit.stop ≤ stop := by
  simp [within]

theorem dominates_iff {a b : Edit} :
    a.dominates b = true ↔
      a.start ≤ b.start ∧ b.start < a.stop ∧ b.stop ≤ a.stop ∧
        (a.start = b.start → a.stop = b.stop → a.seq < b.seq) := by
  simp only [dominates, range, Bool.and_eq_true, Bool.or_eq_true, decide_eq_true_eq, bne_iff_ne,
    ne_eq, Range.mk.injEq, not_and]
  constructor
  · rintro ⟨⟨⟨first, second⟩, third⟩, differ | earlier⟩
    · exact ⟨first, second, third, fun s t => absurd t (differ s)⟩
    · exact ⟨first, second, third, fun _ _ => earlier⟩
  · rintro ⟨first, second, third, same⟩
    refine ⟨⟨⟨first, second⟩, third⟩, ?_⟩
    by_cases s : a.start = b.start
    · by_cases t : a.stop = b.stop
      · exact .inr (same s t)
      · exact .inl fun _ => t
    · exact .inl fun s' => absurd s' s

theorem precedes_of_dominates {a b : Edit} (h : a.dominates b = true) : a.precedes b = true := by
  rw [dominates_iff] at h
  rw [precedes_iff]
  omega

/-- An edit covers what it stands over, and itself. -/
theorem covers_of_over {top edit : Edit} (h : top = edit ∨ top.dominates edit = true) :
    top.start ≤ edit.start ∧ edit.stop ≤ top.stop := by
  rcases h with rfl | higher
  · exact ⟨Nat.le_refl _, Nat.le_refl _⟩
  · obtain ⟨begins, _, ends, _⟩ := dominates_iff.mp higher
    exact ⟨begins, ends⟩

theorem dominates_trans {a b c : Edit} (ab : a.dominates b = true) (bc : b.dominates c = true) :
    a.dominates c = true := by
  rw [dominates_iff] at *
  omega

/-- Of two nested or disjoint edits the later one begins inside the earlier one only when it is
dominated. -/
theorem dominates_of_precedes {a b : Edit} (proper : b.start ≤ b.stop) (before : a.precedes b = true)
    (nested : a.range.NestedOrDisjoint b.range) (inside : b.start < a.stop) :
    a.dominates b = true := by
  rw [precedes_iff] at before
  rw [dominates_iff]
  unfold Range.NestedOrDisjoint range at nested
  simp only at nested
  omega

theorem without_sublist (edit : Edit) (hidden : List Nat) (edits : List Edit) :
    (edit.without hidden edits).Sublist edits :=
  List.filter_sublist

end Edit

namespace Source

/-- The edits of a window that no edit of the window dominates. -/
def undominated (edits : List Edit) (start stop : Int) : List Edit :=
  edits.filter fun edit =>
    edit.within start stop && !edits.any fun other => other.within start stop && other.dominates edit

theorem undominated_sublist (edits : List Edit) (start stop : Int) :
    (undominated edits start stop).Sublist edits :=
  List.filter_sublist

theorem mem_undominated {edits : List Edit} {start stop : Int} {edit : Edit} :
    edit ∈ undominated edits start stop ↔ edit ∈ edits ∧ edit.within start stop = true ∧
      ∀ other ∈ edits, other.within start stop = true → other.dominates edit = false := by
  simp [undominated, List.mem_filter]

/-- The source from `start` to `stop` with the undominated edits of the window spliced in, and every
span of theirs written by the same rule. -/
def outline (source : Bytes) (edits : List Edit) (start stop : Int) :
    Except Utf8.EncodeFault Bytes :=
  splice source
    (fun edit =>
      if _mem : edit ∈ edits then
        written (fun span => outline source (edit.without span.hidden edits) span.start span.stop)
          edit.parts
      else .ok [])
    stop start (undominated edits start stop)
termination_by edits.length
decreasing_by exact Edit.length_without_lt _mem _

/-- Whether an edit met before lies in the window and dominates an edit. -/
def Shadowed (start stop : Int) (before : List Edit) (edit : Edit) : Prop :=
  ∃ other ∈ before, other.within start stop = true ∧ other.dominates edit = true

/-- In order, an edit is dominated by an edit of the window exactly when it is by one met before. -/
theorem shadowed_iff_any (start stop : Int) {before rest : List Edit} {edit : Edit}
    (sorted : (before ++ edit :: rest).Pairwise fun a b => a.precedes b = true) :
    Shadowed start stop before edit ↔
      (before ++ edit :: rest).any
        (fun other => other.within start stop && other.dominates edit) = true := by
  rw [List.any_eq_true]
  constructor
  · rintro ⟨other, met, lies, covers⟩
    exact ⟨other, List.mem_append_left _ met, by simp [lies, covers]⟩
  · rintro ⟨other, met, both⟩
    rw [Bool.and_eq_true] at both
    refine ⟨other, ?_, both.1, both.2⟩
    have ahead := Edit.precedes_of_dominates both.2
    obtain ⟨first, _⟩ := List.pairwise_cons.mp (List.pairwise_append.mp sorted).2.1
    rcases List.mem_append.mp met with met | met
    · exact met
    · rw [Edit.precedes_iff] at ahead
      cases met with
      | head => omega
      | tail _ met =>
          have behind := first other met
          rw [Edit.precedes_iff] at behind
          omega

/-- An edit that is passed over shadows nothing that was not shadowed before. -/
theorem shadowed_skip {start stop : Int} {before : List Edit} {edit other : Edit}
    (passed : edit.within start stop = true → Shadowed start stop before edit) :
    Shadowed start stop (before ++ [edit]) other ↔ Shadowed start stop before other := by
  constructor
  · rintro ⟨outer, met, lies, covers⟩
    rcases List.mem_append.mp met with met | met
    · exact ⟨outer, met, lies, covers⟩
    · rw [List.mem_singleton] at met
      subst met
      obtain ⟨top, met, lies', above⟩ := passed lies
      exact ⟨top, met, lies', Edit.dominates_trans above covers⟩
  · rintro ⟨outer, met, both⟩
    exact ⟨outer, List.mem_append_left _ met, both⟩

/-- A scan on its way: what has been met of the edits is `before`, and the cursor stands behind the
edits written so far, so an edit of the window begins in front of it exactly when an edit met before
dominates it. -/
structure Scanning (start stop cursor : Int) (before queue : List Edit) : Prop where
  sorted : (before ++ queue).Pairwise fun a b => a.precedes b = true
  nested : ∀ a ∈ before ++ queue, ∀ b ∈ before ++ queue, a.range.NestedOrDisjoint b.range
  proper : ∀ edit ∈ before ++ queue, edit.start ≤ edit.stop
  behind : ∀ edit ∈ queue, start ≤ edit.start
  covered : ∀ edit ∈ queue, edit.within start stop = true →
    (edit.start < cursor ↔ Shadowed start stop before edit)

namespace Scanning

variable {start stop cursor : Int} {before rest : List Edit} {edit : Edit}
  (scanning : Scanning start stop cursor before (edit :: rest))

include scanning

theorem dominated : Shadowed start stop before edit ↔
    (before ++ edit :: rest).any
      (fun other => other.within start stop && other.dominates edit) = true :=
  shadowed_iff_any start stop scanning.sorted

theorem first {other : Edit} (met : other ∈ rest) : edit.precedes other = true :=
  (List.pairwise_cons.mp (List.pairwise_append.mp scanning.sorted).2.1).1 other met

theorem later {other : Edit} (met : other ∈ rest) : edit.start ≤ other.start :=
  Edit.start_le_of_precedes (scanning.first met)

/-- The scan without the cursor: one more edit has been met. -/
theorem next {cursor' : Int}
    (covered : ∀ other ∈ rest, other.within start stop = true →
      (other.start < cursor' ↔ Shadowed start stop (before ++ [edit]) other)) :
    Scanning start stop cursor' (before ++ [edit]) rest where
  sorted := by
    rw [List.append_assoc]
    exact scanning.sorted
  nested := by
    rw [List.append_assoc]
    exact scanning.nested
  proper := by
    rw [List.append_assoc]
    exact scanning.proper
  behind other met := scanning.behind other (List.mem_cons_of_mem _ met)
  covered := covered

/-- An edit of the window that is passed over is dominated. -/
theorem passed (skipped : edit.start < cursor ∨ stop < edit.stop)
    (lies : edit.within start stop = true) : Shadowed start stop before edit := by
  rw [← scanning.covered edit List.mem_cons_self lies]
  rw [Edit.within_iff] at lies
  omega

theorem skip (skipped : edit.start < cursor ∨ stop < edit.stop) :
    Scanning start stop cursor (before ++ [edit]) rest := by
  apply scanning.next
  intro other met lies
  rw [scanning.covered other (List.mem_cons_of_mem _ met) lies, shadowed_skip (scanning.passed skipped)]

/-- Behind an edit that is written, what begins in front of its end lies inside it. -/
theorem write (stays : cursor ≤ edit.start) (ends : edit.stop ≤ stop) :
    Scanning start stop edit.stop (before ++ [edit]) rest := by
  have lies : edit.within start stop = true :=
    Edit.within_iff.mpr ⟨scanning.behind edit List.mem_cons_self, ends⟩
  apply scanning.next
  intro other met lies'
  have known : other ∈ before ++ edit :: rest :=
    List.mem_append_right _ (List.mem_cons_of_mem _ met)
  constructor
  · intro inside
    refine ⟨edit, by simp, lies, ?_⟩
    exact Edit.dominates_of_precedes (scanning.proper other known) (scanning.first met)
      (scanning.nested edit (by simp) other known) (by omega)
  · rintro ⟨outer, met', lies'', covers⟩
    rcases List.mem_append.mp met' with met' | met'
    · have front := (scanning.covered other (List.mem_cons_of_mem _ met) lies').mpr
        ⟨outer, met', lies'', covers⟩
      have := scanning.later met
      omega
    · rw [List.mem_singleton] at met'
      subst met'
      rw [Edit.dominates_iff] at covers
      omega

end Scanning

/-- The scan and the rule choose the same edits. -/
theorem chosen_eq_filter {start stop cursor : Int} {before queue : List Edit}
    (scanning : Scanning start stop cursor before queue) :
    chosen stop cursor queue =
      queue.filter fun edit =>
        edit.within start stop &&
          !(before ++ queue).any fun other => other.within start stop && other.dominates edit := by
  induction queue generalizing before cursor with
  | nil => rfl
  | cons edit rest ih =>
      have split : before ++ edit :: rest = (before ++ [edit]) ++ rest := by simp
      have dominated := scanning.dominated
      rw [chosen]
      split
      · rename_i past
        rw [List.filter_eq_nil_iff.mpr]
        intro other met
        have bounds := scanning.proper other (List.mem_append_right _ met)
        have outside : other.within start stop = false := by
          rw [Bool.eq_false_iff, ne_eq, Edit.within_iff]
          cases met with
          | head => omega
          | tail _ met =>
              have := scanning.later met
              omega
        simp [outside]
      · split
        · rename_i skipped
          simp only [Bool.or_eq_true, decide_eq_true_eq] at skipped
          rw [List.filter_cons_of_neg, split]
          · exact ih (scanning.skip skipped)
          · by_cases lies : edit.within start stop = true
            · simp [dominated.mp (scanning.passed skipped lies)]
            · simp [lies]
        · rename_i written
          simp only [Bool.or_eq_true, decide_eq_true_eq, not_or, Int.not_lt] at written
          have lies : edit.within start stop = true :=
            Edit.within_iff.mpr ⟨scanning.behind edit List.mem_cons_self, written.2⟩
          have free : ¬ Shadowed start stop before edit := by
            rw [← scanning.covered edit List.mem_cons_self lies]
            omega
          rw [List.filter_cons_of_pos, split]
          · congr 1
            exact ih (scanning.write written.1 written.2)
          · rw [dominated] at free
            simp [lies, free]

theorem start_le_of_mem_fromOffset {edits : List Edit} {start : Int}
    (sorted : edits.Pairwise fun a b => a.precedes b = true) {edit : Edit}
    (mem : edit ∈ fromOffset start edits) : start ≤ edit.start := by
  induction edits with
  | nil => simp [fromOffset] at mem
  | cons other rest ih =>
      obtain ⟨first, sortedRest⟩ := List.pairwise_cons.mp sorted
      rw [fromOffset, List.dropWhile_cons] at mem
      split at mem
      · exact ih sortedRest mem
      · rename_i stays
        simp only [decide_eq_true_eq, Int.not_lt] at stays
        cases mem with
        | head => exact stays
        | tail _ mem =>
            have later := Edit.start_le_of_precedes (first edit mem)
            omega

theorem exists_fromOffset (start : Int) (edits : List Edit) :
    ∃ before, before ++ fromOffset start edits = edits ∧
      ∀ edit ∈ before, (edit.start : Int) < start := by
  induction edits with
  | nil => exact ⟨[], rfl, by simp⟩
  | cons edit rest ih =>
      by_cases early : (edit.start : Int) < start
      · obtain ⟨before, whole, front⟩ := ih
        refine ⟨edit :: before, ?_, ?_⟩
        · rw [fromOffset, List.dropWhile_cons_of_pos (by simpa using early), List.cons_append]
          exact congrArg (edit :: ·) whole
        · intro other mem
          cases mem with
          | head => exact early
          | tail _ mem => exact front other mem
      · refine ⟨[], ?_, by simp⟩
        rw [fromOffset, List.dropWhile_cons_of_neg (by simpa using early), List.nil_append]

theorem chosen_eq_undominated {edits : List Edit}
    (sorted : edits.Pairwise fun a b => a.precedes b = true)
    (nested : ∀ a ∈ edits, ∀ b ∈ edits, a.range.NestedOrDisjoint b.range)
    (proper : ∀ edit ∈ edits, edit.start ≤ edit.stop) (start stop : Int) :
    chosen stop start (fromOffset start edits) = undominated edits start stop := by
  obtain ⟨before, whole, front⟩ := exists_fromOffset start edits
  have outside : ∀ edit ∈ before, edit.within start stop = false := by
    intro edit mem
    have := front edit mem
    rw [Bool.eq_false_iff, ne_eq, Edit.within_iff]
    omega
  have scanning : Scanning start stop start before (fromOffset start edits) := by
    constructor
    case sorted => rwa [whole]
    case nested => rwa [whole]
    case proper => rwa [whole]
    case behind => exact fun edit mem => start_le_of_mem_fromOffset sorted mem
    case covered =>
      intro edit mem _
      have later := start_le_of_mem_fromOffset sorted mem
      constructor
      · intro inFront
        omega
      · rintro ⟨other, met, lies, _⟩
        rw [outside other met] at lies
        cases lies
  have all := chosen_eq_filter scanning
  rw [whole] at all
  have none : before.filter (fun edit => edit.within start stop &&
      !edits.any fun other => other.within start stop && other.dominates edit) = [] := by
    rw [List.filter_eq_nil_iff]
    intro edit mem
    simp [outside edit mem]
  calc chosen stop start (fromOffset start edits) = _ := all
    _ = (before ++ fromOffset start edits).filter (fun edit => edit.within start stop &&
          !edits.any fun other => other.within start stop && other.dominates edit) := by
        rw [List.filter_append, none, List.nil_append]
    _ = undominated edits start stop := by rw [whole, undominated]

theorem splice_congr {source : Bytes} {f g : Edit → Except Utf8.EncodeFault Bytes}
    {stop cursor : Int} {edits : List Edit} (same : ∀ edit ∈ edits, f edit = g edit) :
    splice source f stop cursor edits = splice source g stop cursor edits := by
  induction edits generalizing cursor with
  | nil => rfl
  | cons edit rest ih =>
      rw [splice, splice, same edit List.mem_cons_self,
        ih fun other mem => same other (List.mem_cons_of_mem _ mem)]

theorem written_congr {f g : Span → Except Utf8.EncodeFault Bytes} {parts : List Part}
    (same : ∀ span, .span span ∈ parts → f span = g span) : written f parts = written g parts := by
  induction parts with
  | nil => rfl
  | cons part parts ih =>
      have rest := ih fun span mem => same span (List.mem_cons_of_mem _ mem)
      cases part with
      | text t => rw [written, written, rest]
      | span span => rw [written, written, rest, same span List.mem_cons_self]

/-- The rule of an outline: the undominated edits of the window are spliced in, and a span of one of
them is the outline of its range among the edits that this edit and the span leave. -/
theorem outline_eq (source : Bytes) (edits : List Edit) (start stop : Int) :
    outline source edits start stop =
      splice source
        (fun edit =>
          written (fun span => outline source (edit.without span.hidden edits) span.start span.stop)
            edit.parts)
        stop start (undominated edits start stop) := by
  rw [outline]
  apply splice_congr
  intro edit mem
  rw [dif_pos ((undominated_sublist edits start stop).mem mem)]

/-- Every window of nested or disjoint edits is its outline. -/
theorem window_eq_outline {source : Bytes} {edits : List Edit}
    (sorted : edits.Pairwise fun a b => a.precedes b = true)
    (nested : ∀ a ∈ edits, ∀ b ∈ edits, a.range.NestedOrDisjoint b.range)
    (proper : ∀ edit ∈ edits, edit.start ≤ edit.stop) (start stop : Int) :
    window source edits start stop = outline source edits start stop := by
  generalize size : edits.length = n
  induction n using Nat.strongRecOn generalizing edits start stop with
  | _ n ih =>
      rw [window_eq, outline_eq, chosen_eq_undominated sorted nested proper]
      apply splice_congr
      intro edit mem
      have known := (undominated_sublist edits start stop).mem mem
      apply written_congr
      intro span _
      have fewer := Edit.without_sublist edit span.hidden edits
      exact ih _ (by rw [← size]; exact Edit.length_without_lt known _) (sorted.sublist fewer)
        (fun a ma b mb => nested a (fewer.mem ma) b (fewer.mem mb))
        (fun e me => proper e (fewer.mem me)) _ _ rfl

/-- The undominated edits follow each other in the source; two of them have the same range only when
it is empty, and then they stand in the order of recording. -/
theorem undominated_ordered {edits : List Edit}
    (sorted : edits.Pairwise fun a b => a.precedes b = true)
    (nested : ∀ a ∈ edits, ∀ b ∈ edits, a.range.NestedOrDisjoint b.range)
    (proper : ∀ edit ∈ edits, edit.start ≤ edit.stop) (start stop : Int) :
    (undominated edits start stop).Pairwise fun a b =>
      a.stop ≤ b.start ∧ (a.range = b.range → a.seq < b.seq) := by
  have ordered := sorted.sublist (undominated_sublist edits start stop)
  refine List.Pairwise.imp_of_mem ?_ ordered
  intro a b memA memB before
  obtain ⟨knownA, liesA, _⟩ := mem_undominated.mp memA
  obtain ⟨knownB, _, freeB⟩ := mem_undominated.mp memB
  have apart : a.stop ≤ b.start := by
    rw [← Nat.not_lt]
    intro inside
    refine absurd ?_ (Bool.eq_false_iff.mp (freeB a knownA liesA))
    exact Edit.dominates_of_precedes (proper b knownB) before (nested a knownA b knownB) inside
  refine ⟨apart, fun same => ?_⟩
  rw [Edit.precedes_iff] at before
  simp only [Edit.range, Range.mk.injEq] at same
  omega

end Source

end Rebundle
