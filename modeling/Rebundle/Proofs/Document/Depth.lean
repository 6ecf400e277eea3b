import Mathlib.Data.List.Nodup
import Mathlib.Data.List.Perm.Subperm
import Rebundle.Proofs.Document.Ledger
import Rebundle.Proofs.Document.Recording

/-!
# Depth of a rendering

A span may be as wide as the window in which it is written, so neither windows nor texts get smaller on the way
down. What gets smaller is the row of the edits that are not hidden yet: every edit that is expanded is hidden
from its own spans. So no chain of nested expansions holds an edit twice, and a rendering that may nest as many
expansions as edits are recorded never runs out of depth.
-/

namespace Rebundle

namespace Ledger

/-- The edits that a scan expands. -/
def taken (hidden : List Nat) (stop cursor : Int) : List Edit → List Edit
  | [] => []
  | edit :: rest =>
      if stop < edit.start then []
      else if hidden.contains edit.seq || edit.start < cursor || stop < edit.stop then taken hidden stop cursor rest
      else edit :: taken hidden stop edit.stop rest

/-- The edits of a window each of which is expanded in a span of the one before. -/
inductive Nests (ledger : Ledger) : List Nat → Int → Int → List Edit → Prop
  | none (hidden : List Nat) (start stop : Int) : Nests ledger hidden start stop []
  | inner {hidden : List Nat} {start stop : Int} {edit : Edit} {span : Span} {chain : List Edit}
      (expanded : edit ∈ taken hidden stop start (ledger.queue start)) (part : .span span ∈ edit.parts)
      (nested : Nests ledger (span.hidden ++ edit.seq :: hidden) span.start span.stop chain) :
      Nests ledger hidden start stop (edit :: chain)

section Nesting

variable {ledger : Ledger} {hidden : List Nat} {start stop cursor : Int} {row chain : List Edit} {edit : Edit}

theorem taken_sublist (hidden : List Nat) (stop cursor : Int) (row : List Edit) :
    (taken hidden stop cursor row).Sublist row := by
  induction row generalizing cursor with
  | nil => exact List.Sublist.refl []
  | cons edit rest ih =>
      rw [taken]
      split
      · exact List.nil_sublist _
      · split
        · exact (ih cursor).cons edit
        · exact (ih edit.stop).cons_cons edit

/-- A scan expands nothing that is hidden. -/
theorem visible_of_taken (mem : edit ∈ taken hidden stop cursor row) : edit.seq ∉ hidden := by
  induction row generalizing cursor with
  | nil => cases mem
  | cons other rest ih =>
      rw [taken] at mem
      split at mem
      · cases mem
      · split at mem
        · exact ih mem
        · rename_i free
          rcases List.mem_cons.mp mem with rfl | mem
          · simp only [Bool.or_eq_true, List.contains_iff_mem, not_or] at free
            exact free.1.1
          · exact ih mem

theorem Nests.recorded (nests : ledger.Nests hidden start stop chain) :
    ∀ edit ∈ chain, edit ∈ ledger.edits ∧ edit.seq ∉ hidden := by
  induction nests with
  | none hidden start stop => simp
  | inner expanded part nested ih =>
      refine List.forall_mem_cons.mpr ⟨⟨?_, visible_of_taken expanded⟩, fun other mem => ?_⟩
      · exact List.mem_of_mem_drop ((taken_sublist _ _ _ _).mem expanded)
      · obtain ⟨known, visible⟩ := ih other mem
        exact ⟨known, fun covered => visible (List.mem_append_right _ (List.mem_cons_of_mem _ covered))⟩

/-- No chain of nested expansions meets an edit again. -/
theorem Nests.nodup (nests : ledger.Nests hidden start stop chain) : (chain.map (·.seq)).Nodup := by
  induction nests with
  | none hidden start stop => exact List.nodup_nil
  | inner expanded part nested ih =>
      refine List.nodup_cons.mpr ⟨fun again => ?_, ih⟩
      obtain ⟨other, mem, same⟩ := List.mem_map.mp again
      exact (nested.recorded other mem).2 (same ▸ List.mem_append_right _ List.mem_cons_self)

theorem Nests.length_le (nests : ledger.Nests hidden start stop chain) : chain.length ≤ ledger.edits.length :=
  (nests.nodup.of_map.subperm fun edit mem => (nests.recorded edit mem).1).length_le

end Nesting

section Depth

variable {source : Bytes} {render deeper : List Nat → Int → Int → ExceptT Utf8.EncodeFault Option Bytes}
  {hidden : List Nat} {stop cursor : Int}

/-- Parts whose spans have a result are written as they are in a document. -/
theorem expand_eq_some {f : Span → Except Utf8.EncodeFault Bytes} {parts : List Part}
    (made : ∀ span, .span span ∈ parts → render (span.hidden ++ hidden) span.start span.stop = some (f span)) :
    expand render hidden parts = some (Source.written f parts) := by
  induction parts with
  | nil => rfl
  | cons part parts ih =>
      have later := ih fun span mem => made span (List.mem_cons_of_mem _ mem)
      cases part with
      | text t =>
          rw [expand, later, Source.written]
          cases Utf8.encodeEscaped t with
          | error fault => rfl
          | ok bytes => cases Source.written f parts <;> rfl
      | span span =>
          rw [expand, later, made span List.mem_cons_self, Source.written]
          cases f span with
          | error fault => rfl
          | ok bytes => cases Source.written f parts <;> rfl

/-- A scan splices what it expands. -/
theorem scan_eq_some {f : Edit → Except Utf8.EncodeFault Bytes} {row : List Edit}
    (made : ∀ edit ∈ taken hidden stop cursor row, expand render (edit.seq :: hidden) edit.parts = some (f edit)) :
    scan render source hidden stop cursor row =
      some (Source.splice source f stop cursor (taken hidden stop cursor row)) := by
  induction row generalizing cursor with
  | nil => rfl
  | cons edit rest ih =>
      rw [taken] at made ⊢
      rw [scan]
      split at made
      · rename_i past
        rw [if_pos past, if_pos past]
        rfl
      · rename_i inside
        rw [if_neg inside, if_neg inside]
        split at made
        · rename_i skipped
          rw [if_pos skipped, if_pos skipped]
          exact ih made
        · rename_i met
          rw [if_neg met, if_neg met, made edit List.mem_cons_self,
            ih fun other mem => made other (List.mem_cons_of_mem _ mem), Source.splice]
          cases f edit with
          | error fault => rfl
          | ok text => cases Source.splice source f stop edit.stop _ <;> rfl

/-- A window holds a chain of expansions as long as a depth, or this depth suffices for its result. -/
theorem nests_or_settles (ledger : Ledger) (depth : Nat) (hidden : List Nat) (start stop : Int) :
    (∃ chain, ledger.Nests hidden start stop chain ∧ chain.length = depth) ∨
      ∃ result, ∀ more, depth ≤ more → ledger.renderWithin more hidden start stop = some result := by
  induction depth generalizing hidden start stop with
  | zero => exact .inl ⟨[], .none hidden start stop, rfl⟩
  | succ depth ih =>
      by_cases deep : ∃ edit ∈ taken hidden stop start (ledger.queue start), ∃ span, .span span ∈ edit.parts ∧
          ∃ chain, ledger.Nests (span.hidden ++ edit.seq :: hidden) span.start span.stop chain ∧
            chain.length = depth
      · obtain ⟨edit, mem, span, part, chain, nests, long⟩ := deep
        exact .inl ⟨edit :: chain, .inner mem part nests, congrArg (· + 1) long⟩
      · -- every span of an expanded edit has a result at this depth, and so has the window
        have made (edit : Edit) (mem : edit ∈ taken hidden stop start (ledger.queue start)) (span : Span)
            (part : .span span ∈ edit.parts) :=
          (ih (span.hidden ++ edit.seq :: hidden) span.start span.stop).resolve_left
            fun nested => deep ⟨edit, mem, span, part, nested⟩
        choose! result made using made
        refine .inr ⟨Source.splice ledger.source (fun edit => Source.written (result edit) edit.parts) stop start
          (taken hidden stop start (ledger.queue start)), fun more enough => ?_⟩
        obtain ⟨more, rfl⟩ := Nat.exists_eq_add_one_of_ne_zero (show more ≠ 0 by omega)
        exact scan_eq_some fun edit mem =>
          expand_eq_some fun span part => made edit mem span part more (Nat.le_of_succ_le_succ enough)

theorem settles (ledger : Ledger) (hidden : List Nat) (start stop : Int) :
    ∃ result, ∀ depth, ledger.edits.length < depth →
      ledger.renderWithin depth hidden start stop = some result := by
  refine (ledger.nests_or_settles (ledger.edits.length + 1) hidden start stop).resolve_left ?_
  rintro ⟨chain, nests, long⟩
  have := nests.length_le
  omega

end Depth

end Ledger

/-! On the ledger of a document the loop writes the windows of the document. -/

namespace Edit

/-- The edits that are not hidden. -/
def visible (hidden : List Nat) (edits : List Edit) : List Edit :=
  edits.filter fun edit => !hidden.contains edit.seq

theorem visible_sublist (hidden : List Nat) (edits : List Edit) : (visible hidden edits).Sublist edits :=
  List.filter_sublist

theorem visible_nil (edits : List Edit) : visible [] edits = edits :=
  List.filter_eq_self.mpr fun _ _ => rfl

theorem without_visible (edit : Edit) (named hidden : List Nat) (edits : List Edit) :
    edit.without named (visible hidden edits) = visible (named ++ edit.seq :: hidden) edits := by
  rw [without, visible, visible, List.filter_filter]
  refine List.filter_congr fun other _ => ?_
  rw [Bool.eq_iff_iff]
  simp only [Bool.and_eq_true, bne_iff_ne, Bool.not_eq_true', Bool.eq_false_iff, List.contains_iff_mem,
    ne_eq, List.mem_append, List.mem_cons]
  tauto

end Edit

namespace Source

theorem fromOffset_eq_filter {edits : List Edit} (sorted : edits.Pairwise fun a b => a.precedes b = true)
    (start : Int) : fromOffset start edits = edits.filter fun edit => start ≤ edit.start := by
  obtain ⟨before, whole, front⟩ := exists_fromOffset start edits
  have behind (edit : Edit) (mem : edit ∈ fromOffset start edits) := start_le_of_mem_fromOffset sorted mem
  conv_rhs => rw [← whole, List.filter_append]
  rw [List.filter_eq_nil_iff.mpr, List.filter_eq_self.mpr, List.nil_append]
  · simpa using behind
  · simpa using front

/-- What begins or ends behind a window is not chosen. -/
theorem chosen_eq_nil {edits : List Edit} {stop cursor : Int}
    (outside : ∀ edit ∈ edits, stop < edit.start ∨ stop < edit.stop) : chosen stop cursor edits = [] := by
  induction edits with
  | nil => rfl
  | cons edit rest ih =>
      rw [chosen]
      split
      · rfl
      · rename_i inside
        have ends := (outside edit List.mem_cons_self).resolve_left inside
        rw [if_pos (by simp [ends])]
        exact ih fun other mem => outside other (List.mem_cons_of_mem _ mem)

end Source

namespace Document

variable {doc : Document}

/-- The queue of an offset holds the edits that do not begin in front of it. -/
theorem Kept.queue_eq (kept : doc.Kept) (start : Int) :
    doc.ledger.queue start = Source.fromOffset start doc.edits := by
  obtain ⟨before, whole, front⟩ := Source.exists_fromOffset start doc.edits
  have place : Key.placeBefore (toLex (start, toLex (-(doc.source.length : Int) - 1, -1)))
      (doc.edits.map Edit.key) = before.length := by
    rw [← whole, List.map_append, Key.placeBefore_eq, List.length_map]
    · refine List.forall_mem_map.mpr fun edit mem => ?_
      rw [Edit.key, Prod.Lex.toLex_lt_toLex]
      exact .inl (front edit mem)
    · refine List.forall_mem_map.mpr fun edit mem => ?_
      have late := Source.start_le_of_mem_fromOffset kept.sorted mem
      have inside := kept.inside edit (whole ▸ List.mem_append_right _ mem)
      rw [Edit.key, Prod.Lex.toLex_lt_toLex, Prod.Lex.toLex_lt_toLex]
      simp only
      omega
  rw [Ledger.queue, ledger, place]
  conv_lhs => rw [← whole]
  exact List.drop_left

end Document

namespace Ledger

/-- In order, what a scan expands is what is chosen of the edits that are not hidden. -/
theorem taken_eq_chosen {row : List Edit} (sorted : row.Pairwise fun a b => a.precedes b = true)
    (hidden : List Nat) (stop cursor : Int) :
    taken hidden stop cursor row = Source.chosen stop cursor (Edit.visible hidden row) := by
  induction row generalizing cursor with
  | nil => rfl
  | cons edit rest ih =>
      obtain ⟨first, sortedRest⟩ := List.pairwise_cons.mp sorted
      rw [taken, Edit.visible, List.filter_cons]
      split
      · rename_i past
        -- all edits behind this one begin behind the window too
        have late : ∀ other ∈ Edit.visible hidden (edit :: rest), stop < other.start := fun other mem => by
          rcases List.mem_cons.mp ((Edit.visible_sublist _ _).mem mem) with rfl | mem
          · exact past
          · have := Edit.start_le_of_precedes (first other mem)
            omega
        rw [Edit.visible, List.filter_cons] at late
        exact (Source.chosen_eq_nil fun other mem => .inl (late other mem)).symm
      · rename_i inside
        cases covered : hidden.contains edit.seq with
        | true =>
            simp only [Bool.true_or, Bool.not_true, Bool.false_eq_true, if_true, if_false]
            exact ih sortedRest cursor
        | false =>
            simp only [Bool.false_or, Bool.not_false, if_true]
            rw [Source.chosen, if_neg inside, ih sortedRest, ih sortedRest]
            rfl

end Ledger

namespace Document

variable {doc : Document}

/-- A ledger writes a window as its document does, when it may nest more expansions than edits are visible. -/
theorem Kept.renderWithin_ledger (kept : doc.Kept) {depth : Nat} {hidden : List Nat} {start stop : Int}
    (enough : (Edit.visible hidden doc.edits).length < depth) :
    doc.ledger.renderWithin depth hidden start stop =
      some (Source.window doc.source (Edit.visible hidden doc.edits) start stop) := by
  induction depth generalizing hidden start stop with
  | zero => omega
  | succ depth ih =>
      have sortedVisible := kept.sorted.sublist (Edit.visible_sublist hidden doc.edits)
      have queue : Edit.visible hidden (doc.ledger.queue start) =
          Source.fromOffset start (Edit.visible hidden doc.edits) := by
        rw [kept.queue_eq, Source.fromOffset_eq_filter kept.sorted, Source.fromOffset_eq_filter sortedVisible,
          Edit.visible, Edit.visible, List.filter_comm]
      have sortedQueue : (doc.ledger.queue start).Pairwise fun a b => a.precedes b = true :=
        kept.sorted.sublist (List.drop_sublist _ _)
      have chosen : Ledger.taken hidden stop start (doc.ledger.queue start) =
          Source.chosen stop start (Source.fromOffset start (Edit.visible hidden doc.edits)) := by
        rw [Ledger.taken_eq_chosen sortedQueue, queue]
      rw [Ledger.renderWithin, Source.window_eq, ← chosen]
      refine Ledger.scan_eq_some fun edit mem => Ledger.expand_eq_some fun span _ => ?_
      rw [chosen] at mem
      have known : edit ∈ Edit.visible hidden doc.edits :=
        (Source.fromOffset_sublist _ _).mem ((Source.chosen_sublist _ _ _).mem mem)
      have fewer := Edit.length_without_lt known span.hidden
      rw [Edit.without_visible] at fewer ⊢
      exact ih (by omega)

end Document

/-- No chain of nested expansions of a ledger meets an edit twice, so none is longer than the edits are many, and
every window has its result at this depth, whatever the spans are. After the calls of a document the results are
the rendering of the document and its windows. -/
theorem Ledger.render_ends (ledger : Ledger) :
    (∀ hidden start stop chain, ledger.Nests hidden start stop chain →
      (∀ edit ∈ chain, edit ∈ ledger.edits ∧ edit.seq ∉ hidden) ∧ (chain.map (·.seq)).Nodup ∧
        chain.length ≤ ledger.edits.length) ∧
    (∀ hidden start stop, ∃ result, ∀ depth, ledger.edits.length < depth →
      ledger.renderWithin depth hidden start stop = some result) ∧
    ∀ source calls, ledger = (serve source calls).2 → ∀ depth, ledger.edits.length < depth →
      ledger.renderWithin depth [] 0 source.length = some (Document.serve source calls).2.render ∧
      ∀ hidden start stop, ledger.renderWithin depth hidden start stop = some
        (Source.window source (Edit.visible hidden (Document.serve source calls).2.edits) start stop) := by
  refine ⟨fun hidden start stop chain nests => ⟨nests.recorded, nests.nodup, nests.length_le⟩,
    ledger.settles, ?_⟩
  rintro source calls rfl depth enough
  obtain ⟨served, same⟩ := Document.serve_ledger source calls
  have windows (hidden : List Nat) (start stop : Int) :
      (serve source calls).2.renderWithin depth hidden start stop = some
        (Source.window source (Edit.visible hidden (Document.serve source calls).2.edits) start stop) := by
    rw [same] at enough ⊢
    rw [served.kept.renderWithin_ledger, served.source]
    exact Nat.lt_of_le_of_lt (Edit.visible_sublist _ _).length_le enough
  refine ⟨?_, windows⟩
  rw [windows, Edit.visible_nil, Document.render, served.source]

/-- Two edits whose spans cover each other and themselves. -/
def Ledger.entangled : List Call :=
  [.replace 0 1 [.span ⟨0, 2, []⟩] [], .replace 1 2 [.span ⟨-2, 7, []⟩, .span ⟨1, 0, []⟩] []]

/-- Each of the two is written once inside the other. -/
theorem Document.render_entangled :
    (serve [0x61, 0x62] Ledger.entangled).2.render = .ok [0x61, 0x61, 0x62, 0x61, 0x62, 0x62] := by
  let outer : Edit := ⟨0, 1, [.span ⟨0, 2, []⟩], 0, []⟩
  let inner : Edit := ⟨1, 2, [.span ⟨-2, 7, []⟩, .span ⟨1, 0, []⟩], 1, []⟩
  -- an edit that is written inside the other one meets no edits in its own spans
  have left : Source.window [0x61, 0x62] [inner] 0 2 = .ok [0x61, 0x61, 0x62] := by
    rw [Source.window_eq]
    unfold Source.replacement
    rw [Source.window_nil_eq]
    rfl
  have right : Source.window [0x61, 0x62] [outer] (-2) 7 = .ok [0x61, 0x62, 0x62] := by
    rw [Source.window_eq]
    unfold Source.replacement
    rw [Source.window_nil_eq]
    rfl
  have turned : Source.window [0x61, 0x62] [outer] 1 0 = .ok [] := by
    rw [Source.window_eq]
    rfl
  have first : Source.replacement [0x61, 0x62] [outer, inner] outer = .ok [0x61, 0x61, 0x62] := by
    change (do return (← Source.window [0x61, 0x62] [inner] 0 2) ++ []) = _
    rw [left]
    rfl
  have second : Source.replacement [0x61, 0x62] [outer, inner] inner = .ok [0x61, 0x62, 0x62] := by
    change (do
      let bytes ← Source.window [0x61, 0x62] [outer] (-2) 7
      let behind ← (do return (← Source.window [0x61, 0x62] [outer] 1 0) ++ [])
      return bytes ++ behind) = _
    rw [right, turned]
    rfl
  have chosen : Source.chosen 2 0 (Source.fromOffset 0 [outer, inner]) = [outer, inner] := rfl
  change Source.window [0x61, 0x62] [outer, inner] 0 2 = _
  rw [Source.window_eq, chosen, Source.splice, Source.splice, first, second]
  rfl

theorem Ledger.render_ends_entangled :
    let ledger := (serve [0x61, 0x62] entangled).2
    let outer : Edit := ⟨0, 1, [.span ⟨0, 2, []⟩], 0, []⟩
    let inner : Edit := ⟨1, 2, [.span ⟨-2, 7, []⟩, .span ⟨1, 0, []⟩], 1, []⟩
    ledger.Nests [] 0 2 [outer, inner] ∧ ([outer, inner].map (·.seq)).Nodup ∧
      ledger.renderWithin 3 [] 0 2 = some (Document.serve [0x61, 0x62] entangled).2.render ∧
      (Document.serve [0x61, 0x62] entangled).2.render = .ok [0x61, 0x61, 0x62, 0x61, 0x62, 0x62] := by
  intro ledger outer inner
  obtain ⟨served, same⟩ := Document.serve_ledger [0x61, 0x62] entangled
  have few : ledger.edits.length < 3 := by
    change (serve [0x61, 0x62] entangled).2.edits.length < 3
    rw [same]
    decide
  have queue : ledger.queue 0 = [outer, inner] := by
    change (serve [0x61, 0x62] entangled).2.queue 0 = _
    rw [same, served.kept.queue_eq]
    rfl
  have first : outer ∈ taken [] 2 0 (ledger.queue 0) := queue ▸ List.mem_cons_self
  have second : inner ∈ taken [0] 2 0 (ledger.queue 0) := queue ▸ List.mem_cons_self
  have nests : ledger.Nests [] 0 2 [outer, inner] :=
    .inner first List.mem_cons_self (.inner second List.mem_cons_self (.none _ _ _))
  obtain ⟨chains, _, documents⟩ := render_ends ledger
  have rendered := (documents [0x61, 0x62] entangled rfl 3 few).1
  exact ⟨nests, (chains [] 0 2 _ nests).2.1, rendered, Document.render_entangled⟩

end Rebundle
