import Rebundle.Proofs.Rewrite.Passes

/-!
# The relocation of waiting statements

Finishing removes the waiting statements of the program, each with the lines it stands on, and records
one insertion at the end of the source that writes them again. The edits of the walk stay as they are.
-/

namespace Rebundle

open Source Tree

namespace TopLevelAwait

theorem mem_statements {skipBefore : Nat} {root t : Tree} (mem : t ∈ statements skipBefore root) :
    t ∈ root.children ∧ t.kind = .expressionStatement ∧
      t.firstPart?.map (·.kind) = some .awaitExpression := by
  simp only [statements, List.mem_filter, Bool.and_eq_true, beq_iff_eq] at mem
  exact ⟨List.filter_sublist.mem mem.1, mem.2.1.2, mem.2.2⟩

theorem isAwaitStatement_of_mem {skipBefore : Nat} {root t : Tree}
    (mem : t ∈ statements skipBefore root) : t.isAwaitStatement = true := by
  obtain ⟨_, kind, first⟩ := mem_statements mem
  simp [isAwaitStatement, kind, first]

/-- The removal of a statement, by its number. -/
def removal (source : Bytes) (seq : Nat) (t : Tree) : Edit :=
  ⟨(extent source t.range).start, (extent source t.range).stop, [.text []], seq, "top-level await"⟩

@[simp] theorem removal_start (source : Bytes) (seq : Nat) (t : Tree) :
    (removal source seq t).start = (extent source t.range).start := by
  simp only [removal]

@[simp] theorem removal_stop (source : Bytes) (seq : Nat) (t : Tree) :
    (removal source seq t).stop = (extent source t.range).stop := by
  simp only [removal]

@[simp] theorem removal_range (source : Bytes) (seq : Nat) (t : Tree) :
    (removal source seq t).range = extent source t.range := by
  simp only [removal, Edit.range]

/-- What taking statements out of a document gives: the statements with their removals, numbered from
`before.recorded` on, and a document with these and the earlier edits. -/
structure TakenOut (row : List Tree) (before : Document) (taken : List (Tree × Edit))
    (after : Document) : Prop where
  statements : taken.map (·.1) = row
  removals : ∀ entry ∈ taken, before.recorded ≤ entry.2.seq ∧
    entry.2 = removal before.source entry.2.seq entry.1
  unchanged : after.source = before.source
  edits : after.edits.Perm (taken.map (·.2) ++ before.edits)
  earlier : ∀ n ≤ before.recorded,
    after.edits.filter (·.seq < n) = before.edits.filter (·.seq < n)

/-- Taking a statement out removes it under the next number. -/
theorem remove_edit (t : Tree) (rewrite : Rewrite) :
    (rewrite.remove t.range "top-level await").1 =
      removal rewrite.doc.source rewrite.doc.recorded t := by
  simp only [Rewrite.remove, extent, removal, Document.record, Rewrite.source]

theorem takeOut_spec (row : List Tree) (rewrite : Rewrite) :
    TakenOut row rewrite.doc (takeOut rewrite row).1 (takeOut rewrite row).2.doc := by
  induction row generalizing rewrite with
  | nil => exact ⟨rfl, by simp [takeOut], rfl, List.Perm.refl _, fun _ _ => rfl⟩
  | cons t rest ih =>
      have removed := remove_edit t rewrite
      have grown : (rewrite.remove t.range "top-level await").2.doc =
          ⟨rewrite.doc.source, (removal rewrite.doc.source rewrite.doc.recorded t).insert
            rewrite.doc.edits, rewrite.doc.recorded + 1⟩ := by
        rw [Rewrite.remove_doc]
        rfl
      rw [takeOut]
      cases step : rewrite.remove t.range "top-level await" with
      | mk edit next =>
          rw [step] at removed grown
          obtain ⟨statements, removals, unchanged, edits, earlier⟩ := ih next
          rw [grown] at removals unchanged edits earlier
          simp only at removed ⊢
          rw [removed]
          refine ⟨?_, ?_, unchanged, ?_, ?_⟩
          · rw [List.map_cons, statements]
          · intro entry mem
            cases mem with
            | head => exact ⟨Nat.le_refl _, rfl⟩
            | tail _ mem =>
                obtain ⟨behind, same⟩ := removals entry mem
                exact ⟨Nat.le_of_succ_le behind, same⟩
          · refine edits.trans ?_
            refine ((Edit.insert_perm _ _).append_left _).trans ?_
            exact List.perm_middle
          · intro n early
            rw [earlier n (Nat.le_succ_of_le early)]
            apply Edit.filter_insert
            exact decide_eq_false (Nat.not_lt.mpr early)

theorem kept_takeOut {row : List Tree} {rewrite : Rewrite} (kept : rewrite.doc.Kept)
    (fits : ∀ t ∈ row, (extent rewrite.doc.source t.range).start ≤
      (extent rewrite.doc.source t.range).stop ∧
        (extent rewrite.doc.source t.range).stop ≤ rewrite.doc.source.length) :
    (takeOut rewrite row).2.doc.Kept := by
  induction row generalizing rewrite with
  | nil => exact kept
  | cons t rest ih =>
      have grown := Rewrite.remove_doc t.range "top-level await" rewrite
      rw [takeOut]
      cases step : rewrite.remove t.range "top-level await" with
      | mk edit next =>
          rw [step] at grown
          simp only at grown ⊢
          obtain ⟨ordered, within⟩ := fits t List.mem_cons_self
          apply ih
          · rw [grown]
            exact kept.record ordered within
          · intro other mem
            rw [grown]
            exact fits other (List.mem_cons_of_mem _ mem)

/-- The parts that write the statements again inside an asynchronous function. -/
def wrapper (source : Bytes) (taken : List (Tree × Edit)) : List Part :=
  .text (lead source (tail source.length (taken.map (·.2))) ++ ";(async () => \x7b\n") ::
    taken.flatMap line ++ [.text "\x7d)();\n"]

theorem finish_none {root : Tree} {rewrite : Rewrite}
    (none : statements rewrite.skipBefore root = []) : finish root rewrite = rewrite := by
  rw [finish, none, takeOut]

/-- Where no statement was taken out, nothing is finished. -/
theorem finish_untaken {root : Tree} {rewrite next : Rewrite} {taken : List (Tree × Edit)}
    (out : takeOut rewrite (statements rewrite.skipBefore root) = (taken, next)) (none : taken = []) :
    finish root rewrite = rewrite := by
  have spec := takeOut_spec (statements rewrite.skipBefore root) rewrite
  rw [out] at spec
  exact finish_none (by rw [← spec.statements, none, List.map_nil])

theorem finish_some {root : Tree} {rewrite next : Rewrite} {taken : List (Tree × Edit)}
    (out : takeOut rewrite (statements rewrite.skipBefore root) = (taken, next))
    (found : taken ≠ []) :
    (finish root rewrite).doc = (next.doc.record next.doc.source.length next.doc.source.length
      (wrapper next.doc.source taken) "async wrapper").2 := by
  cases taken with
  | nil => exact absurd rfl found
  | cons entry rest =>
      rw [finish, out]
      rfl

theorem mem_wrapper {source : Bytes} {taken : List (Tree × Edit)} {span : Span}
    (mem : .span span ∈ wrapper source taken) :
    ∃ entry ∈ taken, span = Span.ofRange entry.1.range [entry.2] := by
  simpa [wrapper, line] using mem

end TopLevelAwait

namespace RewritePass

/-- Of the standard passes one alone prepares and one alone finishes, so the order does not matter. -/
theorem prepare_comm {first second : RewritePass} (known : first ∈ standard) (known' : second ∈ standard)
    (rewrite : Rewrite) :
    second.prepare (first.prepare rewrite) = first.prepare (second.prepare rewrite) := by
  rcases mem_standard.mp known with rfl | rfl | rfl | rfl | rfl <;>
    rcases mem_standard.mp known' with rfl | rfl | rfl | rfl | rfl <;> rfl

theorem finish_comm {first second : RewritePass} (known : first ∈ standard) (known' : second ∈ standard)
    (root : Tree) (rewrite : Rewrite) :
    second.finish root (first.finish root rewrite) = first.finish root (second.finish root rewrite) := by
  rcases mem_standard.mp known with rfl | rfl | rfl | rfl | rfl <;>
    rcases mem_standard.mp known' with rfl | rfl | rfl | rfl | rfl <;> rfl

/-- Of the passes that apply, the last one alone has something to do at the end, wherever it stands. -/
theorem run_perm {passes : List RewritePass} (orders : passes.Perm standard) (config : PatchConfig)
    (root : Tree) (rewrite : Rewrite) :
    run (passes.filter fun pass => pass.applies config) root rewrite =
      TopLevelAwait.finish root
        (walked (passes.filter fun pass => pass.applies config) root rewrite) := by
  have idle (passes : List RewritePass)
      (known : ∀ pass ∈ passes, ∀ rewrite, pass.finish root rewrite = rewrite) (state : Rewrite) :
      passes.foldl (fun rewrite pass => pass.finish root rewrite) state = state := by
    induction passes with
    | nil => rfl
    | cons pass rest ih =>
        rw [List.foldl_cons, known pass List.mem_cons_self]
        exact ih fun other mem => known other (List.mem_cons_of_mem _ mem)
  have active := orders.filter fun pass => pass.applies config
  have split : (standard.filter fun pass => pass.applies config) =
      ([Modules.pass, Renaming.pass, Removal.pass, Body.pass].filter
        fun pass => pass.applies config) ++ [TopLevelAwait.pass] := by
    rw [show standard = [Modules.pass, Renaming.pass, Removal.pass, Body.pass] ++
      [TopLevelAwait.pass] from rfl, List.filter_append]
    rfl
  generalize walk : walked (passes.filter fun pass => pass.applies config) root rewrite = state
  change (passes.filter fun pass => pass.applies config).foldl
    (fun rewrite pass => pass.finish root rewrite) (walked _ root rewrite) = _
  rw [walk, active.foldl_eq' fun first known second known' state =>
    finish_comm (orders.mem_iff.mp (List.mem_filter.mp known).1)
      (orders.mem_iff.mp (List.mem_filter.mp known').1) root state, split, List.foldl_append,
    idle ([Modules.pass, Renaming.pass, Removal.pass, Body.pass].filter
      fun pass => pass.applies config) ?_ state]
  · rfl
  · intro pass mem
    have mem := (List.mem_filter.mp mem).1
    simp only [List.mem_cons, List.not_mem_nil, or_false] at mem
    rcases mem with rfl | rfl | rfl | rfl <;> exact fun _ => rfl

/-- Passes in another order prepare alike. -/
theorem prepare_perm {passes others : List RewritePass} (orders : passes.Perm others)
    (known : ∀ pass ∈ passes, pass ∈ standard) (rewrite : Rewrite) :
    passes.foldl (fun rewrite pass => pass.prepare rewrite) rewrite =
      others.foldl (fun rewrite pass => pass.prepare rewrite) rewrite :=
  orders.foldl_eq' (fun first mem second mem' state =>
    prepare_comm (known first mem) (known second mem') state) rewrite

end RewritePass

end Rebundle
