import Rebundle.Proofs.Rewrite.Steps
import Rebundle.Proofs.Syntax.Descent

/-!
# What the passes leave alone

Passes record, count and report. What they were asked to do, where the program begins and its scopes
stay the same from the first step to the last.
-/

namespace Rebundle

/-- A later state of a rewriting with the same task. -/
structure Rewrite.Keeps (before after : Rewrite) : Prop where
  config : after.config = before.config
  skipBefore : after.skipBefore = before.skipBefore
  scopes : after.scopes = before.scopes
  source : after.source = before.source

namespace Rewrite

theorem Keeps.refl (rewrite : Rewrite) : rewrite.Keeps rewrite := ⟨rfl, rfl, rfl, rfl⟩

theorem Keeps.trans {a b c : Rewrite} (ab : a.Keeps b) (bc : b.Keeps c) : a.Keeps c :=
  ⟨bc.config.trans ab.config, bc.skipBefore.trans ab.skipBefore, bc.scopes.trans ab.scopes,
    bc.source.trans ab.source⟩

theorem steps_keeps : Steps (fun _ => True) Keeps where
  refl := .refl
  trans ab bc := ab.trans bc
  write _ _ := ⟨rfl, rfl, rfl, rfl⟩
  count _ _ _ := ⟨rfl, rfl, rfl, rfl⟩
  fresh _ _ := ⟨rfl, rfl, rfl, rfl⟩
  record _ _ _ _ _ _ := ⟨rfl, rfl, rfl, rfl⟩

end Rewrite

open Rewrite

namespace Renaming

theorem keeps_renameBinding (old new : Text) (ref : BindingRef) (binding : Binding)
    (rewrite : Rewrite) : rewrite.Keeps (renameBinding old new ref binding rewrite) := by
  simp only [renameBinding]
  split <;> exact ⟨rfl, rfl, rfl, rfl⟩

theorem keeps_renameAll (rewrite : Rewrite) (entry : Text × Text) :
    rewrite.Keeps (renameAll rewrite entry) := by
  unfold renameAll
  split
  · exact steps_keeps.write _ _
  · exact steps_keeps.foldl (fun rewrite _ => keeps_renameBinding _ _ _ _ rewrite) _ _

theorem keeps_prepare (rewrite : Rewrite) : rewrite.Keeps (prepare rewrite) :=
  steps_keeps.foldl keeps_renameAll _ _

end Renaming

namespace RewritePass

theorem keeps_visit {pass : RewritePass} (known : pass ∈ standard) (cursor : Cursor)
    (rewrite : Rewrite) : rewrite.Keeps (pass.visit cursor rewrite).2 :=
  steps_keeps.visit_standard cursor rewrite known fun _ => trivial

theorem keeps_prepare {pass : RewritePass} (known : pass ∈ standard) (rewrite : Rewrite) :
    rewrite.Keeps (pass.prepare rewrite) := by
  rcases mem_standard.mp known with rfl | rfl | rfl | rfl | rfl
  · exact .refl rewrite
  · exact Renaming.keeps_prepare rewrite
  · exact .refl rewrite
  · exact .refl rewrite
  · exact .refl rewrite

theorem keeps_visitAll {passes : List RewritePass} (known : ∀ pass ∈ passes, pass ∈ standard)
    (cursor : Cursor) (rewrite : Rewrite) : rewrite.Keeps (visitAll cursor rewrite passes).2 :=
  steps_keeps.visitAll cursor rewrite fun pass mem rewrite => keeps_visit (known pass mem) cursor rewrite

/-- What the visits of the nodes behind the bootstrap preserve, a walk of the passes preserves. -/
theorem walk_preserves (holds : Rewrite → Prop) {passes : List RewritePass} {root : Tree}
    (visits : ∀ (cursor : Cursor) (rewrite : Rewrite), cursor.whole = root →
      (cursor.kind ≠ .program → rewrite.skipBefore < cursor.focus.stop) → holds rewrite →
      holds (visitAll cursor rewrite (passes.filter fun pass => pass.concerns cursor.kind)).2)
    {rewrite : Rewrite} (before : holds rewrite) : holds ((visitor passes).walk root rewrite) := by
  refine Visitor.walk_preserves holds ?_ (fun _ _ _ => id) before
  intro cursor state stands before
  simp only [visitor]
  split
  · exact before
  · rename_i entered
    refine visits cursor state stands (fun program => ?_) before
    rw [← Nat.not_le]
    intro early
    simp [early, program] at entered

/-- The state of the passes after the walk, before they finish. -/
def walked (passes : List RewritePass) (root : Tree) (rewrite : Rewrite) : Rewrite :=
  (visitor passes).walk root (passes.foldl (fun rewrite pass => pass.prepare rewrite) rewrite)

theorem keeps_prepared {passes : List RewritePass} (known : ∀ pass ∈ passes, pass ∈ standard)
    (rewrite : Rewrite) :
    rewrite.Keeps (passes.foldl (fun rewrite pass => pass.prepare rewrite) rewrite) := by
  induction passes generalizing rewrite with
  | nil => exact .refl rewrite
  | cons pass rest ih =>
      exact (keeps_prepare (known pass List.mem_cons_self) rewrite).trans
        (ih (fun other mem => known other (List.mem_cons_of_mem _ mem)) _)

theorem keeps_walked {passes : List RewritePass} (known : ∀ pass ∈ passes, pass ∈ standard)
    (root : Tree) (rewrite : Rewrite) : rewrite.Keeps (walked passes root rewrite) := by
  exact walk_preserves rewrite.Keeps (fun cursor state _ _ before => before.trans (keeps_visitAll
    (fun pass mem => known pass (List.mem_filter.mp mem).1) cursor state)) (keeps_prepared known rewrite)

/-- A run keeps what its walk keeps. -/
theorem keeps_run {passes : List RewritePass} (known : ∀ pass ∈ passes, pass ∈ standard)
    (root : Tree) (rewrite : Rewrite) : rewrite.Keeps (run passes root rewrite) :=
  (keeps_walked known root rewrite).trans (steps_keeps.finish (fun _ _ _ => trivial) _ known root)

end RewritePass

end Rebundle
