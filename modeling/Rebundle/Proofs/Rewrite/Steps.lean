import Rebundle.Patch

/-!
# Steps of the passes

The visits of the passes are put together from a few steps: they write notes, count, take fresh names and record
edits. What all these steps have in common, the visits have in common. So the new names of places stay what they
are, no pass but the renaming records an edit as a renaming, and calls are replaced nowhere but at calls.
-/

namespace Rebundle

/-- The address of an import that is rewritten: one with an address, and not of types alone. -/
def Cursor.requests? (c : Cursor) : Option Tree :=
  if c.kind == .importStatement && !c.focus.hasToken "type" then c.focus.child? .source else none

theorem Cursor.requests?_eq_some_iff {c : Cursor} {address : Tree} : c.requests? = some address ↔
    c.kind = .importStatement ∧ c.focus.hasToken "type" = false ∧ c.focus.child? .source = some address := by
  simp [requests?, and_assoc]

theorem Modules.reason_of_metaProperty? {name text reason : Text} {record : Log.Record}
    (found : metaProperty? name = some (text, record, reason)) : reason ≠ "rename" ∧ reason ≠ "remove call" := by
  unfold metaProperty? at found
  split at found
  · cases found
    decide
  · split at found
    · cases found
      decide
    · cases found

theorem RewritePass.mem_standard {pass : RewritePass} : pass ∈ standard ↔
    pass = Modules.pass ∨ pass = Renaming.pass ∨ pass = Removal.pass ∨
      pass = Body.pass ∨ pass = TopLevelAwait.pass := by
  simp only [standard, List.mem_cons, List.not_mem_nil, or_false]

/-- What each pass preserves when it visits a node, the visits of the node preserve. -/
theorem RewritePass.visitAll_preserves (holds : Rewrite → Prop) {cursor : Cursor} {passes : List RewritePass}
    (visit : ∀ pass ∈ passes, ∀ rewrite, holds rewrite → holds (pass.visit cursor rewrite).2)
    {rewrite : Rewrite}
    (before : holds rewrite) : holds (visitAll cursor rewrite passes).2 := by
  induction passes generalizing rewrite with
  | nil => exact before
  | cons pass rest ih =>
      have visited := visit pass List.mem_cons_self rewrite before
      rw [visitAll]
      cases entry : pass.visit cursor rewrite with
      | mk goesOn next =>
          rw [entry] at visited
          cases goesOn with
          | true => exact ih (fun other mem => visit other (List.mem_cons_of_mem _ mem)) visited
          | false => exact visited

/-- A relation between the states of a rewriting that follows the steps of passes that take no fresh names, when they
record edits for some reasons. -/
structure Rewrite.PlainSteps (reasons : Text → Prop) (related : Rewrite → Rewrite → Prop) : Prop where
  refl : ∀ rewrite, related rewrite rewrite
  trans : ∀ {a b c}, related a b → related b c → related a c
  write : ∀ rewrite record, related rewrite (rewrite.write record)
  count : ∀ rewrite key amount, related rewrite (rewrite.count key amount)
  record : ∀ rewrite start stop parts reason, reasons reason →
    related rewrite { rewrite with doc := (rewrite.doc.record start stop parts reason).2 }

/-- A relation that follows all steps of passes. -/
structure Rewrite.Steps (reasons : Text → Prop) (related : Rewrite → Rewrite → Prop) : Prop
    extends PlainSteps reasons related where
  fresh : ∀ rewrite hint, related rewrite (rewrite.freshName hint).2

namespace Rewrite.PlainSteps

variable {reasons : Text → Prop} {related : Rewrite → Rewrite → Prop} (steps : PlainSteps reasons related)

include steps

theorem replace (rewrite : Rewrite) (range : Range) (parts : List Part) {reason : Text} (among : reasons reason) :
    related rewrite (rewrite.replace range parts reason) :=
  steps.record rewrite range.start range.stop parts reason among

theorem remove (rewrite : Rewrite) (range : Range) {reason : Text} (among : reasons reason) :
    related rewrite (rewrite.remove range reason).2 := by
  simp only [Rewrite.remove]
  exact steps.record rewrite _ _ _ reason among

theorem removeStatement (rewrite : Rewrite) (range : Range) (ancestors : List Label) {reason : Text}
    (among : reasons reason) : related rewrite (rewrite.removeStatement range ancestors reason) := by
  unfold Rewrite.removeStatement
  split
  split
  · split
    · exact steps.remove _ _ among
    · exact steps.replace _ _ _ among
  · exact steps.remove _ _ among

theorem foldl {α : Type} {f : Rewrite → α → Rewrite} (step : ∀ rewrite a, related rewrite (f rewrite a))
    (l : List α) (rewrite : Rewrite) : related rewrite (l.foldl f rewrite) := by
  induction l generalizing rewrite with
  | nil => exact steps.refl rewrite
  | cons a rest ih => exact steps.trans (step rewrite a) (ih _)

variable (others : ∀ reason : Text, reason ≠ "rename" → reason ≠ "remove call" → reasons reason)
  (cursor : Cursor) (rewrite : Rewrite)

include others

theorem visit_member : related rewrite (Modules.rewriteMember cursor rewrite).2 := by
  unfold Modules.rewriteMember
  dsimp only
  split
  · split
    · split
      · rename_i found
        obtain ⟨renames, calls⟩ := Modules.reason_of_metaProperty? found
        exact steps.trans (steps.trans (steps.write _ _) (steps.replace _ _ _ (others _ renames calls)))
          (steps.count _ _ _)
      · exact steps.refl rewrite
    · exact steps.refl rewrite
  · exact steps.refl rewrite

/-- Imports take no fresh name unless they are rewritten. -/
theorem visit_unrequested (unrequested : cursor.requests? = none) :
    related rewrite (Modules.pass.visit cursor rewrite).2 := by
  simp only [Modules.pass]
  split
  · rename_i kind
    unfold Modules.rewriteImport
    dsimp only
    split
    · exact steps.refl rewrite
    · rename_i address given
      split
      · exact steps.trans (steps.removeStatement _ _ _ (others _ (by decide) (by decide))) (steps.count _ _ _)
      · rename_i untyped
        cases unrequested.symm.trans (Cursor.requests?_eq_some_iff.mpr
          ⟨beq_iff_eq.mp kind, Bool.eq_false_iff.mpr untyped, given⟩)
  · exact steps.visit_member others cursor rewrite

theorem visit_removal (calls : cursor.kind = .callExpression → reasons "remove call") :
    related rewrite (Removal.pass.visit cursor rewrite).2 := by
  simp only [Removal.pass, Removal.visit]
  split
  · rename_i kind
    unfold Removal.removeCall
    dsimp only
    have replaced (rewrite : Rewrite) : related rewrite (Removal.removeCall.replaceCall cursor rewrite).2 :=
      steps.trans (steps.replace _ _ _ (calls (beq_iff_eq.mp kind))) (steps.count _ _ _)
    split
    · exact steps.refl rewrite
    · split
      · split
        · exact steps.trans (steps.trans (steps.write _ _)
            (steps.removeStatement _ _ _ (others _ (by decide) (by decide)))) (steps.count _ _ _)
        · exact steps.trans (steps.write _ _) (replaced _)
      · exact steps.trans (steps.write _ _) (replaced _)
  · split
    · unfold Removal.removeDeclarators
      dsimp only
      split
      · exact steps.refl rewrite
      · have written (names : List Text) := steps.foldl (fun rewrite name =>
          steps.write rewrite (Log.info ("removing variable declaration " ++ name))) names rewrite
        split
        · exact steps.trans (steps.trans (written _) (steps.count _ _ _))
            (steps.replace _ _ _ (others _ (by decide) (by decide)))
        · exact steps.trans (steps.trans (written _) (steps.count _ _ _))
            (steps.removeStatement _ _ _ (others _ (by decide) (by decide)))
    · unfold Removal.removeFunction
      split
      · exact steps.refl rewrite
      · dsimp only
        split
        · exact steps.trans (steps.trans (steps.write _ _)
            (steps.removeStatement _ _ _ (others _ (by decide) (by decide)))) (steps.count _ _ _)
        · exact steps.refl rewrite

theorem visit_body : related rewrite (Body.pass.visit cursor rewrite).2 := by
  simp only [Body.pass, Body.visit]
  split
  · exact steps.refl rewrite
  · split
    · exact steps.trans (steps.trans (steps.write _ _) (steps.replace _ _ _ (others _ (by decide) (by decide))))
        (steps.count _ _ _)
    · exact steps.refl rewrite

omit others in
theorem visit_renaming (renames : reasons "rename") : related rewrite (Renaming.pass.visit cursor rewrite).2 := by
  simp only [Renaming.pass, Renaming.visit]
  split
  · exact steps.refl rewrite
  · split
    · exact steps.refl rewrite
    · exact steps.trans (steps.replace _ _ _ renames) (steps.count _ _ _)

omit cursor in
theorem finish_awaits (root : Tree) : related rewrite (TopLevelAwait.finish root rewrite) := by
  have taken (trees : List Tree) (rewrite : Rewrite) : related rewrite (TopLevelAwait.takeOut rewrite trees).2 := by
    induction trees generalizing rewrite with
    | nil => exact steps.refl rewrite
    | cons t rest ih =>
        exact steps.trans (steps.remove rewrite t.range (others "top-level await" (by decide) (by decide))) (ih _)
  have out := taken (TopLevelAwait.statements rewrite.skipBefore root) rewrite
  unfold TopLevelAwait.finish
  split
  · rename_i made
    rw [made] at out
    exact out
  · rename_i made
    rw [made] at out
    exact steps.trans (steps.trans (steps.trans out (steps.write _ _))
      (steps.replace _ _ _ (others _ (by decide) (by decide)))) (steps.count _ _ _)

omit others in
/-- A visit of any pass at a place where no import is rewritten, where edits may be recorded for all reasons. -/
theorem visit_known {pass : RewritePass} (known : pass ∈ RewritePass.standard) (every : ∀ reason, reasons reason)
    (unrequested : cursor.requests? = none) : related rewrite (pass.visit cursor rewrite).2 := by
  rcases RewritePass.mem_standard.mp known with rfl | rfl | rfl | rfl | rfl
  · exact steps.visit_unrequested (fun reason _ _ => every reason) cursor rewrite unrequested
  · exact steps.visit_renaming cursor rewrite (every _)
  · exact steps.visit_removal (fun reason _ _ => every reason) cursor rewrite fun _ => every _
  · exact steps.visit_body (fun reason _ _ => every reason) cursor rewrite
  · exact steps.refl rewrite

omit cursor in
theorem finish {passes : List RewritePass} (known : ∀ pass ∈ passes, pass ∈ RewritePass.standard) (root : Tree) :
    related rewrite (passes.foldl (fun rewrite pass => pass.finish root rewrite) rewrite) := by
  induction passes generalizing rewrite with
  | nil => exact steps.refl rewrite
  | cons pass rest ih =>
      refine steps.trans ?_ (ih _ fun other mem => known other (List.mem_cons_of_mem _ mem))
      have one := known pass List.mem_cons_self
      rcases RewritePass.mem_standard.mp one with rfl | rfl | rfl | rfl | rfl
      · exact steps.refl rewrite
      · exact steps.refl rewrite
      · exact steps.refl rewrite
      · exact steps.refl rewrite
      · exact steps.finish_awaits others rewrite root

omit others in
theorem visitAll {passes : List RewritePass}
    (visits : ∀ pass ∈ passes, ∀ rewrite, related rewrite (pass.visit cursor rewrite).2) :
    related rewrite (RewritePass.visitAll cursor rewrite passes).2 :=
  RewritePass.visitAll_preserves (related rewrite)
    (fun pass mem state before => steps.trans before (visits pass mem state))
    (steps.refl rewrite)

end Rewrite.PlainSteps

namespace Rewrite.Steps

variable {reasons : Text → Prop} {related : Rewrite → Rewrite → Prop} (steps : Steps reasons related)

include steps

theorem statementFor (request : Text) (imported : Modules.Imported) (rewrite : Rewrite) :
    related rewrite (Modules.statementFor request imported rewrite).2 := by
  unfold Modules.statementFor
  split
  · exact steps.refl rewrite
  · exact steps.refl rewrite
  · exact steps.refl rewrite
  · exact steps.refl rewrite
  · exact steps.fresh rewrite "temp"

variable (others : ∀ reason : Text, reason ≠ "rename" → reason ≠ "remove call" → reasons reason)
  (cursor : Cursor) (rewrite : Rewrite)

include others

theorem visit_modules : related rewrite (Modules.pass.visit cursor rewrite).2 := by
  simp only [Modules.pass]
  split
  · unfold Modules.rewriteImport
    dsimp only
    split
    · exact steps.refl rewrite
    · split
      · exact steps.trans (steps.removeStatement _ _ _ (others _ (by decide) (by decide))) (steps.count _ _ _)
      · exact steps.trans (steps.trans (steps.trans (steps.statementFor _ _ _) (steps.write _ _))
          (steps.replace _ _ _ (others _ (by decide) (by decide)))) (steps.count _ _ _)
  · exact steps.visit_member others cursor rewrite

/-- A visit of a pass that is not the renaming. -/
theorem visit {pass : RewritePass} (known : pass ∈ RewritePass.standard) (other : pass.concerns .identifier = false)
    (calls : cursor.kind = .callExpression → reasons "remove call") :
    related rewrite (pass.visit cursor rewrite).2 := by
  rcases RewritePass.mem_standard.mp known with rfl | rfl | rfl | rfl | rfl
  · exact steps.visit_modules others cursor rewrite
  · cases other
  · exact steps.visit_removal others cursor rewrite calls
  · exact steps.visit_body others cursor rewrite
  · exact steps.refl rewrite

omit others in
/-- A visit of any pass, where edits may be recorded for all reasons. -/
theorem visit_standard {pass : RewritePass} (known : pass ∈ RewritePass.standard)
    (every : ∀ reason, reasons reason) :
    related rewrite (pass.visit cursor rewrite).2 := by
  by_cases other : pass.concerns .identifier = false
  · exact steps.visit (fun reason _ _ => every reason) cursor rewrite known other fun _ => every _
  · rcases RewritePass.mem_standard.mp known with rfl | rfl | rfl | rfl | rfl
    · exact absurd rfl other
    · exact steps.visit_renaming cursor rewrite (every _)
    · exact absurd rfl other
    · exact absurd rfl other
    · exact absurd rfl other

end Rewrite.Steps

/-- Whether an edit was recorded by the renaming. -/
def Edit.isRenaming (edit : Edit) : Bool := edit.reason == "rename"

theorem Edit.filter_insert_of_not {p : Edit → Bool} {edit : Edit} (other : p edit = false) (edits : List Edit) :
    (edit.insert edits).filter p = edits.filter p := by
  induction edits with
  | nil => exact List.filter_cons_of_neg (by simp [other])
  | cons next rest ih =>
      unfold insert
      split
      · exact List.filter_cons_of_neg (by simp [other])
      · rw [List.filter_cons, List.filter_cons, ih]

/-- A later state of a rewriting, with the same new names and the same renamings recorded. -/
structure Rewrite.Spares (before after : Rewrite) : Prop where
  renames : after.renames = before.renames
  edits : after.doc.edits.filter Edit.isRenaming = before.doc.edits.filter Edit.isRenaming

theorem Rewrite.steps_spares : Steps (· ≠ "rename") Spares where
  refl _ := ⟨rfl, rfl⟩
  trans ab bc := ⟨bc.renames.trans ab.renames, bc.edits.trans ab.edits⟩
  write _ _ := ⟨rfl, rfl⟩
  count _ _ _ := ⟨rfl, rfl⟩
  fresh _ _ := ⟨rfl, rfl⟩
  record _ _ _ _ _ other := ⟨rfl, Edit.filter_insert_of_not (p := Edit.isRenaming)
    (beq_eq_false_iff_ne.mpr other) _⟩

namespace RewritePass

variable {passes : List RewritePass} {pass : RewritePass}

/-- All names concern the same passes. -/
theorem concerns_name (known : pass ∈ standard) {kind : Kind} (isName : kind.isName = true) :
    pass.concerns kind = pass.concerns .identifier := by
  revert isName
  rcases mem_standard.mp known with rfl | rfl | rfl | rfl | rfl <;> cases kind <;> intro isName <;>
    first | rfl | cases isName

/-- The renaming is the one pass that names concern, and the one that prepares something. -/
theorem eq_renaming_or (known : pass ∈ standard) : pass = Renaming.pass ∨
    pass.concerns .identifier = false ∧ ∀ rewrite, pass.prepare rewrite = rewrite := by
  rcases mem_standard.mp known with rfl | rfl | rfl | rfl | rfl
  · exact .inr ⟨rfl, fun _ => rfl⟩
  · exact .inl rfl
  · exact .inr ⟨rfl, fun _ => rfl⟩
  · exact .inr ⟨rfl, fun _ => rfl⟩
  · exact .inr ⟨rfl, fun _ => rfl⟩

section

variable (known : ∀ pass ∈ passes, pass ∈ standard)

include known

theorem foldl_prepare_eq (rewrite : Rewrite) : passes.foldl (fun rewrite pass => pass.prepare rewrite) rewrite =
    (passes.filter (·.concerns .identifier)).foldl (fun rewrite pass => pass.prepare rewrite) rewrite := by
  induction passes generalizing rewrite with
  | nil => rfl
  | cons pass rest ih =>
      have later := ih fun other mem => known other (List.mem_cons_of_mem _ mem)
      rw [List.foldl_cons, later]
      rcases eq_renaming_or (known pass List.mem_cons_self) with rfl | ⟨unconcerned, idle⟩
      · rfl
      · rw [idle, List.filter_cons_of_neg (by simp [unconcerned])]

/-- The visits of what is no name leave the renamings as they are. -/
theorem spares_visitAll {cursor : Cursor} (other : cursor.kind.isName = false) (rewrite : Rewrite) :
    rewrite.Spares (visitAll cursor rewrite (passes.filter fun pass => pass.concerns cursor.kind)).2 := by
  refine Rewrite.steps_spares.visitAll cursor rewrite fun pass mem rewrite => ?_
  obtain ⟨mem, concerned⟩ := List.mem_filter.mp mem
  rcases eq_renaming_or (known pass mem) with rfl | ⟨unconcerned, _⟩
  · rw [show Renaming.pass.concerns cursor.kind = cursor.kind.isName from rfl, other] at concerned
    cases concerned
  · exact Rewrite.steps_spares.visit (fun _ other _ => other) cursor rewrite (known pass mem) unconcerned fun _ => by
      decide

end

end RewritePass

end Rebundle
