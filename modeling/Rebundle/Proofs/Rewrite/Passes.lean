import Rebundle.Proofs.Rewrite.Frame
import Rebundle.Proofs.Rewrite.Recorded

/-!
# What a visit records

The visits of the passes one by one. A pass reads and counts as it likes; what it records lies on a
region of the program, so the document keeps its discipline through a visit, through the visits of a
node, and through a walk.
-/

namespace Rebundle

open Source Tree

namespace Rewrite

theorem doc_foldl {α : Type} {f : Rewrite → α → Rewrite}
    (keeps : ∀ rewrite a, (f rewrite a).doc = rewrite.doc)
    (l : List α) (rewrite : Rewrite) : (l.foldl f rewrite).doc = rewrite.doc := by
  induction l generalizing rewrite with
  | nil => rfl
  | cons a rest ih => rw [List.foldl_cons, ih, keeps]

end Rewrite

section

variable {source : Bytes} {root : Tree} {cursor : Cursor} {rewrite : Rewrite}

namespace Modules

theorem statementFor_doc (request : Text) (imported : Imported) (rewrite : Rewrite) :
    (statementFor request imported rewrite).2.doc = rewrite.doc := by
  unfold statementFor
  split <;> rfl

theorem disciplined_rewriteImport (wf : root.WellFormed source) (stands : cursor.whole = root)
    (kind : cursor.kind = .importStatement) (disciplined : rewrite.doc.Disciplined source root) :
    (rewriteImport cursor rewrite).2.doc.Disciplined source root := by
  have spared : cursor.focus.isAwaitStatement = false :=
    isAwaitStatement_eq_false (by rw [show cursor.focus.kind = _ from kind]; simp)
  unfold rewriteImport
  dsimp only
  split
  · exact disciplined
  · split
    · rw [Rewrite.count_doc]
      exact Rewrite.disciplined_removeStatement wf disciplined stands (by rw [kind]; rfl) spared _
    · rename_i request _ _
      have plain := statementFor_doc ("require(" ++ rewrite.text request ++ ")")
        (Imported.ofStatement cursor.focus) rewrite
      have region := wf.cursor_region stands (by rw [kind]; rfl) spared
      rw [← plain] at disciplined
      exact disciplined.recordText wf region _ _

theorem disciplined_rewriteMember (wf : root.WellFormed source) (stands : cursor.whole = root)
    (kind : cursor.kind = .memberExpression) (disciplined : rewrite.doc.Disciplined source root) :
    (rewriteMember cursor rewrite).2.doc.Disciplined source root := by
  have region := wf.cursor_region stands (by rw [kind]; rfl)
    (isAwaitStatement_eq_false (by rw [show cursor.focus.kind = _ from kind]; simp))
  unfold rewriteMember
  dsimp only
  split
  · split
    · split
      · exact disciplined.recordText wf region _ _
      · exact disciplined
    · exact disciplined
  · exact disciplined

theorem disciplined_visit (wf : root.WellFormed source) (stands : cursor.whole = root)
    (concerned : pass.concerns cursor.kind = true)
    (disciplined : rewrite.doc.Disciplined source root) :
    (pass.visit cursor rewrite).2.doc.Disciplined source root := by
  simp only [pass, Bool.or_eq_true, beq_iff_eq] at concerned ⊢
  rcases concerned with kind | kind
  · rw [if_pos kind]
    exact disciplined_rewriteImport wf stands kind disciplined
  · rw [if_neg (by rw [kind]; simp)]
    exact disciplined_rewriteMember wf stands kind disciplined

end Modules

namespace Renaming

theorem renameBinding_doc (old new : Text) (ref : BindingRef) (binding : Binding)
    (rewrite : Rewrite) : (renameBinding old new ref binding rewrite).doc = rewrite.doc := by
  simp only [renameBinding, Rewrite.count, Rewrite.write]
  split <;> rfl

theorem renameAll_doc (rewrite : Rewrite) (entry : Text × Text) :
    (renameAll rewrite entry).doc = rewrite.doc := by
  unfold renameAll
  split
  · rfl
  · exact Rewrite.doc_foldl (fun rewrite _ => renameBinding_doc _ _ _ _ rewrite) _ _

theorem prepare_doc (rewrite : Rewrite) : (prepare rewrite).doc = rewrite.doc :=
  Rewrite.doc_foldl renameAll_doc _ _

theorem disciplined_visit (wf : root.WellFormed source) (stands : cursor.whole = root)
    (concerned : pass.concerns cursor.kind = true)
    (disciplined : rewrite.doc.Disciplined source root) :
    (pass.visit cursor rewrite).2.doc.Disciplined source root := by
  have name : cursor.kind.isName = true := concerned
  have rewritten : cursor.kind.isRewritten = true := by
    cases kind : cursor.kind <;> rw [kind] at name <;> first | rfl | cases name
  have spared : cursor.focus.isAwaitStatement = false := by
    apply isAwaitStatement_eq_false
    intro kind
    rw [show cursor.kind = _ from kind] at name
    cases name
  have region := wf.cursor_region stands rewritten spared
  change (visit cursor rewrite).2.doc.Disciplined source root
  unfold visit
  split
  · exact disciplined
  · split
    · exact disciplined
    · exact disciplined.recordText wf region _ _

end Renaming

namespace Removal

theorem mem_keptParts {declarators : List Tree} {span : Span}
    (mem : .span span ∈ keptParts declarators) :
    ∃ t ∈ declarators, span = Span.ofRange t.range [] := by
  induction declarators with
  | nil => cases mem
  | cons first rest ih =>
      cases rest with
      | nil =>
          simp only [keptParts, List.mem_singleton, Part.span.injEq] at mem
          exact ⟨first, List.mem_cons_self, mem⟩
      | cons second rest =>
          rw [keptParts, List.mem_cons, List.mem_cons] at mem
          · rcases mem with same | same | mem
            · exact ⟨first, List.mem_cons_self, Part.span.inj same⟩
            · cases same
            · obtain ⟨t, known, same⟩ := ih mem
              exact ⟨t, List.mem_cons_of_mem _ known, same⟩
          · simp

theorem disciplined_removeFunction (wf : root.WellFormed source) (stands : cursor.whole = root)
    (kind : cursor.kind.isFunctionDeclaration = true)
    (disciplined : rewrite.doc.Disciplined source root) :
    (removeFunction cursor rewrite).2.doc.Disciplined source root := by
  obtain ⟨deletable, other⟩ := Kind.isDeletable_of_declares (.inl kind)
  have spared : cursor.focus.isAwaitStatement = false := isAwaitStatement_eq_false other
  unfold removeFunction
  split
  · exact disciplined
  · dsimp only
    split
    · rw [Rewrite.count_doc]
      rw [← Rewrite.write_doc] at disciplined
      exact Rewrite.disciplined_removeStatement wf disciplined stands deletable spared _
    · exact disciplined

theorem disciplined_removeDeclarators (wf : root.WellFormed source) (stands : cursor.whole = root)
    (kind : cursor.kind.isVariableDeclaration = true)
    (disciplined : rewrite.doc.Disciplined source root) :
    (removeDeclarators cursor rewrite).2.doc.Disciplined source root := by
  obtain ⟨deletable, other⟩ := Kind.isDeletable_of_declares (.inr kind)
  have spared : cursor.focus.isAwaitStatement = false := isAwaitStatement_eq_false other
  have mem : cursor.focus ∈ root.nodes := stands ▸ cursor.focus_mem_whole
  have plain (names : List Text) (rewrite : Rewrite) :
      (names.foldl (fun rewrite name =>
        rewrite.write (Log.info ("removing variable declaration " ++ name))) rewrite).doc =
        rewrite.doc := Rewrite.doc_foldl (fun rewrite _ => Rewrite.write_doc _ rewrite) _ _
  unfold removeDeclarators
  dsimp only
  split
  · exact disciplined
  · split
    · rename_i first last _ head tail
      have hull : cursor.focus.Hull first last := ⟨head, tail⟩
      rw [Rewrite.replace_doc, Rewrite.count_doc, plain]
      refine disciplined.record wf (Region.declarators mem kind hull) _ ?_
      intro span written
      obtain ⟨declarator, known, same⟩ := mem_keptParts written
      have among : declarator ∈ cursor.focus.declarators := (List.mem_filter.mp known).1
      have child := (declarators_sublist _).mem among
      have is := kind_of_mem_declarators among
      obtain ⟨begins, ends⟩ := hull.declarator (wf.laid.node mem).1 among
      exact ⟨declarator.range, same, Region.node mem child (.inl (by rw [is]; rfl))
        fun _ => isAwaitStatement_eq_false (by rw [is]; simp), begins, ends⟩
    · rw [← plain, ← Rewrite.count_doc] at disciplined
      exact Rewrite.disciplined_removeStatement wf disciplined stands deletable spared _

/-- A call that is all its statement holds makes a statement that does not wait. -/
theorem spared_of_isWholeStatement (wf : root.WellFormed source) {parent : Cursor}
    (up : cursor.parent? = some parent) (stands : parent.whole = root)
    (kind : cursor.kind = .callExpression) (child : cursor.focus ∈ parent.focus.children)
    (whole : isWholeStatement cursor = true) :
    parent.kind = .expressionStatement ∧ parent.focus.isAwaitStatement = false := by
  simp only [isWholeStatement, up, Bool.and_eq_true, beq_iff_eq] at whole
  obtain ⟨statement, same⟩ := whole
  refine ⟨statement, ?_⟩
  obtain ⟨first, head, range⟩ := Option.map_eq_some_iff.mp same
  have mem : parent.focus ∈ root.nodes := stands ▸ parent.focus_mem_whole
  have childFirst : first ∈ parent.focus.children :=
    List.filter_sublist.mem (List.mem_of_head? head)
  have solid := wf.solid_of_rewritten (WellFormed.child_node mem child)
    (by rw [show cursor.focus.kind = _ from kind]; rfl)
  have nonempty : cursor.focus.start < cursor.focus.stop := solid.start_lt_stop
  have only : first = cursor.focus := by
    have sameStart : first.start = cursor.focus.start := congrArg Range.start range
    have sameStop : first.stop = cursor.focus.stop := congrArg Range.stop range
    rcases (wf.laid.node mem).1.siblings childFirst child with same | apart
    · exact same
    · omega
  simp [isAwaitStatement, head, only, show cursor.focus.kind = _ from kind]

theorem disciplined_removeCall (wf : root.WellFormed source) (stands : cursor.whole = root)
    (kind : cursor.kind = .callExpression) (disciplined : rewrite.doc.Disciplined source root) :
    (removeCall cursor rewrite).2.doc.Disciplined source root := by
  obtain ⟨parent, up, standsParent, _, child, _⟩ :=
    wf.cursor_parent stands (by rw [kind]; simp)
  have region := wf.cursor_region stands (by rw [kind]; rfl)
    (isAwaitStatement_eq_false (by rw [show cursor.focus.kind = _ from kind]; simp))
  unfold removeCall
  dsimp only
  rw [up]
  split
  · exact disciplined
  · dsimp only
    split
    · rename_i whole
      obtain ⟨statement, spared⟩ :=
        spared_of_isWholeStatement wf up standsParent kind child whole
      rw [Rewrite.count_doc]
      rw [← Rewrite.write_doc] at disciplined
      exact Rewrite.disciplined_removeStatement wf disciplined standsParent
        (by rw [statement]; rfl) spared _
    · exact disciplined.recordText wf region _ _

theorem disciplined_visit (wf : root.WellFormed source) (stands : cursor.whole = root)
    (concerned : pass.concerns cursor.kind = true)
    (disciplined : rewrite.doc.Disciplined source root) :
    (pass.visit cursor rewrite).2.doc.Disciplined source root := by
  simp only [pass, Bool.or_eq_true, beq_iff_eq] at concerned
  change (visit cursor rewrite).2.doc.Disciplined source root
  unfold visit
  split
  · rename_i call
    exact disciplined_removeCall wf stands (by simpa using call) disciplined
  · rename_i noCall
    split
    · rename_i declares
      exact disciplined_removeDeclarators wf stands declares disciplined
    · rename_i noDeclaration
      rcases concerned with (function | declares) | call
      · exact disciplined_removeFunction wf stands function disciplined
      · exact absurd declares noDeclaration
      · exact absurd (by simpa using call) noCall

end Removal

namespace Body

/-- The function of a node is a declaration of a function, a method or a function value. -/
theorem isFunction_of_target {name function : Tree} {label : Text}
    (concerned : pass.concerns cursor.kind = true)
    (found : target? cursor = some (name, function, label)) :
    function.kind.isFunction = true ∧ function ∈ cursor.focus.nodes := by
  simp only [pass, Bool.or_eq_true, beq_iff_eq] at concerned
  unfold target? at found
  dsimp only at found
  split at found
  · cases found
  · split at found
    · rename_i value has
      split at found
      · rename_i simple
        cases found
        rw [Bool.and_eq_true] at simple
        exact ⟨by simp [Kind.isFunction, simple.2],
          child_mem_nodes (List.mem_of_find?_eq_some has)⟩
      · cases found
    · cases found
  · rename_i kind _
    split at found
    · cases found
      exact ⟨by rw [kind]; rfl, self_mem_nodes _⟩
    · cases found
  · rename_i noDeclarator noMethod
    cases found
    refine ⟨?_, self_mem_nodes _⟩
    rcases concerned with (declares | declarator) | method
    · simp only [Kind.isFunction, Bool.or_eq_true]
      exact .inl (.inl declares)
    · exact absurd declarator noDeclarator
    · exact absurd method noMethod

theorem disciplined_visit (wf : root.WellFormed source) (stands : cursor.whole = root)
    (concerned : pass.concerns cursor.kind = true)
    (disciplined : rewrite.doc.Disciplined source root) :
    (pass.visit cursor rewrite).2.doc.Disciplined source root := by
  have mem : cursor.focus ∈ root.nodes := stands ▸ cursor.focus_mem_whole
  change (visit cursor rewrite).2.doc.Disciplined source root
  unfold visit
  split
  · exact disciplined
  · rename_i name function label found
    obtain ⟨isFunction, below⟩ := isFunction_of_target concerned found
    dsimp only
    split
    · rename_i value body _ has
      have child : body ∈ function.children := List.mem_of_find?_eq_some has
      have role : body.label.role = some .body := by simpa using List.find?_some has
      have notProgram : function.kind ≠ .program := by
        intro same
        rw [same] at isFunction
        cases isFunction
      exact disciplined.recordText wf (Region.node (mem_nodes_trans below mem) child
        (.inr ⟨isFunction, role⟩) fun same => absurd same notProgram) _ _
    · exact disciplined

end Body

end

namespace RewritePass

variable {source : Bytes} {root : Tree} {cursor : Cursor}

theorem disciplined_visit (wf : root.WellFormed source) {pass : RewritePass}
    (known : pass ∈ standard) (stands : cursor.whole = root)
    (concerned : pass.concerns cursor.kind = true) {rewrite : Rewrite}
    (disciplined : rewrite.doc.Disciplined source root) :
    (pass.visit cursor rewrite).2.doc.Disciplined source root := by
  rcases mem_standard.mp known with rfl | rfl | rfl | rfl | rfl
  · exact Modules.disciplined_visit wf stands concerned disciplined
  · exact Renaming.disciplined_visit wf stands concerned disciplined
  · exact Removal.disciplined_visit wf stands concerned disciplined
  · exact Body.disciplined_visit wf stands concerned disciplined
  · exact disciplined

theorem disciplined_visitAll (wf : root.WellFormed source) (stands : cursor.whole = root)
    {passes : List RewritePass}
    (known : ∀ pass ∈ passes, pass ∈ standard ∧ pass.concerns cursor.kind = true)
    {rewrite : Rewrite} (disciplined : rewrite.doc.Disciplined source root) :
    (visitAll cursor rewrite passes).2.doc.Disciplined source root :=
  visitAll_preserves (·.doc.Disciplined source root) (fun pass mem _ before =>
    disciplined_visit wf (known pass mem).1 stands (known pass mem).2 before) disciplined

theorem prepare_doc {passes : List RewritePass} (known : ∀ pass ∈ passes, pass ∈ standard)
    (rewrite : Rewrite) :
    (passes.foldl (fun rewrite pass => pass.prepare rewrite) rewrite).doc = rewrite.doc := by
  induction passes generalizing rewrite with
  | nil => rfl
  | cons pass rest ih =>
      have one : (pass.prepare rewrite).doc = rewrite.doc := by
        have mem := known pass List.mem_cons_self
        rcases mem_standard.mp mem with rfl | rfl | rfl | rfl | rfl
        · rfl
        · exact Renaming.prepare_doc rewrite
        · rfl
        · rfl
        · rfl
      rw [List.foldl_cons, ih fun other mem => known other (List.mem_cons_of_mem _ mem), one]

/-- Walking through a well-formed program the passes keep the discipline of its document. -/
theorem disciplined_walked (wf : root.WellFormed source) {passes : List RewritePass}
    (known : ∀ pass ∈ passes, pass ∈ standard) {rewrite : Rewrite}
    (disciplined : rewrite.doc.Disciplined source root) :
    (walked passes root rewrite).doc.Disciplined source root := by
  refine walk_preserves (·.doc.Disciplined source root) (fun cursor _ stands _ before =>
    disciplined_visitAll wf stands (fun pass mem => ?_) before) ?_
  · obtain ⟨one, concerned⟩ := List.mem_filter.mp mem
    exact ⟨known pass one, concerned⟩
  · rw [prepare_doc known]
    exact disciplined

end RewritePass

end Rebundle
