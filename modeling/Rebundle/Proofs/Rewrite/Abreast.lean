import Rebundle.Proofs.Rewrite.Overriding
import Rebundle.Proofs.Rewrite.Relocation

/-!
# Walks in another order

The standard passes visit most nodes one at a time. Only the declaration of a function concerns two of
them: one removes it, the other replaces its body. In either order a walk goes on alike, and it records
the same edits, except for bodies of removed functions.
-/

namespace Rebundle

open Source Tree

def Edit.entry (edit : Edit) : Entry := ⟨edit.start, edit.stop, edit.parts, edit.reason⟩

/-- An entry that writes again what it hides nothing of is the same under other numbers. -/
theorem Entry.Shaped.renumber {root : Tree} {entry : Entry} (shaped : entry.Shaped root) (f : Nat → Nat) :
    entry.parts.map (Part.renumber f) = entry.parts := by
  have same : ∀ part ∈ entry.parts, part.renumber f = part := by
    rintro (_ | span) written
    · rfl
    · obtain ⟨_, _, _, _, _, _, _, _, _, _, rfl⟩ := shaped span written
      rfl
  calc entry.parts.map (Part.renumber f)
      = entry.parts.map id := List.map_congr_left same
    _ = entry.parts := List.map_id _

/-- Two states of a walk, of which the second one may have recorded replacements of bodies of functions
that both have removed. -/
structure Abreast (source : Bytes) (root : Tree) (a b : Rewrite) : Prop where
  agrees : a.Agrees b
  first : a.doc.Disciplined source root
  second : b.doc.Disciplined source root
  shaped : ∀ edit ∈ b.doc.edits, edit.entry.Shaped root
  related : ∃ f extra, a.doc.Extends f extra b.doc ∧ b.doc.Guarded (Overrides source root) extra

section

variable {source : Bytes} {root : Tree} {cursor : Cursor} {a b : Rewrite}

theorem Document.Disciplined.early {doc : Document} (disciplined : doc.Disciplined source root) :
    ∀ edit ∈ doc.edits, edit.seq < doc.recorded ∧
      ∀ span, .span span ∈ edit.parts → ∀ n ∈ span.hidden, n < doc.recorded := by
  intro edit mem
  refine ⟨disciplined.kept.seq_lt mem, ?_⟩
  intro span written
  obtain ⟨range, rfl, _⟩ := disciplined.spans edit mem span written
  simp [Span.ofRange]

theorem Document.shaped_enter {doc : Document} (shaped : ∀ edit ∈ doc.edits, edit.entry.Shaped root)
    {entry : Option Entry} (fits : ∀ e ∈ entry, e.Shaped root) :
    ∀ edit ∈ (doc.enter entry).edits, edit.entry.Shaped root := by
  cases entry with
  | none => exact shaped
  | some entry =>
      intro edit mem
      rcases Edit.mem_insert.mp mem with rfl | mem
      · exact fits entry rfl
      · exact shaped edit mem

namespace Abreast

theorem refl (disciplined : a.doc.Disciplined source root)
    (shaped : ∀ edit ∈ a.doc.edits, edit.entry.Shaped root) : Abreast source root a a :=
  ⟨.refl a, disciplined, disciplined, shaped, id, [], .refl a.doc, by simp [Document.Guarded]⟩

/-- Steps that record the same keep two states abreast. -/
theorem step (abreast : Abreast source root a b) {first second : Bool × Rewrite} {entry : Option Entry}
    (alike : Alike root a b first second entry) (kept : first.2.doc.Disciplined source root)
    (kept' : second.2.doc.Disciplined source root) : Abreast source root first.2 second.2 where
  agrees := alike.follows.agrees
  first := kept
  second := kept'
  shaped := by
    rw [alike.follows.second]
    exact Document.shaped_enter abreast.shaped alike.shaped
  related := by
    obtain ⟨f, extra, extended, guarded⟩ := abreast.related
    refine ⟨f, extra, ?_⟩
    rw [alike.follows.first, alike.follows.second]
    cases entry with
    | none => exact ⟨extended, guarded⟩
    | some entry =>
        have recorded := extended.record entry.start entry.stop entry.parts entry.reason
        rw [(alike.shaped entry rfl).renumber] at recorded
        exact ⟨recorded, guarded.record extended.recorded_not_mem _ _ _ _⟩

theorem visit (wf : root.WellFormed source) (abreast : Abreast source root a b) {pass : RewritePass}
    (known : pass ∈ RewritePass.standard) (stands : cursor.whole = root)
    (concerned : pass.concerns cursor.kind = true) :
    (pass.visit cursor b).1 = (pass.visit cursor a).1 ∧
      Abreast source root (pass.visit cursor a).2 (pass.visit cursor b).2 := by
  obtain ⟨entry, alike⟩ := RewritePass.alike_visit known abreast.agrees stands
  exact ⟨alike.goesOn, abreast.step alike
    (RewritePass.disciplined_visit wf known stands concerned abreast.first)
    (RewritePass.disciplined_visit wf known stands concerned abreast.second)⟩

theorem visitAll (wf : root.WellFormed source) (abreast : Abreast source root a b)
    {passes : List RewritePass} (stands : cursor.whole = root)
    (known : ∀ pass ∈ passes, pass ∈ RewritePass.standard ∧ pass.concerns cursor.kind = true) :
    (RewritePass.visitAll cursor b passes).1 = (RewritePass.visitAll cursor a passes).1 ∧
      Abreast source root (RewritePass.visitAll cursor a passes).2
        (RewritePass.visitAll cursor b passes).2 := by
  induction passes generalizing a b with
  | nil => exact ⟨rfl, abreast⟩
  | cons pass rest ih =>
      obtain ⟨one, concerned⟩ := known pass List.mem_cons_self
      obtain ⟨same, visited⟩ := abreast.visit wf one stands concerned
      rw [RewritePass.visitAll, RewritePass.visitAll]
      cases first : pass.visit cursor a with
      | mk goesOn next =>
          cases second : pass.visit cursor b with
          | mk goesOn' next' =>
              rw [first, second] at same visited
              cases same
              cases goesOn with
              | true => exact ih visited fun other mem => known other (List.mem_cons_of_mem _ mem)
              | false => exact ⟨rfl, visited⟩

end Abreast

/-- An entry that deletes a declaration: its range, its text and its reason. -/
structure Entry.Deletes (source : Bytes) (root t : Tree) (reason : Text) (entry : Entry) : Prop where
  deleted : Deleted source root t entry.range
  plain : ∃ text, entry.parts = [.text text]
  reason : entry.reason = reason

theorem Entry.range_lines (range : Range) (reason : Text) :
    (lines source range reason).range = extent source range := by
  simp only [lines, Entry.range]

theorem Entry.deletes_deletion (source : Bytes) {owner t : Tree} (mem : owner ∈ root.nodes)
    (child : t ∈ owner.children)
    (reason : Text) : (deletion source t.range reason (some owner.label)).Deletes source root t reason := by
  by_cases lists : owner.label.kind.listsStatements = true
  · simp only [deletion, lists, if_true]
    have deleted : Deleted source root t (extent source t.range) := .lines mem child lists
    rw [← Entry.range_lines t.range reason] at deleted
    exact ⟨deleted, ⟨_, rfl⟩, rfl⟩
  · simp only [deletion, lists, if_false, Bool.false_eq_true]
    exact ⟨.alone, ⟨_, rfl⟩, rfl⟩

/-- Deleting the declaration at a cursor covers a range of its removal, by a text. -/
theorem Entry.removed_ofStatement (wf : root.WellFormed source) (stands : cursor.whole = root)
    (deletable : cursor.kind.isDeletable = true) (reason : Text) :
    let entry := ofStatement source cursor.range cursor.ancestors reason
    Removed source root cursor.focus entry.range ∧ (∃ text, entry.parts = [.text text]) ∧
      entry.reason = reason := by
  have notProgram {kind : Kind} (deletable : kind.isDeletable = true) : kind ≠ .program := by
    rintro rfl
    cases deletable
  obtain ⟨parent, _, standsParent, parentMem, child, above⟩ :=
    wf.cursor_parent stands (notProgram deletable)
  rw [above, ofStatement]
  by_cases exported : parent.kind = .exportStatement
  · obtain ⟨owner, _, _, ownerMem, childParent, aboveParent⟩ :=
      wf.cursor_parent standsParent (by rw [exported]; simp)
    have exportLabel : (parent.focus.label.kind == Kind.exportStatement) = true := beq_iff_eq.mpr exported
    rw [if_pos exportLabel, aboveParent]
    have deletes := deletes_deletion source ownerMem childParent reason
    exact ⟨.exported parentMem exported child deletes.deleted, deletes.plain, deletes.reason⟩
  · have noExport : ¬ (parent.focus.label.kind == Kind.exportStatement) = true :=
      fun same => exported (beq_iff_eq.mp same)
    rw [if_neg noExport]
    have deletes := deletes_deletion source parentMem child reason
    exact ⟨.itself deletes.deleted, deletes.plain, deletes.reason⟩

namespace RewritePass

variable {pass : RewritePass} {rewrite next : Rewrite} {rest : List RewritePass}

theorem visitAll_singleton (pass : RewritePass) (cursor : Cursor) (rewrite : Rewrite) :
    visitAll cursor rewrite [pass] = pass.visit cursor rewrite := by
  rw [visitAll]
  split
  · rename_i visited
    rw [visited, visitAll]
  · rename_i visited
    rw [visited]

theorem visitAll_of_true (visited : pass.visit cursor rewrite = (true, next)) :
    visitAll cursor rewrite (pass :: rest) = visitAll cursor next rest := by
  rw [visitAll, visited]

theorem visitAll_of_false (ends : (pass.visit cursor rewrite).1 = false) :
    visitAll cursor rewrite (pass :: rest) = pass.visit cursor rewrite := by
  rw [visitAll]
  cases visited : pass.visit cursor rewrite with
  | mk goesOn next =>
      rw [visited] at ends
      cases ends
      rfl

end RewritePass

namespace Abreast

/-- The removal of a function after the replacement of its body is abreast of the removal alone. -/
theorem override (wf : root.WellFormed source) (abreast : Abreast source root a b)
    (stands : cursor.whole = root) (kind : cursor.kind.isFunctionDeclaration = true) {name body : Tree}
    (named : cursor.child? .name = some name) (has : cursor.child? .body = some body) {text : Text}
    {between : Rewrite}
    (replaced : between.doc = (b.doc.record body.start body.stop [.text text] "replace body").2)
    {first second : Bool × Rewrite}
    (alike : Alike root a between first second
      (some (Entry.ofStatement source cursor.range cursor.ancestors "remove function")))
    (kept : first.2.doc.Disciplined source root) (kept' : second.2.doc.Disciplined source root) :
    Abreast source root first.2 second.2 where
  agrees := alike.follows.agrees
  first := kept
  second := kept'
  shaped := by
    rw [alike.follows.second, replaced]
    have plain : ∀ e ∈ some (⟨body.start, body.stop, [.text text], "replace body"⟩ : Entry),
        e.Shaped root := by
      simp only [Option.mem_def, Option.some.injEq, forall_eq']
      exact Entry.shaped_text root _ _ _ _
    exact Document.shaped_enter (Document.shaped_enter abreast.shaped plain) alike.shaped
  related := by
    obtain ⟨removed, plain, reason⟩ := Entry.removed_ofStatement wf stands
      (Kind.isDeletable_of_declares (.inl kind)).1 "remove function"
    have shaped := alike.shaped _ rfl
    rw [alike.follows.first, alike.follows.second, replaced]
    generalize Entry.ofStatement source cursor.range cursor.ancestors "remove function" = entry at *
    obtain ⟨f, extra, extended, guarded⟩ := abreast.related
    have added := extended.add abreast.second.kept abreast.first.early body.start body.stop [.text text]
      "replace body"
    have recorded := added.record entry.start entry.stop entry.parts entry.reason
    rw [shaped.renumber] at recorded
    refine ⟨_, _, recorded, guarded.cover abreast.second.kept added.recorded_not_mem ?_⟩
    exact ⟨cursor.focus, name, body, stands ▸ cursor.focus_mem_whole, kind, named, has, rfl, removed,
      plain, reason⟩

/-- Whether the declaration of a function is removed first or has its body replaced first, the visits go
on alike and stay abreast. -/
theorem visit_function (wf : root.WellFormed source) (abreast : Abreast source root a b)
    (stands : cursor.whole = root) (kind : cursor.kind.isFunctionDeclaration = true) :
    (RewritePass.visitAll cursor b [Body.pass, Removal.pass]).1 =
        (RewritePass.visitAll cursor a [Removal.pass, Body.pass]).1 ∧
      Abreast source root (RewritePass.visitAll cursor a [Removal.pass, Body.pass]).2
        (RewritePass.visitAll cursor b [Body.pass, Removal.pass]).2 := by
  have removal (rewrite : Rewrite) :
      Removal.pass.visit cursor rewrite = Removal.removeFunction cursor rewrite := by
    change Removal.visit cursor rewrite = _
    revert kind
    unfold Removal.visit
    cases cursor.kind <;> simp [Kind.isFunctionDeclaration, Kind.isVariableDeclaration]
  have kept {rewrite : Rewrite} (disciplined : rewrite.doc.Disciplined source root) :
      (Removal.removeFunction cursor rewrite).2.doc.Disciplined source root :=
    Removal.disciplined_removeFunction wf stands kind disciplined
  have concerned : Body.pass.concerns cursor.kind = true := by simp [Body.pass, kind]
  have bodyKnown : Body.pass ∈ RewritePass.standard := by simp [RewritePass.standard]
  obtain ⟨goesOn, visited⟩ := abreast.visit wf bodyKnown stands concerned
  obtain ⟨between, replaces, same, ghost⟩ := Body.visit_function kind b
  rw [RewritePass.visitAll_of_true replaces, RewritePass.visitAll_singleton, removal]
  rw [replaces] at goesOn visited
  rcases Removal.removeFunction_cases root (abreast.agrees.trans same) with
    ⟨first, second⟩ | ⟨ends, alike⟩
  · rw [RewritePass.visitAll_of_true ((removal a).trans first), RewritePass.visitAll_singleton, second]
    exact ⟨goesOn, visited⟩
  · rw [RewritePass.visitAll_of_false (by rw [removal]; exact ends), removal]
    refine ⟨alike.goesOn, ?_⟩
    rcases ghost with rfl | ⟨name, body, text, named, has, replaced⟩
    · exact abreast.step alike (kept abreast.first) (kept abreast.second)
    · rw [abreast.first.unchanged] at alike
      exact abreast.override wf stands kind named has replaced alike (kept abreast.first)
        (kept visited.second)

end Abreast

namespace RewritePass

/-- A node that declares no function concerns one of the standard passes at most. -/
theorem concerned_le_one {kind : Kind} (other : kind.isFunctionDeclaration = false) :
    (standard.filter fun pass => pass.concerns kind).length ≤ 1 := by
  revert other
  cases kind with
  | token text => exact fun _ => Nat.zero_le 1
  | _ => decide

/-- The declaration of a function concerns two of the standard passes. -/
theorem concerned_function {kind : Kind} (declares : kind.isFunctionDeclaration = true) :
    (standard.filter fun pass => pass.concerns kind) = [Removal.pass, Body.pass] := by
  revert declares
  cases kind with
  | functionDeclaration => exact fun _ => rfl
  | generatorFunctionDeclaration => exact fun _ => rfl
  | _ => exact fun declares => by cases declares

theorem perm_pair {α : Type} {l : List α} {a b : α} (perm : l.Perm [a, b]) : l = [a, b] ∨ l = [b, a] := by
  match l, perm.length_eq with
  | [x, y], _ =>
      rcases List.mem_cons.mp (perm.mem_iff.mp List.mem_cons_self) with rfl | mem
      · have rest := (List.perm_cons x).mp perm
        exact .inl (by rw [List.perm_singleton.mp rest])
      · have same : x = b := by simpa using mem
        subst same
        have rest := (List.perm_cons x).mp (perm.trans (List.Perm.swap x a []))
        exact .inr (by rw [List.perm_singleton.mp rest])

/-- The active passes that a node concerns come in the same order, but for the declaration of a function,
where the two of them may have changed places. -/
theorem concerned_cases {passes : List RewritePass} (orders : passes.Perm standard) (config : PatchConfig)
    (kind : Kind) :
    let concerned := fun passes : List RewritePass =>
      (passes.filter fun pass => pass.applies config).filter fun pass => pass.concerns kind
    concerned passes = concerned standard ∨ kind.isFunctionDeclaration = true ∧
      concerned standard = [Removal.pass, Body.pass] ∧ concerned passes = [Body.pass, Removal.pass] := by
  intro concerned
  have same : (concerned passes).Perm (concerned standard) := (orders.filter _).filter _
  have fewer : (concerned standard).Sublist (standard.filter fun pass => pass.concerns kind) :=
    List.Sublist.filter _ List.filter_sublist
  have short (length : (concerned standard).length ≤ 1) : concerned passes = concerned standard := by
    match row : concerned standard, length with
    | [], _ =>
        rw [row] at same
        exact same.eq_nil
    | [pass], _ =>
        rw [row] at same
        exact same.eq_singleton
  cases declares : kind.isFunctionDeclaration with
  | false => exact .inl (short (fewer.length_le.trans (concerned_le_one declares)))
  | true =>
      rw [concerned_function declares] at fewer
      by_cases few : (concerned standard).length ≤ 1
      · exact .inl (short few)
      · have row : concerned standard = [Removal.pass, Body.pass] :=
          fewer.eq_of_length_le (by simp only [List.length_cons, List.length_nil]; omega)
        rw [row] at same ⊢
        rcases perm_pair same with straight | swapped
        · exact .inl straight
        · exact .inr ⟨rfl, rfl, swapped⟩

end RewritePass

/-- The walks of the standard passes and of the same passes in another order end abreast. -/
theorem abreast_walked (wf : root.WellFormed source) {passes : List RewritePass}
    (orders : passes.Perm RewritePass.standard) (config : PatchConfig) (rewrite : Rewrite)
    (disciplined : rewrite.doc.Disciplined source root) (blank : rewrite.doc.edits = []) :
    let active := fun passes : List RewritePass => passes.filter fun pass => pass.applies config
    Abreast source root (RewritePass.walked (active RewritePass.standard) root rewrite)
      (RewritePass.walked (active passes) root rewrite) := by
  intro active
  have known : ∀ pass ∈ active passes, pass ∈ RewritePass.standard :=
    fun pass mem => orders.mem_iff.mp (List.mem_filter.mp mem).1
  have plain := RewritePass.prepare_doc known rewrite
  have prepared := RewritePass.prepare_perm (orders.filter fun pass => pass.applies config) known rewrite
  unfold RewritePass.walked
  rw [← prepared]
  apply Visitor.walk_related (Abreast source root)
  · intro cursor a b stands abreast
    simp only [RewritePass.visitor]
    rw [abreast.agrees.skipBefore]
    split
    · exact ⟨rfl, abreast⟩
    · rcases RewritePass.concerned_cases orders config cursor.kind with same | ⟨declares, first, second⟩
      · simp only [active] at same ⊢
        rw [same]
        refine abreast.visitAll wf stands fun pass mem => ?_
        obtain ⟨one, concerned⟩ := List.mem_filter.mp mem
        exact ⟨(List.mem_filter.mp one).1, concerned⟩
      · simp only [active] at first second ⊢
        rw [first, second]
        exact abreast.visit_function wf stands declares
  · exact fun _ _ _ _ abreast => abreast
  · refine .refl (by rw [plain]; exact disciplined) ?_
    rw [plain, blank]
    simp

end

end Rebundle
