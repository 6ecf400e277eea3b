import Rebundle.Proofs.Rewrite.Abreast

/-!
# What is recorded at a node

A visit of a node either writes a text over it, over its statement or over the export around that; or it
drops some declarators of a declaration; or it replaces the body of a function. Whether the walk goes on
below depends on the source and the task alone, and where it does not, a text has been written.
-/

namespace Rebundle

open Source Tree

namespace Removal

/-- Whether a declarator is to be removed: its name is a plain one that is configured. -/
def isDoomed (source : Bytes) (config : PatchConfig) (declarator : Tree) : Bool :=
  match declarator.child? .name with
  | some target =>
      target.kind == .identifier && config.removeIdentifiers.contains (target.text source)
  | none => false

/-- The declarators of a declaration that stay. -/
def keptOf (source : Bytes) (config : PatchConfig) (declaration : Tree) : List Tree :=
  declaration.declarators.filter fun declarator => !isDoomed source config declarator

end Removal

/-- The texts that visits write over the node at a cursor. -/
inductive Blot (source : Bytes) (cursor : Cursor) : Entry → Prop where
  | own (t reason : Text) (other : reason ≠ "replace body") :
      Blot source cursor ⟨cursor.range.start, cursor.range.stop, [.text t], reason⟩
  | statement {statement : Cursor} (holds : statement = cursor ∨ cursor.parent? = some statement)
      (deletable : statement.kind.isDeletable = true) (reason : Text)
      (other : reason ≠ "replace body") :
      Blot source cursor (Entry.ofStatement source statement.range statement.ancestors reason)

/-- All that visits record at a cursor. -/
inductive Noted (source : Bytes) (config : PatchConfig) (cursor : Cursor) : Entry → Prop where
  | blot {entry : Entry} (blot : Blot source cursor entry) : Noted source config cursor entry
  | declarators {first last : Tree} (declares : cursor.kind.isVariableDeclaration = true)
      (hull : cursor.focus.Hull first last) (reason : Text) (other : reason ≠ "replace body") :
      Noted source config cursor ⟨first.start, last.stop,
        Removal.keptParts (Removal.keptOf source config cursor.focus), reason⟩
  | body {name function body : Tree} {label value : Text}
      (concerned : Body.pass.concerns cursor.kind = true)
      (target : Body.target? cursor = some (name, function, label))
      (configured : config.replaceFunctionBody.get? (name.text source) = some value)
      (has : function.child? .body = some body) :
      Noted source config cursor ⟨body.start, body.stop,
        [.text (Body.returnBlock value (lineIndent source cursor.range.start))], "replace body"⟩

/-- The state of a rewriting of a source with a task. -/
structure Rewrite.Serves (source : Bytes) (config : PatchConfig) (rewrite : Rewrite) : Prop where
  source : rewrite.doc.source = source
  config : rewrite.config = config

/-- What a visit does: it records one entry at most, and it ends the visits only with a text. -/
structure Visited (source : Bytes) (config : PatchConfig) (cursor : Cursor) (before : Rewrite)
    (result : Bool × Rewrite) (entry : Option Entry) : Prop where
  doc : result.2.doc = before.doc.enter entry
  noted : ∀ e ∈ entry, Noted source config cursor e
  ends : result.1 = false → ∃ e ∈ entry, Blot source cursor e

section

variable {source : Bytes} {config : PatchConfig} {cursor : Cursor} {rewrite : Rewrite}

namespace Visited

theorem idle {result : Bool × Rewrite} (goesOn : result.1 = true) (same : result.2.doc = rewrite.doc) :
    Visited source config cursor rewrite result none :=
  ⟨same, by simp, by simp [goesOn]⟩

theorem ofBlot {result : Bool × Rewrite} {entry : Entry} (blot : Blot source cursor entry)
    (recorded : result.2.doc = rewrite.doc.enter (some entry)) :
    Visited source config cursor rewrite result (some entry) :=
  ⟨recorded, by simpa using .blot blot, fun _ => ⟨entry, rfl, blot⟩⟩

end Visited

theorem Rewrite.removeStatement_doc (rewrite : Rewrite) (range : Range) (ancestors : List Label)
    (reason : Text) : (rewrite.removeStatement range ancestors reason).doc =
      rewrite.doc.enter (some (Entry.ofStatement rewrite.doc.source range ancestors reason)) :=
  ((Agrees.refl rewrite).follows.removeStatement range ancestors reason).first

namespace Modules

theorem visited (serves : rewrite.Serves source config) :
    ∃ entry, Visited source config cursor rewrite (pass.visit cursor rewrite) entry := by
  simp only [pass, beq_iff_eq]
  split
  · rename_i statement
    have deletable : cursor.kind.isDeletable = true := by
      rw [statement]
      rfl
    unfold rewriteImport
    dsimp only
    split
    · exact ⟨none, .idle rfl rfl⟩
    · split
      · refine ⟨_, .ofBlot (.statement (.inl rfl) deletable "type-only import" (by decide)) ?_⟩
        rw [Rewrite.count_doc, Rewrite.removeStatement_doc, serves.source]
        rfl
      · rename_i request _ _
        have plain := statementFor_doc ("require(" ++ rewrite.text request ++ ")")
          (Imported.ofStatement cursor.focus) rewrite
        revert plain
        generalize statementFor ("require(" ++ rewrite.text request ++ ")")
          (Imported.ofStatement cursor.focus) rewrite = made
        intro plain
        refine ⟨_, .ofBlot (.own made.1 "import" (by decide)) ?_⟩
        rw [Rewrite.count_doc, Rewrite.replace_doc, Rewrite.write_doc, plain]
        rfl
  · unfold rewriteMember
    dsimp only
    split
    · split
      · split
        · rename_i found
          refine ⟨_, .ofBlot (.own _ _ ?_) rfl⟩
          rintro rfl
          unfold metaProperty? at found
          repeat' split at found
          all_goals cases found
        · exact ⟨none, .idle rfl rfl⟩
      · exact ⟨none, .idle rfl rfl⟩
    · exact ⟨none, .idle rfl rfl⟩

theorem visit_goesOn {a b : Rewrite} (source : b.doc.source = a.doc.source) (cursor : Cursor) :
    (pass.visit cursor b).1 = (pass.visit cursor a).1 := by
  simp only [pass]
  split
  · unfold rewriteImport
    dsimp only
    cases cursor.focus.child? .source with
    | none => rfl
    | some _ => cases cursor.focus.hasToken "type" <;> rfl
  · unfold rewriteMember
    have same : b.source = a.source := source
    have text (t : Tree) : b.text t = a.text t := by rw [Rewrite.text, Rewrite.text, same]
    dsimp only
    cases cursor.focus.child? .object with
    | none => rfl
    | some owner =>
        cases cursor.focus.child? .property with
        | none => rfl
        | some name =>
            dsimp only
            rw [same, text]
            by_cases importMeta : owner.isImportMeta a.source = true
            · rw [if_pos importMeta, if_pos importMeta]
              cases metaProperty? (a.text name) <;> rfl
            · rw [if_neg importMeta, if_neg importMeta]

end Modules

namespace Renaming

theorem visited (cursor : Cursor) (rewrite : Rewrite) :
    ∃ entry, Visited source config cursor rewrite (pass.visit cursor rewrite) entry := by
  change ∃ entry, Visited source config cursor rewrite (visit cursor rewrite) entry
  unfold visit
  split
  · exact ⟨none, .idle rfl rfl⟩
  · split
    · exact ⟨none, .idle rfl rfl⟩
    · exact ⟨_, .ofBlot (.own _ "rename" (by decide)) rfl⟩

theorem visit_goesOn (cursor : Cursor) (rewrite : Rewrite) : (pass.visit cursor rewrite).1 = true := by
  change (visit cursor rewrite).1 = true
  unfold visit
  repeat' split
  all_goals rfl

end Renaming

namespace Removal

theorem doomedName_isSome (serves : rewrite.Serves source config) (declarator : Tree) :
    (doomedName? rewrite declarator).isSome = isDoomed source config declarator := by
  unfold doomedName? isDoomed
  cases declarator.child? .name with
  | none => rfl
  | some target =>
      dsimp only
      rw [Rewrite.text, Rewrite.source, serves.source, serves.config]
      cases target.kind == .identifier && config.removeIdentifiers.contains (target.text source) <;> rfl

theorem names_isEmpty (serves : rewrite.Serves source config) (declarators : List Tree) :
    (declarators.filterMap (doomedName? rewrite)).isEmpty = !declarators.any (isDoomed source config) := by
  induction declarators with
  | nil => rfl
  | cons declarator rest ih =>
      rw [List.filterMap_cons, List.any_cons, ← doomedName_isSome serves declarator]
      cases doomedName? rewrite declarator with
      | none => simpa using ih
      | some name => rfl

theorem kept_eq (serves : rewrite.Serves source config) (declaration : Tree) :
    (declaration.declarators.filter fun t => (doomedName? rewrite t).isNone) =
      keptOf source config declaration := by
  apply List.filter_congr
  intro declarator _
  rw [← doomedName_isSome serves declarator]
  cases doomedName? rewrite declarator <;> rfl

theorem written_doc (names : List Text) (rewrite : Rewrite) :
    (names.foldl (fun rewrite name =>
      rewrite.write (Log.info ("removing variable declaration " ++ name))) rewrite).doc = rewrite.doc :=
  Rewrite.doc_foldl (fun rewrite _ => Rewrite.write_doc _ rewrite) _ _

theorem removeDeclarators_none (serves : rewrite.Serves source config)
    (none : cursor.focus.declarators.any (isDoomed source config) = false) :
    removeDeclarators cursor rewrite = (true, rewrite) := by
  have empty := names_isEmpty serves cursor.focus.declarators
  rw [none] at empty
  unfold removeDeclarators
  exact if_pos empty

/-- Some declarators of a declaration are dropped, and the walk goes on. -/
theorem removeDeclarators_some (serves : rewrite.Serves source config)
    (some : cursor.focus.declarators.any (isDoomed source config) = true) {first last : Tree}
    (hull : cursor.focus.Hull first last) (kept : keptOf source config cursor.focus ≠ []) :
    (removeDeclarators cursor rewrite).1 = true ∧
      (removeDeclarators cursor rewrite).2.doc = rewrite.doc.enter (.some ⟨first.start, last.stop,
        keptParts (keptOf source config cursor.focus), "remove declarator"⟩) := by
  have empty := names_isEmpty serves cursor.focus.declarators
  have row := kept_eq serves cursor.focus
  have head := hull.head
  have tail := hull.tail
  rw [some] at empty
  obtain ⟨t, rest, cons⟩ := List.exists_cons_of_ne_nil kept
  unfold declarators at empty row head tail
  unfold removeDeclarators
  dsimp only
  rw [if_neg (by simp [empty]), row, head, tail, cons]
  refine ⟨rfl, ?_⟩
  rw [Rewrite.replace_doc, Rewrite.count_doc, written_doc]
  rfl

/-- A declaration that keeps no declarator is deleted, and the visits end. -/
theorem removeDeclarators_all (serves : rewrite.Serves source config)
    (some : cursor.focus.declarators.any (isDoomed source config) = true)
    (kept : keptOf source config cursor.focus = []) :
    (removeDeclarators cursor rewrite).1 = false ∧
      (removeDeclarators cursor rewrite).2.doc = rewrite.doc.enter
        (.some (Entry.ofStatement source cursor.range cursor.ancestors "remove declaration")) := by
  have empty := names_isEmpty serves cursor.focus.declarators
  have row := kept_eq serves cursor.focus
  rw [some] at empty
  unfold declarators at empty row
  unfold removeDeclarators
  dsimp only
  rw [if_neg (by simp [empty]), row, kept]
  refine ⟨rfl, ?_⟩
  rw [Rewrite.removeStatement_doc, Rewrite.count_doc, written_doc, serves.source]

theorem exists_hull {declaration : Tree} (some : declaration.declarators.any (isDoomed source config) = true) :
    ∃ first last, declaration.Hull first last := by
  obtain ⟨one, known, _⟩ := List.any_eq_true.mp some
  have nonempty := List.ne_nil_of_mem known
  exact ⟨_, _, List.head?_eq_some_head nonempty, List.getLast?_eq_some_getLast nonempty⟩

/-- The walk goes on below a declaration unless all of its declarators are removed. -/
theorem removeDeclarators_goesOn (serves : rewrite.Serves source config) :
    (removeDeclarators cursor rewrite).1 =
      !(cursor.focus.declarators.any (isDoomed source config) &&
        (keptOf source config cursor.focus).isEmpty) := by
  cases some : cursor.focus.declarators.any (isDoomed source config) with
  | false => rw [removeDeclarators_none serves some]; rfl
  | true =>
      cases kept : keptOf source config cursor.focus with
      | nil => rw [(removeDeclarators_all serves some kept).1]; rfl
      | cons t rest =>
          obtain ⟨first, last, hull⟩ := exists_hull some
          rw [(removeDeclarators_some serves some hull (by simp [kept])).1]
          rfl

/-- Removing a function does nothing, or it deletes the declaration and ends the visits. -/
theorem removeFunction_doc (serves : rewrite.Serves source config) :
    removeFunction cursor rewrite = (true, rewrite) ∨
      (removeFunction cursor rewrite).1 = false ∧
        (removeFunction cursor rewrite).2.doc = rewrite.doc.enter
          (some (Entry.ofStatement source cursor.range cursor.ancestors "remove function")) := by
  unfold removeFunction
  split
  · exact .inl rfl
  · dsimp only
    split
    · refine .inr ⟨rfl, ?_⟩
      rw [Rewrite.count_doc, Rewrite.removeStatement_doc, Rewrite.write_doc, serves.source]
    · exact .inl rfl

theorem removeCall_visited (serves : rewrite.Serves source config) :
    ∃ entry, Visited source config cursor rewrite (removeCall cursor rewrite) entry := by
  have replaced (state : Rewrite) (same : state.doc = rewrite.doc) :
      ∃ entry, Visited source config cursor rewrite (removeCall.replaceCall cursor state) entry := by
    let text := if opensStatement cursor.range.start cursor.ancestors then ";" ++ placeholder
      else placeholder
    refine ⟨_, .ofBlot (.own text "remove call" (by decide)) ?_⟩
    rw [removeCall.replaceCall, Rewrite.count_doc, Rewrite.replace_doc, same]
    rfl
  unfold removeCall
  dsimp only
  split
  · exact ⟨none, .idle rfl rfl⟩
  · split
    · rename_i parent up
      split
      · rename_i whole
        have deletable : parent.kind.isDeletable = true := by
          simp only [isWholeStatement, up, Bool.and_eq_true, beq_iff_eq] at whole
          rw [whole.1]
          rfl
        refine ⟨_, .ofBlot (.statement (.inr up) deletable "remove call statement" (by decide)) ?_⟩
        rw [Rewrite.count_doc, Rewrite.removeStatement_doc, Rewrite.write_doc, serves.source]
      · exact replaced _ rfl
    · exact replaced _ rfl

theorem visited (serves : rewrite.Serves source config) (concerned : pass.concerns cursor.kind = true) :
    ∃ entry, Visited source config cursor rewrite (pass.visit cursor rewrite) entry := by
  simp only [pass, Bool.or_eq_true, beq_iff_eq] at concerned
  change ∃ entry, Visited source config cursor rewrite (visit cursor rewrite) entry
  unfold visit
  split
  · exact removeCall_visited serves
  · rename_i noCall
    split
    · rename_i declares
      cases some : cursor.focus.declarators.any (isDoomed source config) with
      | false =>
          rw [removeDeclarators_none serves some]
          exact ⟨none, .idle rfl rfl⟩
      | true =>
          by_cases kept : keptOf source config cursor.focus = []
          · have deletable := (Kind.isDeletable_of_declares (.inr declares)).1
            exact ⟨_, .ofBlot (.statement (.inl rfl) deletable _ (by decide))
              (removeDeclarators_all serves some kept).2⟩
          · obtain ⟨first, last, hull⟩ := exists_hull some
            obtain ⟨goesOn, recorded⟩ := removeDeclarators_some serves some hull kept
            refine ⟨_, recorded, ?_, by simp [goesOn]⟩
            simp only [Option.mem_def, Option.some.injEq, forall_eq']
            exact .declarators declares hull _ (by decide)
    · rename_i noDeclaration
      have declares : cursor.kind.isFunctionDeclaration = true := by
        rcases concerned with (function | declares) | call
        · exact function
        · exact absurd declares noDeclaration
        · exact absurd (beq_iff_eq.mpr call) noCall
      rcases removeFunction_doc serves with same | ⟨_, recorded⟩
      · rw [same]
        exact ⟨none, .idle rfl rfl⟩
      · have deletable := (Kind.isDeletable_of_declares (.inl declares)).1
        exact ⟨_, .ofBlot (.statement (.inl rfl) deletable _ (by decide)) recorded⟩

theorem visit_goesOn {a b : Rewrite} (servesA : a.Serves source config) (servesB : b.Serves source config)
    (cursor : Cursor) : (pass.visit cursor b).1 = (pass.visit cursor a).1 := by
  change (visit cursor b).1 = (visit cursor a).1
  have same : b.source = a.source := servesB.source.trans servesA.source.symm
  have task : b.config = a.config := servesB.config.trans servesA.config.symm
  unfold visit
  split
  · unfold removeCall
    rw [same, task]
    dsimp only
    split
    · rfl
    · split
      · split <;> rfl
      · rfl
  · split
    · rw [removeDeclarators_goesOn servesA, removeDeclarators_goesOn servesB]
    · unfold removeFunction
      cases cursor.child? .name with
      | none => rfl
      | some name =>
          have text : b.text name = a.text name := by rw [Rewrite.text, Rewrite.text, same]
          dsimp only
          rw [task, text]
          split <;> rfl

end Removal

namespace Body

theorem visited (serves : rewrite.Serves source config) (concerned : pass.concerns cursor.kind = true) :
    ∃ entry, Visited source config cursor rewrite (pass.visit cursor rewrite) entry := by
  change ∃ entry, Visited source config cursor rewrite (visit cursor rewrite) entry
  unfold visit
  split
  · exact ⟨none, .idle rfl rfl⟩
  · rename_i name function label found
    dsimp only
    split
    · rename_i value body configured has
      rw [Rewrite.text, Rewrite.source, serves.source, serves.config] at configured
      refine ⟨some ⟨body.start, body.stop,
        [.text (returnBlock value (lineIndent source cursor.range.start))], "replace body"⟩, ?_, ?_, by simp⟩
      · rw [Rewrite.count_doc, Rewrite.replace_doc, Rewrite.write_doc,
          show (rewrite.write _).source = source from serves.source]
        rfl
      · simp only [Option.mem_def, Option.some.injEq, forall_eq']
        exact .body concerned found configured has
    · exact ⟨none, .idle rfl rfl⟩

theorem visit_goesOn (cursor : Cursor) (rewrite : Rewrite) : (pass.visit cursor rewrite).1 = true := by
  change (visit cursor rewrite).1 = true
  unfold visit
  split
  · rfl
  · dsimp only
    split <;> rfl

/-- The body of a configured function is replaced. -/
theorem replaces (serves : rewrite.Serves source config) {name function body : Tree}
    {label value : Text} (target : target? cursor = some (name, function, label))
    (configured : config.replaceFunctionBody.get? (name.text source) = some value)
    (has : function.child? .body = some body) :
    (pass.visit cursor rewrite).2.doc = rewrite.doc.enter (some ⟨body.start, body.stop,
      [.text (returnBlock value (lineIndent source cursor.range.start))], "replace body"⟩) := by
  change (visit cursor rewrite).2.doc = _
  unfold visit
  rw [target]
  dsimp only
  rw [Rewrite.text, Rewrite.source, serves.source, serves.config, configured, has]
  dsimp only
  rw [Rewrite.count_doc, Rewrite.replace_doc, Rewrite.write_doc,
    show (rewrite.write _).source = source from serves.source]
  rfl

end Body

namespace Removal

theorem visit_function (declares : cursor.kind.isFunctionDeclaration = true) (rewrite : Rewrite) :
    pass.visit cursor rewrite = removeFunction cursor rewrite := by
  change visit cursor rewrite = _
  revert declares
  unfold visit
  cases cursor.kind <;> simp [Kind.isFunctionDeclaration, Kind.isVariableDeclaration]

/-- Declarations concern the removals alone. -/
theorem pass_of_declaration (declares : cursor.kind.isVariableDeclaration = true) {pass : RewritePass}
    (known : pass ∈ RewritePass.standard) (concerned : pass.concerns cursor.kind = true) :
    pass = Removal.pass := by
  have kinds : cursor.kind = .variableDeclaration ∨ cursor.kind = .lexicalDeclaration := by
    unfold Kind.isVariableDeclaration at declares
    split at declares
    · exact .inl ‹_›
    · exact .inr ‹_›
    · cases declares
  rcases RewritePass.mem_standard.mp known with rfl | rfl | rfl | rfl | rfl
  · rcases kinds with kind | kind <;> rw [kind] at concerned <;> cases concerned
  · rcases kinds with kind | kind <;> rw [kind] at concerned <;> cases concerned
  · rfl
  · rcases kinds with kind | kind <;> rw [kind] at concerned <;> cases concerned
  · cases concerned

theorem visit_declaration (declares : cursor.kind.isVariableDeclaration = true) (rewrite : Rewrite) :
    pass.visit cursor rewrite = removeDeclarators cursor rewrite := by
  change visit cursor rewrite = _
  revert declares
  unfold visit
  cases cursor.kind <;> simp [Kind.isVariableDeclaration]

/-- A function that is to be removed ends the visits. -/
theorem ends_function (serves : rewrite.Serves source config)
    (declares : cursor.kind.isFunctionDeclaration = true) {name : Tree}
    (named : cursor.focus.child? .name = some name)
    (listed : config.removeIdentifiers.contains (name.text source) = true) :
    (pass.visit cursor rewrite).1 = false := by
  have named' : cursor.child? .name = some name := named
  rw [visit_function declares, removeFunction, named']
  dsimp only
  rw [Rewrite.text, Rewrite.source, serves.source, serves.config, if_pos listed]

/-- A call that is to be removed ends the visits. -/
theorem ends_call (serves : rewrite.Serves source config) (kind : cursor.kind = .callExpression)
    {name : Text} (named : name ∈ cursor.focus.calleeNames source)
    (listed : config.removeFunctionCalls.contains name = true) :
    (pass.visit cursor rewrite).1 = false := by
  change (visit cursor rewrite).1 = false
  obtain ⟨found, first⟩ := Option.isSome_iff_exists.mp
    (List.find?_isSome.mpr ⟨name, named, listed⟩)
  rw [visit, if_pos (by simp [kind]), removeCall]
  dsimp only
  rw [Rewrite.source, serves.source, serves.config, first]
  dsimp only
  split
  · split <;> rfl
  · rfl

/-- At a declaration that keeps some of its declarators the others are dropped. -/
theorem drops (serves : rewrite.Serves source config) (declares : cursor.kind.isVariableDeclaration = true)
    (some : cursor.focus.declarators.any (isDoomed source config) = true) {first last : Tree}
    (hull : cursor.focus.Hull first last) (kept : keptOf source config cursor.focus ≠ []) :
    (pass.visit cursor rewrite).2.doc = rewrite.doc.enter (.some ⟨first.start, last.stop,
      keptParts (keptOf source config cursor.focus), "remove declarator"⟩) := by
  rw [visit_declaration declares]
  exact (removeDeclarators_some serves some hull kept).2

/-- A declaration that keeps no declarator ends the visits. -/
theorem ends_declaration (serves : rewrite.Serves source config)
    (declares : cursor.kind.isVariableDeclaration = true)
    (some : cursor.focus.declarators.any (isDoomed source config) = true)
    (kept : keptOf source config cursor.focus = []) : (pass.visit cursor rewrite).1 = false := by
  rw [visit_declaration declares]
  exact (removeDeclarators_all serves some kept).1

end Removal

namespace RewritePass

variable {pass : RewritePass}

theorem visited (known : pass ∈ standard) (serves : rewrite.Serves source config)
    (concerned : pass.concerns cursor.kind = true) :
    ∃ entry, Visited source config cursor rewrite (pass.visit cursor rewrite) entry := by
  rcases mem_standard.mp known with rfl | rfl | rfl | rfl | rfl
  · exact Modules.visited serves
  · exact Renaming.visited cursor rewrite
  · exact Removal.visited serves concerned
  · exact Body.visited serves concerned
  · exact ⟨none, .idle rfl rfl⟩

/-- Whether the visits go on depends on the source and the task alone. -/
theorem visit_goesOn (known : pass ∈ standard) {a b : Rewrite} (servesA : a.Serves source config)
    (servesB : b.Serves source config) (cursor : Cursor) :
    (pass.visit cursor b).1 = (pass.visit cursor a).1 := by
  rcases mem_standard.mp known with rfl | rfl | rfl | rfl | rfl
  · exact Modules.visit_goesOn (servesB.source.trans servesA.source.symm) cursor
  · rw [Renaming.visit_goesOn, Renaming.visit_goesOn]
  · exact Removal.visit_goesOn servesA servesB cursor
  · rw [Body.visit_goesOn, Body.visit_goesOn]
  · rfl

end RewritePass

end

end Rebundle
