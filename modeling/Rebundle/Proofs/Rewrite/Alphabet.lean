import Rebundle.Proofs.Package.State
import Rebundle.Proofs.Rewrite.Bootstrap
import Rebundle.Proofs.Rewrite.Fresh
import Rebundle.Proofs.Scope.References
import Rebundle.Proofs.Text.Alphabet

/-!
# The code points of edits

What the passes write is made of texts of the source, of texts of their own, of string literals and of new
names. The texts of their own are common, so whatever alphabet the others are over, all edits are over it.
-/

namespace Rebundle

/-- A rewriting whose source, names and bodies have only code points that are allowed, and so all its texts. -/
structure Rewrite.Within (allowed : CodePoint → Prop) (rewrite : Rewrite) : Prop where
  alphabet : Text.Alphabet allowed
  source : ∀ t : Tree, (t.text rewrite.doc.source).Within allowed
  texts : ∀ edit ∈ rewrite.doc.edits, ∀ t : Text, .text t ∈ edit.parts → t.Within allowed
  renames : ∀ entry ∈ rewrite.renames, entry.2.Within allowed
  targets : ∀ entry ∈ rewrite.config.renameIdentifiers, entry.2.Within allowed
  bodies : ∀ entry ∈ rewrite.config.replaceFunctionBody, (Json.literal entry.2).Within allowed

namespace Rewrite.Within

variable {allowed : CodePoint → Prop} {rewrite next : Rewrite}

/-- Counting, reporting and choosing names change nothing here. -/
theorem of_same (within : rewrite.Within allowed) (doc : next.doc = rewrite.doc)
    (renames : next.renames = rewrite.renames) (config : next.config = rewrite.config) : next.Within allowed where
  alphabet := within.alphabet
  source := doc ▸ within.source
  texts := doc ▸ within.texts
  renames := renames ▸ within.renames
  targets := config ▸ within.targets
  bodies := config ▸ within.bodies

theorem write (within : rewrite.Within allowed) (record : Log.Record) : (rewrite.write record).Within allowed :=
  within.of_same rfl rfl rfl

theorem count (within : rewrite.Within allowed) (key : Text) (amount : Nat) :
    (rewrite.count key amount).Within allowed :=
  within.of_same rfl rfl rfl

theorem replace (within : rewrite.Within allowed) {parts : List Part}
    (texts : ∀ t : Text, .text t ∈ parts → t.Within allowed) (range : Range) (reason : Text) :
    (rewrite.replace range parts reason).Within allowed where
  alphabet := within.alphabet
  source := within.source
  texts := by
    intro edit mem
    rcases Edit.mem_insert.mp mem with rfl | mem
    · exact texts
    · exact within.texts edit mem
  renames := within.renames
  targets := within.targets
  bodies := within.bodies

theorem replaceText (within : rewrite.Within allowed) {t : Text} (text : t.Within allowed) (range : Range)
    (reason : Text) : (rewrite.replace range [.text t] reason).Within allowed :=
  within.replace (fun _ mem => Part.text.inj (List.mem_singleton.mp mem) ▸ text) range reason

theorem remove (within : rewrite.Within allowed) (range : Range) (reason : Text) :
    (rewrite.remove range reason).2.Within allowed :=
  (within.replaceText .nil (Source.extent rewrite.source range) reason).of_same
    (remove_doc range reason rewrite) rfl rfl

theorem removeStatement (within : rewrite.Within allowed) (range : Range) (ancestors : List Label) (reason : Text) :
    (rewrite.removeStatement range ancestors reason).Within allowed := by
  unfold Rewrite.removeStatement
  split
  split
  · split
    · exact within.remove _ _
    · exact within.replaceText (within.alphabet.admits (by decide)) _ _
  · exact within.remove _ _

theorem foldl {α : Type} {f : Rewrite → α → Rewrite} {l : List α}
    (step : ∀ (rewrite : Rewrite), ∀ a ∈ l, rewrite.Within allowed → (f rewrite a).Within allowed)
    (within : rewrite.Within allowed) : (l.foldl f rewrite).Within allowed := by
  induction l generalizing rewrite with
  | nil => exact within
  | cons a rest ih =>
      exact ih (fun rewrite b mem => step rewrite b (List.mem_cons_of_mem _ mem))
        (step rewrite a List.mem_cons_self within)

theorem text (within : rewrite.Within allowed) (t : Tree) : (rewrite.text t).Within allowed := within.source t

theorem localName (within : rewrite.Within allowed) (t : Tree) : (rewrite.localName t).Within allowed := by
  unfold Rewrite.localName
  cases found : rewrite.renames.get? t.range with
  | none => exact within.text t
  | some name => exact within.renames (t.range, name) (Table.mem_of_get? found)

end Rewrite.Within

namespace Modules

variable {allowed : CodePoint → Prop} {rewrite : Rewrite}

theorem common_freshName (rewrite : Rewrite) : (rewrite.freshName "temp").1.Common := by
  obtain ⟨i, same, _⟩ := Names.exists_fresh "temp" rewrite.usedNames
  have base : (Names.base "temp").Common := by decide
  change (Names.fresh "temp" rewrite.usedNames).Common
  rw [same, Names.candidate]
  split
  · exact base
  · exact Text.common_append.mpr ⟨base, Text.common_ofNat _⟩

theorem within_declaration (alphabet : Text.Alphabet allowed) {declarations : List Text}
    (all : ∀ t ∈ declarations, t.Within allowed) : (declaration declarations).Within allowed := by
  have lead : Text.Within allowed "var " := alphabet.admits (by decide)
  have between : Text.Within allowed ", " := alphabet.admits (by decide)
  exact (lead.append (between.join all)).append (alphabet.admits (by decide))

theorem statementFor_renames (request : Text) (imported : Imported) (rewrite : Rewrite) :
    (statementFor request imported rewrite).2.renames = rewrite.renames := by
  unfold statementFor
  split <;> rfl

variable (within : rewrite.Within allowed)

include within

theorem within_pattern (specifiers : List Tree) : (pattern rewrite specifiers).Within allowed := by
  have one (specifier : Tree) : ∀ t ∈ property rewrite specifier, t.Within allowed := by
    intro t found
    obtain ⟨name, _, rfl⟩ := Option.map_eq_some_iff.mp (Option.mem_def.mp found)
    dsimp only
    split
    · exact within.localName _
    · exact ((within.text name).append (within.alphabet.admits (by decide))).append (within.localName _)
  unfold pattern
  split
  · exact within.alphabet.admits (by decide)
  · have opening : Text.Within allowed "\x7b " := within.alphabet.admits (by decide)
    have between : Text.Within allowed ", " := within.alphabet.admits (by decide)
    refine (opening.append (between.join ?_)).append (within.alphabet.admits (by decide))
    intro t mem
    obtain ⟨specifier, _, found⟩ := List.mem_filterMap.mp mem
    exact one specifier t found

theorem within_statementFor {request : Text} (asked : request.Within allowed) (imported : Imported) :
    (statementFor request imported rewrite).1.Within allowed := by
  have bind {target value : Text} (first : target.Within allowed) (second : value.Within allowed) :
      Text.Within allowed (target ++ " = " ++ value) :=
    (first.append (within.alphabet.admits (by decide))).append second
  have single {t : Text} (one : t.Within allowed) : (declaration [t]).Within allowed :=
    within_declaration within.alphabet fun s mem => List.mem_singleton.mp mem ▸ one
  unfold statementFor
  dsimp only
  split
  · exact asked.append (within.alphabet.admits (by decide))
  · exact single (bind (within.localName _) asked)
  · exact single (bind (within.localName _) asked)
  · exact single (bind (within_pattern within _) asked)
  · have shared := within.alphabet.admits (common_freshName rewrite)
    refine within_declaration within.alphabet fun t mem => ?_
    rcases List.mem_cons.mp mem with rfl | mem
    · exact bind shared asked
    · obtain ⟨target, known, rfl⟩ := List.mem_map.mp mem
      refine bind ?_ shared
      have later : (rewrite.freshName "temp").2.Within allowed := within.of_same rfl rfl rfl
      rcases List.mem_append.mp known with named | patterned
      · obtain ⟨name, _, rfl⟩ := List.mem_map.mp named
        exact later.localName name
      · obtain ⟨specifiers, _, rfl⟩ := Option.map_eq_some_iff.mp (Option.mem_toList.mp patterned)
        exact within_pattern later specifiers

theorem within_visit (cursor : Cursor) : (pass.visit cursor rewrite).2.Within allowed := by
  simp only [pass]
  split
  · unfold rewriteImport
    dsimp only
    split
    · exact within
    · rename_i source _
      split
      · exact (within.removeStatement _ _ _).count _ _
      · have lead : Text.Within allowed "require(" := within.alphabet.admits (by decide)
        have asked : Text.Within allowed ("require(" ++ rewrite.text source ++ ")") :=
          (lead.append (within.text source)).append (within.alphabet.admits (by decide))
        have text := within_statementFor within asked (Imported.ofStatement cursor.focus)
        have doc := statementFor_doc ("require(" ++ rewrite.text source ++ ")")
          (Imported.ofStatement cursor.focus) rewrite
        have config := (Rewrite.steps_keeps.statementFor ("require(" ++ rewrite.text source ++ ")")
          (Imported.ofStatement cursor.focus) rewrite).config
        have renames := statementFor_renames ("require(" ++ rewrite.text source ++ ")")
          (Imported.ofStatement cursor.focus) rewrite
        revert text doc config renames
        generalize statementFor ("require(" ++ rewrite.text source ++ ")")
          (Imported.ofStatement cursor.focus) rewrite = made
        intro text doc config renames
        exact (((within.of_same doc renames config).write _).replaceText text _ _).count _ _
  · unfold rewriteMember
    dsimp only
    split
    · split
      · split
        · rename_i text _ _ found
          refine ((within.write _).replaceText (within.alphabet.admits ?_) _ _).count _ _
          unfold metaProperty? at found
          split at found
          · cases found
            decide
          · split at found
            · cases found
              decide
            · cases found
        · exact within
      · exact within
    · exact within

end Modules

namespace Renaming

variable {allowed : CodePoint → Prop} {rewrite : Rewrite} (within : rewrite.Within allowed)

include within

theorem within_renameBinding {old new : Text} (target : new.Within allowed) (ref : BindingRef) (binding : Binding) :
    (renameBinding old new ref binding rewrite).Within allowed := by
  have table {places : List Range} {renames : Table Range Text}
      (before : ∀ entry ∈ renames, entry.2.Within allowed) :
      ∀ entry ∈ places.foldl (fun table place => table.put place new) renames, entry.2.Within allowed := by
    induction places generalizing renames with
    | nil => exact before
    | cons place rest ih =>
        refine ih fun entry mem => ?_
        rcases Table.mem_put mem with rfl | known
        · exact target
        · exact before entry known
  have renamed (next : Rewrite) (before : next.Within allowed) :
      ({ next with renames := binding.places.foldl (fun table place => table.put place new) next.renames }
        : Rewrite).Within allowed :=
    ⟨before.alphabet, before.source, before.texts, table before.renames, before.targets, before.bodies⟩
  unfold renameBinding
  refine ((renamed _ ?_).write _).count _ _
  split
  · exact within.of_same rfl rfl rfl
  · exact within

theorem within_renameAll {entry : Text × Text} (target : entry.2.Within allowed) :
    (renameAll rewrite entry).Within allowed := by
  unfold renameAll
  split
  · exact within.write _
  · exact within.foldl fun rewrite _ _ before => within_renameBinding before target _ _

theorem within_prepare : (prepare rewrite).Within allowed :=
  within.foldl fun _ entry mem before => within_renameAll before (within.targets entry mem)

theorem within_visit (cursor : Cursor) : (pass.visit cursor rewrite).2.Within allowed := by
  change (visit cursor rewrite).2.Within allowed
  unfold visit
  split
  · exact within
  · rename_i new found
    split
    · exact within
    · have target := within.renames (cursor.range, new) (Table.mem_of_get? found)
      have old := within.text cursor.focus
      refine (within.replaceText ?_ _ _).count _ _
      unfold written
      split
      · exact (old.append (within.alphabet.admits (by decide))).append target
      · exact (old.append (within.alphabet.admits (by decide))).append target
      · split
        · exact (target.append (within.alphabet.admits (by decide))).append old
        · exact target

end Renaming

namespace Removal

theorem common_keptParts {declarators : List Tree} {t : Text} (mem : .text t ∈ keptParts declarators) :
    t.Common := by
  induction declarators with
  | nil => cases mem
  | cons first rest ih =>
      cases rest with
      | nil => simp [keptParts] at mem
      | cons second rest =>
          rw [keptParts, List.mem_cons, List.mem_cons] at mem
          · rcases mem with same | same | mem
            · cases same
            · rw [Part.text.inj same]
              decide
            · exact ih mem
          · simp

variable {allowed : CodePoint → Prop} {rewrite : Rewrite} (within : rewrite.Within allowed)

include within

theorem within_visit (cursor : Cursor) : (pass.visit cursor rewrite).2.Within allowed := by
  change (visit cursor rewrite).2.Within allowed
  have replaced (state : Rewrite) (before : state.Within allowed) :
      (removeCall.replaceCall cursor state).2.Within allowed := by
    unfold removeCall.replaceCall
    refine (before.replaceText (before.alphabet.admits ?_) _ _).count _ _
    split <;> decide
  unfold visit
  split
  · unfold removeCall
    dsimp only
    split
    · exact within
    · split
      · split
        · exact ((within.write _).removeStatement _ _ _).count _ _
        · exact replaced _ (within.write _)
      · exact replaced _ (within.write _)
  · split
    · unfold removeDeclarators
      dsimp only
      split
      · exact within
      · have written (names : List Text) : (names.foldl (fun rewrite name =>
            rewrite.write (Log.info ("removing variable declaration " ++ name))) rewrite).Within allowed :=
          within.foldl fun _ _ _ before => before.write _
        split
        · exact ((written _).count _ _).replace (fun _ mem => within.alphabet.admits (common_keptParts mem)) _ _
        · exact ((written _).count _ _).removeStatement _ _ _
    · unfold removeFunction
      split
      · exact within
      · dsimp only
        split
        · exact ((within.write _).removeStatement _ _ _).count _ _
        · exact within

end Removal

namespace Body

theorem common_lineIndent (source : Bytes) (offset : Nat) : (lineIndent source offset).Common := by
  intro c mem
  obtain ⟨b, known, rfl⟩ := List.mem_map.mp mem
  have blank : isIndent b = true := List.all_eq_true.mp List.all_takeWhile b known
  simp only [isIndent, Bool.or_eq_true, beq_iff_eq] at blank
  rcases blank with rfl | rfl
  · decide
  · decide

variable {allowed : CodePoint → Prop} {rewrite : Rewrite}

theorem within_returnBlock (alphabet : Text.Alphabet allowed) {value indent : Text}
    (literal : (Json.literal value).Within allowed) (blank : indent.Common) :
    (returnBlock value indent).Within allowed := by
  have opening : Text.Within allowed "\x7b\n" := alphabet.admits (by decide)
  have indented := alphabet.admits blank
  have first := (opening.append indented).append (alphabet.admits (show Text.Common "  return " by decide))
  have second := (first.append literal).append (alphabet.admits (show Text.Common ";\n" by decide))
  exact (second.append indented).append (alphabet.admits (by decide))

theorem within_visit (within : rewrite.Within allowed) (cursor : Cursor) :
    (pass.visit cursor rewrite).2.Within allowed := by
  change (visit cursor rewrite).2.Within allowed
  unfold visit
  split
  · exact within
  · dsimp only
    split
    · rename_i value _ found _
      have literal := within.bodies _ (Table.mem_of_get? found)
      have block := within_returnBlock within.alphabet literal (common_lineIndent rewrite.source cursor.range.start)
      exact ((within.write _).replaceText block _ _).count _ _
    · exact within

end Body

namespace TopLevelAwait

theorem common_wrapper {source : Bytes} {taken : List (Tree × Edit)} {t : Text}
    (mem : .text t ∈ .text (lead source (tail source.length (taken.map (·.2))) ++ ";(async () => \x7b\n") ::
      taken.flatMap line ++ [.text "\x7d)();\n"]) : t.Common := by
  rcases List.mem_append.mp mem with mem | mem
  · rcases List.mem_cons.mp mem with same | mem
    · rw [Part.text.inj same]
      unfold lead
      split <;> decide
    · obtain ⟨entry, _, inside⟩ := List.mem_flatMap.mp mem
      simp only [line, List.mem_cons, List.not_mem_nil, or_false, Part.text.injEq, reduceCtorEq,
        false_or] at inside
      rcases inside with rfl | rfl
      · decide
      · decide
  · rw [Part.text.inj (List.mem_singleton.mp mem)]
    decide

variable {allowed : CodePoint → Prop} {rewrite : Rewrite}

theorem within_takeOut (within : rewrite.Within allowed) (trees : List Tree) :
    (takeOut rewrite trees).2.Within allowed := by
  induction trees generalizing rewrite with
  | nil => exact within
  | cons t rest ih =>
      have removed := within.remove t.range "top-level await"
      rw [takeOut]
      exact ih removed

theorem within_finish (within : rewrite.Within allowed) (root : Tree) : (finish root rewrite).Within allowed := by
  have out := within_takeOut within (statements rewrite.skipBefore root)
  unfold finish
  split
  · rename_i made
    rw [made] at out
    exact out
  · rename_i taken next made
    rw [made] at out
    exact ((out.write _).replace (fun _ mem => within.alphabet.admits (common_wrapper mem)) _ _).count _ _

end TopLevelAwait

namespace RewritePass

variable {allowed : CodePoint → Prop} {rewrite : Rewrite}

theorem within_prepare {pass : RewritePass} (known : pass ∈ standard) (within : rewrite.Within allowed) :
    (pass.prepare rewrite).Within allowed := by
  rcases mem_standard.mp known with rfl | rfl | rfl | rfl | rfl
  · exact within
  · exact Renaming.within_prepare within
  · exact within
  · exact within
  · exact within

theorem within_visit {pass : RewritePass} (known : pass ∈ standard) (within : rewrite.Within allowed)
    (cursor : Cursor) : (pass.visit cursor rewrite).2.Within allowed := by
  rcases mem_standard.mp known with rfl | rfl | rfl | rfl | rfl
  · exact Modules.within_visit within cursor
  · exact Renaming.within_visit within cursor
  · exact Removal.within_visit within cursor
  · exact Body.within_visit within cursor
  · exact within

theorem within_finish {pass : RewritePass} (known : pass ∈ standard) (within : rewrite.Within allowed)
    (root : Tree) : (pass.finish root rewrite).Within allowed := by
  rcases mem_standard.mp known with rfl | rfl | rfl | rfl | rfl
  · exact within
  · exact within
  · exact within
  · exact within
  · exact TopLevelAwait.within_finish within root

theorem within_visitAll {passes : List RewritePass} (known : ∀ pass ∈ passes, pass ∈ standard)
    (within : rewrite.Within allowed) (cursor : Cursor) : (visitAll cursor rewrite passes).2.Within allowed :=
  visitAll_preserves (Rewrite.Within allowed) (fun pass mem _ before => within_visit (known pass mem) before cursor)
    within

/-- A run of standard passes, in any order and number, writes allowed code points only. -/
theorem within_run {passes : List RewritePass} (known : ∀ pass ∈ passes, pass ∈ standard)
    (within : rewrite.Within allowed) (root : Tree) : (run passes root rewrite).Within allowed := by
  refine Rewrite.Within.foldl (fun _ pass mem before => within_finish (known pass mem) before root) ?_
  refine walk_preserves (Rewrite.Within allowed) (fun cursor _ _ _ before =>
    within_visitAll (fun pass mem => known pass (List.mem_filter.mp mem).1) before cursor) ?_
  exact within.foldl fun _ pass mem before => within_prepare (known pass mem) before

end RewritePass

namespace Bootstrap

variable {allowed : CodePoint → Prop} {source : Text}

theorem within_interpreterLine (alphabet : Text.Alphabet allowed) (within : source.Within allowed) :
    (interpreterLine source).Within allowed := by
  unfold interpreterLine
  split
  · exact (within.sublist (List.takeWhile_sublist _)).append (alphabet.admits (by decide))
  · exact .nil

/-- Every setting of a snippet is written in plain ASCII, and so is the rest of it. -/
theorem common_snippet (settings : Bootstrap) : settings.snippet.Common := by
  have literal := Json.common_asciiLiteral
  have separator : Text.Common "," := by decide
  have segments : (Text.join "," (settings.credentialPath.map Json.asciiLiteral)).Common := by
    refine Text.Within.join separator fun t mem => ?_
    obtain ⟨segment, _, rfl⟩ := List.mem_map.mp mem
    exact literal segment
  simp only [snippet, Text.common_append, literal, segments, and_true]
  decide

end Bootstrap

namespace Patcher

variable {allowed : CodePoint → Prop} {patcher : Patcher} {config : PatchConfig} {prepared : Prepared}
variable (known : ∀ pass ∈ patcher.passes, pass ∈ RewritePass.standard)

include known

theorem source_rewrite : (patcher.rewrite config prepared).value.doc.source = prepared.source :=
  (RewritePass.keeps_run (fun pass mem => known pass (List.mem_filter.mp mem).1) prepared.root _).source

/-- The edits of a rewriting are over an alphabet when the program and the configured texts are. -/
theorem within_rewrite (alphabet : Text.Alphabet allowed)
    (texts : ∀ t : Tree, (t.text prepared.source).Within allowed)
    (targets : ∀ entry ∈ config.renameIdentifiers, entry.2.Within allowed)
    (bodies : ∀ entry ∈ config.replaceFunctionBody, (Json.literal entry.2).Within allowed) :
    (patcher.rewrite config prepared).value.Within allowed := by
  refine RewritePass.within_run (fun pass mem => known pass (List.mem_filter.mp mem).1) ?_ prepared.root
  exact ⟨alphabet, texts, fun _ none => (nomatch none), fun _ none => (nomatch none), targets, bodies⟩

end Patcher

end Rebundle
