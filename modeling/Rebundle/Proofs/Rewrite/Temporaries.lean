import Rebundle.Proofs.Rewrite.Imports
import Rebundle.Proofs.Rewrite.Words

/-!
# Shared names

The names under which imports share a module are taken one after the other while the passes walk through a
program. They keep apart from each other and from the words of the source. The new names that a renaming is
about to write are not among the names in use, so a shared name can be one of them.
-/

namespace Rebundle

open Cursor Modules

/-- Steps without fresh names leave the names in use as they are. -/
theorem Rewrite.steps_usedNames :
    PlainSteps (fun _ => True) fun before after => after.usedNames = before.usedNames where
  refl _ := rfl
  trans ab bc := bc.trans ab
  write _ _ := rfl
  count _ _ _ := rfl
  record _ _ _ _ _ _ := rfl

namespace RewritePass

variable {passes : List RewritePass} {first : Rewrite}

instance (first : Rewrite) : DecidablePred (Shares first) := fun c =>
  inferInstanceAs (Decidable (_ ∧ _ ∧ 2 ≤ (Imported.ofStatement c.focus).count))

section

variable (known : ∀ pass ∈ passes, pass ∈ standard)
  (imports : passes.filter (·.concerns .importStatement) = [Modules.pass])

include known imports

/-- A name is taken where an import shares it, and nowhere else. -/
theorem usedNames_enter {rewrite : Rewrite} (skip : rewrite.skipBefore = first.skipBefore) (c : Cursor) :
    ((visitor passes).enter c rewrite).2.usedNames =
      if Shares first c then Names.fresh "temp" rewrite.usedNames :: rewrite.usedNames
      else rewrite.usedNames := by
  cases behind : Renaming.below first.skipBefore c with
  | false =>
      have alone : ¬Shares first c := fun shares => by simp [Shares, behind] at shares
      rw [Renaming.below, ← skip, Bool.not_eq_false'] at behind
      rw [if_neg alone]
      simp only [visitor, behind, if_true]
  | true =>
      cases requests : c.requests? with
      | none =>
          have alone : ¬Shares first c := fun shares => by simp [Shares, requests] at shares
          rw [if_neg alone]
          simp only [visitor]
          split
          · rfl
          · exact Rewrite.steps_usedNames.visitAll c rewrite fun pass mem rewrite =>
              Rewrite.steps_usedNames.visit_known c rewrite (known pass (List.mem_filter.mp mem).1)
                (fun _ => trivial) requests
      | some address =>
          have shares : Shares first c ↔ 2 ≤ (Imported.ofStatement c.focus).count := by
            simp [Shares, behind, requests]
          rw [enter_of_requests imports requests (skip ▸ behind), (visit_request requests rewrite).2, sharedName,
            targetsAt, Imported.length_targets]
          simp only [shares]
          split <;> rfl

theorem usedNames_foldl (row : List Cursor) {rewrite : Rewrite}
    (holds : rewrite.Serves first.source first.config ∧ rewrite.skipBefore = first.skipBefore) :
    (row.foldl (fun rewrite c => ((visitor passes).enter c rewrite).2) rewrite).usedNames =
      (Names.freshRow "temp" rewrite.usedNames (row.filter (Shares first ·)).length).reverse ++
        rewrite.usedNames := by
  have serves : first.Serves first.source first.config := ⟨rfl, rfl⟩
  induction row generalizing rewrite with
  | nil => rfl
  | cons c rest ih =>
      rw [List.foldl_cons, ih ((steady known serves).keeps c rewrite holds), usedNames_enter known imports holds.2]
      by_cases shares : Shares first c
      · rw [if_pos shares, List.filter_cons_of_pos (by simpa using shares), List.length_cons, Names.freshRow,
          List.reverse_cons, List.append_assoc, List.singleton_append]
      · rw [if_neg shares, List.filter_cons_of_neg (by simpa using shares)]

end

end RewritePass

namespace Patcher

open RewritePass

variable {patcher : Patcher} {config : PatchConfig} {prepared : Prepared}

variable (patcher config prepared) in
/-- The imports that share a name for the module, in the order in which they are visited. -/
def sharing : List Cursor := (patcher.visited config prepared).filter (Shares (first config prepared) ·)

section

variable (known : ∀ pass ∈ patcher.passes, pass ∈ RewritePass.standard)
  (once : patcher.passes.filter (·.concerns .identifier) = [Renaming.pass])
  (imports : patcher.passes.filter (·.concerns .importStatement) = [Modules.pass])

include known once imports

/-- The names in use at the end are those of the source, and one more for each import that shares one. -/
theorem usedNames_rewrite : (patcher.rewrite config prepared).value.usedNames =
    (Names.freshRow "temp" (Names.collect prepared.source) (patcher.sharing config prepared).length).reverse ++
      Names.collect prepared.source := by
  have among : ∀ pass ∈ patcher.active config, pass ∈ RewritePass.standard := fun pass mem =>
    known pass (List.mem_filter.mp mem).1
  have requesting : (patcher.active config).filter (·.concerns .importStatement) = [Modules.pass] := by
    rw [active, List.filter_comm, imports]
    rfl
  have skip : (first config prepared).skipBefore = prepared.start := (Renaming.keeps_prepare _).skipBefore
  have used : (first config prepared).usedNames = Names.collect prepared.source := Renaming.usedNames_prepare _
  have behind : patcher.sharing config prepared =
      (reached (below (patcher.active config) (first config prepared)) prepared.root).filter
        (Shares (first config prepared) ·) := by
    rw [sharing, visited_eq known once, List.filter_filter]
    refine List.filter_congr fun c _ => ?_
    rw [← skip, Bool.eq_iff_iff, Bool.and_eq_true, decide_eq_true_eq, and_iff_left_iff_imp]
    exact fun shares => shares.1
  have serves : (first config prepared).Serves (first config prepared).source (first config prepared).config :=
    ⟨rfl, rfl⟩
  rw [rewrite_eq known once, Rewrite.steps_usedNames.finish (fun _ _ _ => trivial) _ among prepared.root,
    (steady among serves).walk_eq_foldl ⟨serves, rfl⟩, usedNames_foldl among requesting _ ⟨serves, rfl⟩, used,
    behind]

end

/-- Every import that is rewritten gets an edit with the name it shares the module under. The shared names of
the imports that have one are different from each other and from the words of the source. They are the first
candidates that are no names of the source, as many as there are such imports; so a new name of the renaming
is one of them exactly if it is such a candidate. -/
theorem rewrite_temporaries (known : ∀ pass ∈ patcher.passes, pass ∈ RewritePass.standard)
    (once : patcher.passes.filter (·.concerns .identifier) = [Renaming.pass])
    (imports : patcher.passes.filter (·.concerns .importStatement) = [Modules.pass]) :
    let source := prepared.source
    ∃ shared : Cursor → Text,
      let temporaries := (patcher.sharing config prepared).map shared
      (∀ c ∈ patcher.visited config prepared, ∀ address, c.requests? = some address →
        ∃ edit ∈ (patcher.rewrite config prepared).value.doc.edits,
          edit.entry = requestEntry (first config prepared) (shared c) c address) ∧
      temporaries.Nodup ∧
      (∀ t : Tree, t.IsWord source → t.text source ∉ temporaries) ∧
      ∀ name, name ∈ temporaries ↔ ∃ i, name = Names.candidate "_temp" i ∧ name ∉ Names.collect source ∧
        Nat.count (fun j => Names.candidate "_temp" j ∉ Names.collect source) i <
          (patcher.sharing config prepared).length := by
  intro source
  obtain ⟨shared, requested⟩ := @exists_requested_rewrite patcher config prepared known once imports
  have used : (first config prepared).usedNames = Names.collect source := Renaming.usedNames_prepare _
  have skip : (first config prepared).skipBefore = prepared.start := (Renaming.keeps_prepare _).skipBefore
  have sharing_iff {c : Cursor} : c ∈ patcher.sharing config prepared ↔
      c ∈ patcher.visited config prepared ∧ Shares (first config prepared) c := by
    rw [sharing, List.mem_filter, decide_eq_true_eq]
  have visited : (patcher.visited config prepared).Nodup := (((nodup_entered _ [] _).of_map).filter _).filter _
  have distinct : ((patcher.sharing config prepared).map shared).Nodup := by
    refine (visited.filter _).map_on fun c mem d mem' same => ?_
    by_contra differ
    obtain ⟨met, shares⟩ := sharing_iff.mp mem
    obtain ⟨met', shares'⟩ := sharing_iff.mp mem'
    exact requested.apart c met d met' shares shares' differ same
  have taken : ((patcher.sharing config prepared).map shared).Perm
      (Names.freshRow "temp" (Names.collect source) (patcher.sharing config prepared).length) := by
    refine (List.subperm_of_subset distinct fun name mem => ?_).perm_of_length_le ?_
    · obtain ⟨c, among, rfl⟩ := List.mem_map.mp mem
      obtain ⟨met, shares⟩ := sharing_iff.mp among
      obtain ⟨mem, new⟩ := requested.fresh c met shares
      rw [usedNames_rewrite known once imports] at mem
      rw [used] at new
      exact List.mem_reverse.mp ((List.mem_append.mp mem).resolve_right new)
    · rw [Names.length_freshRow, List.length_map]
  have mem_iff (name : Text) := taken.mem_iff.trans (@Names.mem_freshRow_iff "temp" (Names.collect source)
    (patcher.sharing config prepared).length name)
  refine ⟨shared, fun c met address requests => ?_, distinct, fun t isWord mem => ?_, mem_iff⟩
  · refine requested.recorded c met ?_ address requests
    rw [skip]
    exact (List.mem_filter.mp met).2
  · obtain ⟨i, same, new, _⟩ := (mem_iff _).mp mem
    exact new (isWord.mem_collect (same ▸ Names.isName_candidate i))

/-- The shared name of `combining` is the new name of the default, when this is the first candidate. -/
theorem combining_temporary :
    let config := { PatchConfig.empty with renameIdentifiers := [("a", "_temp")] }
    ∃ shared : Cursor → Text, ∃ c ∈ standard.sharing config combining,
      (shared c ∈ config.renameIdentifiers.map (·.2)) ∧
      ∃ address, c.requests? = some address ∧ ∃ edit ∈ (standard.rewrite config combining).value.doc.edits,
        edit.entry = requestEntry (first config combining) (shared c) c address := by
  intro config
  obtain ⟨shared, recorded, _, _, mem_iff⟩ := @rewrite_temporaries standard config combining (fun _ => id) rfl rfl
  have one : (standard.sharing config combining).length = 1 := by decide +kernel
  have taken := (mem_iff "_temp").mpr ⟨0, rfl, by decide +kernel, by rw [one]; exact Nat.zero_lt_one⟩
  obtain ⟨c, mem, same⟩ := List.mem_map.mp taken
  obtain ⟨met, shares⟩ := List.mem_filter.mp mem
  obtain ⟨address, requests⟩ := Option.isSome_iff_exists.mp (of_decide_eq_true shares).2.1
  refine ⟨shared, c, mem, ?_, address, requests, recorded c met address requests⟩
  rw [same]
  exact List.mem_singleton_self _

end Patcher

end Rebundle
