import Rebundle.Proofs.Rewrite.Fresh
import Rebundle.Proofs.Rewrite.Occurrences
import Rebundle.Proofs.Rewrite.Requests

/-!
# Imports and renamings

The statement that stands for an import declares the names that the import binds as they will be called: under the
names that the renaming writes at all places of their bindings.
-/

namespace Rebundle

open Cursor Modules

/-- A later state of a rewriting with the same new names, where no name has gone out of use and no edit is undone. -/
structure Rewrite.Adds (before after : Rewrite) : Prop where
  renames : after.renames = before.renames
  used : before.usedNames ⊆ after.usedNames
  edits : before.doc.edits ⊆ after.doc.edits

theorem Rewrite.steps_adds : Steps (fun _ => True) Adds where
  refl _ := ⟨rfl, fun _ => id, fun _ => id⟩
  trans ab bc :=
    ⟨bc.renames.trans ab.renames, fun _ mem => bc.used (ab.used mem), fun _ mem => bc.edits (ab.edits mem)⟩
  write _ _ := ⟨rfl, fun _ => id, fun _ => id⟩
  count _ _ _ := ⟨rfl, fun _ => id, fun _ => id⟩
  fresh _ _ := ⟨rfl, fun _ => List.mem_cons_of_mem _, fun _ => id⟩
  record _ _ _ _ _ _ := ⟨rfl, fun _ => id, fun _ mem => Edit.mem_insert.mpr (.inr mem)⟩

namespace Modules

/-- What an import declares in a state of a rewriting. -/
def targetsAt (rewrite : Rewrite) (c : Cursor) : List Target :=
  (Imported.ofStatement c.focus).targets rewrite.source rewrite.localName

/-- What is recorded for an import, with a name for the module where several declarators share it. -/
def requestEntry (rewrite : Rewrite) (shared : Text) (c : Cursor) (address : Tree) : Entry :=
  ⟨c.range.start, c.range.stop,
    [.text ((emitted shared (targetsAt rewrite c)).text
      ("require(" ++ address.text rewrite.source ++ ")"))], "import"⟩

/-- What the visit of an import does. -/
theorem visit_request {c : Cursor} {address : Tree} (requests : c.requests? = some address) (rewrite : Rewrite) :
    let shared := Names.fresh "temp" rewrite.usedNames
    let next := (pass.visit c rewrite).2
    next.doc = rewrite.doc.enter (some (requestEntry rewrite shared c address)) ∧
      next.usedNames = sharedName shared (targetsAt rewrite c) ++ rewrite.usedNames := by
  obtain ⟨kind, untyped, given⟩ := requests?_eq_some_iff.mp requests
  simp only [pass, kind, beq_self_eq_true, if_true, rewriteImport, given, untyped, Bool.false_eq_true, if_false,
    statementFor_eq]
  exact ⟨rfl, rfl⟩

end Modules

namespace RewritePass

variable {passes : List RewritePass} {first : Rewrite}

/-- Whether an import behind the bootstrap shares a name for the module. -/
def Shares (first : Rewrite) (c : Cursor) : Prop :=
  Renaming.below first.skipBefore c = true ∧ c.requests?.isSome = true ∧ 2 ≤ (Imported.ofStatement c.focus).count

/-- What a walk has done with the imports before a place: each is rewritten, and the shared names are new ones, no two
of them the same. -/
structure Requested (first : Rewrite) (shared : Cursor → Text) (done : List Cursor) (rewrite : Rewrite) : Prop where
  adds : first.Adds rewrite
  recorded : ∀ c ∈ done, Renaming.below first.skipBefore c = true → ∀ address, c.requests? = some address →
    ∃ edit ∈ rewrite.doc.edits, edit.entry = requestEntry first (shared c) c address
  fresh : ∀ c ∈ done, Shares first c → shared c ∈ rewrite.usedNames ∧ shared c ∉ first.usedNames
  apart : ∀ c ∈ done, ∀ d ∈ done, Shares first c → Shares first d → c ≠ d → shared c ≠ shared d

theorem kind_of_requests? {c : Cursor} {address : Tree} (requests : c.requests? = some address) :
    c.kind = .importStatement := (requests?_eq_some_iff.mp requests).1

/-- Only one pass visits imports. -/
theorem enter_of_requests (imports : passes.filter (·.concerns .importStatement) = [Modules.pass]) {c : Cursor}
    {address : Tree} (requests : c.requests? = some address) {rewrite : Rewrite}
    (behind : Renaming.below rewrite.skipBefore c = true) :
    ((visitor passes).enter c rewrite).2 = (Modules.pass.visit c rewrite).2 := by
  have concerned : passes.filter (fun pass => pass.concerns c.kind) = [Modules.pass] := by
    rw [kind_of_requests? requests]
    exact imports
  rw [enter_eq, if_pos behind, concerned, visitAll_singleton]

/-- Whatever a node is, entering it adds to what was recorded. -/
theorem adds_enter (known : ∀ pass ∈ passes, pass ∈ standard) (c : Cursor) (rewrite : Rewrite) :
    rewrite.Adds ((visitor passes).enter c rewrite).2 := by
  rw [enter_eq]
  split
  · exact Rewrite.steps_adds.visitAll c rewrite fun pass mem rewrite =>
      Rewrite.steps_adds.visit_standard c rewrite (known pass (List.mem_filter.mp mem).1) fun _ => trivial
  · exact Rewrite.steps_adds.refl rewrite

namespace Requested

variable {shared : Cursor → Text} {done : List Cursor} {rewrite : Rewrite}
  (requested : Requested first shared done rewrite)

include requested

theorem mono {next : Rewrite} (adds : rewrite.Adds next) : Requested first shared done next where
  adds := Rewrite.steps_adds.trans requested.adds adds
  recorded c mem behind address requests := by
    obtain ⟨edit, recorded, same⟩ := requested.recorded c mem behind address requests
    exact ⟨edit, adds.edits recorded, same⟩
  fresh c mem shares := by
    obtain ⟨used, new⟩ := requested.fresh c mem shares
    exact ⟨adds.used used, new⟩
  apart := requested.apart

theorem subset {row : List Cursor} (among : row ⊆ done) : Requested first shared row rewrite where
  adds := requested.adds
  recorded c mem := requested.recorded c (among mem)
  fresh c mem := requested.fresh c (among mem)
  apart c mem d mem' := requested.apart c (among mem) d (among mem')

/-- A place where no import is rewritten. -/
theorem append {c : Cursor} (other : Renaming.below first.skipBefore c = true → c.requests? = none) :
    Requested first shared (done ++ [c]) rewrite := by
  have before {d : Cursor} (mem : d ∈ done ++ [c]) (behind : Renaming.below first.skipBefore d = true)
      (requests : d.requests?.isSome = true) : d ∈ done := by
    rcases List.mem_append.mp mem with before | here
    · exact before
    · rw [List.mem_singleton.mp here] at behind requests
      rw [other behind] at requests
      cases requests
  refine ⟨requested.adds, ?_, ?_, ?_⟩
  · intro d mem behind address requests
    exact requested.recorded d (before mem behind (by rw [requests]; rfl)) behind address requests
  · intro d mem shares
    exact requested.fresh d (before mem shares.1 shares.2.1) shares
  · intro d mem e mem' shares shares'
    exact requested.apart d (before mem shares.1 shares.2.1) e (before mem' shares'.1 shares'.2.1) shares shares'

/-- An import is rewritten with a new name, if it shares one. -/
theorem request (source : rewrite.source = first.source) {c : Cursor} (new : c ∉ done) {address : Tree}
    (requests : c.requests? = some address) {next : Rewrite} (adds : rewrite.Adds next)
    (doc : next.doc = rewrite.doc.enter
      (some (requestEntry rewrite (Names.fresh "temp" rewrite.usedNames) c address)))
    (used : next.usedNames = sharedName (Names.fresh "temp" rewrite.usedNames) (targetsAt rewrite c) ++
      rewrite.usedNames) :
    ∃ shared', Requested first shared' (done ++ [c]) next := by
  classical
  have names : rewrite.localName = first.localName := by
    funext t
    rw [Rewrite.localName, Rewrite.localName, requested.adds.renames, Rewrite.text, Rewrite.text, source]
  have targets : targetsAt rewrite c = targetsAt first c := by rw [targetsAt, targetsAt, source, names]
  have free := Names.fresh_not_mem "temp" rewrite.usedNames
  let shared' := Function.update shared c (Names.fresh "temp" rewrite.usedNames)
  have here : shared' c = Names.fresh "temp" rewrite.usedNames := Function.update_self ..
  have there {d : Cursor} (mem : d ∈ done) : shared' d = shared d :=
    Function.update_of_ne (fun same : d = c => new (same ▸ mem)) _ _
  have later := requested.mono adds
  refine ⟨shared', later.adds, ?_, ?_, ?_⟩
  · intro d mem behind own own'
    rcases List.mem_append.mp mem with before | same
    · rw [there before]
      exact later.recorded d before behind own own'
    · rw [List.mem_singleton.mp same] at own' ⊢
      rw [requests] at own'
      cases own'
      rw [here, doc]
      refine ⟨_, Edit.mem_insert.mpr (.inl rfl), ?_⟩
      rw [requestEntry, requestEntry, targets, source]
      rfl
  · intro d mem shares
    rcases List.mem_append.mp mem with before | same
    · rw [there before]
      exact later.fresh d before shares
    · rw [List.mem_singleton.mp same] at shares ⊢
      rw [here, used, sharedName, targetsAt, Imported.length_targets, if_pos shares.2.2]
      exact ⟨List.mem_cons_self, fun mem => free (requested.adds.used mem)⟩
  · intro d mem e mem' sharesD sharesE differ
    rcases List.mem_append.mp mem with before | same <;> rcases List.mem_append.mp mem' with before' | same'
    · rw [there before, there before']
      exact requested.apart d before e before' sharesD sharesE differ
    · rw [List.mem_singleton.mp same', there before, here]
      exact fun equal => free (equal ▸ (requested.fresh d before sharesD).1)
    · rw [List.mem_singleton.mp same, there before', here]
      exact fun equal => free (equal ▸ (requested.fresh e before' sharesE).1)
    · exact absurd ((List.mem_singleton.mp same).trans (List.mem_singleton.mp same').symm) differ

end Requested

/-- What the walk of the passes does with imports. -/
theorem exists_requested (known : ∀ pass ∈ passes, pass ∈ standard)
    (imports : passes.filter (·.concerns .importStatement) = [Modules.pass]) (root : Tree) :
    ∃ shared, Requested first shared (reached (below passes first) root) ((visitor passes).walk root first) := by
  have serves : first.Serves first.source first.config := ⟨rfl, rfl⟩
  have steady := steady known serves
  have step (row done : List Cursor) (nodup : (done ++ row).Nodup) (state : Rewrite)
      (holds : state.Serves first.source first.config ∧ state.skipBefore = first.skipBefore)
      (shared : Cursor → Text) (requested : Requested first shared done state) :
      ∃ shared', Requested first shared' (done ++ row)
        (row.foldl (fun state c => ((visitor passes).enter c state).2) state) := by
    induction row generalizing done state shared with
    | nil => exact ⟨shared, by rw [List.append_nil]; exact requested⟩
    | cons c rest ih =>
        have moved : done ++ c :: rest = (done ++ [c]) ++ rest := by simp
        have new : c ∉ done := fun mem => (List.nodup_append.mp nodup).2.2 c mem c List.mem_cons_self rfl
        have adds := adds_enter known c state
        have entered : ∃ shared', Requested first shared' (done ++ [c]) ((visitor passes).enter c state).2 := by
          cases behind : Renaming.below first.skipBefore c with
          | false => exact ⟨shared, (requested.mono adds).append fun late => by simp [behind] at late⟩
          | true =>
              cases requests : c.requests? with
              | none => exact ⟨shared, (requested.mono adds).append fun _ => requests⟩
              | some address =>
                  have visited := enter_of_requests imports requests (holds.2 ▸ behind)
                  obtain ⟨doc, used⟩ := visit_request requests state
                  exact requested.request holds.1.source new requests adds (visited ▸ doc) (visited ▸ used)
        obtain ⟨shared', next⟩ := entered
        rw [moved] at nodup ⊢
        exact ih (done ++ [c]) nodup _ (steady.keeps c state holds) shared' next
  rw [steady.walk_eq_foldl ⟨serves, rfl⟩]
  have nodup : (reached (below passes first) root).Nodup := ((nodup_entered _ [] root).of_map).filter _
  exact step _ [] nodup first ⟨serves, rfl⟩ (fun _ => [])
    ⟨Rewrite.steps_adds.refl first, by simp, by simp, by simp⟩

end RewritePass

theorem Renaming.usedNames_prepare (rewrite : Rewrite) : (prepare rewrite).usedNames = rewrite.usedNames := by
  have foldl {α : Type} {f : Rewrite → α → Rewrite}
      (same : ∀ rewrite a, (f rewrite a).usedNames = rewrite.usedNames)
      (row : List α) (rewrite : Rewrite) : (row.foldl f rewrite).usedNames = rewrite.usedNames := by
    induction row generalizing rewrite with
    | nil => rfl
    | cons a rest ih => exact (ih _).trans (same rewrite a)
  refine foldl (fun rewrite entry => ?_) _ _
  rw [renameAll]
  split
  · rfl
  · refine foldl (fun rewrite bound => ?_) _ _
    simp only [renameBinding]
    split <;> rfl

theorem Tree.mem_namings_of_import {t name : Tree} (kind : t.kind = .importStatement)
    (mem : name ∈ t.importedParts.flatMap importedNames) : ⟨.program, name⟩ ∈ t.namings := by
  rw [namings, otherNamings, kind]
  exact List.mem_map.mpr ⟨name, mem, rfl⟩

/-- The name that a name becomes. -/
def PatchConfig.finalName (config : PatchConfig) (name : Text) : Text :=
  (config.renameIdentifiers.get? name).getD name

namespace Patcher

open RewritePass

variable {patcher : Patcher} {config : PatchConfig} {prepared : Prepared}

/-- Whether a place is called by a name after the renaming: the name is written there, or it stands there already and
nothing else is written. -/
def Calls (patcher : Patcher) (config : PatchConfig) (prepared : Prepared) (c : Cursor) (name : Text) : Prop :=
  Renaming.entry c (c.focus.text prepared.source) name ∈ patcher.renamings config prepared ∨
    name = c.focus.text prepared.source ∧ ∀ e ∈ patcher.renamings config prepared, e.range ≠ c.range

theorem localName_prepare (keys : config.renameIdentifiers.keys.Nodup) {ref : BindingRef} {binding : Binding} {t : Tree}
    (found : (ScopeTable.ofTree prepared.source prepared.start prepared.root).value.binding? ref = some binding)
    (here : t.range ∈ binding.places) :
    (Renaming.prepare (start config prepared (scopesFor config prepared).value)).localName t =
      config.finalName (t.text prepared.source) := by
  have given := @get?_renames config prepared keys t.range
  have own : t.text prepared.source = ref.name :=
    ScopeTable.text_of_places prepared.source prepared.start prepared.root found here
  have text : (Renaming.prepare (start config prepared (scopesFor config prepared).value)).text t =
      t.text prepared.source := by
    rw [Rewrite.text, (Renaming.keeps_prepare _).source]
    rfl
  rw [Rewrite.localName, text, PatchConfig.finalName]
  congr 1
  refine Option.ext fun new => (given new).trans
    ⟨?_, fun configured => ⟨ref, binding, found, here, own ▸ configured⟩⟩
  rintro ⟨ref', binding', found', here', configured⟩
  have own' : t.text prepared.source = ref'.name :=
    ScopeTable.text_of_places prepared.source prepared.start prepared.root found' here'
  rw [own']
  exact configured

/-- The places of a binding are called by one name. -/
theorem calls_of_places (known : ∀ pass ∈ patcher.passes, pass ∈ RewritePass.standard)
    (once : patcher.passes.filter (·.concerns .identifier) = [Renaming.pass])
    (keys : config.renameIdentifiers.keys.Nodup) {ref : BindingRef} {binding : Binding}
    (found : (ScopeTable.ofTree prepared.source prepared.start prepared.root).value.binding? ref = some binding)
    {c : Cursor} (met : c ∈ patcher.visited config prepared) (isName : c.kind.isName = true) (outside : ¬ c.InImport)
    (here : c.range ∈ binding.places) : patcher.Calls config prepared c (config.finalName ref.name) := by
  have recorded := @mem_renamings_iff patcher config prepared known once keys
  have own : c.focus.text prepared.source = ref.name :=
    ScopeTable.text_of_places prepared.source prepared.start prepared.root found here
  rw [Calls, PatchConfig.finalName, own]
  cases configured : config.renameIdentifiers.get? ref.name with
  | some new =>
      exact .inl ((recorded _).mpr ⟨c, met, outside, ref.name, new,
        ⟨isName, ⟨ref, binding, found, rfl, here⟩, configured⟩, rfl⟩)
  | none =>
      refine .inr ⟨rfl, fun e mem same => ?_⟩
      obtain ⟨d, metD, _, old, new, ⟨isNameD, ⟨ref', binding', found', rfl, here'⟩, configured'⟩, rfl⟩ :=
        (recorded e).mp mem
      have same : d.range = c.range := same
      rw [same] at here'
      have own' : c.focus.text prepared.source = ref'.name :=
        ScopeTable.text_of_places prepared.source prepared.start prepared.root found' here'
      rw [← own', own, configured] at configured'
      cases configured'

variable (patcher config prepared) in
/-- The state in which the walk of the passes begins. -/
def first : Rewrite := Renaming.prepare (start config prepared (scopesFor config prepared).value)

section

variable (known : ∀ pass ∈ patcher.passes, pass ∈ RewritePass.standard)
  (once : patcher.passes.filter (·.concerns .identifier) = [Renaming.pass])

include known once

theorem visited_eq : patcher.visited config prepared =
    (reached (below (patcher.active config) (first config prepared)) prepared.root).filter
      (Renaming.below prepared.start) := by
  rw [first, ← (foldl_prepare_start known once (start config prepared (scopesFor config prepared).value) rfl rfl).1]
  rfl

/-- The passes walk through the program and finish. -/
theorem rewrite_eq : (patcher.rewrite config prepared).value = (patcher.active config).foldl
    (fun rewrite pass => pass.finish prepared.root rewrite)
    ((visitor (patcher.active config)).walk prepared.root (first config prepared)) := by
  rw [first, ← (foldl_prepare_start known once (start config prepared (scopesFor config prepared).value) rfl rfl).1]
  rfl

/-- The analysis of the scopes visits all places that the passes visit. -/
theorem mem_sites_of_visited {c : Cursor} (met : c ∈ patcher.visited config prepared) :
    c ∈ Sites.ofTree prepared.start prepared.root := by
  rw [visited_eq known once] at met
  obtain ⟨reached, behind⟩ := List.mem_filter.mp met
  obtain ⟨stands, goes⟩ := mem_reached.mp reached
  rw [Renaming.below, Bool.not_eq_true'] at behind
  have skip : (first config prepared).skipBefore = prepared.start := (Renaming.keeps_prepare _).skipBefore
  have above (a : Cursor) (mem : a ∈ c.above) : Sites.skips prepared.start a.focus = false := by
    have open' := goes a mem
    rw [below, visitor] at open'
    dsimp only at open'
    rw [skip] at open'
    split at open'
    · cases open'
    · rename_i late
      exact Bool.eq_false_iff.mpr late
  have entered := mem_entered_of_open c behind above
  rw [stands] at entered
  exact entered

theorem exists_requested_rewrite (imports : patcher.passes.filter (·.concerns .importStatement) = [Modules.pass]) :
    ∃ shared, Requested (first config prepared) shared (patcher.visited config prepared)
      (patcher.rewrite config prepared).value := by
  have among : ∀ pass ∈ patcher.active config, pass ∈ RewritePass.standard := fun pass mem =>
    known pass (List.mem_filter.mp mem).1
  have requesting : (patcher.active config).filter (·.concerns .importStatement) = [Modules.pass] := by
    rw [active, List.filter_comm, imports]
    rfl
  obtain ⟨shared, requested⟩ := @exists_requested _ (first config prepared) among requesting prepared.root
  have finished := requested.mono (Rewrite.steps_adds.finish (fun _ _ _ => trivial) _ among prepared.root)
  refine ⟨shared, ?_⟩
  rw [rewrite_eq known once, visited_eq known once]
  exact finished.subset fun c mem => (List.mem_filter.mp mem).1

/-- The names that an import declares have bindings. -/
theorem exists_binding_of_import (apart : prepared.root.NamesApart) (grammatical : prepared.root.Grammatical)
    {c : Cursor} (met : c ∈ patcher.visited config prepared) (kind : c.kind = .importStatement) {name : Tree}
    (mem : name ∈ c.focus.importedParts.flatMap Tree.importedNames) : ∃ ref binding,
      (ScopeTable.ofTree prepared.source prepared.start prepared.root).value.binding? ref = some binding ∧
        name.range ∈ binding.declarations ∧ ref.name = name.text prepared.source := by
  have declared := ScopeTable.declared_of_namings prepared.source prepared.start
    (mem_sites_of_visited known once met) (by rw [show c.focus.kind = _ from kind]; rfl)
    (Tree.mem_namings_of_import kind mem)
  obtain ⟨ref, binding, found, here⟩ :=
    ScopeTable.exists_declares_ofTree prepared.source prepared.start apart grammatical declared
  exact ⟨ref, binding, found, here, (ScopeTable.text_of_places prepared.source prepared.start prepared.root found
    (List.mem_append_left _ here)).symm⟩

end

/-- A visited import becomes a statement with one request. Behind a shared name, which it has where two sorts of names
are combined, the statement declares the names of the import, each under the name that its binding is called by. -/
theorem rewrite_imports (known : ∀ pass ∈ patcher.passes, pass ∈ RewritePass.standard)
    (once : patcher.passes.filter (·.concerns .identifier) = [Renaming.pass])
    (imports : patcher.passes.filter (·.concerns .importStatement) = [Modules.pass])
    (keys : config.renameIdentifiers.keys.Nodup) (apart : prepared.root.NamesApart)
    (grammatical : prepared.root.Grammatical) :
    let source := prepared.source
    let table := (ScopeTable.ofTree source prepared.start prepared.root).value
    ∃ shared : Cursor → Text, ∀ c ∈ patcher.visited config prepared, ∀ address, c.requests? = some address →
      ∀ whole space named, c.focus.ImportsOnce whole space named →
      (Tree.combines whole space named = true → shared c ∉ Names.collect source ∧
        ∀ d ∈ patcher.visited config prepared, d.requests?.isSome = true → d ≠ c →
          2 ≤ (Imported.ofStatement d.focus).count → shared d ≠ shared c) ∧
      ∃ emitted : Emitted,
        (∃ edit ∈ (patcher.rewrite config prepared).value.doc.edits, edit.entry = ⟨c.range.start, c.range.stop,
          [.text (emitted.text ("require(" ++ address.text source ++ ")"))], "import"⟩) ∧
        emitted.requests = 1 ∧
        emitted.binds = (if Tree.combines whole space named then [(shared c, Meaning.module)] else []) ++
          (c.focus.importedParts.flatMap (Tree.imports source)).map
            (fun entry => (config.finalName (entry.1.text source), entry.2)) ∧
        (c.focus.importedParts.flatMap (Tree.imports source)).map (·.1) =
          c.focus.importedParts.flatMap Tree.importedNames ∧
        ∀ name ∈ c.focus.importedParts.flatMap Tree.importedNames, ∃ ref binding,
          table.binding? ref = some binding ∧ name.range ∈ binding.declarations ∧ ref.name = name.text source ∧
          ∀ d ∈ patcher.visited config prepared, d.kind.isName = true → ¬ d.InImport →
            d.range ∈ binding.places → patcher.Calls config prepared d (config.finalName ref.name) := by
  intro source table
  obtain ⟨shared, requested⟩ := @exists_requested_rewrite patcher config prepared known once imports
  have keeps : (start config prepared (scopesFor config prepared).value).Keeps (first config prepared) :=
    Renaming.keeps_prepare _
  have used : (first config prepared).usedNames = Names.collect source := Renaming.usedNames_prepare _
  refine ⟨shared, fun c met address requests whole space named onceC => ?_⟩
  have kind := kind_of_requests? requests
  have bound {name : Tree} (mem : name ∈ c.focus.importedParts.flatMap Tree.importedNames) :=
    exists_binding_of_import known once apart grammatical met kind mem
  have behind {d : Cursor} (met : d ∈ patcher.visited config prepared) :
      Renaming.below (first config prepared).skipBefore d = true := by
    rw [keeps.skipBefore]
    exact (List.mem_filter.mp met).2
  refine ⟨fun combined => ?_, emitted (shared c) (targetsAt (first config prepared) c), ?_, requests_emitted _ _, ?_,
    onceC.map_imports source, ?_⟩
  · have shares : Shares (first config prepared) c :=
      ⟨behind met, by rw [requests]; rfl, onceC.two_le_count_iff.mpr combined⟩
    refine ⟨used ▸ (requested.fresh c met shares).2, fun d metD requestsD differ several => ?_⟩
    exact requested.apart d metD c met ⟨behind metD, requestsD, several⟩ shares differ
  · obtain ⟨edit, recorded, same⟩ := requested.recorded c met (behind met) address requests
    refine ⟨edit, recorded, ?_⟩
    rw [same, requestEntry, keeps.source]
    rfl
  · rw [targetsAt, binds_targets, onceC.bind_targets, keeps.source]
    congr 1
    · exact if_congr onceC.two_le_count_iff rfl rfl
    · refine List.map_congr_left fun entry mem => ?_
      have declared : entry.1 ∈ c.focus.importedParts.flatMap Tree.importedNames := by
        rw [← onceC.map_imports source]
        exact List.mem_map_of_mem mem
      obtain ⟨ref, binding, found, here, _⟩ := bound declared
      rw [first, localName_prepare keys found (List.mem_append_left _ here)]
  · intro name mem
    obtain ⟨ref, binding, found, here, own⟩ := bound mem
    exact ⟨ref, binding, found, here, own, fun d metD isName outside place =>
      calls_of_places known once keys found metD isName outside place⟩

/-- The import of the program `import a,{c} from"m"`. -/
def combination : Tree :=
  let leaf (kind : Kind) (role : Option Role) (start stop : Nat) : Tree :=
    .node ⟨kind, role, ⟨start, stop⟩, false⟩ []
  .node ⟨.importStatement, none, ⟨0, 20⟩, false⟩ [
    leaf (.token "import") none 0 6,
    .node ⟨.importClause, none, ⟨7, 12⟩, false⟩ [
      leaf .identifier none 7 8,
      leaf (.token ",") none 8 9,
      .node ⟨.namedImports, none, ⟨9, 12⟩, false⟩ [
        leaf (.token "\x7b") none 9 10,
        .node ⟨.importSpecifier, none, ⟨10, 11⟩, false⟩ [leaf .identifier (some .name) 10 11],
        leaf (.token "\x7d") none 11 12]],
    leaf (.token "from") none 13 17,
    leaf .string (some .source) 17 20]

def combining : Prepared where
  source := [0x69, 0x6D, 0x70, 0x6F, 0x72, 0x74, 0x20, 0x61, 0x2C, 0x7B, 0x63, 0x7D, 0x20, 0x66, 0x72, 0x6F, 0x6D, 0x22,
    0x6D, 0x22]
  start := 0
  root := .node ⟨.program, none, ⟨0, 20⟩, false⟩ [combination]

/-- Where the default gets the name `_temp`, the name for the module is the same. -/
theorem combining_declared :
    let config := { PatchConfig.empty with renameIdentifiers := [("a", "_temp")] }
    (∃ shared, shared ∉ Names.collect combining.source ∧ ∃ emitted : Emitted, emitted.requests = 1 ∧
      emitted.binds = [(shared, .module), ("_temp", .module), ("c", .property "c")]) ∧
    ∃ edit ∈ (standard.rewrite config combining).value.doc.edits,
      edit.parts = [.text "var _temp = require(\"m\"), _temp = _temp, \x7b c \x7d = _temp;"] := by
  intro config
  let place : Cursor := ⟨combination, [⟨⟨.program, none, ⟨0, 20⟩, false⟩, [], []⟩]⟩
  have apart : combining.root.NamesApart := by decide +kernel
  have grammatical : combining.root.Grammatical := by decide +kernel
  have met : place ∈ standard.visited config combining := by
    refine List.mem_filter.mpr ⟨mem_reached.mpr ⟨rfl, ?_⟩, by decide⟩
    rw [show place.above = [ofTree combining.root] from rfl, List.forall_mem_singleton]
    decide +kernel
  have once : combination.ImportsOnce (some (.node ⟨.identifier, none, ⟨7, 8⟩, false⟩ [])) none
      (combination.importedParts.find? (·.kind == .namedImports)) :=
    ⟨rfl, by decide, nofun, by
      rintro p ⟨⟩
      refine ⟨rfl, fun specifier mem _ => ?_⟩
      obtain rfl := List.mem_singleton.mp mem
      exact ⟨_, rfl, fun _ => rfl⟩⟩
  obtain ⟨shared, request⟩ := @rewrite_imports standard config combining (fun _ => id) rfl rfl (by decide) apart
    grammatical
  obtain ⟨fresh, emitted, _, asks, binds, _⟩ := request place met _ rfl _ _ _ once
  exact ⟨⟨shared place, (fresh rfl).1, emitted, asks, binds⟩, by decide +kernel⟩

end Patcher

end Rebundle
