import Rebundle.Proofs.Rewrite.Chronicle
import Rebundle.Proofs.Rewrite.Renamed
import Rebundle.Proofs.Scope.Partition

/-!
# The occurrences that are renamed

The renaming finds the places of the configured names when it prepares, and writes their new names while the
passes walk, at the names they visit. What it records is one edit for every name that is visited, does not stand in
an import, and is attached to a binding with a configured name.
-/

namespace Rebundle

open Cursor

/-- Whether a place is part of an import: on the way up an import statement comes before any block of statements,
and before the program. -/
def Cursor.InImport (c : Cursor) : Prop :=
  ∃ front label back, c.ancestors = front ++ label :: back ∧ label.kind = .importStatement ∧
    ∀ inner ∈ front, inner.kind ≠ .program ∧ inner.kind ≠ .statementBlock

namespace Renaming

theorem insideImport_iff (labels : List Label) : insideImport labels = true ↔
    ∃ front label back, labels = front ++ label :: back ∧ label.kind = .importStatement ∧
      ∀ inner ∈ front, inner.kind ≠ .program ∧ inner.kind ≠ .statementBlock := by
  induction labels with
  | nil => simp [insideImport]
  | cons label rest ih =>
      rw [insideImport]
      split
      · rename_i statement
        exact iff_of_true rfl ⟨[], label, rest, rfl, beq_iff_eq.mp statement, by simp⟩
      · rename_i other
        split
        · rename_i block
          rw [Bool.or_eq_true, beq_iff_eq, beq_iff_eq] at block
          refine iff_of_false Bool.false_ne_true ?_
          rintro ⟨front, import', back, split, kind, inner⟩
          cases front with
          | nil =>
              cases split
              exact other (beq_iff_eq.mpr kind)
          | cons first front =>
              cases split
              obtain ⟨program, statements⟩ := inner label List.mem_cons_self
              exact block.elim program statements
        · rename_i inline
          rw [Bool.or_eq_true, beq_iff_eq, beq_iff_eq, not_or] at inline
          rw [ih]
          constructor
          · rintro ⟨front, import', back, rfl, kind, inner⟩
            exact ⟨label :: front, import', back, rfl, kind, List.forall_mem_cons.mpr ⟨inline, inner⟩⟩
          · rintro ⟨front, import', back, split, kind, inner⟩
            cases front with
            | nil =>
                cases split
                exact absurd (beq_iff_eq.mpr kind) other
            | cons first front =>
                cases split
                exact ⟨front, import', back, rfl, kind, (List.forall_mem_cons.mp inner).2⟩

/-- A name that is attached to a binding of a configured name, with its old name and its new one. -/
structure Occurs (table : ScopeTable) (config : PatchConfig) (c : Cursor) (old new : Text) : Prop where
  isName : c.kind.isName = true
  attached : ∃ ref binding, table.binding? ref = some binding ∧ ref.name = old ∧ c.range ∈ binding.places
  configured : config.renameIdentifiers.get? old = some new

/-- What is recorded where a name gets a new one. -/
def entry (c : Cursor) (old new : Text) : Entry :=
  ⟨c.range.start, c.range.stop, [.text (written c old new)], "rename"⟩

end Renaming

theorem ScopeTable.mem_bindings_of_binding? {table : ScopeTable} {ref : BindingRef} {binding : Binding}
    (found : table.binding? ref = some binding) : (ref, binding) ∈ table.bindings := by
  obtain ⟨scope, here, entry⟩ := Option.bind_eq_some_iff.mp found
  exact List.mem_flatMap.mpr ⟨(scope, ref.scope), List.mem_zipIdx_iff_getElem?.mpr here,
    List.mem_map.mpr ⟨(ref.name, binding), Table.mem_of_get? entry, rfl⟩⟩

namespace Renaming

section

variable {source : Bytes} {skip : Nat} {root : Tree} {rewrite : Rewrite} {place : Range}

/-- A place of a configured name gets some new name. -/
theorem isSome_get?_prepare {old new : Text} (configured : (old, new) ∈ rewrite.config.renameIdentifiers)
    (bound : ∃ bound ∈ rewrite.scopes.bindingsNamed old, place ∈ bound.2.places) :
    ((prepare rewrite).renames.get? place).isSome = true := by
  rw [get?_prepare]
  generalize rewrite.config.renameIdentifiers = entries at configured ⊢
  generalize rewrite.renames.get? place = found
  have kept (rest : List (Text × Text)) (found : Option Text) (known : found.isSome = true) :
      (rest.foldl (fun found (entry : Text × Text) =>
        if ∃ bound ∈ rewrite.scopes.bindingsNamed entry.1, place ∈ bound.2.places then some entry.2 else found)
        found).isSome = true := by
    induction rest generalizing found with
    | nil => exact known
    | cons entry rest ih =>
        refine ih _ ?_
        dsimp only
        split
        · rfl
        · exact known
  induction entries generalizing found with
  | nil => cases configured
  | cons entry rest ih =>
      rcases List.mem_cons.mp configured with rfl | later
      · exact kept rest _ (congrArg Option.isSome (if_pos bound))
      · exact ih later _

/-- The new name of a place is the one that is configured for its binding. -/
theorem get?_prepare_iff (scopes : rewrite.scopes = (ScopeTable.ofTree source skip root).value)
    (fresh : rewrite.renames = []) (keys : rewrite.config.renameIdentifiers.keys.Nodup) {new : Text} :
    (prepare rewrite).renames.get? place = some new ↔ ∃ ref binding,
      rewrite.scopes.binding? ref = some binding ∧ place ∈ binding.places ∧
        rewrite.config.renameIdentifiers.get? ref.name = some new := by
  have resolves := ScopeTable.Resolves.ofTree source skip root
  rw [← scopes] at resolves
  have named {new : Text} (got : (prepare rewrite).renames.get? place = some new) : ∃ ref binding,
      rewrite.scopes.binding? ref = some binding ∧ place ∈ binding.places ∧
        rewrite.config.renameIdentifiers.get? ref.name = some new := by
    rcases exists_binding_of_get? got with before | ⟨old, configured, bound, mem, here⟩
    · rw [fresh] at before
      cases before
    · obtain ⟨known, same⟩ := List.mem_filter.mp mem
      have same : bound.1.name = old := of_decide_eq_true same
      exact ⟨bound.1, bound.2, ScopeTable.binding?_of_mem_bindings resolves.nodup known, here,
        same ▸ Table.get?_of_mem keys configured⟩
  refine ⟨named, ?_⟩
  rintro ⟨ref, binding, found, here, configured⟩
  have bound : ∃ bound ∈ rewrite.scopes.bindingsNamed ref.name, place ∈ bound.2.places :=
    ⟨(ref, binding), List.mem_filter.mpr ⟨ScopeTable.mem_bindings_of_binding? found, decide_eq_true rfl⟩, here⟩
  obtain ⟨other, got⟩ := Option.isSome_iff_exists.mp
    (isSome_get?_prepare (Table.mem_of_get? configured) bound)
  obtain ⟨ref', binding', found', here', configured'⟩ := named got
  -- both bindings have the text of the place for their name
  rw [scopes] at found found'
  have same : ref'.name = ref.name :=
    (ScopeTable.text_of_places source skip root found' here').symm.trans
      (ScopeTable.text_of_places source skip root found here)
  rw [same, configured] at configured'
  rw [got, ← configured']

/-- When the new names are those of the bindings of configured names, the renaming notes the occurrences of these
names, behind the bootstrap and outside of imports. -/
theorem noted_iff {table : ScopeTable} {config : PatchConfig} {renames : Table Range Text}
    (scopes : table = (ScopeTable.ofTree source skip root).value)
    (given : ∀ place new, renames.get? place = some new ↔ ∃ ref binding, table.binding? ref = some binding ∧
      place ∈ binding.places ∧ config.renameIdentifiers.get? ref.name = some new) {c : Cursor} {e : Entry} :
    noted renames source skip c = some e ↔ below skip c = true ∧ ¬ c.InImport ∧
      ∃ old new, Occurs table config c old new ∧ e = entry c old new := by
  have imports : insideImport c.ancestors = true ↔ c.InImport := insideImport_iff c.ancestors
  have text {ref : BindingRef} {binding : Binding} (found : table.binding? ref = some binding)
      (here : c.range ∈ binding.places) : c.focus.text source = ref.name :=
    ScopeTable.text_of_places source skip root (scopes ▸ found) here
  unfold noted recorded?
  constructor
  · intro noted
    split at noted
    · rename_i behind
      split at noted
      · rename_i isName
        split at noted
        · cases noted
        · rename_i outside
          obtain ⟨new, got, rfl⟩ := Option.map_eq_some_iff.mp noted
          obtain ⟨ref, binding, found, here, configured⟩ := (given _ _).mp got
          refine ⟨behind, fun inside => outside (imports.mpr inside), ref.name, new,
            ⟨isName, ⟨ref, binding, found, rfl, here⟩, configured⟩, ?_⟩
          rw [text found here]
          rfl
      · cases noted
    · cases noted
  · rintro ⟨behind, outside, old, new, ⟨isName, ⟨ref, binding, found, rfl, here⟩, configured⟩, rfl⟩
    have got : renames.get? c.range = some new := (given _ _).mpr ⟨ref, binding, found, here, configured⟩
    rw [if_pos behind, if_pos isName, if_neg (mt imports.mp outside), got, Option.map_some, text found here]
    rfl

end

end Renaming

namespace Document

/-- The entries that a document holds for a reason. -/
def entriesFor (doc : Document) (reason : Text) : List Entry :=
  (doc.edits.filter fun edit => edit.reason == reason).map Edit.entry

theorem entriesFor_record (doc : Document) (start stop : Nat) (parts : List Part) (reason : Text) :
    ((doc.record start stop parts reason).2.entriesFor reason).Perm
      (⟨start, stop, parts, reason⟩ :: doc.entriesFor reason) := by
  have perm := (Edit.insert_perm ⟨start, stop, parts, doc.recorded, reason⟩ doc.edits).filter fun edit =>
    edit.reason == reason
  rw [List.filter_cons_of_pos (by simp)] at perm
  exact perm.map Edit.entry

end Document

namespace RewritePass

variable {passes : List RewritePass} {first : Rewrite}

/-- The passes that a node concerns visit it, if it is behind the bootstrap. -/
theorem enter_eq (passes : List RewritePass) (c : Cursor) (rewrite : Rewrite) : (visitor passes).enter c rewrite =
    if Renaming.below rewrite.skipBefore c then visitAll c rewrite (passes.filter fun pass => pass.concerns c.kind)
    else (false, rewrite) := by
  have skipped : (c.focus.stop ≤ rewrite.skipBefore && c.kind != .program) =
      !Renaming.below rewrite.skipBefore c := by
    rw [Renaming.below, Bool.not_not]
  simp only [visitor, skipped]
  cases Renaming.below rewrite.skipBefore c <;> rfl

/-- A walk records for a reason what entering the places reached records for it, where every such step also keeps
what the next one relies on. -/
theorem entriesFor_walk (also : Rewrite → Prop) {source : Bytes} {config : PatchConfig}
    (known : ∀ pass ∈ passes, pass ∈ standard) (serves : first.Serves source config) {reason : Text}
    {noted : Cursor → Option Entry} (begins : also first) {root : Tree}
    (entering : ∀ c ∈ reached (below passes first) root, ∀ state : Rewrite, state.Serves source config →
      state.skipBefore = first.skipBefore → also state →
        also ((visitor passes).enter c state).2 ∧ (((visitor passes).enter c state).2.doc.entriesFor reason).Perm
          ((noted c).toList ++ state.doc.entriesFor reason)) :
    (((visitor passes).walk root first).doc.entriesFor reason).Perm
      ((reached (below passes first) root).filterMap noted ++ first.doc.entriesFor reason) := by
  have steady := steady known serves
  rw [steady.walk_eq_foldl ⟨serves, rfl⟩]
  generalize reached (below passes first) root = row at entering
  have step (state : Rewrite) (holds : state.Serves source config ∧ state.skipBefore = first.skipBefore)
      (kept : also state) : ((row.foldl (fun state c => ((visitor passes).enter c state).2) state).doc.entriesFor
        reason).Perm (row.filterMap noted ++ state.doc.entriesFor reason) := by
    induction row generalizing state with
    | nil => exact .refl _
    | cons c rest ih =>
        obtain ⟨next, entered⟩ := entering c List.mem_cons_self state holds.1 holds.2 kept
        rw [List.foldl_cons, List.filterMap_cons]
        refine (ih (fun d mem => entering d (List.mem_cons_of_mem _ mem)) _ (steady.keeps c state holds) next).trans ?_
        refine (entered.append_left _).trans ?_
        cases noted c with
        | none => exact .refl _
        | some e => exact List.perm_middle
  exact step first ⟨serves, rfl⟩ begins

/-- The renamings that a document holds. -/
def renamings (doc : Document) : List Entry := (doc.edits.filter Edit.isRenaming).map Edit.entry

theorem renamings_enter_perm (doc : Document) {e : Entry} (reason : e.reason = "rename") :
    (renamings (doc.enter (some e))).Perm (e :: renamings doc) := by
  obtain ⟨start, stop, parts, _⟩ := e
  cases reason
  exact doc.entriesFor_record start stop parts "rename"

/-- Whether the renaming is the one pass that names concern, or there is nothing to rename. -/
def RenamesOnce (passes : List RewritePass) (renames : Table Range Text) : Prop :=
  passes.filter (·.concerns .identifier) = [Renaming.pass] ∨
    passes.filter (·.concerns .identifier) = [] ∧ renames = []

section

variable (known : ∀ pass ∈ passes, pass ∈ standard)

include known

/-- What entering a node records of the renaming: what the renaming alone records. -/
theorem renamings_enter (c : Cursor) (rewrite : Rewrite) (once : RenamesOnce passes rewrite.renames) :
    let next := ((visitor passes).enter c rewrite).2
    next.renames = rewrite.renames ∧ (renamings next.doc).Perm
      ((Renaming.noted rewrite.renames rewrite.source rewrite.skipBefore c).toList ++ renamings rewrite.doc) := by
  simp only [enter_eq, Renaming.noted]
  cases Renaming.below rewrite.skipBefore c with
  | false => exact ⟨rfl, .refl _⟩
  | true =>
      cases isName : c.kind.isName with
      | false =>
          have spares := spares_visitAll known isName rewrite
          refine ⟨spares.renames, .of_eq ?_⟩
          exact congrArg (List.map Edit.entry) spares.edits
      | true =>
          have concerned : passes.filter (fun pass => pass.concerns c.kind) =
              passes.filter (·.concerns .identifier) :=
            List.filter_congr fun pass mem => concerns_name (known pass mem) isName
          simp only [if_true, concerned]
          rcases once with alone | ⟨unconcerned, unnamed⟩
          · rw [alone, visitAll_singleton]
            refine ⟨Renaming.visit_renames c rewrite, ?_⟩
            change (renamings (Renaming.visit c rewrite).2.doc).Perm _
            rw [Renaming.visit_doc]
            cases noted : Renaming.recorded? rewrite.renames rewrite.source c with
            | none => exact .refl _
            | some e =>
                have reason : e.reason = "rename" := by
                  unfold Renaming.recorded? at noted
                  split at noted
                  · cases noted
                  · obtain ⟨_, _, rfl⟩ := Option.map_eq_some_iff.mp noted
                    rfl
                exact renamings_enter_perm rewrite.doc reason
          · have nothing : Renaming.recorded? rewrite.renames rewrite.source c = none := by
              rw [unnamed]
              exact ite_self _
            rw [unconcerned, nothing]
            exact ⟨rfl, .refl _⟩

/-- What a walk of the passes records of the renaming: what the renaming alone records at the places reached. -/
theorem renamings_walk (root : Tree) (once : RenamesOnce passes first.renames) :
    (renamings ((visitor passes).walk root first).doc).Perm
      ((reached (below passes first) root).filterMap
        (Renaming.noted first.renames first.source first.skipBefore) ++ renamings first.doc) := by
  have serves : first.Serves first.source first.config := ⟨rfl, rfl⟩
  refine entriesFor_walk (fun state => state.renames = first.renames) known serves rfl ?_
  intro c _ state serves skip renames
  obtain ⟨renames', entered⟩ := renamings_enter known c state (renames.symm ▸ once)
  rw [renames, show state.source = first.source from serves.source, skip] at entered
  exact ⟨renames'.trans renames, entered⟩

end

end RewritePass

namespace Patcher

open RewritePass

variable (patcher : Patcher) (config : PatchConfig) (prepared : Prepared)

/-- The passes that have something to do. -/
def active : List RewritePass := patcher.passes.filter fun pass => pass.applies config

/-- The places behind the bootstrap that the walk of the passes reaches. -/
def visited : List Cursor :=
  let first := (patcher.active config).foldl (fun rewrite pass => pass.prepare rewrite)
    (start config prepared (scopesFor config prepared).value)
  (reached (below (patcher.active config) first) prepared.root).filter (Renaming.below prepared.start)

/-- The renamings that a rewriting records. -/
def renamings : List Entry := RewritePass.renamings (patcher.rewrite config prepared).value.doc

variable {patcher config prepared}

/-- The renaming is prepared, when there is something to rename. -/
theorem foldl_prepare_start (known : ∀ pass ∈ patcher.passes, pass ∈ RewritePass.standard)
    (once : patcher.passes.filter (·.concerns .identifier) = [Renaming.pass]) (rewrite : Rewrite)
    (task : rewrite.config = config) (fresh : rewrite.renames = []) :
    let first := (patcher.active config).foldl (fun rewrite pass => pass.prepare rewrite) rewrite
    first = Renaming.prepare rewrite ∧ RenamesOnce (patcher.active config) first.renames := by
  have among : ∀ pass ∈ patcher.active config, pass ∈ RewritePass.standard := fun pass mem =>
    known pass (List.mem_filter.mp mem).1
  have naming : (patcher.active config).filter (·.concerns .identifier) =
      [Renaming.pass].filter fun pass => pass.applies config := by
    rw [active, List.filter_comm, once]
  intro first
  change (patcher.active config).foldl _ rewrite = _ ∧
    RenamesOnce _ ((patcher.active config).foldl _ rewrite).renames
  rw [foldl_prepare_eq among, RenamesOnce, naming]
  cases none : config.renameIdentifiers.isEmpty with
  | false =>
      rw [List.filter_cons_of_pos (by simp [Renaming.pass, none])]
      exact ⟨rfl, .inl rfl⟩
  | true =>
      rw [List.filter_cons_of_neg (by simp [Renaming.pass, none])]
      have nothing : Renaming.prepare rewrite = rewrite := by
        change rewrite.config.renameIdentifiers.foldl Renaming.renameAll _ = _
        rw [task, List.isEmpty_iff.mp none]
        rfl
      exact ⟨nothing.symm, .inr ⟨rfl, fresh⟩⟩

/-- A rewriting records the renamings that the renaming notes at the places visited. -/
theorem renamings_perm (known : ∀ pass ∈ patcher.passes, pass ∈ RewritePass.standard)
    (once : patcher.passes.filter (·.concerns .identifier) = [Renaming.pass]) :
    let scopes := (scopesFor config prepared).value
    (patcher.renamings config prepared).Perm ((patcher.visited config prepared).filterMap
      (Renaming.noted (Renaming.prepare (start config prepared scopes)).renames prepared.source prepared.start)) := by
  intro scopes
  have among : ∀ pass ∈ patcher.active config, pass ∈ RewritePass.standard := fun pass mem =>
    known pass (List.mem_filter.mp mem).1
  obtain ⟨first, renamesOnce⟩ :=
    @foldl_prepare_start patcher config known once (start config prepared scopes) rfl rfl
  have walked := renamings_walk among prepared.root renamesOnce
  have finished := Rewrite.steps_spares.finish (fun _ other _ => other)
    ((visitor (patcher.active config)).walk prepared.root ((patcher.active config).foldl
      (fun rewrite pass => pass.prepare rewrite) (start config prepared scopes))) among prepared.root
  have same : patcher.renamings config prepared = RewritePass.renamings
      ((visitor (patcher.active config)).walk prepared.root ((patcher.active config).foldl
        (fun rewrite pass => pass.prepare rewrite) (start config prepared scopes))).doc :=
    congrArg (List.map Edit.entry) finished.edits
  have keeps := Renaming.keeps_prepare (start config prepared scopes)
  have blank : RewritePass.renamings (Renaming.prepare (start config prepared scopes)).doc = [] := by
    rw [Renaming.prepare_doc]
    rfl
  rw [same]
  refine walked.trans (.of_eq ?_)
  rw [visited, List.filterMap_filter, first, keeps.skipBefore, keeps.source, blank, List.append_nil]
  refine List.filterMap_congr fun c _ => ?_
  change Renaming.noted _ prepared.source prepared.start c =
    if Renaming.below prepared.start c then Renaming.noted _ prepared.source prepared.start c else none
  split
  · rfl
  · rename_i early
    exact if_neg early

/-- The new name of a place is the one that is configured for its binding, also where there is nothing to rename. -/
theorem get?_renames (keys : config.renameIdentifiers.keys.Nodup) (place : Range) (new : Text) :
    (Renaming.prepare (start config prepared (scopesFor config prepared).value)).renames.get? place = some new ↔
      ∃ ref binding, (ScopeTable.ofTree prepared.source prepared.start prepared.root).value.binding? ref =
        some binding ∧ place ∈ binding.places ∧ config.renameIdentifiers.get? ref.name = some new := by
  cases none : config.renameIdentifiers.isEmpty with
  | false =>
      have scopes : (scopesFor config prepared).value =
          (ScopeTable.ofTree prepared.source prepared.start prepared.root).value := by
        rw [scopesFor, none]
        rfl
      rw [scopes]
      exact @Renaming.get?_prepare_iff _ _ _ (start config prepared _) _ rfl rfl keys _
  | true =>
      have empty := List.isEmpty_iff.mp none
      refine iff_of_false ?_ ?_
      · simp [Renaming.prepare, start, empty, Table.get?]
      · rintro ⟨ref, binding, _, _, configured⟩
        rw [empty] at configured
        cases configured

section

variable (known : ∀ pass ∈ patcher.passes, pass ∈ RewritePass.standard)
  (once : patcher.passes.filter (·.concerns .identifier) = [Renaming.pass])
  (keys : config.renameIdentifiers.keys.Nodup)

include known once keys

/-- What is recorded as a renaming, and where. -/
theorem mem_renamings_iff (e : Entry) : e ∈ patcher.renamings config prepared ↔
    ∃ c ∈ patcher.visited config prepared, ¬ c.InImport ∧ ∃ old new,
      Renaming.Occurs (ScopeTable.ofTree prepared.source prepared.start prepared.root).value config c old new ∧
        e = Renaming.entry c old new := by
  rw [(renamings_perm known once).mem_iff, List.mem_filterMap]
  refine exists_congr fun c => and_congr_right fun mem => ?_
  rw [Renaming.noted_iff rfl (get?_renames keys), and_iff_right (List.mem_filter.mp mem).2]

/-- No place is renamed twice. -/
theorem nodup_renamings (apart : prepared.root.NamesApart) :
    ((patcher.renamings config prepared).map Entry.range).Nodup := by
  have distinct : (all prepared.root).Pairwise fun c d =>
      c.kind.isName = true → d.kind.isName = true → c.range ≠ d.range := by
    rw [Tree.NamesApart, ← focus_entered [] prepared.root, List.filter_map, List.map_map, List.Nodup,
      List.pairwise_map, List.pairwise_filter] at apart
    exact apart
  rw [((renamings_perm known once).map Entry.range).nodup_iff, List.Nodup, List.pairwise_map, List.pairwise_filterMap]
  refine (distinct.sublist (List.filter_sublist.trans List.filter_sublist)).imp ?_
  intro c d differ e notedC e' notedD
  obtain ⟨_, _, old, new, occursC, rfl⟩ := (Renaming.noted_iff rfl (get?_renames keys)).mp notedC
  obtain ⟨_, _, old', new', occursD, rfl⟩ := (Renaming.noted_iff rfl (get?_renames keys)).mp notedD
  exact differ occursC.isName occursD.isName

/-- The renamings that a rewriting records are the occurrences of configured names that are visited outside imports,
each once. No name is renamed that belongs to a binding of another name, is free, or belongs to another
module. -/
theorem rewrite_renamings (apart : prepared.root.NamesApart) (grammatical : prepared.root.Grammatical) :
    let table := (ScopeTable.ofTree prepared.source prepared.start prepared.root).value
    let ignored := (ScopeTable.walk prepared.source prepared.start prepared.root).ignored
    ((patcher.renamings config prepared).map Entry.range).Nodup ∧
    (∀ e, e ∈ patcher.renamings config prepared ↔ ∃ c ∈ patcher.visited config prepared, ¬ c.InImport ∧
      ∃ old new, Renaming.Occurs table config c old new ∧ e = Renaming.entry c old new) ∧
    ∀ e ∈ patcher.renamings config prepared, ∀ station, table.At ignored e.range station →
      ∃ ref, (station = .declares ref ∨ station = .refers ref) ∧
        (config.renameIdentifiers.get? ref.name).isSome = true := by
  intro table ignored
  refine ⟨nodup_renamings known once keys apart, mem_renamings_iff known once keys, ?_⟩
  intro e mem station here
  obtain ⟨c, met, _, old, new, ⟨isName, ⟨ref, binding, found, rfl, place⟩, configured⟩, rfl⟩ :=
    (mem_renamings_iff known once keys e).mp mem
  have stands : c.whole = prepared.root := (mem_reached.mp (List.mem_filter.mp met).1).1
  have alone {other : Station} (there : table.At ignored c.range other) : station = other :=
    ScopeTable.at_unique prepared.source prepared.start apart grammatical stands isName here there
  have some : (config.renameIdentifiers.get? ref.name).isSome = true :=
    Option.isSome_iff_exists.mpr ⟨new, configured⟩
  rcases List.mem_append.mp place with declares | refers
  · exact ⟨ref, .inl (alone ⟨binding, found, declares⟩), some⟩
  · exact ⟨ref, .inr (alone ⟨binding, found, refers⟩), some⟩

end

/-- The program `import a from"m"with{f(){a}}`, where the imported name stands in a method among the attributes. -/
def attributing : Prepared where
  source := [0x69, 0x6D, 0x70, 0x6F, 0x72, 0x74, 0x20, 0x61, 0x20, 0x66, 0x72, 0x6F, 0x6D, 0x22, 0x6D, 0x22, 0x77,
    0x69, 0x74, 0x68, 0x7B, 0x66, 0x28, 0x29, 0x7B, 0x61, 0x7D, 0x7D]
  start := 0
  root :=
    let leaf (kind : Kind) (role : Option Role) (start stop : Nat) : Tree :=
      .node ⟨kind, role, ⟨start, stop⟩, false⟩ []
    .node ⟨.program, none, ⟨0, 28⟩, false⟩ [
      .node ⟨.importStatement, none, ⟨0, 28⟩, false⟩ [
        leaf (.token "import") none 0 6,
        .node ⟨.importClause, none, ⟨7, 8⟩, false⟩ [leaf .identifier none 7 8],
        leaf (.token "from") none 9 13,
        leaf .string (some .source) 13 16,
        .node ⟨.importAttribute, none, ⟨16, 28⟩, false⟩ [
          leaf (.token "with") none 16 20,
          .node ⟨.object, none, ⟨20, 28⟩, false⟩ [
            leaf (.token "\x7b") none 20 21,
            .node ⟨.methodDefinition, none, ⟨21, 27⟩, false⟩ [
              leaf .propertyIdentifier (some .name) 21 22,
              .node ⟨.formalParameters, some .parameters, ⟨22, 24⟩, false⟩ [
                leaf (.token "(") none 22 23, leaf (.token ")") none 23 24],
              .node ⟨.statementBlock, some .body, ⟨24, 27⟩, false⟩ [
                leaf (.token "\x7b") none 24 25,
                .node ⟨.expressionStatement, none, ⟨25, 26⟩, false⟩ [leaf .identifier none 25 26],
                leaf (.token "\x7d") none 26 27]],
            leaf (.token "\x7d") none 27 28]]]]

/-- The renaming alone. -/
def renamer : Patcher := { Patcher.standard with passes := [Renaming.pass] }

/-- A name in an import statement is renamed, where a block of statements is between. -/
theorem attributing_renamed : attributing.root.NamesApart ∧
    ∃ c ∈ all attributing.root, c.kind = .identifier ∧
      (∃ label ∈ c.ancestors, label.kind = .importStatement) ∧
      ∃ e ∈ renamer.renamings { PatchConfig.empty with renameIdentifiers := [("a", "b")] } attributing,
        e.range = c.range := by
  decide +kernel

/-- The program `var a,b`. -/
def paired : Prepared where
  source := [0x76, 0x61, 0x72, 0x20, 0x61, 0x2C, 0x62]
  start := 0
  root :=
    let leaf (kind : Kind) (role : Option Role) (start stop : Nat) : Tree :=
      .node ⟨kind, role, ⟨start, stop⟩, false⟩ []
    .node ⟨.program, none, ⟨0, 7⟩, false⟩ [
      .node ⟨.variableDeclaration, none, ⟨0, 7⟩, false⟩ [
        leaf (.token "var") none 0 3,
        .node ⟨.variableDeclarator, none, ⟨4, 5⟩, false⟩ [leaf .identifier (some .name) 4 5],
        leaf (.token ",") none 5 6,
        .node ⟨.variableDeclarator, none, ⟨6, 7⟩, false⟩ [leaf .identifier (some .name) 6 7]]]

/-- Two names are exchanged, each once. -/
theorem paired_exchanged :
    let config := { PatchConfig.empty with renameIdentifiers := [("a", "b"), ("b", "a")] }
    paired.root.NamesApart ∧ paired.root.Grammatical ∧ config.renameIdentifiers.keys.Nodup ∧
      ((standard.renamings config paired).map Entry.range).Nodup ∧
      (∃ c : Cursor, c.range = ⟨4, 5⟩ ∧ Renaming.entry c "a" "b" ∈ standard.renamings config paired) ∧
      ∃ c : Cursor, c.range = ⟨6, 7⟩ ∧ Renaming.entry c "b" "a" ∈ standard.renamings config paired := by
  intro config
  have apart : paired.root.NamesApart := by decide +kernel
  have grammatical : paired.root.Grammatical := by decide +kernel
  have keys : config.renameIdentifiers.keys.Nodup := by decide
  obtain ⟨once, recorded, _⟩ := @rewrite_renamings standard config paired (fun _ => id) rfl keys apart grammatical
  have renamed {old new : Text} {place : Range} (configured : config.renameIdentifiers.get? old = some new)
      (occurs : ∃ c ∈ standard.visited config paired, c.kind.isName = true ∧
        Renaming.insideImport c.ancestors = false ∧ c.range = place ∧
        ((ScopeTable.ofTree paired.source 0 paired.root).value.binding? ⟨0, old⟩).any
          (·.places.contains c.range) = true) :
      ∃ c : Cursor, c.range = place ∧ Renaming.entry c old new ∈ standard.renamings config paired := by
    obtain ⟨c, met, isName, outside, here, bound⟩ := occurs
    obtain ⟨binding, found, place⟩ := (Option.any_eq_true _ _).mp bound
    have outside : ¬ c.InImport := fun inside => by
      rw [(Renaming.insideImport_iff c.ancestors).mpr inside] at outside
      cases outside
    exact ⟨c, here, (recorded _).mpr ⟨c, met, outside, old, new,
      ⟨isName, ⟨_, binding, found, rfl, List.contains_iff_mem.mp place⟩, configured⟩, rfl⟩⟩
  exact ⟨apart, grammatical, keys, once, renamed rfl (by decide +kernel), renamed rfl (by decide +kernel)⟩

end Patcher

end Rebundle
