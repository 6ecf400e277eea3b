import Rebundle.Proofs.Rewrite.Bootstrap
import Rebundle.Proofs.Rewrite.Renamed
import Rebundle.Proofs.Scope.Free
import Rebundle.Proofs.Script.Interface

/-!
# The public names of a renamed program

Renaming keeps the keys of objects, and the names of export specifiers: a shorthand property is written with its
key, and a name that is exported as it is gets its old name for an alias. But where a declaration is exported, the
names that it declares are replaced like all others, so the program gives them away under their new names.
-/

namespace Rebundle

open Cursor Script

/-! An alias of an export names nothing of the program: no node declares it, and it is no reference. So it belongs to
no binding. -/

section

open Sites

namespace Sites

variable {root : Tree} {skipBefore : Nat} {c d : Cursor}

theorem above_mem_ofTree (mem : c ∈ ofTree skipBefore root) (above : d ∈ c.above) : d ∈ ofTree skipBefore root :=
  (above_of_mem_entered mem above).resolve_right List.not_mem_nil

theorem alias_not_reference (up : c.parent? = some d) (kind : d.kind = .exportSpecifier)
    (own : d.child? .alias = some c.focus) : c ∉ references (ofTree skipBefore root) := by
  intro mem
  have above : d ∈ c.above := by
    rw [above_eq up]
    exact List.mem_cons_self
  obtain ⟨front, reference, all⟩ := exists_front_above (pairwise_entered _ [] root) mem
  have before := all d (above_mem_ofTree (mem_of_mem_references mem) above) above
  rw [isReference, Bool.and_eq_true, Bool.not_eq_true', List.contains_eq_mem, decide_eq_false_iff_not,
    List.mem_append, not_or] at reference
  refine reference.2.2 (List.mem_map.mpr ⟨c.focus, List.mem_flatMap.mpr ⟨d, before, ?_⟩, rfl⟩)
  rw [foreign, kind, own]
  exact List.mem_append_left _ List.mem_cons_self

/-- No node declares an alias. -/
theorem alias_not_declared (distinct : root.Distinct) (plain : root.Plain)
    (names : DeclareNames (ofTree skipBefore root)) (stands : c.whole = root) (isName : c.kind.isName = true)
    (up : c.parent? = some d) (kind : d.kind = .exportSpecifier) :
    c.range ∉ (declarations (ofTree skipBefore root) (ofTree skipBefore root)).map (·.2.range) := by
  intro declared
  obtain ⟨⟨i, name⟩, declares, same⟩ := List.mem_map.mp declared
  obtain ⟨e, here, own⟩ := List.mem_flatMap.mp declares
  obtain ⟨naming, told, made⟩ := List.mem_map.mp own
  obtain ⟨p, below, child, placed⟩ := Tree.holds_of_namings told
  have standsE : e.whole = root := whole_of_mem_entered here
  obtain ⟨f, rfl, whole, _⟩ := exists_below below
  obtain ⟨g, upG, focus⟩ := exists_child child
  have equal : g = c := by
    refine eq_of_range_eq distinct.names ((whole_parent upG).symm.trans (whole.trans standsE)) stands ?_ isName ?_
    · rw [Cursor.kind, focus]
      exact names e here naming told
    · rw [Cursor.range, focus, ← same, ← (Prod.mk.inj made).2]
  subst equal
  cases upG.symm.trans up
  have exchanges : d.focus.kind.exchanges = true := by
    rw [show d.focus.kind = .exportSpecifier from kind]
    rfl
  rcases placed exchanges with ⟨other, _⟩ | ⟨q, inside, function, found⟩
  · cases kind.symm.trans other
  · have known : q ∈ root.nodes := Tree.mem_nodes_trans inside (standsE ▸ e.focus_mem_whole)
    rw [plain.clauses q known _ (List.mem_of_find?_eq_some found) kind] at function
    cases function

end Sites

/-- An alias belongs to no binding. -/
theorem ScopeTable.alias_not_place (source : Bytes) {skipBefore : Nat} {root : Tree} (distinct : root.Distinct)
    (plain : root.Plain) (names : DeclareNames (Sites.ofTree skipBefore root)) {c d : Cursor}
    (stands : c.whole = root) (isName : c.kind.isName = true) (up : c.parent? = some d)
    (kind : d.kind = .exportSpecifier) (own : d.child? .alias = some c.focus) {ref : BindingRef} {binding : Binding}
    (found : (ofTree source skipBefore root).value.binding? ref = some binding) : c.range ∉ binding.places := by
  intro place
  rcases List.mem_append.mp place with declares | refers
  · refine alias_not_declared distinct plain names stands isName up kind ?_
    rw [← (knows_walk source skipBefore distinct).declared]
    exact (declared_of_declarations source skipBefore root found declares).1
  · rw [(Resolves.ofTree source skipBefore root).references ref binding found] at refers
    obtain ⟨reference, kept, same⟩ := List.mem_map.mp refers
    have pending := (List.mem_filter.mp kept).1
    rw [(knows_walk source skipBefore distinct).pending] at pending
    obtain ⟨e, mem, rfl⟩ := List.mem_map.mp pending
    have equal : e = c := eq_of_range_eq distinct.names (whole_of_mem_entered (mem_of_mem_references mem)) stands
      (isName_of_mem_referencesFrom mem) isName same
    subst equal
    exact alias_not_reference up kind own mem

end

/-- The child that plays a role, where no two children play the same one. -/
theorem Tree.child?_of_role {t child : Tree} {role : Role} (roles : (t.children.filterMap (·.label.role)).Nodup)
    (mem : child ∈ t.children) (plays : child.label.role = some role) : t.child? role = some child := by
  rw [child?]
  generalize t.children = row at roles mem
  induction row with
  | nil => cases mem
  | cons first rest ih =>
      rcases List.mem_cons.mp mem with rfl | later
      · exact List.find?_cons_of_pos (by simp [plays])
      · have other : first.label.role ≠ some role := by
          intro same
          rw [List.filterMap_cons, same] at roles
          exact (List.nodup_cons.mp roles).1 (List.mem_filterMap.mpr ⟨child, later, plays⟩)
        rw [List.find?_cons_of_neg (by simpa using other)]
        refine ih (roles.sublist ?_) later
        exact (List.sublist_cons_self first rest).filterMap _

namespace Patcher

/-- The new names that a renaming has for the places of a program. -/
def newName (config : PatchConfig) (prepared : Prepared) : Range → Option Text :=
  Renaming.newName (Renaming.prepare (start config prepared (scopesFor config prepared).value)).renames
    prepared.start prepared.root

section

variable {patcher : Patcher} {config : PatchConfig} {prepared : Prepared} {place : Range} {new : Text}

/-- A place with a new name belongs to a binding whose name is configured to get it. -/
theorem exists_binding_of_newName (named : newName config prepared place = some new) : ∃ ref binding,
    (ScopeTable.ofTree prepared.source prepared.start prepared.root).value.binding? ref = some binding ∧
      place ∈ binding.places ∧ (ref.name, new) ∈ config.renameIdentifiers := by
  rcases Renaming.exists_binding_of_get? (Renaming.newName_eq_some named).1 with
    fresh | ⟨old, entry, bound, mem, here⟩
  · cases fresh
  · change (old, new) ∈ config.renameIdentifiers at entry
    have some : config.renameIdentifiers.isEmpty = false := List.isEmpty_eq_false_iff_exists_mem.mpr ⟨_, entry⟩
    have analysed : (scopesFor config prepared).value =
        (ScopeTable.ofTree prepared.source prepared.start prepared.root).value := by
      rw [scopesFor, some]
      rfl
    change bound ∈ (scopesFor config prepared).value.bindingsNamed old at mem
    rw [analysed] at mem
    obtain ⟨known, name⟩ := List.mem_filter.mp mem
    have found := ScopeTable.binding?_of_mem_bindings
      (ScopeTable.Resolves.ofTree prepared.source prepared.start prepared.root).nodup known
    exact ⟨bound.1, bound.2, found, here, of_decide_eq_true name ▸ entry⟩

/-- A new name is configured for the name that it replaces. -/
theorem newName_configured (named : newName config prepared place = some new) :
    (place.text prepared.source, new) ∈ config.renameIdentifiers := by
  obtain ⟨ref, binding, found, here, entry⟩ := exists_binding_of_newName named
  rw [ScopeTable.text_of_places _ _ _ found here]
  exact entry

/-- In an export specifier, no alias gets a new name, and of the other children only the one that is given away. -/
theorem specified_newName (distinct : prepared.root.Distinct) (plain : prepared.root.Plain)
    (names : Sites.DeclareNames (Sites.ofTree prepared.start prepared.root)) {t : Tree}
    (mem : t ∈ prepared.root.nodes) (kind : t.kind = .exportSpecifier) :
    Specified (newName config prepared) t where
  aliased own child := by
    obtain ⟨d, stands, rfl⟩ := exists_place mem
    obtain ⟨c, up, rfl⟩ := Cursor.exists_child (Tree.mem_children_of_mem_child? (Option.mem_toList.mpr child))
    by_cases isName : c.kind.isName = true
    · rw [Option.eq_none_iff_forall_ne_some]
      intro new named
      have named : newName config prepared c.range = some new := (if_pos isName).symm.trans named
      obtain ⟨ref, binding, found, here, _⟩ := exists_binding_of_newName named
      exact ScopeTable.alias_not_place prepared.source distinct plain names ((whole_parent up).symm.trans stands)
        isName up kind child found here
    · exact if_neg isName
  named child below gets other := by
    obtain ⟨new, named⟩ := Option.isSome_iff_exists.mp gets
    obtain ⟨roles, played⟩ := plain.specifiers t mem kind
    exact Tree.child?_of_role roles below ((played child below (isName_of_newName? named)).2.resolve_right other)

/-- The script of a program with its own names is the program. -/
theorem bytes?_ofProgram_keep {source : Bytes} {root : Tree} (wf : root.WellFormed source) (plain : root.Plain) :
    (ofProgram source (fun _ => none) root).bytes? source = some source := by
  have renames : (Document.ofSource source).pane.Renames source root fun _ => none := by
    refine ⟨(Document.Disciplined.ofSource source root).sound wf, ?_, ?_⟩
    · intro edit none
      cases (Document.ofSource source).pane.edited_sublist.mem none
    · intro c _ new named
      rw [newName?_keep] at named
      cases named
  rw [← renames.bytes_ofProgram wf plain rfl rfl]
  have untouched : (Document.ofSource source).render = .ok source := Document.render_untouched rfl
  rw [Document.render_eq_assemble] at untouched
  exact congrArg Except.toOption untouched

/-- The code of a renamed program is the script of the program with the new names. -/
theorem renamed_code {front back : List RewritePass} (passes : patcher.passes = front ++ Renaming.pass :: back)
    (idle : ∀ pass ∈ front ++ back, pass.applies config = true → pass.Idle prepared.root)
    (wf : prepared.root.WellFormed prepared.source) (distinct : prepared.root.Distinct)
    (plain : prepared.root.Plain) :
    (finish prepared (patcher.rewrite config prepared).value).value.toOption.map (·.code) =
      ((ofProgram prepared.source (newName config prepared) prepared.root).bytes? prepared.source).map
        Utf8.decodeEscaped := by
  have made := rewrite_renaming passes config idle
  have source : (patcher.rewrite config prepared).value.doc.source = prepared.source := by
    rw [made, Renaming.source_walk, Renaming.prepare_doc]
    rfl
  have renames : (patcher.rewrite config prepared).value.doc.pane.Renames prepared.source prepared.root
      (newName config prepared) := by
    rw [made]
    exact Renaming.renames_walk wf distinct plain rfl
  have stop : (patcher.rewrite config prepared).value.doc.pane.stop = prepared.source.length := by
    rw [Document.pane, source]
  have code := finish_code prepared (patcher.rewrite config prepared).value
  rw [Document.render_eq_assemble, source] at code
  rw [← renames.bytes_ofProgram wf plain rfl stop]
  have told (patch : Except Failure Patch) : patch.toOption.map (·.code) = (patch.map (·.code)).toOption := by
    cases patch <;> rfl
  rw [told, code]
  cases Piece.assemble prepared.source (patcher.rewrite config prepared).value.doc.pane.pieces <;> rfl

/-- Renaming keeps the keys of a program and the names of its export specifiers. The names that exported declarations
declare get their new names, so what the program gives away stays the same if and only if none of them gets another
name. -/
theorem renamed_exports {front back : List RewritePass} (passes : patcher.passes = front ++ Renaming.pass :: back)
    (idle : ∀ pass ∈ front ++ back, pass.applies config = true → pass.Idle prepared.root)
    (wf : prepared.root.WellFormed prepared.source) (distinct : prepared.root.Distinct)
    (plain : prepared.root.Plain) (names : Sites.DeclareNames (Sites.ofTree prepared.start prepared.root)) :
    let source := prepared.source
    let new? := newName config prepared
    let before := ofProgram source (fun _ => none) prepared.root
    let after := ofProgram source new? prepared.root
    before.bytes? source = some source ∧
      (finish prepared (patcher.rewrite config prepared).value).value.toOption.map (·.code) =
        (after.bytes? source).map Utf8.decodeEscaped ∧
      (∀ place new, new? place = some new → (place.text source, new) ∈ config.renameIdentifiers) ∧
      after.keys source = before.keys source ∧
      after.specifiers source = before.specifiers source ∧
      after.declared source = (before.declared source).map (renamed new?) ∧
      (after.exports source = before.exports source ↔
        ∀ entry ∈ before.declared source, (renamed new? entry).2 = entry.2) := by
  intro source new? before after
  have specifiers : after.specifiers source = before.specifiers source :=
    specifiers_ofProgram wf.program fun t mem kind => specified_newName distinct plain names mem kind
  have declared : after.declared source = (before.declared source).map (renamed new?) := declared_ofProgram wf.program
  refine ⟨bytes?_ofProgram_keep wf plain, renamed_code passes idle wf distinct plain,
    fun _ _ named => newName_configured named, keys_ofProgram wf.program, specifiers, declared, ?_⟩
  rw [exports, exports, specifiers, declared, List.map_map, List.append_cancel_left_eq, List.map_inj_left]
  rfl

end

/-- The program `export const a=1;let d={a};export{d}`. -/
def exporting : Prepared :=
  let bytes := Utf8.asciiBytes "export const a=1;let d=\x7ba\x7d;export\x7bd\x7d"
  ⟨bytes, 0, Tree.ofSource .javascript bytes⟩

/-- The key and the name of the specifier are kept, but the constant is given away under its new name. -/
theorem exporting_renamed :
    let config := { PatchConfig.empty with renameIdentifiers := [("a", "b"), ("d", "e")] }
    let exports (new? : Range → Option Text) :=
      (ofProgram exporting.source new? exporting.root).exports exporting.source
    (∀ pass ∈ [Modules.pass] ++ [Removal.pass, Body.pass, TopLevelAwait.pass], pass.applies config = true →
        pass.Idle exporting.root) ∧
      exporting.root.WellFormed exporting.source ∧ exporting.root.Distinct ∧ exporting.root.Plain ∧
      Sites.DeclareNames (Sites.ofTree exporting.start exporting.root) ∧
      (finish exporting (standard.rewrite config exporting).value).value.toOption.map (·.code) =
        some "export const b=1;let e=\x7ba: b\x7d;export\x7be as d\x7d" ∧
      exports (fun _ => none) = ["d", "a"] ∧ exports (newName config exporting) = ["d", "b"] := by
  intro config exports
  have idle : ∀ pass ∈ [Modules.pass] ++ [Removal.pass, Body.pass, TopLevelAwait.pass],
      pass.applies config = true →
      pass.Idle exporting.root := by
    have modules : Modules.pass.Idle exporting.root := Modules.idle (by decide +kernel)
    have awaits : TopLevelAwait.pass.Idle exporting.root := TopLevelAwait.idle (by decide +kernel)
    simp [modules, awaits, Removal.pass, Body.pass, config, PatchConfig.empty]
  have shape : exporting.root.WellFormed exporting.source ∧ exporting.root.Plain ∧
      Sites.DeclareNames (Sites.ofTree exporting.start exporting.root) := by
    decide +kernel
  have distinct : exporting.root.Distinct := ⟨by decide +kernel, by decide +kernel, by decide +kernel⟩
  obtain ⟨_, code, _, _, _, _, _⟩ :=
    @renamed_exports standard _ _ _ _ rfl idle shape.1 distinct shape.2.1 shape.2.2
  refine ⟨idle, shape.1, distinct, shape.2.1, shape.2.2, ?_, ?_, ?_⟩
  · rw [code]
    decide +kernel
  · decide +kernel
  · decide +kernel

end Patcher

end Rebundle
