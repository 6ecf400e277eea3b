import Rebundle.Proofs.Scope.Knowledge
import Rebundle.Proofs.Scope.References

/-!
# The innermost declaration

The walk of an analysis goes through the places of a program and knows all about them in the end. Resolving changes
neither the scopes nor their names. So every reference belongs to the innermost scope around it that declares its
name, wherever the declaration stands.
-/

namespace Rebundle

open Cursor

namespace Sites

variable {source : Bytes} {root : Tree} {sites done later row : List Cursor} {walk : ScopeWalk}
  {c : Cursor}

/-- No node is taken for one above it. -/
theorem apart_above (apart : ∀ t ∈ root.nodes, ∀ child ∈ t.children, ∀ u ∈ child.nodes,
      ¬ (u.range = t.range ∧ u.kind = t.kind)) (stands : c.whole = root) :
    ∀ a ∈ c.above, ¬ (a.range = c.focus.range ∧ a.kind = c.focus.kind) := by
  rintro a above ⟨range, kind⟩
  obtain ⟨same, child, mem, below⟩ := mem_nodes_of_mem_above above
  have here : a.focus ∈ root.nodes := by
    rw [← stands, ← same]
    exact a.focus_mem_whole
  exact apart a.focus here child mem c.focus below ⟨range.symm, kind.symm⟩

/-! Leaving a node closes the scope that the node opened, and no other one. -/

theorem leave_apart {t : Tree} (opened : walk.opened = openedBy sites root row)
    (apart : ∀ a ∈ row, ¬ (a.range = t.range ∧ a.kind = t.kind)) : walk.leave t = walk := by
  rw [ScopeWalk.leave, opened, openedBy]
  cases found : row.filter Cursor.opens with
  | nil => rfl
  | cons a rest =>
      have other := apart a (List.mem_of_mem_filter (found ▸ List.mem_cons_self))
      cases rest <;> exact if_neg other

theorem opened_leave (opened : walk.opened = openedBy sites root (c :: c.above))
    (apart : ∀ a ∈ c.above, ¬ (a.range = c.focus.range ∧ a.kind = c.focus.kind)) :
    (walk.leave c.focus).opened = openedBy sites root c.above := by
  by_cases opens : c.opens = true
  · rw [openedBy, List.filter_cons_of_pos opens] at opened
    rw [ScopeWalk.leave, opened, openedBy]
    cases c.above.filter Cursor.opens <;> exact congrArg ScopeWalk.opened (if_pos ⟨rfl, rfl⟩)
  · rw [openedBy, List.filter_cons_of_neg opens] at opened
    rw [leave_apart opened apart]
    exact opened

theorem Knows.leave (knows : Knows sites source root done walk) (t : Tree) :
    Knows sites source root done (walk.leave t) := by
  rw [ScopeWalk.leave]
  split
  · split
    · exact ⟨knows.length, knows.program, knows.frames, knows.inner, knows.declared, knows.names,
        knows.ignored, knows.bodies, knows.pending⟩
    · exact knows
  · exact knows

theorem Inside.leave (inside : Inside sites source root (c :: c.above) done walk)
    (distinct : root.Distinct) (stands : c.whole = root) :
    Inside sites source root c.above done (walk.leave c.focus) where
  knows := inside.knows.leave c.focus
  opened := opened_leave inside.opened (apart_above distinct.above stands)
  behind a above := inside.behind a (List.mem_cons_of_mem _ above)

/-! Going through a node, an analysis learns all about its places, and then the same scopes are open. -/

mutual

theorem inside_descend {skipBefore : Nat} (arranged : Arranged root sites) (distinct : root.Distinct) :
    ∀ {path : List Crumb} {t : Tree} {done later : List Cursor} {walk : ScopeWalk},
      sites = done ++ (entered (skips skipBefore) path t ++ later) → (⟨t, path⟩ : Cursor).whole = root →
      Inside sites source root (⟨t, path⟩ : Cursor).above done walk →
      Inside sites source root (⟨t, path⟩ : Cursor).above (done ++ entered (skips skipBefore) path t)
        ((ScopeWalk.visitor source skipBefore).descend path t walk)
  | path, .node label children, done, later, walk, split, stands, inside => by
      rw [entered] at split ⊢
      rw [Visitor.descend]
      by_cases skipped : skips skipBefore (.node label children) = true
      · have enter : (ScopeWalk.visitor source skipBefore).enter ⟨.node label children, path⟩ walk =
            (false, walk) := if_pos skipped
        have left : (ScopeWalk.visitor source skipBefore).leave ⟨.node label children, path⟩ walk = walk :=
          leave_apart inside.opened (apart_above distinct.above stands)
        rw [if_pos skipped, List.append_nil, enter]
        dsimp only
        rw [if_neg Bool.false_ne_true, left]
        exact inside
      · have enter : (ScopeWalk.visitor source skipBefore).enter ⟨.node label children, path⟩ walk =
            (true, walk.enter source ⟨.node label children, path⟩) := if_neg skipped
        rw [if_neg skipped, List.cons_append] at split
        have entering := inside.enter arranged split distinct
        rw [← List.singleton_append, ← List.append_assoc] at split
        have below := inside_descendAll arranged distinct split stands entering
        rw [List.append_assoc] at below
        rw [if_neg skipped, enter]
        exact below.leave distinct stands

theorem inside_descendAll {skipBefore : Nat} (arranged : Arranged root sites) (distinct : root.Distinct) :
    ∀ {path : List Crumb} {label : Label} {before row : List Tree}
      {done later : List Cursor} {walk : ScopeWalk},
      sites = done ++ (enteredAll (skips skipBefore) path label before row ++ later) →
      (⟨.node label (before.reverse ++ row), path⟩ : Cursor).whole = root →
      Inside sites source root (⟨.node label (before.reverse ++ row), path⟩ ::
        (⟨.node label (before.reverse ++ row), path⟩ : Cursor).above) done walk →
      Inside sites source root (⟨.node label (before.reverse ++ row), path⟩ ::
          (⟨.node label (before.reverse ++ row), path⟩ : Cursor).above)
        (done ++ enteredAll (skips skipBefore) path label before row)
        ((ScopeWalk.visitor source skipBefore).descendAll path label before row walk)
  | path, label, before, [], done, later, walk, split, stands, inside => by
      rw [enteredAll, List.append_nil done, Visitor.descendAll]
      exact inside
  | path, label, before, t :: rest, done, later, walk, split, stands, inside => by
      rw [enteredAll, List.append_assoc] at split
      have first : Inside sites source root (⟨.node label (before.reverse ++ t :: rest), path⟩ ::
          (⟨.node label (before.reverse ++ t :: rest), path⟩ : Cursor).above)
          (done ++ entered (skips skipBefore) (⟨label, before, rest⟩ :: path) t)
          ((ScopeWalk.visitor source skipBefore).descend (⟨label, before, rest⟩ :: path) t walk) :=
        inside_descend arranged distinct split stands inside
      rw [← List.append_assoc] at split
      rw [← rotate] at stands first ⊢
      rw [enteredAll, Visitor.descendAll, ← List.append_assoc]
      exact inside_descendAll arranged distinct split stands first

end

theorem arranged_ofTree (skipBefore : Nat) (root : Tree) : Arranged root (ofTree skipBefore root) where
  nodup := nodup_entered _ _ root
  stands _ mem := whole_of_mem_entered mem

/-- In the end an analysis knows all about the places of the program. -/
theorem knows_walk (source : Bytes) (skipBefore : Nat) (distinct : root.Distinct) :
    Knows (ofTree skipBefore root) source root (ofTree skipBefore root)
      (ScopeTable.walk source skipBefore root) := by
  have start : Inside (ofTree skipBefore root) source root [] []
      (ScopeWalk.start.openScope .program root) := by
    refine ⟨⟨rfl, rfl, by simp, by simp, ?_, ?_, ?_, ?_, rfl⟩, rfl, by simp⟩
    · simp [ScopeWalk.openScope, ScopeWalk.start, declarations]
    · intro i name
      simp only [ScopeWalk.openScope, ScopeWalk.start]
      rw [Scope.declared_append]
      simp [Scope.declared, declarations, firsts]
    · simp [ScopeWalk.openScope, ScopeWalk.start]
    · simp [ScopeWalk.openScope, ScopeWalk.start]
  have split : ofTree skipBefore root = [] ++ (entered (skips skipBefore) [] root ++ []) :=
    (List.append_nil _).symm
  rw [ScopeTable.walk, Visitor.walk_eq_descend]
  exact (inside_descend (arranged_ofTree skipBefore root) distinct split rfl start).knows

end Sites

open Sites

/-! Resolving keeps the scopes and their names. -/

theorem Scope.frame_refer (name : Text) (place : Range) (scope : Scope) :
    (scope.refer name place).frame = scope.frame := by
  rw [refer]
  split <;> rfl

/-- Whether a table has the scopes of a walk with the same names. -/
structure ScopeTable.Keeps (scopes : List Scope) (table : ScopeTable) : Prop where
  frames : table.scopes.map Scope.frame = scopes.map Scope.frame
  declared : ∀ i, Scope.declared table.scopes i = Scope.declared scopes i

namespace ScopeTable

variable {scopes : List Scope} {table : ScopeTable} {ref : BindingRef}

namespace Keeps

theorem resolve (keeps : table.Keeps scopes) (reference : PendingReference) :
    (ScopeWalk.resolve table reference).Keeps scopes where
  frames := by
    rw [← keeps.frames, ScopeWalk.resolve]
    split
    · rfl
    · exact Scope.map_frame_modify (Scope.frame_refer _ _)
  declared i := by rw [ScopeWalk.declared_resolve, keeps.declared]

theorem foldl (keeps : table.Keeps scopes) (row : List PendingReference) :
    (row.foldl ScopeWalk.resolve table).Keeps scopes := by
  induction row generalizing table with
  | nil => exact keeps
  | cons reference rest ih => exact ih (keeps.resolve reference)

theorem target_eq (keeps : table.Keeps scopes) (reference : PendingReference) :
    reference.target table.scopes = reference.target scopes := by
  have chains : Scope.chain table.scopes reference.scope = Scope.chain scopes reference.scope := by
    apply Scope.chain_congr
    intro i
    have same := congrArg (fun frames => frames[i]?.map (·.2.2)) keeps.frames
    simp only [List.getElem?_map, Option.map_map] at same
    exact same
  simp only [PendingReference.target, Scope.lookup_eq_find?, chains, keeps.declared]

end Keeps

theorem keeps_ofTree (source : Bytes) (skipBefore : Nat) (root : Tree) :
    (ofTree source skipBefore root).value.Keeps (walk source skipBefore root).scopes := by
  have start : Keeps (walk source skipBefore root).scopes ⟨(walk source skipBefore root).scopes, [],
      (walk source skipBefore root).byPlace⟩ := ⟨rfl, fun _ => rfl⟩
  exact start.foldl _

theorem isSome_binding? : (table.binding? ref).isSome = true ↔
    ref.name ∈ Scope.declared table.scopes ref.scope := by
  rw [binding?, Scope.declared]
  cases table.scopes[ref.scope]? with
  | none => simp
  | some scope => exact Table.contains_iff

/-! A place that is referred from once keeps the binding that it sees. -/

theorem bindingFor_resolve {reference : PendingReference} {place : Range}
    (other : reference.place ≠ place) :
    (ScopeWalk.resolve table reference).bindingFor place = table.bindingFor place := by
  rw [ScopeWalk.resolve]
  split
  · rfl
  · exact Table.get?_put_of_ne other.symm _ _

theorem bindingFor_foldl_of_not {row : List PendingReference} {place : Range}
    (absent : place ∉ row.map (·.place)) :
    (row.foldl ScopeWalk.resolve table).bindingFor place = table.bindingFor place := by
  induction row generalizing table with
  | nil => rfl
  | cons reference rest ih =>
      rw [List.map_cons, List.mem_cons, not_or] at absent
      exact (ih absent.2).trans (bindingFor_resolve (Ne.symm absent.1))

theorem bindingFor_foldl {row : List PendingReference} {reference : PendingReference}
    (mem : reference ∈ row) (once : (row.map (·.place)).Nodup)
    (sees : reference.target table.scopes = some ref) :
    (row.foldl ScopeWalk.resolve table).bindingFor reference.place = some ref := by
  induction row generalizing table with
  | nil => cases mem
  | cons first rest ih =>
      obtain ⟨absent, once⟩ := List.nodup_cons.mp once
      rcases List.mem_cons.mp mem with rfl | later
      · refine (bindingFor_foldl_of_not absent).trans ?_
        rw [PendingReference.target] at sees
        rw [ScopeWalk.resolve, sees]
        exact Table.get?_put_self _ _ _
      · exact ih later once ((ScopeWalk.target_resolve table first reference).trans sees)

end ScopeTable

/-! The references of a program are names among its places. -/

namespace Sites

variable {source : Bytes} {root : Tree} {sites : List Cursor} {walk : ScopeWalk} {c : Cursor}

theorem sublist_referencesFrom (sites before row : List Cursor) :
    (referencesFrom sites before row).Sublist row := by
  induction row generalizing before with
  | nil => exact List.Sublist.refl _
  | cons c rest ih =>
      rw [referencesFrom]
      split
      · exact (ih _).cons_cons c
      · exact (ih _).cons c

theorem isName_of_mem_referencesFrom {before row : List Cursor} (mem : c ∈ referencesFrom sites before row) :
    c.kind.isName = true := by
  induction row generalizing before with
  | nil => cases mem
  | cons d rest ih =>
      rw [referencesFrom] at mem
      split at mem
      · rename_i reference
        rcases List.mem_cons.mp mem with rfl | later
        · rw [isReference, Bool.and_eq_true, Bool.and_eq_true] at reference
          exact reference.1.1
        · exact ih later
      · exact ih mem

theorem mem_of_mem_references (mem : c ∈ references sites) : c ∈ sites :=
  (sublist_referencesFrom sites [] sites).subset mem

/-- No two references share a range. -/
theorem nodup_references (arranged : Arranged root sites) (distinct : root.Distinct) :
    ((references sites).map Cursor.range).Nodup := by
  apply List.Nodup.map_on
  · intro c mem d mem' same
    exact eq_of_range_eq distinct.names (arranged.stands c (mem_of_mem_references mem))
      (arranged.stands d (mem_of_mem_references mem')) (isName_of_mem_referencesFrom mem)
      (isName_of_mem_referencesFrom mem') same
  · exact arranged.nodup.of_map.sublist (sublist_referencesFrom sites [] sites)

/-- Names open no scope, so they see the scopes around them. -/
theorem seenFrom_of_isName (name : c.kind.isName = true) : seenFrom sites c = around sites c := by
  have closed : ¬ c.opens = true := by
    rw [Cursor.opens, Cursor.opens?]
    split
    · rename_i function
      rw [ScopeWalk.isName_of (.inl function)] at name
      cases name
    · split
      · rename_i block
        rw [ScopeWalk.isName_of (.inr (.inl block))] at name
        cases name
      · split
        · rename_i cls
          rw [beq_iff_eq.mp cls] at name
          cases name
        · exact Bool.false_ne_true
  rw [seenFrom, List.filter_cons_of_neg closed, around]

theorem mem_declared_iff (knows : Knows sites source root sites walk) (i : Nat) (name : Text) :
    name ∈ Scope.declared walk.scopes i ↔ declares sites source i name = true := by
  rw [knows.names, declares, List.any_eq_true]
  constructor
  · rintro ⟨n, mem, text⟩
    exact ⟨(i, n), mem, by simpa using text⟩
  · rintro ⟨⟨j, n⟩, mem, holds⟩
    rw [Bool.and_eq_true, beq_iff_eq, beq_iff_eq] at holds
    obtain ⟨rfl, text⟩ := holds
    exact ⟨n, mem, text⟩

/-- Where no place is declared twice, a scope declares a name when some node declares it there. What
stands first does not matter. -/
theorem declares_iff (once : ((declarations sites sites).map (·.2.range)).Nodup) (i : Nat) (name : Text) :
    declares sites source i name = true ↔ ∃ c ∈ sites, ∃ naming ∈ c.focus.namings,
      holder sites c naming.holder = i ∧ naming.name.text source = name := by
  rw [declares, firsts_eq_self once fun _ _ => List.not_mem_nil, List.any_eq_true]
  simp only [declarations, declaredBy, List.mem_flatMap, List.mem_map, Bool.and_eq_true, beq_iff_eq]
  constructor
  · rintro ⟨_, ⟨c, mem, naming, here, rfl⟩, holds⟩
    exact ⟨c, mem, naming, here, holds⟩
  · rintro ⟨c, mem, naming, here, holds⟩
    exact ⟨_, ⟨c, mem, naming, here, rfl⟩, holds⟩

/-- A reference is resolved to the innermost scope around it that declares its name. -/
theorem target_collected (knows : Knows sites source root sites walk) (name : c.kind.isName = true)
    (behind : ∀ a ∈ c.above, a ∈ sites) :
    (collected sites source c).target walk.scopes = seen sites source c := by
  have declared (i : Nat) (name : Text) :
      (Scope.declared walk.scopes i).contains name = declares sites source i name := by
    rw [Bool.eq_iff_iff, List.contains_iff_mem, mem_declared_iff knows]
  rw [PendingReference.target, collected, Scope.lookup_eq_find?, knows.chain_eq behind, seen,
    seenFrom_of_isName name]
  simp only [declared]

end Sites

namespace ScopeTable

/-- Whether the scopes of a table are those that the nodes of a program open, whether every scope has the
names that are declared in it, and whether every reference belongs to its name in the innermost scope around
it that declares the name. -/
structure Innermost (source : Bytes) (root : Tree) (sites : List Cursor) (table : ScopeTable) : Prop where
  length : table.scopes.length = (sites.filter Cursor.opens).length + 1
  program : (table.scopes.map Scope.frame)[0]? = some (.program, root.range, none)
  opened : ∀ c ∈ sites, ∀ kind, c.opens? = some kind →
    (table.scopes.map Scope.frame)[number sites c]? = some (kind, c.range, some (scopeAround sites c))
  declared : ∀ i name, name ∈ Scope.declared table.scopes i ↔ declares sites source i name = true
  bound : ∀ ref binding, table.binding? ref = some binding → binding.references =
    ((references sites).filter fun c => seen sites source c = some ref).map Cursor.range
  free : table.unresolved = ((references sites).filter fun c => seen sites source c = none).map
    fun c => (c.focus.text source, c.range)
  attached : ∀ c ∈ references sites, ∀ ref,
    (∃ binding, table.binding? ref = some binding ∧ c.range ∈ binding.references) ↔
      seen sites source c = some ref
  found : ∀ c ∈ references sites, ∀ ref, seen sites source c = some ref →
    table.bindingFor c.range = some ref
  unresolved : ∀ c ∈ references sites,
    (c.focus.text source, c.range) ∈ table.unresolved ↔ seen sites source c = none

section

variable (source : Bytes) (skipBefore : Nat) {root : Tree} (distinct : root.Distinct)

include distinct

/-- What the references of a program are resolved to. -/
theorem target_ofTree {c : Cursor} (mem : c ∈ references (Sites.ofTree skipBefore root)) :
    (collected (Sites.ofTree skipBefore root) source c).target (walk source skipBefore root).scopes =
      seen (Sites.ofTree skipBefore root) source c := by
  refine target_collected (knows_walk source skipBefore distinct) (isName_of_mem_referencesFrom mem) ?_
  intro a above
  rcases above_of_mem_entered (mem_of_mem_references mem) above with here | none
  · exact here
  · cases none

/-- The references that are resolved in some way. -/
theorem filter_pending (p : Option BindingRef → Bool) :
    (walk source skipBefore root).pending.filter
        (fun reference => p (reference.target (ofTree source skipBefore root).value.scopes)) =
      ((references (Sites.ofTree skipBefore root)).filter fun c =>
        p (seen (Sites.ofTree skipBefore root) source c)).map
          (collected (Sites.ofTree skipBefore root) source) := by
  rw [(knows_walk source skipBefore distinct).pending, List.filter_map]
  congr 1
  apply List.filter_congr
  intro c mem
  rw [Function.comp_apply, (keeps_ofTree source skipBefore root).target_eq,
    target_ofTree source skipBefore distinct mem]

theorem references_ofTree {ref : BindingRef} {binding : Binding}
    (found : (ofTree source skipBefore root).value.binding? ref = some binding) :
    binding.references = ((references (Sites.ofTree skipBefore root)).filter fun c =>
      seen (Sites.ofTree skipBefore root) source c = some ref).map Cursor.range := by
  rw [(Resolves.ofTree source skipBefore root).references ref binding found,
    filter_pending source skipBefore distinct (· = some ref), List.map_map]
  rfl

theorem unresolved_ofTree :
    (ofTree source skipBefore root).value.unresolved =
      ((references (Sites.ofTree skipBefore root)).filter fun c =>
        seen (Sites.ofTree skipBefore root) source c = none).map
          fun c => (c.focus.text source, c.range) := by
  rw [(Resolves.ofTree source skipBefore root).unresolved,
    filter_pending source skipBefore distinct (· = none), List.map_map]
  rfl

/-- The references have their ranges for themselves. -/
theorem eq_of_references {c d : Cursor} (mem : c ∈ references (Sites.ofTree skipBefore root))
    (mem' : d ∈ references (Sites.ofTree skipBefore root)) (same : c.range = d.range) : c = d :=
  List.inj_on_of_nodup_map (nodup_references (arranged_ofTree skipBefore root) distinct) mem mem' same

theorem attached_ofTree {c : Cursor} (mem : c ∈ references (Sites.ofTree skipBefore root))
    (ref : BindingRef) :
    (∃ binding, (ofTree source skipBefore root).value.binding? ref = some binding ∧
        c.range ∈ binding.references) ↔
      seen (Sites.ofTree skipBefore root) source c = some ref := by
  constructor
  · rintro ⟨binding, found, place⟩
    rw [references_ofTree source skipBefore distinct found] at place
    obtain ⟨d, kept, same⟩ := List.mem_map.mp place
    obtain ⟨mem', sees⟩ := List.mem_filter.mp kept
    rw [← eq_of_references skipBefore distinct mem' mem same]
    exact of_decide_eq_true sees
  · intro sees
    obtain ⟨i, found, rfl⟩ := Option.map_eq_some_iff.mp sees
    have holds : declares (Sites.ofTree skipBefore root) source i (c.focus.text source) = true := by
      have holds := List.find?_some found
      exact holds
    have declared : ((ofTree source skipBefore root).value.binding? ⟨i, c.focus.text source⟩).isSome =
        true := by
      rw [isSome_binding?, (keeps_ofTree source skipBefore root).declared,
        mem_declared_iff (knows_walk source skipBefore distinct)]
      exact holds
    obtain ⟨binding, known⟩ := Option.isSome_iff_exists.mp declared
    refine ⟨binding, known, ?_⟩
    rw [references_ofTree source skipBefore distinct known]
    exact List.mem_map_of_mem (List.mem_filter.mpr ⟨mem, decide_eq_true sees⟩)

theorem bindingFor_ofTree {c : Cursor} (mem : c ∈ references (Sites.ofTree skipBefore root))
    {ref : BindingRef} (sees : seen (Sites.ofTree skipBefore root) source c = some ref) :
    (ofTree source skipBefore root).value.bindingFor c.range = some ref := by
  have pending := (knows_walk source skipBefore distinct).pending
  have collects : collected (Sites.ofTree skipBefore root) source c ∈
      (walk source skipBefore root).pending := by
    rw [pending]
    exact List.mem_map_of_mem mem
  have once : ((walk source skipBefore root).pending.map (·.place)).Nodup := by
    rw [pending, List.map_map]
    exact nodup_references (arranged_ofTree skipBefore root) distinct
  exact bindingFor_foldl collects once ((target_ofTree source skipBefore distinct mem).trans sees)

theorem mem_unresolved_ofTree {c : Cursor} (mem : c ∈ references (Sites.ofTree skipBefore root)) :
    (c.focus.text source, c.range) ∈ (ofTree source skipBefore root).value.unresolved ↔
      seen (Sites.ofTree skipBefore root) source c = none := by
  rw [unresolved_ofTree source skipBefore distinct, List.mem_map]
  constructor
  · rintro ⟨d, kept, same⟩
    obtain ⟨mem', sees⟩ := List.mem_filter.mp kept
    rw [← eq_of_references skipBefore distinct mem' mem (Prod.mk.inj same).2]
    exact of_decide_eq_true sees
  · intro sees
    exact ⟨c, List.mem_filter.mpr ⟨mem, decide_eq_true sees⟩, rfl⟩

end

/-- The analysis of a program resolves every reference to the innermost scope around it that declares its
name, wherever the declaration stands, and leaves it free when there is none. -/
theorem ofTree_innermost (source : Bytes) (skipBefore : Nat) {root : Tree} (distinct : root.Distinct) :
    (ofTree source skipBefore root).value.Innermost source root (Sites.ofTree skipBefore root) := by
  have knows := knows_walk source skipBefore distinct
  have keeps := keeps_ofTree source skipBefore root
  refine ⟨?_, ?_, ?_, ?_, ?_, ?_, ?_, ?_, ?_⟩
  · rw [← knows.length, ← List.length_map Scope.frame, keeps.frames, List.length_map]
  · rw [keeps.frames]
    exact knows.program
  · rw [keeps.frames]
    exact knows.frames
  · intro i name
    rw [keeps.declared]
    exact mem_declared_iff knows i name
  · intro ref binding found
    exact references_ofTree source skipBefore distinct found
  · exact unresolved_ofTree source skipBefore distinct
  · intro c mem ref
    exact attached_ofTree source skipBefore distinct mem ref
  · intro c mem ref sees
    exact bindingFor_ofTree source skipBefore distinct mem sees
  · intro c mem
    exact mem_unresolved_ofTree source skipBefore distinct mem

/-- The program `x=>{{y;var y}z}`. -/
def hoisting : Bytes :=
  [0x78, 0x3D, 0x3E, 0x7B, 0x7B, 0x79, 0x3B, 0x76, 0x61, 0x72, 0x20, 0x79, 0x7D, 0x7A, 0x7D]

def hoisted : Tree :=
  let leaf (kind : Kind) (role : Option Role) (start stop : Nat) : Tree :=
    .node ⟨kind, role, ⟨start, stop⟩, false⟩ []
  .node ⟨.program, none, ⟨0, 15⟩, false⟩ [
    .node ⟨.expressionStatement, none, ⟨0, 15⟩, false⟩ [
      .node ⟨.arrowFunction, none, ⟨0, 15⟩, false⟩ [
        leaf .identifier (some .parameter) 0 1, leaf (.token "=>") none 1 3,
        .node ⟨.statementBlock, some .body, ⟨3, 15⟩, false⟩ [
          leaf (.token "\x7b") none 3 4,
          .node ⟨.statementBlock, none, ⟨4, 13⟩, false⟩ [
            leaf (.token "\x7b") none 4 5,
            .node ⟨.expressionStatement, none, ⟨5, 7⟩, false⟩ [
              leaf .identifier none 5 6, leaf (.token ";") none 6 7],
            .node ⟨.variableDeclaration, none, ⟨7, 12⟩, false⟩ [
              leaf (.token "var") (some .kind) 7 10,
              .node ⟨.variableDeclarator, none, ⟨11, 12⟩, false⟩ [
                leaf .identifier (some .name) 11 12]],
            leaf (.token "\x7d") none 12 13],
          .node ⟨.expressionStatement, none, ⟨13, 14⟩, false⟩ [leaf .identifier none 13 14],
          leaf (.token "\x7d") none 14 15]]]]

theorem hoisted_innermost : hoisted.Distinct ∧
    (ofTree hoisting 0 hoisted).value.Innermost hoisting hoisted (Sites.ofTree 0 hoisted) := by
  have distinct : hoisted.Distinct := ⟨by decide +kernel, by decide +kernel, by decide +kernel⟩
  exact ⟨distinct, ofTree_innermost hoisting 0 distinct⟩

/-- The first `y` stands in front of its declaration and in a block, and belongs to the function. -/
example : (references (Sites.ofTree 0 hoisted)).map (seen (Sites.ofTree 0 hoisted) hoisting) =
    [some ⟨1, "y"⟩, none] := by
  decide +kernel

end ScopeTable

end Rebundle
