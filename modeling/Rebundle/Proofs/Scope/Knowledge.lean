import Rebundle.Proofs.Scope.Additions

/-!
# What an analysis knows on its way

A walk has gone through some of the places of a program and stands at another one. It knows what the
places behind it open, declare, hide and refer to, and the open scopes are those of the nodes above it.
-/

namespace Rebundle

open Cursor

/-- Whether no node is mistaken for another: none has the range and the kind of a node above it, no two
names share a range, and no two blocks share a range. -/
structure Tree.Distinct (root : Tree) : Prop where
  above : ∀ t ∈ root.nodes, ∀ child ∈ t.children, ∀ u ∈ child.nodes,
    ¬ (u.range = t.range ∧ u.kind = t.kind)
  names : ((root.nodes.filter fun t => t.kind.isName).map Tree.range).Nodup
  blocks : ((root.nodes.filter fun t => t.kind.opensBlock).map Tree.range).Nodup

/-- Whether no two blocks share a range. -/
def Tree.BlocksApart (root : Tree) : Prop :=
  ((root.nodes.filter fun t => t.kind.opensBlock).map Tree.range).Nodup

namespace Scope

variable {scopes : List Scope} {i parent : Nat} {kind : ScopeKind} {range : Range} {outer : Option Nat}

theorem of_frame (known : (scopes.map frame)[i]? = some (kind, range, outer)) :
    ∃ scope, scopes[i]? = some scope ∧ scope.kind = kind ∧ scope.parent = outer := by
  rw [List.getElem?_map] at known
  obtain ⟨scope, found, same⟩ := Option.map_eq_some_iff.mp known
  rw [frame, Prod.mk.injEq, Prod.mk.injEq] at same
  exact ⟨scope, found, same.1, same.2.2⟩

theorem varHolder_own (known : (scopes.map frame)[i]? = some (kind, range, outer))
    (holds : kind.holdsVars = true) : varHolder scopes i = i := by
  obtain ⟨scope, found, same, _⟩ := of_frame known
  rw [varHolder, found]
  dsimp only
  rw [same, if_pos holds]

theorem varHolder_outer (known : (scopes.map frame)[i]? = some (kind, range, some parent))
    (passes : kind.holdsVars = false) (inner : parent < i) :
    varHolder scopes i = varHolder scopes parent := by
  obtain ⟨scope, found, same, up⟩ := of_frame known
  rw [varHolder, found]
  dsimp only
  rw [same, passes, if_neg Bool.false_ne_true, up]
  exact if_pos inner

theorem chain_outermost (known : (scopes.map frame)[i]? = some (kind, range, none)) :
    chain scopes i = [i] := by
  obtain ⟨scope, found, _, up⟩ := of_frame known
  rw [chain, found]
  dsimp only
  rw [up]

theorem chain_inner (known : (scopes.map frame)[i]? = some (kind, range, some parent))
    (inner : parent < i) : chain scopes i = i :: chain scopes parent := by
  obtain ⟨scope, found, _, up⟩ := of_frame known
  rw [chain, found]
  dsimp only
  rw [up]
  exact congrArg (i :: ·) (if_pos inner)

end Scope

namespace Sites

/-- Places of one program, each of them once. -/
structure Arranged (root : Tree) (sites : List Cursor) : Prop where
  nodup : (sites.map address).Nodup
  stands : ∀ c ∈ sites, c.whole = root

variable {source : Bytes} {root : Tree} {sites done later : List Cursor} {walk : ScopeWalk} {c d : Cursor}

/-- The number of a scope tells how many scopes are opened before it. -/
theorem number_eq (arranged : Arranged root sites) (split : sites = done ++ c :: later)
    (opens : c.opens = true) : number sites c = (done.filter Cursor.opens).length + 1 := by
  have absent : c.address ∉ (done.filter Cursor.opens).map address := by
    intro mem
    obtain ⟨d, here, same⟩ := List.mem_map.mp mem
    have nodup := arranged.nodup
    rw [split, List.map_append, List.nodup_append] at nodup
    exact nodup.2.2 c.address (same ▸ List.mem_map_of_mem (List.mem_of_mem_filter here)) c.address
      (List.mem_map_of_mem List.mem_cons_self) rfl
  rw [number, split, List.filter_append, List.filter_cons_of_pos opens, List.map_append, List.map_cons,
    List.idxOf_append_of_notMem absent, List.idxOf_cons_self, List.length_map, Nat.add_zero]

variable (sites)

/-- A scope as it stays once a node has opened it. -/
def frame (kind : ScopeKind) (c : Cursor) : ScopeKind × Range × Option Nat :=
  (kind, c.range, some (scopeAround sites c))

/-- The entry of the scope that a node opens among the open scopes. -/
def entry (c : Cursor) : OpenScope := ⟨c.range, c.kind, number sites c⟩

/-- The open scopes of some nodes, and below them the one of the program. -/
def openedBy (root : Tree) (row : List Cursor) : List OpenScope :=
  (row.filter Cursor.opens).map (entry sites) ++ [⟨root.range, root.kind, 0⟩]

/-- What is collected at a reference. -/
def collected (source : Bytes) (c : Cursor) : PendingReference :=
  ⟨c.focus.text source, c.range, scopeAround sites c⟩

/-- What a node adds to the knowledge about the places before it. -/
def told (source : Bytes) (done : List Cursor) (c : Cursor) : Delta where
  frames := c.opens?.toList.map (frame sites · c)
  opened := c.opens?.toList.map fun _ => entry sites c
  declared := declaredBy sites c
  ignored := c.foreign.map Tree.range
  bodies := c.focus.functionBody?.toList.map Tree.range
  pending := if isReference sites done c then [collected sites source c] else []

/-- Whether an analysis knows all about the places behind it. -/
structure Knows (source : Bytes) (root : Tree) (done : List Cursor) (walk : ScopeWalk) : Prop where
  length : walk.scopes.length = (done.filter Cursor.opens).length + 1
  program : (walk.scopes.map Scope.frame)[0]? = some (.program, root.range, none)
  frames : ∀ c ∈ done, ∀ kind, c.opens? = some kind →
    (walk.scopes.map Scope.frame)[number sites c]? = some (frame sites kind c)
  inner : ∀ c ∈ done, c.opens = true → scopeAround sites c < number sites c
  declared : ∀ r, r ∈ walk.declared ↔ r ∈ (declarations sites done).map (·.2.range)
  names : ∀ i name, name ∈ Scope.declared walk.scopes i ↔
    ∃ n, (i, n) ∈ firsts [] (declarations sites done) ∧ n.text source = name
  ignored : ∀ r, r ∈ walk.ignored ↔ r ∈ (done.flatMap foreign).map Tree.range
  bodies : ∀ r, r ∈ walk.bodies ↔ r ∈ done.flatMap fun c => c.focus.functionBody?.toList.map Tree.range
  pending : walk.pending = (referencesFrom sites [] done).map (collected sites source)

/-- Whether an analysis stands right below a node, when the row consists of the node and those above it. -/
structure Inside (source : Bytes) (root : Tree) (row done : List Cursor) (walk : ScopeWalk) : Prop where
  knows : Knows sites source root done walk
  opened : walk.opened = openedBy sites root row
  behind : ∀ a ∈ row, a ∈ done

variable {sites}

theorem declarations_append (sites row : List Cursor) (c : Cursor) :
    declarations sites (row ++ [c]) = declarations sites row ++ declaredBy sites c := by
  rw [declarations, List.flatMap_append, List.flatMap_singleton]
  rfl

theorem referencesFrom_append (sites before row : List Cursor) (c : Cursor) :
    referencesFrom sites before (row ++ [c]) = referencesFrom sites before row ++
      if isReference sites (before ++ row) c then [c] else [] := by
  induction row generalizing before with
  | nil => simp [referencesFrom]
  | cons d rest ih =>
      have next := ih (before ++ [d])
      rw [List.append_assoc, List.singleton_append] at next
      simp only [List.cons_append, referencesFrom, next]
      split <;> rfl

/-! The scopes around a node are those around its parent and the one that the parent opens. -/

theorem above_top (none : c.parent? = none) : c.above = [] := by
  rwa [parent?_eq, List.head?_eq_none_iff] at none

theorem around_top (none : c.parent? = none) : around sites c = [0] := by
  rw [around, above_top none]
  rfl

theorem around_opens (up : c.parent? = some d) (opens : d.opens = true) :
    around sites c = number sites d :: around sites d := by
  rw [around, around, above_eq up, List.filter_cons_of_pos opens]
  rfl

theorem around_of_not (up : c.parent? = some d) (opens : ¬ d.opens = true) :
    around sites c = around sites d := by
  rw [around, around, above_eq up, List.filter_cons_of_neg opens]

theorem functionAround_top (none : c.parent? = none) : functionAround sites c = 0 := by
  rw [functionAround, above_top none]
  rfl

theorem functionAround_function (up : c.parent? = some d) (function : d.opens? = some .function) :
    functionAround sites c = number sites d := by
  rw [functionAround, above_eq up, List.filter_cons_of_pos (by simpa using function)]
  rfl

theorem functionAround_of_not (up : c.parent? = some d) (other : d.opens? ≠ some .function) :
    functionAround sites c = functionAround sites d := by
  rw [functionAround, functionAround, above_eq up, List.filter_cons_of_neg (by simpa using other)]

/-! The bodies of functions. -/

theorem isBody_iff : c.isBody = true ↔
    ∃ d body, c.parent? = some d ∧ d.focus.functionBody? = some body ∧ body.range = c.range := by
  rw [isBody, Option.any_eq_true]
  constructor
  · rintro ⟨body, found, same⟩
    obtain ⟨d, up, function⟩ := Option.bind_eq_some_iff.mp found
    exact ⟨d, body, up, function, beq_iff_eq.mp same⟩
  · rintro ⟨d, body, up, function, same⟩
    exact ⟨body, Option.bind_eq_some_iff.mpr ⟨d, up, function⟩, beq_iff_eq.mpr same⟩

/-- The block that has the range of the body of a function is the body. -/
theorem body_eq {body : Tree} (blocks : root.BlocksApart) (stands : c.whole = root)
    (stands' : d.whole = root) (block : c.focus.kind.opensBlock = true)
    (found : d.focus.functionBody? = some body) (same : body.range = c.range) :
    c.parent? = some d ∧ c.focus = body ∧ body.kind = .statementBlock := by
  rw [Tree.functionBody?] at found
  split at found
  · rename_i body' child
    split at found
    · rename_i kinds
      cases found
      have kind : body.kind = .statementBlock := by
        rw [Bool.and_eq_true, beq_iff_eq] at kinds
        exact kinds.2
      obtain ⟨e, up, here⟩ := exists_child (List.mem_of_find?_eq_some child)
      have equal : e = c := by
        refine eq_of_range_eq blocks ((whole_parent up).symm.trans stands') stands ?_ block ?_
        · rw [Cursor.kind, here, kind]
          rfl
        · rw [Cursor.range, here, same]
      rw [← equal]
      exact ⟨up, here, kind⟩
    · cases found
  · cases found

theorem kind_of_isBody (blocks : root.BlocksApart) (stands : c.whole = root)
    (block : c.focus.kind.opensBlock = true) (inner : c.isBody = true) : c.focus.kind = .statementBlock := by
  obtain ⟨d, body, up, found, same⟩ := isBody_iff.mp inner
  obtain ⟨-, focus, kind⟩ := body_eq blocks stands ((whole_parent up).trans stands) block found same
  rw [focus, kind]

theorem holder_of_declaration {t : Tree} {naming : Naming} (mem : naming ∈ t.declarationNamings) :
    naming.holder ≠ .itself := by
  obtain ⟨name, _, rfl⟩ := List.mem_map.mp mem
  dsimp only
  split <;> decide

theorem class_of_itself {t : Tree} {naming : Naming} (mem : naming ∈ t.otherNamings)
    (own : naming.holder = .itself) :
    t.kind = .classExpression ∧ ∃ name, t.child? .name = some name := by
  unfold Tree.otherNamings at mem
  split at mem
  · obtain ⟨name, _, rfl⟩ := List.mem_map.mp mem
    cases own
  · rename_i kind
    obtain ⟨name, found, rfl⟩ := List.mem_map.mp mem
    exact ⟨kind, name, Option.mem_toList.mp found⟩
  · obtain ⟨name, _, rfl⟩ := List.mem_map.mp mem
    cases own
  · cases mem

/-- A node that declares in its own scope opens one. -/
theorem opens_of_itself {naming : Naming}
    (plain : c.focus.kind.opensBlock = true → c.isBody = true → c.focus.kind = .statementBlock)
    (mem : naming ∈ c.focus.namings) (own : naming.holder = .itself) : c.opens = true := by
  rw [Cursor.opens, Cursor.opens?, Cursor.kind]
  rw [Tree.namings] at mem
  split at mem
  · rename_i function
    rw [if_pos function]
    rfl
  · rename_i function
    split at mem
    · rename_i block
      have outer : ¬ c.isBody = true := by
        intro inner
        rw [Tree.blockNamings, plain block inner] at mem
        cases mem
      rw [if_neg function, if_pos block, if_neg outer]
      rfl
    · rename_i block
      split at mem
      · exact absurd own (holder_of_declaration mem)
      · obtain ⟨kind, name, found⟩ := class_of_itself mem own
        rw [if_neg function, if_neg block, kind, Cursor.child?, found]
        rfl

/-- Blocks and classes hold no `var`. -/
theorem opened_holdsVars {kind : ScopeKind} (opened : d.opens? = some kind) (other : kind ≠ .function) :
    kind.holdsVars = false := by
  rw [Cursor.opens?] at opened
  split at opened
  · exact absurd (Option.some.inj opened).symm other
  · split at opened
    · split at opened
      · cases opened
      · cases opened
        rfl
    · split at opened
      · obtain ⟨_, _, rfl⟩ := Option.map_eq_some_iff.mp opened
        rfl
      · cases opened

namespace Knows

theorem number_lt (knows : Knows sites source root done walk) (mem : d ∈ done) (opens : d.opens = true) :
    number sites d < walk.scopes.length := by
  obtain ⟨kind, some⟩ := Option.isSome_iff_exists.mp opens
  have known := knows.frames d mem kind some
  obtain ⟨bound, _⟩ := List.getElem?_eq_some_iff.mp known
  rwa [List.length_map] at bound

/-- From the scope around a place `var` goes to the innermost function. -/
theorem varHolder_eq (knows : Knows sites source root done walk) (ups : ∀ a ∈ c.above, a ∈ done) :
    Scope.varHolder walk.scopes (scopeAround sites c) = functionAround sites c := by
  induction c using aboveInduction with
  | top c none =>
      rw [scopeAround, around_top none, functionAround_top none]
      exact Scope.varHolder_own knows.program rfl
  | step c d up ih =>
      rw [above_eq up, List.forall_mem_cons] at ups
      have further := ih ups.2
      by_cases opens : d.opens = true
      · obtain ⟨kind, opened⟩ := Option.isSome_iff_exists.mp opens
        have known := knows.frames d ups.1 kind opened
        rw [scopeAround, around_opens up opens, List.headD_cons]
        by_cases holds : kind = .function
        · rw [functionAround_function up (holds ▸ opened)]
          exact Scope.varHolder_own known (by rw [holds]; rfl)
        · have passes : kind.holdsVars = false := opened_holdsVars opened holds
          rw [functionAround_of_not up (by rw [opened]; simpa using holds), ← further]
          exact Scope.varHolder_outer known passes (knows.inner d ups.1 opens)
      · have closed : d.opens? ≠ some .function := by
          intro function
          rw [Cursor.opens, function] at opens
          exact opens rfl
        rw [scopeAround, around_of_not up opens, functionAround_of_not up closed]
        exact further

/-- The chain of the scope around a place. -/
theorem chain_eq (knows : Knows sites source root done walk) (ups : ∀ a ∈ c.above, a ∈ done) :
    Scope.chain walk.scopes (scopeAround sites c) = around sites c := by
  induction c using aboveInduction with
  | top c none =>
      rw [scopeAround, around_top none]
      exact Scope.chain_outermost knows.program
  | step c d up ih =>
      rw [above_eq up, List.forall_mem_cons] at ups
      have further := ih ups.2
      by_cases opens : d.opens = true
      · obtain ⟨kind, opened⟩ := Option.isSome_iff_exists.mp opens
        rw [scopeAround, around_opens up opens, List.headD_cons,
          Scope.chain_inner (knows.frames d ups.1 kind opened) (knows.inner d ups.1 opens), further]
      · rw [scopeAround, around_of_not up opens]
        exact further

/-- A node is collected when it is a reference. -/
theorem collects_eq (knows : Knows sites source root done walk) (c : Cursor) :
    walk.collects c.focus = isReference sites done c := by
  have declared : walk.declared.contains c.focus.range =
      ((declarations sites done).map (·.2.range)).contains c.focus.range := by
    rw [Bool.eq_iff_iff, List.contains_iff_mem, List.contains_iff_mem, knows.declared]
  have ignored : walk.ignored.contains c.focus.range =
      ((done.flatMap foreign).map Tree.range).contains c.focus.range := by
    rw [Bool.eq_iff_iff, List.contains_iff_mem, List.contains_iff_mem, knows.ignored]
  rw [ScopeWalk.collects, isReference, declared, ignored, ← List.contains_append]
  rfl

/-- With what a node adds an analysis knows about the node too. -/
theorem grow {after : ScopeWalk} (knows : Knows sites source root done walk)
    (grows : ScopeWalk.Grows source walk after (told sites source done c))
    (own : c.opens = true → number sites c = walk.scopes.length)
    (inner : c.opens = true → scopeAround sites c < number sites c) :
    Knows sites source root (done ++ [c]) after where
  length := by
    rw [grows.length, knows.length, List.filter_append, List.length_append, List.filter_singleton,
      Cursor.opens, told]
    cases c.opens? <;> simp
  program := by
    rw [grows.frames, List.getElem?_append_left]
    · exact knows.program
    · rw [List.length_map, knows.length]
      exact Nat.succ_pos _
  frames := by
    intro d mem kind some
    have opens : d.opens = true := by rw [Cursor.opens, some]; rfl
    rw [grows.frames]
    rcases List.mem_append.mp mem with before | here
    · rw [List.getElem?_append_left (by rw [List.length_map]; exact knows.number_lt before opens)]
      exact knows.frames d before kind some
    · cases List.mem_singleton.mp here
      rw [own opens, List.getElem?_append_right (Nat.le_of_eq (List.length_map Scope.frame)),
        List.length_map, Nat.sub_self, told, some]
      rfl
  inner := by
    intro d mem opens
    rcases List.mem_append.mp mem with before | here
    · exact knows.inner d before opens
    · cases List.mem_singleton.mp here
      exact inner opens
  declared := by
    intro r
    rw [grows.declared, knows.declared, declarations_append, List.map_append, List.mem_append, told]
  names := by
    intro i name
    have known : firsts walk.declared (declaredBy sites c) =
        firsts ((declarations sites done).map (·.2.range) ++ []) (declaredBy sites c) := by
      apply firsts_congr
      intro r
      rw [List.append_nil, knows.declared]
    rw [grows.names, knows.names, declarations_append, firsts_append]
    simp only [told, known, List.mem_append, or_and_right, exists_or]
  ignored := by
    intro r
    rw [grows.ignored, knows.ignored, List.flatMap_append, List.map_append, List.mem_append,
      List.flatMap_singleton, told]
  bodies := by
    intro r
    rw [grows.bodies, knows.bodies, List.flatMap_append, List.mem_append, List.flatMap_singleton, told]
  pending := by
    rw [grows.pending, knows.pending, referencesFrom_append, List.map_append, told, List.nil_append]
    cases isReference sites done c <;> rfl

end Knows

namespace Inside

variable (inside : Inside sites source root c.above done walk)

include inside

theorem current_eq : walk.current = scopeAround sites c := by
  rw [ScopeWalk.current, inside.opened, openedBy, scopeAround, around]
  cases c.above.filter Cursor.opens <;> rfl

theorem ready : walk.Ready where
  opened := by
    rw [inside.opened, openedBy]
    exact List.append_ne_nil_of_right_ne_nil _ (List.cons_ne_nil _ _)
  known := by
    intro o mem
    rw [inside.opened, openedBy, List.mem_append] at mem
    rcases mem with mem | mem
    · obtain ⟨a, above, rfl⟩ := List.mem_map.mp mem
      obtain ⟨above, opens⟩ := List.mem_filter.mp above
      exact inside.knows.number_lt (inside.behind a above) opens
    · rw [List.mem_singleton.mp mem, inside.knows.length]
      exact Nat.succ_pos _

/-- The bodies that are noted are those of the functions, so a block is found among them when it is the body
of its parent. -/
theorem contains_bodies (arranged : Arranged root sites) (sub : done ⊆ sites) (distinct : root.Distinct)
    (stands : c.whole = root) (block : c.focus.kind.opensBlock = true) :
    walk.bodies.contains c.range = c.isBody := by
  rw [Bool.eq_iff_iff, List.contains_iff_mem, inside.knows.bodies, isBody_iff, List.mem_flatMap]
  constructor
  · rintro ⟨d, mem, noted⟩
    obtain ⟨body, found, same⟩ := List.mem_map.mp noted
    have found := Option.mem_toList.mp found
    exact ⟨d, body, (body_eq distinct.blocks stands (arranged.stands d (sub mem)) block found same).1, found, same⟩
  · rintro ⟨d, body, up, found, same⟩
    have above : d ∈ c.above := by
      rw [above_eq up]
      exact List.mem_cons_self
    exact ⟨d, inside.behind d above, List.mem_map.mpr ⟨body, Option.mem_toList.mpr found, same⟩⟩

/-- Where a node declares is known when it is entered. -/
theorem held_eq (own : c.opens = true → number sites c = walk.scopes.length)
    (plain : c.focus.kind.opensBlock = true → c.isBody = true → c.focus.kind = .statementBlock) :
    walk.held c.focus.namings = declaredBy sites c := by
  apply List.map_congr_left
  intro naming mem
  have current := inside.current_eq
  cases holder : naming.holder with
  | around => rw [ScopeWalk.holder, current, Sites.holder]
  | itself => rw [ScopeWalk.holder, Sites.holder, own (opens_of_itself plain mem holder)]
  | function => rw [ScopeWalk.holder, current, Sites.holder, inside.knows.varHolder_eq inside.behind]
  | program => rfl

/-- What entering a node adds is told by the node. -/
theorem addition_eq (own : c.opens = true → number sites c = walk.scopes.length)
    (plain : c.focus.kind.opensBlock = true → c.isBody = true → c.focus.kind = .statementBlock) :
    walk.addition source c = told sites source done c := by
  have opened : (c.opens?.toList.map fun _ => (⟨c.range, c.kind, walk.scopes.length⟩ : OpenScope)) =
      c.opens?.toList.map fun _ => entry sites c := by
    by_cases opens : c.opens = true
    · rw [← own opens]
      rfl
    · rw [Option.not_isSome_iff_eq_none.mp opens]
      rfl
  rw [ScopeWalk.addition, told, opened, inside.held_eq own plain, inside.knows.collects_eq,
    inside.current_eq]
  simp only [ScopeWalk.frame, inside.current_eq]
  rfl

/-- Entering a node, an analysis learns what the node opens, names, hides and refers to. -/
theorem enter (arranged : Arranged root sites) (split : sites = done ++ c :: later)
    (distinct : root.Distinct) :
    Inside sites source root (c :: c.above) (done ++ [c]) (walk.enter source c) := by
  have stands : c.whole = root := arranged.stands c (by simp [split])
  have sub : done ⊆ sites := by
    rw [split]
    exact List.subset_append_left _ _
  have plain (block : c.focus.kind.opensBlock = true) (inner : c.isBody = true) :
      c.focus.kind = .statementBlock := kind_of_isBody distinct.blocks stands block inner
  have own (opens : c.opens = true) : number sites c = walk.scopes.length := by
    rw [inside.knows.length, number_eq arranged split opens]
  have inner (opens : c.opens = true) : scopeAround sites c < number sites c := by
    rw [own opens, ← inside.current_eq]
    exact inside.ready.current
  have grows := ScopeWalk.grows_enter source inside.ready c
    (inside.contains_bodies arranged sub distinct stands) plain
  rw [inside.addition_eq own plain] at grows
  refine ⟨inside.knows.grow grows own inner, ?_, ?_⟩
  · rw [grows.opened, inside.opened, openedBy, openedBy, told]
    by_cases opens : c.opens = true
    · obtain ⟨kind, some⟩ := Option.isSome_iff_exists.mp opens
      rw [List.filter_cons_of_pos opens, some]
      rfl
    · rw [List.filter_cons_of_neg opens, Option.not_isSome_iff_eq_none.mp opens]
      rfl
  · intro a mem
    rcases List.mem_cons.mp mem with rfl | above
    · exact List.mem_append_right _ List.mem_cons_self
    · exact List.mem_append_left _ (inside.behind a above)

end Inside

end Sites

end Rebundle
