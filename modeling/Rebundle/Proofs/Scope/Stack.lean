import Rebundle.Proofs.Scope.Innermost
import Rebundle.Proofs.Syntax.Calls

/-!
# The stack of open scopes

Scopes are closed by the range and the kind of the node that is left, not by a count. When nodes lie inside their
parents and none has the range and the kind of a node above it, this closes what the node has opened and nothing
else: at every call of a walk the open scopes are those of the nodes above, and every scope lies inside an earlier
one, so climbing from scope to scope comes to an end.
-/

namespace Rebundle

open Cursor

/-- Whether a range lies inside another one. -/
def Range.Inside (inner outer : Range) : Prop := outer.start ≤ inner.start ∧ inner.stop ≤ outer.stop

instance Range.decidableInside (inner outer : Range) : Decidable (inner.Inside outer) :=
  inferInstanceAs (Decidable (_ ∧ _))

/-- Whether nodes lie inside their parents, and none has the range and the kind of a node above it. -/
structure Tree.Contained (root : Tree) : Prop where
  inside : ∀ t ∈ root.nodes, ∀ child ∈ t.children, child.range.Inside t.range
  unlike : ∀ t ∈ root.nodes, ∀ child ∈ t.children, ∀ u ∈ child.nodes,
    ¬ (u.range = t.range ∧ u.kind = t.kind)

instance (root : Tree) : Decidable root.Contained :=
  decidable_of_iff
    ((∀ t ∈ root.nodes, ∀ child ∈ t.children, child.range.Inside t.range) ∧
      ∀ t ∈ root.nodes, ∀ child ∈ t.children, ∀ u ∈ child.nodes, ¬ (u.range = t.range ∧ u.kind = t.kind))
    ⟨fun ⟨inside, unlike⟩ => ⟨inside, unlike⟩, fun contained => ⟨contained.inside, contained.unlike⟩⟩

namespace Tree.Contained

variable {root : Tree} {a c : Cursor}

theorem inside_above (contained : root.Contained) (stands : c.whole = root) (above : a ∈ c.above) :
    c.range.Inside a.range := by
  induction c using aboveInduction with
  | top c none =>
      rw [parent?_eq, List.head?_eq_none_iff] at none
      rw [none] at above
      cases above
  | step c d up ih =>
      have standsD := (whole_parent up).trans stands
      have first : c.range.Inside d.range :=
        contained.inside d.focus (standsD ▸ d.focus_mem_whole) c.focus (parent_spec up).1
      rw [above_eq up] at above
      rcases List.mem_cons.mp above with rfl | above
      · exact first
      · have next := ih standsD above
        exact ⟨Nat.le_trans next.1 first.1, Nat.le_trans first.2 next.2⟩

end Tree.Contained

/-! Climbing from scope to scope. -/

namespace Scope

/-- The search for a name in a scope and then, as long as there is one, in the scope around it. -/
inductive LooksUp (scopes : List Scope) (name : Text) : Nat → Option BindingRef → Prop
  | found {i : Nat} {scope : Scope} (here : scopes[i]? = some scope) (own : scope.bindings.contains name = true) :
      LooksUp scopes name i (some ⟨i, name⟩)
  | missed {i : Nat} {scope : Scope} (here : scopes[i]? = some scope) (other : scope.bindings.contains name = false)
      (last : scope.parent = none) : LooksUp scopes name i none
  | climbs {i j : Nat} {scope : Scope} {result : Option BindingRef} (here : scopes[i]? = some scope)
      (other : scope.bindings.contains name = false) (up : scope.parent = some j)
      (rest : LooksUp scopes name j result) : LooksUp scopes name i result

/-- The climb from a scope, as long as there is one around, to a scope that holds `var` declarations. -/
inductive ClimbsTo (scopes : List Scope) : Nat → Nat → Prop
  | holds {i : Nat} {scope : Scope} (here : scopes[i]? = some scope) (own : scope.kind.holdsVars = true) :
      ClimbsTo scopes i i
  | last {i : Nat} {scope : Scope} (here : scopes[i]? = some scope) (other : scope.kind.holdsVars = false)
      (last : scope.parent = none) : ClimbsTo scopes i i
  | climbs {i j k : Nat} {scope : Scope} (here : scopes[i]? = some scope) (other : scope.kind.holdsVars = false)
      (up : scope.parent = some j) (rest : ClimbsTo scopes j k) : ClimbsTo scopes i k

/-- Whether the first scope is that of the program, and every other one lies inside an earlier one. -/
structure Nested (root : Tree) (scopes : List Scope) : Prop where
  program : ∃ scope, scopes[0]? = some scope ∧ scope.kind = .program ∧ scope.range = root.range ∧
    scope.parent = none
  inner : ∀ i scope, 0 < i → scopes[i]? = some scope → scope.kind ≠ .program ∧ ∃ j outer,
    scope.parent = some j ∧ j < i ∧ scopes[j]? = some outer ∧ scope.range.Inside outer.range

/-- Whether every search for a name comes to an end, and every climb does so in the scope of a function or of the
program; what is found is what the bounded searches find. -/
structure Ends (scopes : List Scope) : Prop where
  lookup : ∀ i < scopes.length, ∀ name, LooksUp scopes name i (lookup scopes name i)
  holder : ∀ i < scopes.length, ClimbsTo scopes i (varHolder scopes i) ∧
    ∃ scope, scopes[varHolder scopes i]? = some scope ∧ (scope.kind = .function ∨ scope.kind = .program)

variable {root : Tree} {scopes next : List Scope}

theorem holdsVars_iff {kind : ScopeKind} : kind.holdsVars = true ↔ kind = .function ∨ kind = .program := by
  cases kind <;> simp [ScopeKind.holdsVars]

namespace Nested

/-- The climb from a scope is that from an earlier one, unless the scope is the first one. -/
theorem climb (nested : Nested root scopes) {motive : Nat → Prop}
    (first : ∀ scope, scopes[0]? = some scope → scope.kind = .program → scope.parent = none → motive 0)
    (step : ∀ i j scope, scopes[i]? = some scope → scope.parent = some j → j < i → motive j → motive i) :
    ∀ i < scopes.length, motive i := by
  intro i
  induction i using Nat.strongRecOn with
  | _ i ih =>
      intro known
      have here : scopes[i]? = some scopes[i] := List.getElem?_eq_getElem known
      rcases Nat.eq_zero_or_pos i with rfl | later
      · obtain ⟨scope, found, kind, _, last⟩ := nested.program
        exact first scope found kind last
      · obtain ⟨_, j, outer, up, earlier, _⟩ := nested.inner i _ later here
        exact step i j _ here up earlier (ih j earlier (Nat.lt_trans earlier known))

theorem lookup_ends (nested : Nested root scopes) (name : Text) :
    ∀ i < scopes.length, LooksUp scopes name i (lookup scopes name i) := by
  refine nested.climb (fun scope here _ last => ?_) fun i j scope here up earlier rest => ?_
  · rw [lookup, here]
    by_cases own : scope.bindings.contains name = true
    · simp only [own, if_true]
      exact .found here own
    · simp only [own, last]
      exact .missed here (Bool.eq_false_iff.mpr own) last
  · rw [lookup, here]
    by_cases own : scope.bindings.contains name = true
    · simp only [own, if_true]
      exact .found here own
    · simp only [own, up, earlier, if_true]
      exact .climbs here (Bool.eq_false_iff.mpr own) up rest

theorem holder_ends (nested : Nested root scopes) : ∀ i < scopes.length, ClimbsTo scopes i (varHolder scopes i) ∧
    ∃ scope, scopes[varHolder scopes i]? = some scope ∧ (scope.kind = .function ∨ scope.kind = .program) := by
  have own {i : Nat} {scope : Scope} (here : scopes[i]? = some scope) (holds : scope.kind.holdsVars = true) :
      ClimbsTo scopes i (varHolder scopes i) ∧
        ∃ scope, scopes[varHolder scopes i]? = some scope ∧ (scope.kind = .function ∨ scope.kind = .program) := by
    rw [varHolder, here]
    simp only [holds, if_true]
    exact ⟨.holds here holds, scope, here, holdsVars_iff.mp holds⟩
  refine nested.climb (fun scope here kind _ => own here (by rw [kind]; rfl)) fun i j scope here up earlier rest => ?_
  by_cases holds : scope.kind.holdsVars = true
  · exact own here holds
  · rw [varHolder, here]
    simp only [holds, up, earlier, if_true]
    exact ⟨.climbs here (Bool.eq_false_iff.mpr holds) up rest.1, rest.2⟩

theorem ends (nested : Nested root scopes) : Ends scopes :=
  ⟨fun i known name => nested.lookup_ends name i known, nested.holder_ends⟩

end Nested

theorem exists_of_frames {more : List (ScopeKind × Range × Option Nat)}
    (grown : next.map frame = scopes.map frame ++ more) {i : Nat} {scope : Scope} (found : scopes[i]? = some scope) :
    ∃ new, next[i]? = some new ∧ new.kind = scope.kind ∧ new.range = scope.range ∧
      new.parent = scope.parent := by
  have known := (List.getElem?_eq_some_iff.mp found).1
  have here := congrArg (·[i]?) grown
  simp only [List.getElem?_map] at here
  rw [List.getElem?_append_left (by simpa using known), List.getElem?_map, found] at here
  obtain ⟨new, found', same⟩ := Option.map_eq_some_iff.mp here
  simp only [frame, Prod.mk.injEq] at same
  exact ⟨new, found', same⟩

/-- What is declared does not matter to how scopes lie. -/
theorem Nested.congr (nested : Nested root scopes) (same : next.map frame = scopes.map frame) : Nested root next := by
  have forth := @exists_of_frames scopes next [] (by rw [List.append_nil, same])
  have back := @exists_of_frames next scopes [] (by rw [List.append_nil, same])
  constructor
  · obtain ⟨scope, found, kind, range, last⟩ := nested.program
    obtain ⟨new, found', kind', range', last'⟩ := forth found
    exact ⟨new, found', kind'.trans kind, range'.trans range, last'.trans last⟩
  · intro i scope later found
    obtain ⟨old, found', kind', range', up'⟩ := back found
    obtain ⟨kind, j, outer, up, earlier, around, inside⟩ := nested.inner i old later found'
    obtain ⟨new, around', _, range, _⟩ := forth around
    rw [kind'] at kind
    rw [up'] at up
    rw [range', ← range] at inside
    exact ⟨kind, j, new, up, earlier, around', inside⟩

/-- One more scope inside a known one. -/
theorem Nested.append (nested : Nested root scopes) {kind : ScopeKind} {range : Range} {j : Nat} {outer : Scope}
    (inner : kind ≠ .program) (around : scopes[j]? = some outer) (inside : range.Inside outer.range) :
    Nested root (scopes ++ [⟨kind, range, some j, []⟩]) := by
  have early {i : Nat} {scope : Scope} (found : scopes[i]? = some scope) :
      (scopes ++ [⟨kind, range, some j, []⟩])[i]? = some scope := by
    rw [List.getElem?_append_left (List.getElem?_eq_some_iff.mp found).1, found]
  obtain ⟨program, first, rest⟩ := nested.program
  refine ⟨⟨program, early first, rest⟩, fun i scope later found => ?_⟩
  rcases Nat.lt_trichotomy i scopes.length with known | rfl | behind
  · rw [List.getElem?_append_left known] at found
    obtain ⟨kind', k, outer', up, earlier, around', inside'⟩ := nested.inner i scope later found
    exact ⟨kind', k, outer', up, earlier, early around', inside'⟩
  · rw [List.getElem?_concat_length] at found
    rw [← Option.some.inj found]
    exact ⟨inner, j, outer, rfl, (List.getElem?_eq_some_iff.mp around).1, early around, inside⟩
  · rw [List.getElem?_eq_none (by simp; omega)] at found
    cases found

end Scope

namespace ScopeWalk

variable {source : Bytes} {root : Tree} {before after walk : ScopeWalk} {c : Cursor} {numbers : Cursor → List Nat}

/-- The kind of the scope that entering a node opens: a block opens none in the place of a function body, and a class
none without a name. -/
def opening? (walk : ScopeWalk) (t : Tree) : Option ScopeKind :=
  if t.kind.opensFunction then some .function
  else if t.kind.opensBlock then if walk.bodies.contains t.range then none else some .block
  else if t.kind == .classExpression then (t.child? .name).map fun _ => .classBody
  else none

theorem opening?_ne (walk : ScopeWalk) (t : Tree) : walk.opening? t ≠ some .program := by
  rw [opening?]
  split
  · simp
  split
  · split <;> simp
  split
  · cases t.child? .name <;> simp
  · simp

/-- Whatever is open, entering a node opens at most the scope of the node. -/
theorem exists_opening (source : Bytes) (ready : walk.Ready) (c : Cursor) :
    ∃ more, Grows source walk (walk.enter source c) more ∧
      more.frames = (walk.opening? c.focus).toList.map (walk.frame · c.focus) ∧
      more.opened = (walk.opening? c.focus).toList.map fun _ => ⟨c.range, c.kind, walk.scopes.length⟩ := by
  have whole (grows : Grows source walk (walk.enter source c) (walk.addition source c))
      (same : c.opens? = walk.opening? c.focus) :
      ∃ more, Grows source walk (walk.enter source c) more ∧
        more.frames = (walk.opening? c.focus).toList.map (walk.frame · c.focus) ∧
        more.opened = (walk.opening? c.focus).toList.map fun _ => ⟨c.range, c.kind, walk.scopes.length⟩ :=
    ⟨_, grows, by rw [addition, same], by rw [addition, same]⟩
  by_cases function : c.focus.kind.opensFunction = true
  · refine whole ?_ (by rw [Cursor.opens?, opening?, Cursor.kind, if_pos function, if_pos function])
    rw [ScopeWalk.enter, if_pos function]
    exact grows_function ready function
  by_cases block : c.focus.kind.opensBlock = true
  · -- what is noted of bodies decides, not the place of the block
    rw [ScopeWalk.enter, if_neg function, if_pos block, opening?, if_neg function, if_pos block]
    by_cases body : walk.bodies.contains c.focus.range = true
    · rw [ScopeWalk.enterBlock, if_pos body, if_pos body]
      exact ⟨{}, .refl walk, rfl, rfl⟩
    · rw [if_neg body]
      exact ⟨_, .enterBlock ready c.focus (Bool.eq_false_iff.mpr body), rfl, rfl⟩
  · refine whole (grows_enter source ready c (fun block' => absurd block' block) fun block' => absurd block' block) ?_
    rw [Cursor.opens?, opening?, Cursor.kind, if_neg function, if_neg function, if_neg block, if_neg block]
    rfl

/-- The numbers of the scopes that stand in `after` and not yet in `before`. -/
def added (before after : ScopeWalk) : List Nat :=
  List.range' before.scopes.length (after.scopes.length - before.scopes.length)

theorem added_self (walk : ScopeWalk) : added walk walk = [] := by rw [added, Nat.sub_self, List.range'_zero]

/-- The scope of the program behind those that were opened at the places of a row. -/
def stack (root : Tree) (numbers : Cursor → List Nat) (row : List Cursor) : List OpenScope :=
  (row.flatMap fun c => (numbers c).map (⟨c.range, c.kind, ·⟩)) ++ [⟨root.range, root.kind, 0⟩]

theorem stack_cons (root : Tree) (numbers : Cursor → List Nat) (c : Cursor) (row : List Cursor) :
    stack root numbers (c :: row) = (numbers c).map (⟨c.range, c.kind, ·⟩) ++ stack root numbers row := by
  rw [stack, stack, List.flatMap_cons, List.append_assoc]

theorem mem_stack {row : List Cursor} {o : OpenScope} (mem : o ∈ stack root numbers row) :
    (∃ a ∈ row, o.range = a.range ∧ o.kind = a.kind) ∨ o = ⟨root.range, root.kind, 0⟩ := by
  rcases List.mem_append.mp mem with inner | outermost
  · obtain ⟨a, above, own⟩ := List.mem_flatMap.mp inner
    obtain ⟨i, _, rfl⟩ := List.mem_map.mp own
    exact .inl ⟨a, above, rfl, rfl⟩
  · exact .inr (List.mem_singleton.mp outermost)

theorem stack_ne_nil (root : Tree) (numbers : Cursor → List Nat) (row : List Cursor) :
    stack root numbers row ≠ [] := by
  rw [stack]
  exact List.concat_ne_nil _ _

/-- Whether the open scopes are those that were opened at the places of a row, known with the ranges of their
nodes, and all scopes are nested. -/
structure Stands (root : Tree) (numbers : Cursor → List Nat) (row : List Cursor) (walk : ScopeWalk) : Prop where
  opened : walk.opened = stack root numbers row
  known : ∀ o ∈ walk.opened, ∃ scope, walk.scopes[o.scope]? = some scope ∧ scope.range = o.range
  nested : Scope.Nested root walk.scopes

namespace Stands

theorem ready {row : List Cursor} (stands : walk.Stands root numbers row) : walk.Ready where
  opened := stands.opened ▸ stack_ne_nil root numbers row
  known o mem := by
    obtain ⟨scope, found, _⟩ := stands.known o mem
    exact (List.getElem?_eq_some_iff.mp found).1

theorem start (root : Tree) (numbers : Cursor → List Nat) :
    (ScopeWalk.start.openScope .program root).Stands root numbers [] where
  opened := rfl
  known o mem := by
    rw [List.mem_singleton.mp mem]
    exact ⟨_, rfl, rfl⟩
  nested := by
    refine ⟨⟨_, rfl, rfl, rfl, rfl⟩, fun i scope later found => ?_⟩
    cases i with
    | zero => cases later
    | succ i => cases found

/-- The node of the innermost open scope lies around the place that a walk is about to enter. -/
theorem current_range (contained : root.Contained) (place : c.whole = root)
    (stands : walk.Stands root numbers c.above) :
    ∃ outer, walk.scopes[walk.current]? = some outer ∧ c.range.Inside outer.range := by
  cases row : walk.opened with
  | nil => exact absurd row stands.ready.opened
  | cons o rest =>
      have mem : o ∈ walk.opened := row ▸ List.mem_cons_self
      obtain ⟨outer, found, range⟩ := stands.known o mem
      have current : walk.current = o.scope := by rw [ScopeWalk.current, row]
      refine ⟨outer, current ▸ found, range ▸ ?_⟩
      rw [stands.opened] at mem
      rcases mem_stack mem with ⟨a, above, same, _⟩ | rfl
      · exact same ▸ contained.inside_above place above
      · rcases eq_or_top_mem_above c with same | above
        · rw [same, place]
          exact ⟨Nat.le_refl _, Nat.le_refl _⟩
        · have inside := contained.inside_above place above
          rw [place] at inside
          exact inside

/-- What entering a node adds lies inside the innermost open scope. -/
theorem nested_enter (contained : root.Contained) (place : c.whole = root) (stands : walk.Stands root numbers c.above)
    {more : Delta} {kind? : Option ScopeKind} (grows : Grows source walk after more)
    (frames : more.frames = kind?.toList.map (walk.frame · c.focus)) (inner : kind? ≠ some .program) :
    Scope.Nested root after.scopes := by
  cases kind? with
  | none =>
      refine stands.nested.congr ?_
      rw [grows.frames, frames]
      exact List.append_nil _
  | some kind =>
      obtain ⟨outer, around, inside⟩ := current_range contained place stands
      have other : kind ≠ .program := fun same => inner (congrArg some same)
      refine (stands.nested.append other around inside).congr ?_
      rw [grows.frames, frames, List.map_append]
      rfl

/-- Entering a place puts the scopes that it adds on the stack. -/
theorem enter (contained : root.Contained) (place : c.whole = root) (stands : walk.Stands root numbers c.above)
    (own : numbers c = added walk (walk.enter source c)) :
    (walk.enter source c).Stands root numbers (c :: c.above) ∧ (numbers c = [] ∨ ∃ i, numbers c = [i]) := by
  obtain ⟨more, grows, frames, opened⟩ := exists_opening source stands.ready c
  have nested := nested_enter contained place stands grows frames (opening?_ne walk c.focus)
  have length := grows.length
  have grown := grows.frames
  have before : ∀ o ∈ walk.opened, ∃ scope, (walk.enter source c).scopes[o.scope]? = some scope ∧
      scope.range = o.range := by
    intro o mem
    obtain ⟨scope, found, range⟩ := stands.known o mem
    obtain ⟨new, found', _, range', _⟩ := Scope.exists_of_frames grown found
    exact ⟨new, found', range'.trans range⟩
  rw [frames] at length grown
  cases kind : walk.opening? c.focus with
  | none =>
      rw [kind] at length
      have none : numbers c = [] := by
        rw [own, added, length]
        simp
      have same : (walk.enter source c).opened = walk.opened := by
        rw [grows.opened, opened, kind]
        rfl
      refine ⟨⟨?_, same ▸ before, nested⟩, .inl none⟩
      rw [same, stands.opened, stack_cons, none]
      rfl
  | some kind' =>
      rw [kind] at length grown
      have one : numbers c = [walk.scopes.length] := by
        rw [own, added, length]
        simp
      have pushed : (walk.enter source c).opened = ⟨c.range, c.kind, walk.scopes.length⟩ :: walk.opened := by
        rw [grows.opened, opened, kind]
        rfl
      refine ⟨⟨?_, ?_, nested⟩, .inr ⟨_, one⟩⟩
      · rw [pushed, stands.opened, stack_cons, one]
        rfl
      · rw [pushed]
        refine List.forall_mem_cons.mpr ⟨?_, before⟩
        have last := congrArg (·[walk.scopes.length]?) grown
        simp only [List.getElem?_map] at last
        rw [List.getElem?_append_right (by simp), List.length_map, Nat.sub_self] at last
        obtain ⟨scope, found, same⟩ := Option.map_eq_some_iff.mp last
        exact ⟨scope, found, congrArg (·.2.1) same⟩

/-- Leaving a place takes from the stack what entering it has put there. -/
theorem leave (contained : root.Contained) (place : c.whole = root) (stands : walk.Stands root numbers (c :: c.above))
    (few : numbers c = [] ∨ ∃ i, numbers c = [i]) : (walk.leave c.focus).Stands root numbers c.above := by
  have opened := stands.opened
  rw [stack_cons] at opened
  rcases few with none | ⟨i, one⟩
  · rw [none, List.map_nil, List.nil_append] at opened
    -- the innermost open scope is that of the program alone, or that of a node above, which is unlike this one
    have stays : walk.leave c.focus = walk := by
      rw [ScopeWalk.leave]
      split
      · rename_i innermost outer rest row
        refine if_neg fun same => ?_
        rw [row] at opened
        cases above : c.above.flatMap fun d => (numbers d).map fun i => (⟨d.range, d.kind, i⟩ : OpenScope) with
        | nil =>
            rw [stack, above] at opened
            cases opened
        | cons first more =>
            rw [stack, above, List.cons_append] at opened
            obtain ⟨a, mem, own⟩ := List.mem_flatMap.mp (above ▸ List.mem_cons_self : first ∈ _)
            obtain ⟨j, _, rfl⟩ := List.mem_map.mp own
            rw [(List.cons.inj opened).1] at same
            exact Sites.apart_above contained.unlike place a mem same
      · rfl
    rw [stays]
    exact ⟨opened, stands.known, stands.nested⟩
  · rw [one, List.map_singleton, List.singleton_append] at opened
    obtain ⟨outer, rest, row⟩ := List.exists_cons_of_ne_nil (stack_ne_nil root numbers c.above)
    have closes : walk.leave c.focus = { walk with opened := outer :: rest } := by
      rw [ScopeWalk.leave, opened, row]
      exact if_pos ⟨rfl, rfl⟩
    rw [closes]
    refine ⟨row.symm, fun o mem => stands.known o ?_, stands.nested⟩
    rw [opened, row]
    exact List.mem_cons_of_mem _ mem

end Stands

end ScopeWalk

namespace Visitor.Call

/-- Whether a call finds and leaves the stack as its place has it. A call on entering a place finds the scopes that
were opened above the place, and adds those that it opens; a call on leaving finds these too, and takes them away. -/
def Stacks (root : Tree) (numbers : Cursor → List Nat) : Visitor.Call ScopeWalk → Prop
  | .enter place before _ after => numbers place = ScopeWalk.added before after ∧
      before.Stands root numbers place.above ∧ after.Stands root numbers (place :: place.above)
  | .leave place before after =>
      before.Stands root numbers (place :: place.above) ∧ after.Stands root numbers place.above

end Visitor.Call

namespace ScopeWalk

variable {source : Bytes} {skipBefore : Nat} {root : Tree} {numbers : Cursor → List Nat}

theorem Stands.call_enter (contained : root.Contained) {c : Cursor} (place : c.whole = root) {s : ScopeWalk}
    (stands : s.Stands root numbers c.above)
    (own : numbers c = added s ((visitor source skipBefore).enter c s).2) :
    (((visitor source skipBefore).enter c s).2).Stands root numbers (c :: c.above) ∧
      (numbers c = [] ∨ ∃ i, numbers c = [i]) := by
  rw [visitor] at own ⊢
  dsimp only at own ⊢
  split at own
  · rename_i skipped
    rw [if_pos skipped]
    dsimp only at own ⊢
    rw [added_self] at own
    refine ⟨⟨?_, stands.known, stands.nested⟩, .inl own⟩
    rw [stack_cons, own, stands.opened]
    rfl
  · rename_i entered
    rw [if_neg entered]
    exact stands.enter contained place own

mutual

/-- A recursion keeps the stack: every call finds what its place has, and in the end everything is as before. -/
theorem visit_stacks (contained : root.Contained) : ∀ {path : List Crumb} {t : Tree} {s : ScopeWalk},
    (∀ c before below after, .enter c before below after ∈ ((visitor source skipBefore).visit path t s).1 →
      numbers c = added before after) →
    (⟨t, path⟩ : Cursor).whole = root → s.Stands root numbers (⟨t, path⟩ : Cursor).above →
      (∀ call ∈ ((visitor source skipBefore).visit path t s).1, call.Stacks root numbers) ∧
      ((visitor source skipBefore).visit path t s).2.Stands root numbers (⟨t, path⟩ : Cursor).above
  | path, .node label children, s, tells, place, stands => by
      have own := tells ⟨.node label children, path⟩ s _
        ((visitor source skipBefore).enter ⟨.node label children, path⟩ s).2
        (by rw [Visitor.visit]; exact List.mem_cons_self)
      obtain ⟨entered, few⟩ := stands.call_enter contained place own
      rw [Visitor.visit] at tells ⊢
      cases entry : (visitor source skipBefore).enter ⟨.node label children, path⟩ s with
      | mk below next =>
          rw [entry] at tells own entered
          dsimp only at tells own entered ⊢
          have inside : (∀ call ∈ (if below then (visitor source skipBefore).visitAll path label [] children next
              else ([], next)).1, call.Stacks root numbers) ∧
              (if below then (visitor source skipBefore).visitAll path label [] children next
                else ([], next)).2.Stands root numbers (⟨.node label children, path⟩ ::
                  (⟨.node label children, path⟩ : Cursor).above) := by
            cases below with
            | false => exact ⟨by simp, entered⟩
            | true =>
                exact visitAll_stacks contained [] children
                  (fun c before below after mem => tells c before below after
                    (List.mem_cons_of_mem _ (List.mem_append_left _ mem))) place entered
          have left := inside.2.leave contained place few
          refine ⟨List.forall_mem_cons.mpr ⟨⟨own, stands, entered⟩, fun call mem => ?_⟩, left⟩
          rcases List.mem_append.mp mem with here | last
          · exact inside.1 call here
          · rw [List.mem_singleton.mp last]
            exact ⟨inside.2, left⟩

theorem visitAll_stacks (contained : root.Contained) : ∀ {path : List Crumb} {label : Label}
    (before row : List Tree) {s : ScopeWalk},
    (∀ c earlier below after, .enter c earlier below after ∈
      ((visitor source skipBefore).visitAll path label before row s).1 → numbers c = added earlier after) →
    (⟨.node label (before.reverse ++ row), path⟩ : Cursor).whole = root →
    s.Stands root numbers (⟨.node label (before.reverse ++ row), path⟩ ::
      (⟨.node label (before.reverse ++ row), path⟩ : Cursor).above) →
      (∀ call ∈ ((visitor source skipBefore).visitAll path label before row s).1, call.Stacks root numbers) ∧
      ((visitor source skipBefore).visitAll path label before row s).2.Stands root numbers
        (⟨.node label (before.reverse ++ row), path⟩ ::
          (⟨.node label (before.reverse ++ row), path⟩ : Cursor).above)
  | path, label, before, [], s, _, _, stands => by
      rw [Visitor.visitAll]
      exact ⟨by simp, stands⟩
  | path, label, before, t :: rest, s, tells, place, stands => by
      rw [Visitor.visitAll] at tells ⊢
      obtain ⟨first, next⟩ := visit_stacks contained (t := t) (s := s)
        (fun c earlier below after mem => tells c earlier below after (List.mem_append_left _ mem)) place stands
      obtain ⟨others, last⟩ := visitAll_stacks contained (t :: before) rest
        (fun c earlier below after mem => tells c earlier below after (List.mem_append_right _ mem))
        (by rw [rotate]; exact place) (by rw [rotate]; exact next)
      rw [rotate] at last
      refine ⟨fun call mem => ?_, last⟩
      rcases List.mem_append.mp mem with here | later
      · exact first call here
      · exact others call later

end

end ScopeWalk

namespace ScopeTable

/-- The calls of the walk through a program. -/
def calls (source : Bytes) (skipBefore : Nat) (root : Tree) : List (Visitor.Call ScopeWalk) :=
  (ScopeWalk.visitor source skipBefore).calls root (ScopeWalk.start.openScope .program root)

/-- The scopes that entering a place opens in a walk that leaves some nodes out. -/
def openings (skipBefore : Nat) (c : Cursor) (walk : ScopeWalk) : List (ScopeKind × Range × Option Nat) :=
  if Sites.skips skipBefore c.focus then [] else (walk.opening? c.focus).toList.map (walk.frame · c.focus)

/-- Whether an analysis keeps its stack. At every call the open scopes are the scope of the program and those that
were opened at the places above and, inside a place, at the place itself; leaving a place restores what it was
entered with; in the end the scope of the program is left. At every call and while references are resolved, all
scopes but that of the program lie inside earlier ones, so that every climb from scope to scope ends, whatever is
declared in them meanwhile. -/
structure Stacked (source : Bytes) (skipBefore : Nat) (root : Tree) : Prop where
  standing : ∃ numbers : Cursor → List Nat, ∀ call ∈ calls source skipBefore root, call.Stacks root numbers
  opens : ∀ c before below after, .enter c before below after ∈ calls source skipBefore root →
    after.scopes.map Scope.frame = before.scopes.map Scope.frame ++ openings skipBefore c before
  restores : ∀ c before after, .leave c before after ∈ calls source skipBefore root →
    ∃ found below entered, .enter c found below entered ∈ calls source skipBefore root ∧
      after.opened = found.opened
  closes : (walk source skipBefore root).opened = [⟨root.range, root.kind, 0⟩]
  climbs : ∀ call ∈ calls source skipBefore root, ∀ walk ∈ call.states, ∀ scopes : List Scope,
    scopes.map Scope.frame = walk.scopes.map Scope.frame → Scope.Ends scopes
  nested : ∀ k, let found := walk source skipBefore root
    let table := ofWalk { found with pending := found.pending.take k }
    Scope.Nested root table.scopes ∧ Scope.Ends table.scopes

variable {source : Bytes} {skipBefore : Nat} {root : Tree}

/-- Resolving some of the references keeps the scopes. -/
theorem frames_ofWalk (walk : ScopeWalk) (row : List PendingReference) :
    (ofWalk { walk with pending := row }).scopes.map Scope.frame = walk.scopes.map Scope.frame := by
  have start : Keeps walk.scopes ⟨walk.scopes, [], walk.byPlace⟩ := ⟨rfl, fun _ => rfl⟩
  exact (start.foldl row).frames

theorem frames_enter {c : Cursor} {before after : ScopeWalk} {below : Bool}
    (mem : .enter c before below after ∈ calls source skipBefore root) (ready : before.Ready) :
    after.scopes.map Scope.frame = before.scopes.map Scope.frame ++ openings skipBefore c before := by
  have made : (if Sites.skips skipBefore c.focus then (false, before) else (true, before.enter source c)) =
      (below, after) := Visitor.made_calls _ _ _ _ mem
  rw [openings]
  split at made
  · rename_i skipped
    rw [if_pos skipped, List.append_nil, (Prod.mk.inj made).2]
  · rename_i entered
    obtain ⟨more, grows, frames, _⟩ := ScopeWalk.exists_opening source ready c
    rw [if_neg entered, ← (Prod.mk.inj made).2, grows.frames, frames]

/-- When nodes lie inside their parents and none has the range and the kind of a node above it, an analysis keeps
its stack. -/
theorem walk_stacked (source : Bytes) (skipBefore : Nat) {root : Tree} (contained : root.Contained) :
    Stacked source skipBefore root := by
  obtain ⟨numbers, tells⟩ := (ScopeWalk.visitor source skipBefore).exists_told root
    (ScopeWalk.start.openScope .program root) fun _ before _ after => ScopeWalk.added before after
  rw [Visitor.calls_eq] at tells
  obtain ⟨standing, last⟩ := ScopeWalk.visit_stacks contained tells rfl (ScopeWalk.Stands.start root numbers)
  rw [← Visitor.calls_eq] at standing
  rw [← Visitor.walk_eq] at last
  refine ⟨⟨numbers, standing⟩, ?_, ?_, last.opened, ?_, fun k => ?_⟩
  · intro c before below after mem
    exact frames_enter mem (standing _ mem).2.1.ready
  · intro c before after mem
    obtain ⟨found, below, entered, there⟩ := Visitor.exists_enter mem
    exact ⟨found, below, entered, there, (standing _ mem).2.opened.trans (standing _ there).2.1.opened.symm⟩
  · intro call mem walk state scopes same
    have stands : ∃ row, walk.Stands root numbers row := by
      have here := standing call mem
      cases call with
      | enter place before below after =>
          rcases List.mem_pair.mp state with rfl | rfl
          · exact ⟨_, here.2.1⟩
          · exact ⟨_, here.2.2⟩
      | leave place before after =>
          rcases List.mem_pair.mp state with rfl | rfl
          · exact ⟨_, here.1⟩
          · exact ⟨_, here.2⟩
    exact (stands.choose_spec.nested.congr same).ends
  · have nested := last.nested.congr (frames_ofWalk _ ((walk source skipBefore root).pending.take k))
    exact ⟨nested, nested.ends⟩

theorem hoisted_stacked : hoisted.Contained ∧ Stacked hoisting 7 hoisted := by
  have contained : hoisted.Contained := by decide +kernel
  exact ⟨contained, walk_stacked hoisting 7 contained⟩

end ScopeTable

end Rebundle
