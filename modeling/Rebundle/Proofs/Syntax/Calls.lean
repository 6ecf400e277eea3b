import Mathlib.Data.List.Pairwise
import Rebundle.Proofs.Syntax.Reached

/-!
# The calls of a walk

A walk calls its visitor on entering and on leaving nodes. The calls are those of a recursion over the tree: the
node is entered, the children are visited one after the other when the walk goes below the node, and the node is
left. So every node that has no pruned node above it is entered once, before the nodes below it, and left once,
behind them, and the other nodes are never entered.
-/

namespace Rebundle

/-- A call of a visitor at a place, with the states before and behind it. A call on entering also says whether the
walk goes below the place. -/
inductive Visitor.Call (σ : Type) where
  | enter (place : Cursor) (before : σ) (below : Bool) (after : σ)
  | leave (place : Cursor) (before after : σ)

namespace Visitor.Call

variable {σ : Type}

def entered? : Call σ → Option Cursor
  | .enter place _ _ _ => some place
  | .leave _ _ _ => none

def left? : Call σ → Option Cursor
  | .enter _ _ _ _ => none
  | .leave place _ _ => some place

/-- The states before and behind a call. -/
def states : Call σ → List σ
  | .enter _ before _ after => [before, after]
  | .leave _ before after => [before, after]

/-- Whether a visitor does what a call says. -/
def Made (v : Visitor σ) : Call σ → Prop
  | .enter place before below after => v.enter place before = (below, after)
  | .leave place before after => v.leave place before = after

variable (c : Cursor) (before after done left : σ) (below : Bool) (inside : List (Call σ))

theorem filterMap_entered :
    (enter c before below after :: (inside ++ [leave c done left])).filterMap entered? =
      c :: inside.filterMap entered? := by
  simp [entered?, List.filterMap_cons]

theorem filterMap_left :
    (enter c before below after :: (inside ++ [leave c done left])).filterMap left? =
      inside.filterMap left? ++ [c] := by
  simp [left?, List.filterMap_cons]

/-- Every call is on entering or on leaving. -/
theorem length_eq (calls : List (Call σ)) :
    calls.length = (calls.filterMap entered?).length + (calls.filterMap left?).length := by
  induction calls with
  | nil => rfl
  | cons call rest ih =>
      cases call with
      | enter => simp [entered?, left?, List.filterMap_cons, ih]; omega
      | leave => simp [entered?, left?, List.filterMap_cons, ih]; omega

end Visitor.Call

namespace Visitor

variable {σ : Type}

/-- A visitor that keeps a record of its calls. -/
def recorded (v : Visitor σ) : Visitor (σ × List (Call σ)) where
  enter c s :=
    ((v.enter c s.1).1, (v.enter c s.1).2, s.2 ++ [.enter c s.1 (v.enter c s.1).1 (v.enter c s.1).2])
  leave c s := (v.leave c s.1, s.2 ++ [.leave c s.1 (v.leave c s.1)])

theorem enter_recorded (v : Visitor σ) (c : Cursor) (s : σ) (done : List (Call σ)) :
    v.recorded.enter c (s, done) =
      ((v.enter c s).1, (v.enter c s).2, done ++ [.enter c s (v.enter c s).1 (v.enter c s).2]) := rfl

theorem leave_recorded (v : Visitor σ) (c : Cursor) (s : σ) (done : List (Call σ)) :
    v.recorded.leave c (s, done) = (v.leave c s, done ++ [.leave c s (v.leave c s)]) := rfl

/-- The calls of a walk, in their order. -/
def calls (v : Visitor σ) (root : Tree) (s : σ) : List (Call σ) := (v.recorded.walk root (s, [])).2

mutual

/-- The calls of a recursion over a tree, with the state that they end in. -/
def visit (v : Visitor σ) (path : List Crumb) : Tree → σ → List (Call σ) × σ
  | .node label children, s =>
      let place : Cursor := ⟨.node label children, path⟩
      let (below, entered) := v.enter place s
      let (inside, done) := if below then visitAll v path label [] children entered else ([], entered)
      (.enter place s below entered :: (inside ++ [.leave place done (v.leave place done)]), v.leave place done)

/-- The same for a row of children behind others. -/
def visitAll (v : Visitor σ) (path : List Crumb) (label : Label) (before : List Tree) :
    List Tree → σ → List (Call σ) × σ
  | [], s => ([], s)
  | t :: rest, s =>
      let (first, next) := visit v (⟨label, before, rest⟩ :: path) t s
      let (others, last) := visitAll v path label (t :: before) rest next
      (first ++ others, last)

end

mutual

/-- A recorded descent makes the calls of the recursion, behind those that are recorded already. -/
theorem descend_recorded (v : Visitor σ) (path : List Crumb) : ∀ (t : Tree) (s : σ) (done : List (Call σ)),
    v.recorded.descend path t (s, done) = ((v.visit path t s).2, done ++ (v.visit path t s).1)
  | .node label children, s, done => by
      rw [descend, visit, enter_recorded]
      cases v.enter ⟨.node label children, path⟩ s with
      | mk below entered =>
          cases below with
          | false => simp [leave_recorded]
          | true =>
              simp only [if_true]
              rw [descendAll_recorded v path label [] children entered, leave_recorded]
              simp

theorem descendAll_recorded (v : Visitor σ) (path : List Crumb) (label : Label) : ∀ (before row : List Tree) (s : σ)
    (done : List (Call σ)), v.recorded.descendAll path label before row (s, done) =
      ((v.visitAll path label before row s).2, done ++ (v.visitAll path label before row s).1)
  | before, [], s, done => by
      rw [descendAll, visitAll, List.append_nil]
  | before, t :: rest, s, done => by
      rw [descendAll, visitAll, descend_recorded v _ t s done, descendAll_recorded v path label (t :: before) rest,
        List.append_assoc]

end

/-- The calls of a walk are those of the recursion. -/
theorem calls_eq (v : Visitor σ) (root : Tree) (s : σ) : v.calls root s = (v.visit [] root s).1 := by
  rw [calls, walk_eq_descend, descend_recorded, List.nil_append]

mutual

theorem descend_eq (v : Visitor σ) (path : List Crumb) : ∀ (t : Tree) (s : σ),
    v.descend path t s = (v.visit path t s).2
  | .node label children, s => by
      rw [descend, visit]
      cases v.enter ⟨.node label children, path⟩ s with
      | mk below entered =>
          cases below with
          | false => rfl
          | true => simp only [if_true, descendAll_eq v path label [] children entered]

theorem descendAll_eq (v : Visitor σ) (path : List Crumb) (label : Label) : ∀ (before row : List Tree) (s : σ),
    v.descendAll path label before row s = (v.visitAll path label before row s).2
  | before, [], s => by rw [descendAll, visitAll]
  | before, t :: rest, s => by
      rw [descendAll, visitAll, descend_eq v _ t s, descendAll_eq v path label (t :: before) rest]

end

/-- A walk ends in the state in which the recursion ends. -/
theorem walk_eq (v : Visitor σ) (root : Tree) (s : σ) : v.walk root s = (v.visit [] root s).2 := by
  rw [walk_eq_descend, descend_eq]

end Visitor

namespace Tree

mutual

theorem length_nodes : ∀ t : Tree, t.nodes.length = t.size
  | .node label children => by rw [nodes, size, List.length_cons, length_nodesAll children]

theorem length_nodesAll : ∀ trees : List Tree, (nodesAll trees).length = sizeAll trees
  | [] => by rw [nodesAll, sizeAll, List.length_nil]
  | t :: rest => by rw [nodesAll, sizeAll, List.length_append, length_nodes t, length_nodesAll rest]

end

end Tree

namespace Cursor

theorem length_all (root : Tree) : (all root).length = root.size := by
  rw [all, ← List.length_map focus, focus_entered, Tree.length_nodes]

mutual

/-- The places of all nodes of a tree, every place behind those below it. -/
def leavings (path : List Crumb) : Tree → List Cursor
  | .node label children => leavingsAll path label [] children ++ [⟨.node label children, path⟩]

def leavingsAll (path : List Crumb) (label : Label) (before : List Tree) : List Tree → List Cursor
  | [] => []
  | t :: rest => leavings (⟨label, before, rest⟩ :: path) t ++ leavingsAll path label (t :: before) rest

end

mutual

theorem leavings_perm (path : List Crumb) : ∀ t : Tree,
    (leavings path t).Perm (entered (fun _ => false) path t)
  | .node label children => by
      rw [leavings, entered, if_neg Bool.false_ne_true]
      exact (List.perm_append_singleton _ _).trans ((leavingsAll_perm path label [] children).cons _)

theorem leavingsAll_perm (path : List Crumb) (label : Label) : ∀ before row : List Tree,
    (leavingsAll path label before row).Perm (enteredAll (fun _ => false) path label before row)
  | before, [] => by
      rw [leavingsAll, enteredAll]
  | before, t :: rest => by
      rw [leavingsAll, enteredAll]
      exact (leavings_perm _ t).append (leavingsAll_perm path label (t :: before) rest)

end

variable {goes : Cursor → Bool}

/-- Nothing below a place is reached when the walk does not go below the place. -/
theorem filter_pruned {path : List Crumb} {label : Label} {children : List Tree}
    (pruned : goes ⟨.node label children, path⟩ = false) :
    (enteredAll (fun _ => false) path label [] children).filter (reaches goes) = [] := by
  rw [List.filter_eq_nil_iff]
  intro c mem all
  have below : goes ⟨.node label children, path⟩ = true := List.all_eq_true.mp all _ (mem_above_of_row mem)
  rw [pruned] at below
  cases below

end Cursor

namespace Visitor

open Cursor

variable {σ : Type} {v : Visitor σ} {goes : Cursor → Bool}

mutual

theorem visit_sublist (v : Visitor σ) (path : List Crumb) : ∀ (t : Tree) (s : σ),
    ((v.visit path t s).1.filterMap Call.entered?).Sublist (entered (fun _ => false) path t)
  | .node label children, s => by
      rw [visit, entered, if_neg Bool.false_ne_true]
      cases v.enter ⟨.node label children, path⟩ s with
      | mk below next =>
          simp only [Call.filterMap_entered]
          refine List.Sublist.cons_cons _ ?_
          cases below with
          | false => exact List.nil_sublist _
          | true => exact visitAll_sublist v path label [] children next

theorem visitAll_sublist (v : Visitor σ) (path : List Crumb) (label : Label) : ∀ (before row : List Tree) (s : σ),
    ((v.visitAll path label before row s).1.filterMap Call.entered?).Sublist
      (enteredAll (fun _ => false) path label before row)
  | before, [], s => by
      rw [visitAll, enteredAll]
      exact List.Sublist.refl _
  | before, t :: rest, s => by
      rw [visitAll, enteredAll, List.filterMap_append]
      exact (visit_sublist v _ t s).append (visitAll_sublist v path label (t :: before) rest _)

end

mutual

theorem made_visit (v : Visitor σ) (path : List Crumb) : ∀ (t : Tree) (s : σ),
    ∀ call ∈ (v.visit path t s).1, call.Made v
  | .node label children, s => by
      rw [visit]
      cases entry : v.enter ⟨.node label children, path⟩ s with
      | mk below next =>
          refine List.forall_mem_cons.mpr ⟨entry, fun call mem => ?_⟩
          rcases List.mem_append.mp mem with inside | last
          · cases below with
            | false => cases inside
            | true => exact made_visitAll v path label [] children next call inside
          · rw [List.mem_singleton.mp last]
            exact rfl

theorem made_visitAll (v : Visitor σ) (path : List Crumb) (label : Label) : ∀ (before row : List Tree) (s : σ),
    ∀ call ∈ (v.visitAll path label before row s).1, call.Made v
  | before, [], s => by
      rw [visitAll]
      exact List.forall_mem_nil _
  | before, t :: rest, s => by
      rw [visitAll]
      exact List.forall_mem_append.mpr ⟨made_visit v _ t s, made_visitAll v path label (t :: before) rest _⟩

end

/-- Every call of a walk is one of its visitor. -/
theorem made_calls (v : Visitor σ) (root : Tree) (s : σ) : ∀ call ∈ v.calls root s, call.Made v := by
  rw [calls_eq]
  exact made_visit v [] root s

/-- No place is entered twice. -/
theorem nodup_entered_calls (v : Visitor σ) (root : Tree) (s : σ) :
    ((v.calls root s).filterMap Call.entered?).Nodup := by
  rw [calls_eq]
  exact (nodup_entered _ [] root).of_map.sublist (visit_sublist v [] root s)

/-- There is one call on entering a place. -/
theorem enter_unique {c : Cursor} {before before' after after' : σ} {below below' : Bool} {root : Tree} {s : σ}
    (mem : .enter c before below after ∈ v.calls root s)
    (mem' : .enter c before' below' after' ∈ v.calls root s) :
    Call.enter c before below after = .enter c before' below' after' := by
  let Apart (first second : Call σ) : Prop :=
    ∀ d, first.entered? = some d → ∀ d', second.entered? = some d' → d ≠ d'
  have : Std.Symm Apart := ⟨fun _ _ apart d' here d there => (apart d there d' here).symm⟩
  have once : (v.calls root s).Pairwise Apart := List.pairwise_filterMap.mp (nodup_entered_calls v root s)
  by_contra differ
  exact once.forall mem mem' differ c rfl c rfl rfl

/-- What is told by the call on entering a place is known of the place. -/
theorem exists_told {α : Type} [Inhabited α] (v : Visitor σ) (root : Tree) (s : σ)
    (f : Cursor → σ → Bool → σ → α) : ∃ told : Cursor → α, ∀ c before below after,
      .enter c before below after ∈ v.calls root s → told c = f c before below after := by
  have each (c : Cursor) : ∃ told : α, ∀ before below after,
      .enter c before below after ∈ v.calls root s → told = f c before below after := by
    by_cases met : ∃ before below after, .enter c before below after ∈ v.calls root s
    · obtain ⟨before, below, after, mem⟩ := met
      refine ⟨f c before below after, fun before' below' after' mem' => ?_⟩
      obtain ⟨-, rfl, rfl, rfl⟩ := Call.enter.inj (enter_unique mem mem')
      rfl
    · exact ⟨default, fun before below after mem => absurd ⟨before, below, after, mem⟩ met⟩
  exact ⟨fun c => (each c).choose, fun c => (each c).choose_spec⟩

mutual

/-- A recursion enters and leaves the places that have none above them where it goes no further. -/
theorem visit_reached : ∀ {path : List Crumb} {t : Tree} {s : σ},
    (∀ c before below after, .enter c before below after ∈ (v.visit path t s).1 → goes c = below) →
    (∀ a ∈ (⟨t, path⟩ : Cursor).above, goes a = true) →
      (v.visit path t s).1.filterMap Call.entered? = (entered (fun _ => false) path t).filter (reaches goes) ∧
      (v.visit path t s).1.filterMap Call.left? = (leavings path t).filter (reaches goes)
  | path, .node label children, s, tells, open' => by
      have here : reaches goes ⟨.node label children, path⟩ = true := List.all_eq_true.mpr open'
      rw [visit] at tells ⊢
      rw [entered, if_neg Bool.false_ne_true, List.filter_cons_of_pos here, leavings, List.filter_append,
        List.filter_singleton, here]
      cases entry : v.enter ⟨.node label children, path⟩ s with
      | mk below next =>
          rw [entry] at tells
          simp only [Call.filterMap_entered, Call.filterMap_left] at tells ⊢
          have first : goes ⟨.node label children, path⟩ = below := tells _ _ _ _ List.mem_cons_self
          cases below with
          | false =>
              have none := filter_pruned first
              have none' : (leavingsAll path label [] children).filter (reaches goes) = [] := by
                rw [← List.perm_nil, ← none]
                exact (leavingsAll_perm path label [] children).filter _
              rw [none, none']
              exact ⟨rfl, rfl⟩
          | true =>
              obtain ⟨entries, exits⟩ := visitAll_reached [] children (s := next)
                (fun c before below after mem =>
                  tells c before below after (List.mem_cons_of_mem _ (List.mem_append_left _ mem)))
                (List.forall_mem_cons.mpr ⟨first, open'⟩)
              simp only [if_true, entries, exits, cond_true, and_self]

theorem visitAll_reached : ∀ {path : List Crumb} {label : Label} (before row : List Tree) {s : σ},
    (∀ c earlier below after, .enter c earlier below after ∈ (v.visitAll path label before row s).1 →
      goes c = below) →
    (∀ a ∈ (⟨.node label (before.reverse ++ row), path⟩ : Cursor) ::
      (⟨.node label (before.reverse ++ row), path⟩ : Cursor).above, goes a = true) →
      (v.visitAll path label before row s).1.filterMap Call.entered? =
        (enteredAll (fun _ => false) path label before row).filter (reaches goes) ∧
      (v.visitAll path label before row s).1.filterMap Call.left? =
        (leavingsAll path label before row).filter (reaches goes)
  | path, label, before, [], s, _, _ => by
      rw [visitAll, enteredAll, leavingsAll]
      exact ⟨rfl, rfl⟩
  | path, label, before, t :: rest, s, tells, open' => by
      rw [visitAll] at tells ⊢
      obtain ⟨entries, exits⟩ := visit_reached (s := s)
        (fun c earlier below after mem => tells c earlier below after (List.mem_append_left _ mem)) open'
      obtain ⟨entries', exits'⟩ := visitAll_reached (t :: before) rest
        (fun c earlier below after mem => tells c earlier below after (List.mem_append_right _ mem))
        (by rw [rotate]; exact open')
      rw [enteredAll, leavingsAll, List.filterMap_append, List.filterMap_append, List.filter_append,
        List.filter_append, entries, exits, entries', exits']
      exact ⟨rfl, rfl⟩

end

/-- What is left was entered. -/
theorem exists_enter {c : Cursor} {before after : σ} {root : Tree} {s : σ}
    (mem : .leave c before after ∈ v.calls root s) :
    ∃ found below entered, .enter c found below entered ∈ v.calls root s := by
  obtain ⟨goes, tells⟩ := exists_told v root s fun _ _ below _ => below
  rw [calls_eq] at mem tells ⊢
  obtain ⟨entries, exits⟩ := visit_reached tells (by simp [above, aboveFrom])
  have left : c ∈ (v.visit [] root s).1.filterMap Call.left? := List.mem_filterMap.mpr ⟨_, mem, rfl⟩
  rw [exits, ((leavings_perm [] root).filter _).mem_iff, ← entries] at left
  obtain ⟨call, here, place⟩ := List.mem_filterMap.mp left
  cases call with
  | enter d found below entered =>
      obtain rfl := Option.some.inj place
      exact ⟨found, below, entered, here⟩
  | leave => cases place

/-- A walk makes the calls of the recursion and ends in the state in which the recursion ends. With what the calls
on entering say about going below a place, the places that it enters are those that it goes below all places above
of, in the order in which the nodes begin; it leaves the same places in the order in which they end. So no place is
entered or left twice, and there are no more than two calls for every node. -/
theorem walk_recursive (v : Visitor σ) (root : Tree) (s : σ) :
    let calls := v.calls root s
    (calls, v.walk root s) = v.visit [] root s ∧
    (∃ goes : Cursor → Bool,
      (∀ c before below after, .enter c before below after ∈ calls → goes c = below) ∧
      calls.filterMap Call.entered? = (Cursor.all root).filter (reaches goes) ∧
      calls.filterMap Call.left? = (leavings [] root).filter (reaches goes)) ∧
    (Cursor.all root).Nodup ∧ (leavings [] root).Perm (Cursor.all root) ∧
    calls.length ≤ 2 * root.size := by
  intro calls
  obtain ⟨goes, tells⟩ := exists_told v root s fun _ _ below _ => below
  have none : ∀ a ∈ (⟨root, []⟩ : Cursor).above, goes a = true := by simp [above, aboveFrom]
  obtain ⟨entries, exits⟩ := visit_reached (by rw [← calls_eq]; exact tells) none
  rw [← calls_eq] at entries exits
  refine ⟨Prod.ext (calls_eq v root s) (walk_eq v root s), ⟨goes, tells, entries, exits⟩,
    (nodup_entered _ [] root).of_map, leavings_perm [] root, ?_⟩
  have few := List.length_filter_le (reaches goes) (Cursor.all root)
  have few' := List.length_filter_le (reaches goes) (leavings [] root)
  rw [(leavings_perm [] root).length_eq] at few'
  rw [Call.length_eq, entries, exits, Nat.two_mul, ← length_all]
  exact Nat.add_le_add few few'

end Visitor

end Rebundle
