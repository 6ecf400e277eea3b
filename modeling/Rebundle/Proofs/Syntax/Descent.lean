import Mathlib.Data.List.Nodup
import Rebundle.Proofs.Syntax.Layout
import Rebundle.Syntax.Cursor

/-!
# Walks and descents

A cursor stands in one tree all the time: moving it changes the place, not the tree. So what entering
and leaving preserve at every place of a tree holds after a walk through it.

A walk moves one cursor, but it does what a recursion over the tree does: it enters a node, goes through
the children one after the other when it goes below the node, and leaves the node.
-/

namespace Rebundle

/-- The node above a tree that stands at the end of this step. -/
def Crumb.fill (crumb : Crumb) (t : Tree) : Tree :=
  .node crumb.label (crumb.before.reverse ++ t :: crumb.behind)

namespace Cursor

/-- The tree that a cursor stands in. -/
def whole (c : Cursor) : Tree := c.path.foldl (fun t crumb => crumb.fill t) c.focus

theorem whole_firstChild {c d : Cursor} (h : c.firstChild? = some d) : d.whole = c.whole := by
  obtain ⟨⟨label, children⟩, path⟩ := c
  cases children with
  | nil => simp [firstChild?] at h
  | cons child rest =>
      simp only [firstChild?, Option.some.injEq] at h
      subst h
      rfl

theorem whole_nextSibling {c d : Cursor} (h : c.nextSibling? = some d) : d.whole = c.whole := by
  obtain ⟨focus, path⟩ := c
  match path, h with
  | ⟨label, before, sibling :: rest⟩ :: above, h =>
      simp only [nextSibling?, Option.some.injEq] at h
      subst h
      simp [whole, Crumb.fill]

theorem whole_parent {c d : Cursor} (h : c.parent? = some d) : d.whole = c.whole := by
  obtain ⟨focus, path⟩ := c
  match path, h with
  | ⟨label, before, behind⟩ :: above, h =>
      simp only [parent?, Option.some.injEq] at h
      subst h
      rfl

/-- A cursor and its parent are in the same tree. -/
theorem whole_of_near {c d : Cursor} (near : d = c ∨ c.parent? = some d) : d.whole = c.whole := by
  rcases near with rfl | up
  · rfl
  · exact whole_parent up

/-- The node at a cursor is one of the tree that the cursor stands in. -/
theorem focus_mem_whole (c : Cursor) : c.focus ∈ c.whole.nodes := by
  obtain ⟨focus, path⟩ := c
  induction path generalizing focus with
  | nil => exact Tree.self_mem_nodes focus
  | cons crumb above ih =>
      refine Tree.mem_nodes_trans (Tree.child_mem_nodes ?_) (ih (crumb.fill focus))
      simp [Crumb.fill, Tree.children]

/-- The parent of a cursor with its place: the label of the parent heads the ancestors. -/
theorem parent_spec {c d : Cursor} (h : c.parent? = some d) :
    c.focus ∈ d.focus.children ∧ c.ancestors = d.focus.label :: d.ancestors := by
  obtain ⟨focus, path⟩ := c
  match path, h with
  | ⟨label, before, behind⟩ :: above, h =>
      simp only [parent?, Option.some.injEq] at h
      subst h
      simp [Tree.children, Tree.label, ancestors]

theorem parent_cases (c : Cursor) :
    (c.parent? = none ∧ c.ancestors = [] ∧ c.focus = c.whole) ∨ ∃ d, c.parent? = some d := by
  obtain ⟨focus, path⟩ := c
  cases path with
  | nil => exact .inl ⟨rfl, rfl, rfl⟩
  | cons crumb above => exact .inr ⟨_, rfl⟩

end Cursor

namespace Visitor

variable {σ τ : Type}

/-- Two visitors go through a tree side by side as long as both go below a node or neither does. What
relates their states at every cursor then relates them after a walk from any of these cursors. -/
theorem enterAt_related {related : σ → τ → Prop} {v : Visitor σ} {w : Visitor τ} {root : Tree}
    (enter : ∀ c s t, c.whole = root → related s t →
      (w.enter c t).1 = (v.enter c s).1 ∧ related (v.enter c s).2 (w.enter c t).2)
    (leave : ∀ c s t, c.whole = root → related s t → related (v.leave c s) (w.leave c t)) (n : Nat) :
    (∀ c s t, c.entering < n → c.whole = root → related s t →
        related (v.enterAt c s) (w.enterAt c t)) ∧
      ∀ c s t, c.leaving < n → c.whole = root → related s t →
        related (v.leaveAt c s) (w.leaveAt c t) := by
  induction n with
  | zero => exact ⟨fun _ _ _ bound => absurd bound (Nat.not_lt_zero _),
      fun _ _ _ bound => absurd bound (Nat.not_lt_zero _)⟩
  | succ n ih =>
      constructor
      · intro c s t bound stands before
        obtain ⟨same, entered⟩ := enter c s t stands before
        rw [enterAt, enterAt]
        cases first : v.enter c s with
        | mk descend next =>
            cases second : w.enter c t with
            | mk descend' next' =>
                rw [first, second] at same entered
                cases same
                have left := ih.2 c next next' (by have := c.leaving_lt_entering; omega) stands entered
                cases descend with
                | false => exact left
                | true =>
                    simp only [if_true]
                    split
                    · rename_i child down
                      have := Cursor.entering_firstChild down
                      exact ih.1 child _ _ (by omega) ((Cursor.whole_firstChild down).trans stands)
                        entered
                    · exact left
      · intro c s t bound stands before
        have left := leave c s t stands before
        rw [leaveAt, leaveAt]
        split
        · rename_i sibling across
          have := Cursor.entering_nextSibling across
          exact ih.1 sibling _ _ (by omega) ((Cursor.whole_nextSibling across).trans stands) left
        · split
          · rename_i parent up
            have := Cursor.leaving_parent up
            exact ih.2 parent _ _ (by omega) ((Cursor.whole_parent up).trans stands) left
          · exact left

theorem walk_related (related : σ → τ → Prop) {v : Visitor σ} {w : Visitor τ} {root : Tree} {s : σ}
    {t : τ}
    (enter : ∀ c s t, c.whole = root → related s t →
      (w.enter c t).1 = (v.enter c s).1 ∧ related (v.enter c s).2 (w.enter c t).2)
    (leave : ∀ c s t, c.whole = root → related s t → related (v.leave c s) (w.leave c t))
    (before : related s t) : related (v.walk root s) (w.walk root t) :=
  (enterAt_related enter leave _).1 (Cursor.ofTree root) s t (Nat.lt_succ_self _) rfl before

/-- What a visitor preserves at every cursor in a tree, a walk through the tree preserves. -/
theorem walk_preserves (holds : σ → Prop) {v : Visitor σ} {root : Tree} {s : σ}
    (enter : ∀ c s, c.whole = root → holds s → holds (v.enter c s).2)
    (leave : ∀ c s, c.whole = root → holds s → holds (v.leave c s)) (before : holds s) :
    holds (v.walk root s) := by
  have both : v.walk root s = v.walk root s ∧ holds (v.walk root s) := by
    refine walk_related (fun s t : σ => t = s ∧ holds s) ?_ ?_ ⟨rfl, before⟩
    · rintro c s _ stands ⟨rfl, before⟩
      exact ⟨rfl, rfl, enter c _ stands before⟩
    · rintro c s _ stands ⟨rfl, before⟩
      exact ⟨rfl, leave c _ stands before⟩
  exact both.2

end Visitor

namespace Visitor

variable {σ : Type}

mutual

/-- What a walk makes of a state from entering a node to leaving it. -/
def descend (v : Visitor σ) (path : List Crumb) : Tree → σ → σ
  | .node label children, s =>
      let (below, s) := v.enter ⟨.node label children, path⟩ s
      v.leave ⟨.node label children, path⟩ (if below then descendAll v path label [] children s else s)

/-- The same for a row of children behind others. -/
def descendAll (v : Visitor σ) (path : List Crumb) (label : Label) (before : List Tree) :
    List Tree → σ → σ
  | [], s => s
  | t :: rest, s =>
      descendAll v path label (t :: before) rest (descend v (⟨label, before, rest⟩ :: path) t s)

end

/-- What a walk does once it has left a node. -/
def goOn (v : Visitor σ) (c : Cursor) (s : σ) : σ :=
  match c.nextSibling? with
  | some sibling => v.enterAt sibling s
  | none =>
      match c.parent? with
      | some parent => v.leaveAt parent s
      | none => s

theorem leaveAt_eq (v : Visitor σ) (c : Cursor) (s : σ) : v.leaveAt c s = v.goOn c (v.leave c s) := by
  rw [leaveAt, goOn]
  cases c.nextSibling? with
  | some sibling => rfl
  | none => cases c.parent? <;> rfl

/-- What a walk does next in a row of children: it enters the first of them, or it leaves the parent. -/
def enterRow (v : Visitor σ) (path : List Crumb) (label : Label) (before : List Tree) :
    List Tree → σ → σ
  | [], s => v.leaveAt ⟨.node label before.reverse, path⟩ s
  | t :: rest, s => v.enterAt ⟨t, ⟨label, before, rest⟩ :: path⟩ s

theorem goOn_row (v : Visitor σ) (path : List Crumb) (label : Label) (before rest : List Tree) (t : Tree)
    (s : σ) : v.goOn ⟨t, ⟨label, before, rest⟩ :: path⟩ s = v.enterRow path label (t :: before) rest s := by
  cases rest with
  | nil =>
      rw [enterRow, List.reverse_cons]
      rfl
  | cons u rest => rfl

mutual

theorem enterAt_eq (v : Visitor σ) (path : List Crumb) : ∀ (t : Tree) (s : σ),
    v.enterAt ⟨t, path⟩ s = v.goOn ⟨t, path⟩ (v.descend path t s)
  | .node label children, s => by
      rw [enterAt, descend]
      cases v.enter ⟨.node label children, path⟩ s with
      | mk below next =>
          have row := enterRow_eq v path label [] children next
          rw [leaveAt_eq] at row
          cases below with
          | false => exact leaveAt_eq v _ next
          | true => cases children <;> exact row

theorem enterRow_eq (v : Visitor σ) (path : List Crumb) (label : Label) : ∀ (before row : List Tree)
    (s : σ), v.enterRow path label before row s =
      v.leaveAt ⟨.node label (before.reverse ++ row), path⟩ (v.descendAll path label before row s)
  | before, [], s => by rw [enterRow, descendAll, List.append_nil]
  | before, t :: rest, s => by
      have next := enterRow_eq v path label (t :: before) rest
        (v.descend (⟨label, before, rest⟩ :: path) t s)
      rw [List.reverse_cons, List.append_assoc] at next
      rw [enterRow, enterAt_eq v _ t s, goOn_row, descendAll]
      exact next

end

/-- A walk through a tree is a descent. -/
theorem walk_eq_descend (v : Visitor σ) (root : Tree) (s : σ) : v.walk root s = v.descend [] root s :=
  enterAt_eq v [] root s

end Visitor

namespace Cursor

/-- Where a cursor stands: for every step of the way the number of siblings before it. -/
def address (c : Cursor) : List Nat := c.path.map (·.before.length)

/-- The places above a node, the nearest first. -/
def aboveFrom (t : Tree) : List Crumb → List Cursor
  | [] => []
  | crumb :: path => ⟨crumb.fill t, path⟩ :: aboveFrom (crumb.fill t) path

def above (c : Cursor) : List Cursor := aboveFrom c.focus c.path

mutual

/-- The places that a walk enters when it skips some nodes with all below them, in its order. -/
def entered (skips : Tree → Bool) (path : List Crumb) : Tree → List Cursor
  | .node label children =>
      if skips (.node label children) then []
      else ⟨.node label children, path⟩ :: enteredAll skips path label [] children

def enteredAll (skips : Tree → Bool) (path : List Crumb) (label : Label) (before : List Tree) :
    List Tree → List Cursor
  | [] => []
  | t :: rest =>
      entered skips (⟨label, before, rest⟩ :: path) t ++ enteredAll skips path label (t :: before) rest

end

variable {skips : Tree → Bool}

mutual

theorem suffix_of_mem_entered {c : Cursor} : ∀ {path : List Crumb} {t : Tree}, c ∈ entered skips path t →
    path.map (·.before.length) <:+ c.address
  | path, .node label children, mem => by
      rw [entered] at mem
      split at mem
      · cases mem
      · rcases List.mem_cons.mp mem with rfl | mem
        · exact List.suffix_refl _
        · obtain ⟨k, _, under⟩ := suffix_of_mem_enteredAll mem
          exact (List.suffix_cons k _).trans under

theorem suffix_of_mem_enteredAll {c : Cursor} : ∀ {path : List Crumb} {label : Label}
    {before row : List Tree}, c ∈ enteredAll skips path label before row →
    ∃ k, before.length ≤ k ∧ k :: path.map (·.before.length) <:+ c.address
  | path, label, before, [], mem => by
      rw [enteredAll] at mem
      cases mem
  | path, label, before, t :: rest, mem => by
      rw [enteredAll] at mem
      rcases List.mem_append.mp mem with here | later
      · exact ⟨before.length, Nat.le_refl _, suffix_of_mem_entered here⟩
      · obtain ⟨k, behind, under⟩ := suffix_of_mem_enteredAll later
        exact ⟨k, Nat.le_of_succ_le behind, under⟩

end

mutual

/-- No two places that a walk enters have the same address. -/
theorem nodup_entered (skips : Tree → Bool) : ∀ (path : List Crumb) (t : Tree),
    ((entered skips path t).map address).Nodup
  | path, .node label children => by
      rw [entered]
      split
      · exact List.nodup_nil
      · refine List.nodup_cons.mpr ⟨?_, nodup_enteredAll skips path label [] children⟩
        intro mem
        obtain ⟨c, below, same⟩ := List.mem_map.mp mem
        obtain ⟨k, _, under⟩ := suffix_of_mem_enteredAll below
        have longer := under.length_le
        rw [same] at longer
        simp only [address, List.length_cons, List.length_map] at longer
        omega

theorem nodup_enteredAll (skips : Tree → Bool) (path : List Crumb) (label : Label) :
    ∀ before row : List Tree, ((enteredAll skips path label before row).map address).Nodup
  | before, [] => by
      rw [enteredAll]
      exact List.nodup_nil
  | before, t :: rest => by
      rw [enteredAll, List.map_append, List.nodup_append]
      refine ⟨nodup_entered skips _ t, nodup_enteredAll skips path label (t :: before) rest, ?_⟩
      intro address here other later same
      obtain ⟨c, below, rfl⟩ := List.mem_map.mp here
      obtain ⟨d, behind, rfl⟩ := List.mem_map.mp later
      have under := suffix_of_mem_entered below
      obtain ⟨k, far, under'⟩ := suffix_of_mem_enteredAll behind
      rw [← same] at under'
      have equal := (List.suffix_of_suffix_length_le under under' (by simp)).eq_of_length (by simp)
      simp only [List.map_cons, List.cons.injEq, and_true, List.length_cons] at equal far
      omega

end

/-! What is above a place. -/

variable {a c d : Cursor}

theorem parent?_eq (c : Cursor) : c.parent? = c.above.head? := by
  obtain ⟨t, path⟩ := c
  cases path <;> rfl

/-- What is above the parent is above the node. -/
theorem above_eq (up : c.parent? = some d) : c.above = d :: d.above := by
  obtain ⟨t, path⟩ := c
  cases path with
  | nil => cases up
  | cons crumb path =>
      cases up
      rfl

theorem aboveInduction {motive : Cursor → Prop} (top : ∀ c, c.parent? = none → motive c)
    (step : ∀ c d, c.parent? = some d → motive d → motive c) (c : Cursor) : motive c := by
  obtain ⟨t, path⟩ := c
  induction path generalizing t with
  | nil => exact top _ rfl
  | cons crumb path ih => exact step _ ⟨crumb.fill t, path⟩ rfl (ih _)

/-- A node is in a child of every node above it. -/
theorem mem_nodes_of_mem_above (mem : a ∈ c.above) :
    a.whole = c.whole ∧ ∃ child ∈ a.focus.children, c.focus ∈ child.nodes := by
  induction c using aboveInduction with
  | top c none =>
      rw [parent?_eq, List.head?_eq_none_iff] at none
      rw [none] at mem
      cases mem
  | step c d up ih =>
      have stands := whole_parent up
      have child := (parent_spec up).1
      rw [above_eq up] at mem
      rcases List.mem_cons.mp mem with rfl | mem
      · exact ⟨stands, c.focus, child, Tree.self_mem_nodes _⟩
      · obtain ⟨same, branch, branchMem, below⟩ := ih mem
        exact ⟨same.trans stands, branch, branchMem,
          Tree.mem_nodes_trans (Tree.child_mem_nodes child) below⟩

/-- Every child of a node is the focus of a place right below it. -/
theorem exists_child {t : Tree} (mem : t ∈ c.focus.children) :
    ∃ d : Cursor, d.parent? = some c ∧ d.focus = t := by
  obtain ⟨⟨label, children⟩, path⟩ := c
  obtain ⟨before, behind, row⟩ := List.append_of_mem mem
  refine ⟨⟨t, ⟨label, before.reverse, behind⟩ :: path⟩, ?_, rfl⟩
  simp only [Tree.children] at row
  simp [parent?, row]

/-- A row of children is a row below a place. -/
theorem rotate (path : List Crumb) (label : Label) (before rest : List Tree) (t : Tree) :
    (⟨.node label ((t :: before).reverse ++ rest), path⟩ : Cursor) =
      ⟨.node label (before.reverse ++ t :: rest), path⟩ := by
  rw [List.reverse_cons, List.append_assoc]
  rfl

mutual

theorem whole_of_mem_entered : ∀ {path : List Crumb} {t : Tree}, c ∈ entered skips path t →
    c.whole = (⟨t, path⟩ : Cursor).whole
  | path, .node label children, mem => by
      rw [entered] at mem
      split at mem
      · cases mem
      · rcases List.mem_cons.mp mem with rfl | below
        · rfl
        · exact whole_of_mem_enteredAll below

theorem whole_of_mem_enteredAll : ∀ {path : List Crumb} {label : Label} {before row : List Tree},
    c ∈ enteredAll skips path label before row →
      c.whole = (⟨.node label (before.reverse ++ row), path⟩ : Cursor).whole
  | path, label, before, [], mem => by
      rw [enteredAll] at mem
      cases mem
  | path, label, before, t :: rest, mem => by
      rw [enteredAll] at mem
      rcases List.mem_append.mp mem with here | later
      · have stands := whole_of_mem_entered here
        exact stands
      · rw [← rotate]
        exact whole_of_mem_enteredAll later

end

mutual

/-- With a place a walk enters what is above it. -/
theorem above_of_mem_entered : ∀ {path : List Crumb} {t : Tree}, c ∈ entered skips path t →
    a ∈ c.above → a ∈ entered skips path t ∨ a ∈ (⟨t, path⟩ : Cursor).above
  | path, .node label children, mem, up => by
      rw [entered] at mem ⊢
      split at mem
      · cases mem
      · rename_i enters
        rw [if_neg enters]
        rcases List.mem_cons.mp mem with rfl | below
        · exact .inr up
        · rcases above_of_mem_enteredAll below up with here | rfl | above
          · exact .inl (List.mem_cons_of_mem _ here)
          · exact .inl List.mem_cons_self
          · exact .inr above

theorem above_of_mem_enteredAll : ∀ {path : List Crumb} {label : Label} {before row : List Tree},
    c ∈ enteredAll skips path label before row → a ∈ c.above →
      a ∈ enteredAll skips path label before row ∨
        a = ⟨.node label (before.reverse ++ row), path⟩ ∨
          a ∈ (⟨.node label (before.reverse ++ row), path⟩ : Cursor).above
  | path, label, before, [], mem, _ => by
      rw [enteredAll] at mem
      cases mem
  | path, label, before, t :: rest, mem, up => by
      rw [enteredAll] at mem ⊢
      rcases List.mem_append.mp mem with here | later
      · rcases above_of_mem_entered here up with inside | above
        · exact .inl (List.mem_append_left _ inside)
        · exact .inr (List.mem_cons.mp above)
      · have found := above_of_mem_enteredAll later up
        rw [rotate] at found
        exact found.imp_left (List.mem_append_right _)

end

/-! All places of a tree. -/

/-- The places of all nodes of a tree. -/
def all (root : Tree) : List Cursor := entered (fun _ => false) [] root

mutual

theorem focus_entered (path : List Crumb) : ∀ t : Tree,
    (entered (fun _ => false) path t).map focus = t.nodes
  | .node label children => by
      simp only [entered, Bool.false_eq_true, if_false, List.map_cons, Tree.nodes]
      rw [focus_enteredAll path label [] children]

theorem focus_enteredAll (path : List Crumb) (label : Label) : ∀ before row : List Tree,
    (enteredAll (fun _ => false) path label before row).map focus = Tree.nodesAll row
  | before, [] => by simp only [enteredAll, List.map_nil, Tree.nodesAll]
  | before, t :: rest => by
      simp only [enteredAll, List.map_append, Tree.nodesAll]
      rw [focus_entered _ t, focus_enteredAll path label (t :: before) rest]

end

theorem mem_enteredAll (path : List Crumb) (label : Label) {t : Tree} (open' : skips t = false)
    (behind : List Tree) : ∀ before front : List Tree,
      (⟨t, ⟨label, front.reverse ++ before, behind⟩ :: path⟩ : Cursor) ∈
        enteredAll skips path label before (front ++ t :: behind)
  | before, [] => by
      obtain ⟨label', children⟩ := t
      simp [enteredAll, entered, open']
  | before, u :: front => by
      have later := mem_enteredAll path label open' behind (u :: before) front
      rw [List.cons_append, enteredAll, List.reverse_cons, List.append_assoc]
      exact List.mem_append_right _ later

mutual

theorem child_mem_entered (up : c.parent? = some d) (open' : skips c.focus = false) :
    ∀ {path : List Crumb} {t : Tree}, d ∈ entered skips path t → c ∈ entered skips path t
  | path, .node label children, mem => by
      rw [entered] at mem ⊢
      split at mem
      · cases mem
      rename_i entering
      rw [if_neg entering]
      rcases List.mem_cons.mp mem with rfl | mem
      · refine List.mem_cons_of_mem _ ?_
        obtain ⟨t, way⟩ := c
        cases way with
        | nil => cases up
        | cons crumb above =>
            obtain ⟨label', before, behind⟩ := crumb
            simp only [parent?, Option.some.injEq, mk.injEq, Tree.node.injEq] at up
            obtain ⟨⟨rfl, rfl⟩, rfl⟩ := up
            simpa using mem_enteredAll above label' open' behind [] before.reverse
      · exact List.mem_cons_of_mem _ (child_mem_enteredAll up open' mem)

theorem child_mem_enteredAll (up : c.parent? = some d) (open' : skips c.focus = false) :
    ∀ {path : List Crumb} {label : Label} {before row : List Tree},
      d ∈ enteredAll skips path label before row → c ∈ enteredAll skips path label before row
  | path, label, before, [], mem => by
      rw [enteredAll] at mem
      cases mem
  | path, label, before, t :: rest, mem => by
      rw [enteredAll] at mem ⊢
      rcases List.mem_append.mp mem with here | later
      · exact List.mem_append_left _ (child_mem_entered up open' here)
      · exact List.mem_append_right _ (child_mem_enteredAll up open' later)

end

/-- A walk enters a place when it skips neither the node there nor one above. -/
theorem mem_entered_of_open (c : Cursor) (here : skips c.focus = false)
    (above : ∀ a ∈ c.above, skips a.focus = false) : c ∈ entered skips [] c.whole := by
  induction c using aboveInduction with
  | top c none =>
      obtain ⟨t, path⟩ := c
      cases path with
      | nil =>
          obtain ⟨label, children⟩ := t
          have open' : skips (.node label children) = false := here
          change _ ∈ entered skips [] (.node label children)
          simp [entered, open']
      | cons crumb path => cases none
  | step c d up ih =>
      rw [above_eq up] at above
      rw [← whole_parent up]
      exact child_mem_entered up here (ih (above d List.mem_cons_self) fun a mem =>
        above a (List.mem_cons_of_mem _ mem))

/-- Every cursor in a tree stands at one of its places. -/
theorem mem_all (c : Cursor) : c ∈ all c.whole := mem_entered_of_open c rfl fun _ _ => rfl

/-- Nodes of some kinds that have their ranges for themselves are found at one place. -/
theorem eq_of_range_eq {p : Kind → Bool} {root : Tree}
    (apart : ((root.nodes.filter fun t => p t.kind).map Tree.range).Nodup) (stands : c.whole = root)
    (stands' : d.whole = root) (kind : p c.kind = true) (kind' : p d.kind = true)
    (same : c.range = d.range) : c = d := by
  rw [← focus_entered [] root, List.filter_map, List.map_map] at apart
  exact List.inj_on_of_nodup_map apart
    (List.mem_filter.mpr ⟨stands ▸ mem_all c, kind⟩) (List.mem_filter.mpr ⟨stands' ▸ mem_all d, kind'⟩) same

end Cursor

end Rebundle
