import Rebundle.Proofs.Syntax.Descent

/-!
# Places that a walk reaches

A walk that goes below some nodes and not below others enters the places that have only nodes of the first
sort above them, a place before those below it. When entering is all it does, its result is a fold over
these places.
-/

namespace Rebundle

namespace Cursor

variable {a b c d : Cursor}

/-! Above a place. -/

theorem above_trans (ab : a ∈ b.above) (bc : b ∈ c.above) : a ∈ c.above := by
  induction c using aboveInduction with
  | top c none =>
      rw [parent?_eq, List.head?_eq_none_iff] at none
      rw [none] at bc
      cases bc
  | step c d up ih =>
      rw [above_eq up] at bc ⊢
      rcases List.mem_cons.mp bc with rfl | bc
      · exact List.mem_cons_of_mem _ ab
      · exact List.mem_cons_of_mem _ (ih bc)

/-- What is above a place is on the way to it. -/
theorem address_of_mem_above (mem : a ∈ c.above) :
    a.address <:+ c.address ∧ a.address.length < c.address.length := by
  induction c using aboveInduction with
  | top c none =>
      rw [parent?_eq, List.head?_eq_none_iff] at none
      rw [none] at mem
      cases mem
  | step c d up ih =>
      have longer : d.address <:+ c.address ∧ d.address.length < c.address.length := by
        obtain ⟨t, path⟩ := c
        cases path with
        | nil => cases up
        | cons crumb path =>
            cases up
            exact ⟨List.suffix_cons _ _, by simp [address]⟩
      rw [above_eq up] at mem
      rcases List.mem_cons.mp mem with rfl | mem
      · exact longer
      · obtain ⟨under, shorter⟩ := ih mem
        exact ⟨under.trans longer.1, Nat.lt_trans shorter longer.2⟩

theorem not_mem_above_self (c : Cursor) : c ∉ c.above :=
  fun mem => Nat.lt_irrefl _ (address_of_mem_above mem).2

/-- A place above another has a child on the way. -/
theorem exists_branch (mem : a ∈ c.above) : ∃ e : Cursor, e.parent? = some a ∧ (e = c ∨ e ∈ c.above) := by
  induction c using aboveInduction with
  | top c none =>
      rw [parent?_eq, List.head?_eq_none_iff] at none
      rw [none] at mem
      cases mem
  | step c d up ih =>
      rw [above_eq up] at mem ⊢
      rcases List.mem_cons.mp mem with rfl | mem
      · exact ⟨c, up, .inl rfl⟩
      · obtain ⟨e, child, rfl | above⟩ := ih mem
        · exact ⟨e, child, .inr List.mem_cons_self⟩
        · exact ⟨e, child, .inr (List.mem_cons_of_mem _ above)⟩

/-- The first place of a tree is above all others. -/
theorem eq_or_top_mem_above (c : Cursor) : c = ofTree c.whole ∨ ofTree c.whole ∈ c.above := by
  induction c using aboveInduction with
  | top c none =>
      obtain ⟨t, path⟩ := c
      cases path with
      | nil => exact .inl rfl
      | cons crumb path => cases none
  | step c d up ih =>
      rw [above_eq up, ← whole_parent up]
      rcases ih with same | above
      · exact .inr (by rw [← same]; exact List.mem_cons_self)
      · exact .inr (List.mem_cons_of_mem _ above)

theorem range_of_mem_above (laid : c.whole.Laid) (mem : a ∈ c.above) :
    a.focus.start ≤ c.focus.start ∧ c.focus.stop ≤ a.focus.stop := by
  obtain ⟨stands, child, childMem, below⟩ := mem_nodes_of_mem_above mem
  have laidA := (laid.node (stands ▸ a.focus_mem_whole)).1
  obtain ⟨laidChild, begins, ends⟩ := laidA.child childMem
  obtain ⟨_, begins', ends'⟩ := laidChild.node below
  omega

/-- Two children of one place are the same or lie apart. -/
theorem siblings_apart (first : a.parent? = some c) (second : b.parent? = some c)
    (laid : c.focus.Laid) :
    a = b ∨ a.focus.stop ≤ b.focus.start ∨ b.focus.stop ≤ a.focus.start := by
  obtain ⟨t, way⟩ := a
  obtain ⟨t', way'⟩ := b
  match way, way', first, second with
  | ⟨label, before, behind⟩ :: path, ⟨label', before', behind'⟩ :: path', first, second =>
      simp only [parent?, Option.some.injEq] at first second
      subst first
      simp only [mk.injEq, Tree.node.injEq] at second
      obtain ⟨⟨rfl, row⟩, rfl⟩ := second
      have ordered := laid.children.pairwise
      simp only [Tree.children] at ordered
      rcases Nat.lt_trichotomy before.length before'.length with less | same | more
      · right; left
        rw [← row, List.pairwise_append] at ordered
        refine ordered.2.2 t ?_ t' List.mem_cons_self
        have here : (before'.reverse ++ t' :: behind')[before.length]? = some t := by
          rw [row, List.getElem?_append_right (by simp), List.length_reverse, Nat.sub_self]
          rfl
        rw [List.getElem?_append_left (by simpa using less)] at here
        exact List.mem_of_getElem? here
      · left
        obtain ⟨front, back⟩ := List.append_inj row (by simp [same])
        obtain ⟨rfl, rfl⟩ := List.cons.inj back
        rw [List.reverse_injective front]
      · right; right
        rw [List.pairwise_append] at ordered
        refine ordered.2.2 t' ?_ t List.mem_cons_self
        have here : (before.reverse ++ t :: behind)[before'.length]? = some t' := by
          rw [← row, List.getElem?_append_right (by simp), List.length_reverse, Nat.sub_self]
          rfl
        rw [List.getElem?_append_left (by simpa using more)] at here
        exact List.mem_of_getElem? here

/-- A child of a place above another one is on the way, or its node lies apart. -/
theorem child_on_way (laid : c.whole.Laid) (above : a ∈ c.above) {t : Tree} (child : t ∈ a.focus.children) :
    (t.stop ≤ c.focus.start ∨ c.focus.stop ≤ t.start) ∨
      ∃ e : Cursor, e.parent? = some a ∧ e.focus = t ∧ (e = c ∨ e ∈ c.above) := by
  obtain ⟨e, up, way⟩ := exists_branch above
  obtain ⟨b, up', rfl⟩ := exists_child child
  have laidA := (laid.node ((mem_nodes_of_mem_above above).1 ▸ a.focus_mem_whole)).1
  have under : e.focus.start ≤ c.focus.start ∧ c.focus.stop ≤ e.focus.stop := by
    rcases way with rfl | way
    · exact ⟨Nat.le_refl _, Nat.le_refl _⟩
    · exact range_of_mem_above laid way
  rcases siblings_apart up' up laidA with rfl | apart
  · exact .inr ⟨b, up, rfl, way⟩
  · exact .inl (by omega)

/-- Of two places in a tree one is above the other, or their nodes lie apart. -/
theorem comparable {root : Tree} (laid : root.Laid) (standsC : c.whole = root) (standsD : d.whole = root) :
    c = d ∨ c ∈ d.above ∨ d ∈ c.above ∨ c.focus.stop ≤ d.focus.start ∨
      d.focus.stop ≤ c.focus.start := by
  induction c using aboveInduction with
  | top c none =>
      rcases eq_or_top_mem_above c with same | above
      · rw [same, standsC, ← standsD]
        exact (eq_or_top_mem_above d).imp Eq.symm Or.inl
      · rw [parent?_eq, List.head?_eq_none_iff] at none
        rw [none] at above
        cases above
  | step c p up ih =>
      have standsP := (whole_parent up).trans standsC
      have inside := range_of_mem_above (a := p) (by rw [standsC]; exact laid)
        (by rw [above_eq up]; exact List.mem_cons_self)
      rcases ih standsP with rfl | above | above | apart
      · exact .inr (.inr (.inl (by rw [above_eq up]; exact List.mem_cons_self)))
      · obtain ⟨e, child, way⟩ := exists_branch above
        have under : e.focus.start ≤ d.focus.start ∧ d.focus.stop ≤ e.focus.stop := by
          rcases way with rfl | way
          · exact ⟨Nat.le_refl _, Nat.le_refl _⟩
          · exact range_of_mem_above (by rw [standsD]; exact laid) way
        rcases siblings_apart up child (laid.node (standsP ▸ p.focus_mem_whole)).1 with rfl | apart
        · rcases way with rfl | way
          · exact .inl rfl
          · exact .inr (.inl way)
        · omega
      · exact .inr (.inr (.inl (by rw [above_eq up]; exact List.mem_cons_of_mem _ above)))
      · omega

/-! The places that a walk enters. -/

variable {skips : Tree → Bool}

mutual

/-- A walk from a place stays below it. -/
theorem eq_or_mem_above : ∀ {path : List Crumb} {t : Tree}, c ∈ entered skips path t →
    c = ⟨t, path⟩ ∨ ⟨t, path⟩ ∈ c.above
  | path, .node label children, mem => by
      rw [entered] at mem
      split at mem
      · cases mem
      · rcases List.mem_cons.mp mem with same | below
        · exact .inl same
        · exact .inr (mem_above_of_row below)

theorem mem_above_of_row : ∀ {path : List Crumb} {label : Label} {before row : List Tree},
    c ∈ enteredAll skips path label before row →
      ⟨.node label (before.reverse ++ row), path⟩ ∈ c.above
  | path, label, before, [], mem => by
      rw [enteredAll] at mem
      cases mem
  | path, label, before, t :: rest, mem => by
      rw [enteredAll] at mem
      rcases List.mem_append.mp mem with here | later
      · have parent : (⟨.node label (before.reverse ++ t :: rest), path⟩ : Cursor) ∈
            (⟨t, ⟨label, before, rest⟩ :: path⟩ : Cursor).above := List.mem_cons_self
        rcases eq_or_mem_above here with rfl | above
        · exact parent
        · exact above_trans parent above
      · rw [← rotate]
        exact mem_above_of_row later

end

mutual

/-- A walk enters a place before those below it. -/
theorem pairwise_entered (skips : Tree → Bool) : ∀ (path : List Crumb) (t : Tree),
    (entered skips path t).Pairwise fun a b => b ∉ a.above
  | path, .node label children => by
      rw [entered]
      split
      · exact List.Pairwise.nil
      · refine List.pairwise_cons.mpr ⟨?_, pairwise_enteredAll skips path label [] children⟩
        intro b below above
        have shorter := (address_of_mem_above above).2
        have longer := (address_of_mem_above (mem_above_of_row below)).2
        simp only [address, List.length_map] at shorter longer
        omega

theorem pairwise_enteredAll (skips : Tree → Bool) (path : List Crumb) (label : Label) :
    ∀ before row : List Tree, (enteredAll skips path label before row).Pairwise fun a b => b ∉ a.above
  | before, [] => by
      rw [enteredAll]
      exact List.Pairwise.nil
  | before, t :: rest => by
      rw [enteredAll, List.pairwise_append]
      refine ⟨pairwise_entered skips _ t, pairwise_enteredAll skips path label (t :: before) rest, ?_⟩
      intro a here b later above
      have under := suffix_of_mem_entered here
      obtain ⟨k, far, under'⟩ := suffix_of_mem_enteredAll later
      have equal := (List.suffix_of_suffix_length_le under
        (under'.trans (address_of_mem_above above).1) (by simp)).eq_of_length (by simp)
      simp only [List.map_cons, List.cons.injEq, and_true, List.length_cons] at equal far
      omega

end

/-- Whether all places above a place are gone below. -/
def reaches (below : Cursor → Bool) (c : Cursor) : Bool := c.above.all below

/-- The places that a walk enters which goes below some nodes only, in its order. -/
def reached (below : Cursor → Bool) (root : Tree) : List Cursor := (all root).filter (reaches below)

variable {below : Cursor → Bool} {root : Tree}

theorem mem_reached : c ∈ reached below root ↔ c.whole = root ∧ ∀ a ∈ c.above, below a = true := by
  simp only [reached, List.mem_filter, reaches, List.all_eq_true]
  constructor
  · rintro ⟨mem, all⟩
    exact ⟨whole_of_mem_entered mem, all⟩
  · rintro ⟨rfl, all⟩
    exact ⟨mem_all c, all⟩

theorem pairwise_reached (below : Cursor → Bool) (root : Tree) :
    (reached below root).Pairwise fun a b => b ∉ a.above :=
  (pairwise_entered _ [] root).sublist List.filter_sublist

/-- A node of a tree is found at one of its places. -/
theorem exists_place {t : Tree} (mem : t ∈ root.nodes) : ∃ c : Cursor, c.whole = root ∧ c.focus = t := by
  rw [← focus_entered [] root] at mem
  obtain ⟨c, entered, rfl⟩ := List.mem_map.mp mem
  exact ⟨c, whole_of_mem_entered entered, rfl⟩

/-- A place that a walk does not reach has one above it that the walk reaches and does not go below. -/
theorem exists_pruned (stands : c.whole = root) (missed : c ∉ reached below root) :
    ∃ a ∈ c.above, a ∈ reached below root ∧ below a = false := by
  induction c using aboveInduction with
  | top c none =>
      rw [parent?_eq, List.head?_eq_none_iff] at none
      exact absurd (mem_reached.mpr ⟨stands, by simp [none]⟩) missed
  | step c d up ih =>
      have standsD := (whole_parent up).trans stands
      rw [above_eq up]
      by_cases here : d ∈ reached below root
      · refine ⟨d, List.mem_cons_self, here, ?_⟩
        rw [Bool.eq_false_iff]
        intro goes
        refine missed (mem_reached.mpr ⟨stands, ?_⟩)
        rw [above_eq up]
        intro a mem
        rcases List.mem_cons.mp mem with rfl | mem
        · exact goes
        · exact (mem_reached.mp here).2 a mem
      · obtain ⟨a, above, pruned⟩ := ih standsD here
        exact ⟨a, List.mem_cons_of_mem _ above, pruned⟩

end Cursor

namespace Visitor

open Cursor

variable {σ : Type} {v : Visitor σ} {below : Cursor → Bool} {holds : σ → Prop}

/-- A visitor that does nothing on leaving, and goes below the same nodes in all states that hold. -/
structure Steady (v : Visitor σ) (below : Cursor → Bool) (holds : σ → Prop) : Prop where
  agree : ∀ c s, holds s → (v.enter c s).1 = below c
  keeps : ∀ c s, holds s → holds (v.enter c s).2
  idle : ∀ c s, v.leave c s = s

mutual

theorem Steady.descend (steady : Steady v below holds) : ∀ (path : List Crumb) (t : Tree) (s : σ),
    (∀ a ∈ (⟨t, path⟩ : Cursor).above, below a = true) → holds s →
      v.descend path t s =
        ((entered (fun _ => false) path t).filter (reaches below)).foldl (fun s c => (v.enter c s).2) s ∧
      holds (v.descend path t s)
  | path, .node label children, s, open', before => by
      have here : reaches below ⟨.node label children, path⟩ = true := List.all_eq_true.mpr open'
      have first := steady.agree ⟨.node label children, path⟩ s before
      have holding := steady.keeps ⟨.node label children, path⟩ s before
      rw [Visitor.descend, entered, if_neg Bool.false_ne_true, List.filter_cons_of_pos here, List.foldl_cons]
      cases entry : v.enter ⟨.node label children, path⟩ s with
      | mk goes next =>
          rw [entry] at first holding
          simp only [steady.idle]
          cases goes with
          | true =>
              refine steady.descendAll path label [] children next ?_ holding
              intro a mem
              rcases List.mem_cons.mp mem with rfl | mem
              · exact first.symm
              · exact open' a mem
          | false =>
              have none : (enteredAll (fun _ => false) path label [] children).filter (reaches below) =
                  [] := by
                rw [List.filter_eq_nil_iff]
                intro c mem all
                have goes : below ⟨.node label children, path⟩ = true :=
                  List.all_eq_true.mp all _ (mem_above_of_row mem)
                rw [← first] at goes
                cases goes
              rw [none]
              exact ⟨rfl, holding⟩

theorem Steady.descendAll (steady : Steady v below holds) (path : List Crumb) (label : Label) :
    ∀ (before row : List Tree) (s : σ),
    (∀ a ∈ (⟨.node label (before.reverse ++ row), path⟩ : Cursor) ::
      (⟨.node label (before.reverse ++ row), path⟩ : Cursor).above, below a = true) → holds s →
      v.descendAll path label before row s =
        ((enteredAll (fun _ => false) path label before row).filter (reaches below)).foldl
          (fun s c => (v.enter c s).2) s ∧
      holds (v.descendAll path label before row s)
  | before, [], s, _, holding => by
      rw [Visitor.descendAll, enteredAll]
      exact ⟨rfl, holding⟩
  | before, t :: rest, s, open', holding => by
      obtain ⟨first, next⟩ := steady.descend (⟨label, before, rest⟩ :: path) t s open' holding
      obtain ⟨later, last⟩ := steady.descendAll path label (t :: before) rest _
        (by rw [rotate]; exact open') next
      rw [Visitor.descendAll, enteredAll, List.filter_append, List.foldl_append, ← first]
      exact ⟨later, last⟩

end

/-- A walk that does nothing on leaving is a fold over the places that it reaches. -/
theorem Steady.walk_eq_foldl (steady : Steady v below holds) {s : σ} (before : holds s) (root : Tree) :
    v.walk root s = (reached below root).foldl (fun s c => (v.enter c s).2) s := by
  rw [walk_eq_descend]
  exact (steady.descend [] root s (by simp [above, aboveFrom]) before).1

/-! A walk that does something on leaving too. -/

section

variable {skips : Tree → Bool} {f : Cursor → σ → σ} {holds : List Cursor → σ → Prop} {sites : List Cursor}

/-- A visitor that skips some nodes, with a property of its states and of the places before the one at which it
stands: entering the next place preserves the property, and so does leaving. -/
structure Visits (v : Visitor σ) (skips : Tree → Bool) (f : Cursor → σ → σ)
    (holds : List Cursor → σ → Prop) (sites : List Cursor) : Prop where
  enter : ∀ c s, v.enter c s = if skips c.focus then (false, s) else (true, f c s)
  step : ∀ done c later s, sites = done ++ c :: later → holds done s → holds (done ++ [c]) (f c s)
  left : ∀ done c s, holds done s → holds done (v.leave c s)

mutual

theorem Visits.descend (visits : Visits v skips f holds sites) : ∀ {path : List Crumb} {t : Tree}
    {done later : List Cursor} {s : σ}, sites = done ++ (entered skips path t ++ later) → holds done s →
      holds (done ++ entered skips path t) (v.descend path t s)
  | path, .node label children, done, later, s, split, before => by
      rw [entered] at split ⊢
      rw [Visitor.descend, visits.enter]
      by_cases skipped : skips (.node label children) = true
      · rw [if_pos skipped, if_pos skipped, List.append_nil]
        exact visits.left done _ s before
      · rw [if_neg skipped, List.cons_append] at split
        have entering := visits.step done _ _ s split before
        rw [← List.singleton_append, ← List.append_assoc] at split
        have below := visits.descendAll split entering
        rw [List.append_assoc] at below
        rw [if_neg skipped, if_neg skipped]
        exact visits.left _ _ _ below

theorem Visits.descendAll (visits : Visits v skips f holds sites) : ∀ {path : List Crumb} {label : Label}
    {before row : List Tree} {done later : List Cursor} {s : σ},
      sites = done ++ (enteredAll skips path label before row ++ later) → holds done s →
      holds (done ++ enteredAll skips path label before row) (v.descendAll path label before row s)
  | path, label, before, [], done, later, s, split, holding => by
      rw [enteredAll, List.append_nil, Visitor.descendAll]
      exact holding
  | path, label, before, t :: rest, done, later, s, split, holding => by
      rw [enteredAll, List.append_assoc] at split
      have first := visits.descend split holding
      rw [← List.append_assoc] at split
      rw [enteredAll, Visitor.descendAll, ← List.append_assoc]
      exact visits.descendAll split first

end

/-- What entering the next place preserves of the places before it, a walk preserves. -/
theorem Visits.walk (visits : Visits v skips f holds sites) {root : Tree} (places : sites = entered skips [] root)
    {s : σ} (before : holds [] s) : holds sites (v.walk root s) := by
  have all := visits.descend
    (show sites = [] ++ (entered skips [] root ++ []) by rw [places, List.append_nil, List.nil_append]) before
  rw [walk_eq_descend, places]
  exact all

end

end Visitor

end Rebundle
