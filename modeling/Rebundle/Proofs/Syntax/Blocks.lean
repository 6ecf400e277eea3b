import Rebundle.Proofs.Syntax.Constructs

/-!
# Ranges of blocks

A node that can open a scope is not empty, and a block has something on both of its ends, so nothing below it has its
range. Blocks that are not below each other are disjoint. So every block of a program that is read has its range for
itself.
-/

namespace Rebundle

namespace Tree

/-- Whether the nodes that can open scopes cover something, and blocks more than each of their children. -/
structure Firm (root : Tree) : Prop where
  wide : ∀ t ∈ root.nodes, t.kind.isOpening = true → t.start < t.stop
  wider : ∀ t ∈ root.nodes, t.kind.opensBlock = true → ∀ child ∈ t.children, child.range ≠ t.range

variable {root t : Tree}

theorem isOpening_of_opensBlock {kind : Kind} (block : kind.opensBlock = true) : kind.isOpening = true := by
  rw [Kind.isOpening, block, Bool.or_true]
  rfl

theorem Firm.child (firm : root.Firm) (mem : t ∈ root.children) : t.Firm :=
  ⟨fun u below => firm.wide u (mem_nodes_trans below (child_mem_nodes mem)),
    fun u below => firm.wider u (mem_nodes_trans below (child_mem_nodes mem))⟩

/-- A tree is firm where its root and the trees below the root are. -/
theorem Firm.of_children (wide : root.kind.isOpening = true → root.start < root.stop)
    (wider : root.kind.opensBlock = true → ∀ child ∈ root.children, child.range ≠ root.range)
    (below : ∀ child ∈ root.children, child.Firm) : root.Firm := by
  constructor
  · intro t mem opening
    rcases mem_nodes.mp mem with rfl | ⟨child, own, inside⟩
    · exact wide opening
    · exact (below child own).wide t inside opening
  · intro t mem
    rcases mem_nodes.mp mem with rfl | ⟨child, own, inside⟩
    · exact wider
    · exact (below child own).wider t inside

/-- Among two trees that cover something none covers all of the row. -/
theorem LaidBetween.range_ne {start stop : Nat} {row : List Tree} (laid : LaidBetween start stop row)
    (several : 2 ≤ row.countP fun t => t.start < t.stop) (mem : t ∈ row) : t.range ≠ ⟨start, stop⟩ := by
  rintro whole
  have starts : t.start = start := congrArg Range.start whole
  have stops : t.stop = stop := congrArg Range.stop whole
  obtain ⟨front, back, rfl⟩ := List.append_of_mem mem
  have ordered := laid.pairwise
  rw [List.pairwise_append, List.pairwise_cons] at ordered
  obtain ⟨-, ⟨behind, -⟩, before⟩ := ordered
  -- what is in front of the tree or behind it is empty
  have noneFront : front.countP (fun u => u.start < u.stop) = 0 := by
    refine List.countP_eq_zero.mpr fun u own => ?_
    have := before u own t List.mem_cons_self
    have inside := (laid.mem (List.mem_append_left _ own)).2
    rw [decide_eq_true_eq]
    omega
  have noneBack : back.countP (fun u => u.start < u.stop) = 0 := by
    refine List.countP_eq_zero.mpr fun u own => ?_
    have := behind u own
    have inside := (laid.mem (List.mem_append_right _ (List.mem_cons_of_mem _ own))).2
    rw [decide_eq_true_eq]
    omega
  rw [List.countP_append, List.countP_cons, noneFront, noneBack] at several
  split at several <;> omega

/-- Nothing below a block has its range. -/
theorem Firm.range_ne (firm : root.Firm) (laid : root.Laid) (block : root.kind.opensBlock = true)
    {child : Tree} (mem : child ∈ root.children) (below : t ∈ child.nodes) : t.range ≠ root.range := by
  intro same
  have starts : t.start = root.start := congrArg Range.start same
  have stops : t.stop = root.stop := congrArg Range.stop same
  obtain ⟨laidChild, begins, ends⟩ := laid.child mem
  obtain ⟨-, begins', ends'⟩ := laidChild.node below
  have starts' : child.start = root.start := by omega
  have stops' : child.stop = root.stop := by omega
  refine firm.wider root (self_mem_nodes root) block child mem ?_
  exact (congrArg (Range.mk · child.stop) starts').trans (congrArg (Range.mk root.start) stops')

mutual

/-- Blocks of one tree have different ranges. -/
theorem Laid.pairwise_blocks : ∀ {t : Tree}, t.Laid → t.Firm →
    (t.nodes.filter fun t => t.kind.opensBlock).Pairwise fun a b => a.range ≠ b.range
  | .node label children, laid, firm => by
      have row : ((nodesAll children).filter fun t => t.kind.opensBlock).Pairwise fun a b => a.range ≠ b.range := by
        have inside := laid
        rw [Laid] at inside
        exact inside.pairwise_blocks fun t mem => firm.child mem
      rw [nodes, List.filter_cons]
      split
      · rename_i block
        refine List.pairwise_cons.mpr ⟨fun u mem => ?_, row⟩
        obtain ⟨child, own, below⟩ := mem_nodesAll.mp (List.mem_filter.mp mem).1
        exact (firm.range_ne laid block own below).symm
      · exact row

theorem LaidBetween.pairwise_blocks : ∀ {start stop : Nat} {row : List Tree}, LaidBetween start stop row →
    (∀ t ∈ row, t.Firm) →
      ((nodesAll row).filter fun t => t.kind.opensBlock).Pairwise fun a b => a.range ≠ b.range
  | _, _, [], _, _ => List.Pairwise.nil
  | start, stop, t :: rest, laid, firm => by
      rw [LaidBetween] at laid
      obtain ⟨_, laid, behind⟩ := laid
      rw [nodesAll, List.filter_append]
      refine List.pairwise_append.mpr ⟨laid.pairwise_blocks (firm t List.mem_cons_self),
        behind.pairwise_blocks fun u mem => firm u (List.mem_cons_of_mem t mem), fun a memA b memB same => ?_⟩
      obtain ⟨belowA, block⟩ := List.mem_filter.mp memA
      have wide := (firm t List.mem_cons_self).wide a belowA (isOpening_of_opensBlock block)
      have insideA := laid.node belowA
      obtain ⟨u, mem, belowB⟩ := mem_nodesAll.mp (List.mem_filter.mp memB).1
      obtain ⟨laidU, late, _⟩ := behind.mem mem
      have insideB := laidU.node belowB
      have : a.start = b.start := congrArg Range.start same
      omega

end

end Tree

namespace Sprout

open Tree

mutual

/-- What is not empty covers something where it is placed. -/
theorem start_lt_stop_place (offset : Nat) : ∀ sprout : Sprout, sprout.isSolid = true →
    (place offset sprout).1.start < (place offset sprout).1.stop
  | .leaf kind role gap width, solid => by
      rw [isSolid, decide_eq_true_eq] at solid
      exact Nat.lt_add_of_pos_right solid
  | .branch kind role sprouts, solid => by
      obtain ⟨t, mem, wide⟩ := exists_wide_placeAll offset sprouts solid
      have inside := ((laidBetween_startOf (laid_placeAll offset sprouts)).2.mem mem).2
      change startOf offset (placeAll offset sprouts).1 < (placeAll offset sprouts).2
      omega

theorem exists_wide_placeAll (offset : Nat) : ∀ sprouts : List Sprout, anySolid sprouts = true →
    ∃ t ∈ (placeAll offset sprouts).1, t.start < t.stop
  | [], solid => by cases solid
  | sprout :: rest, solid => by
      rw [anySolid, Bool.or_eq_true] at solid
      rw [placeAll]
      rcases solid with here | later
      · exact ⟨_, List.mem_cons_self, start_lt_stop_place offset sprout here⟩
      · obtain ⟨t, mem, wide⟩ := exists_wide_placeAll (place offset sprout).2 rest later
        exact ⟨t, List.mem_cons_of_mem _ mem, wide⟩

end

theorem countP_isSolid_le (offset : Nat) (sprouts : List Sprout) :
    sprouts.countP isSolid ≤ (placeAll offset sprouts).1.countP fun t => t.start < t.stop := by
  induction sprouts generalizing offset with
  | nil => exact Nat.le_refl _
  | cons sprout rest ih =>
      rw [placeAll, List.countP_cons, List.countP_cons]
      have later := ih (place offset sprout).2
      split
      · rename_i solid
        rw [if_pos (decide_eq_true (start_lt_stop_place offset sprout solid))]
        exact Nat.succ_le_succ later
      · exact Nat.le_trans later (Nat.le_add_right _ _)

/-- A regular sprout is firm where it is placed. -/
theorem Regular.place_firm {sprout : Sprout} (regular : sprout.Regular) (offset : Nat) :
    (Sprout.place offset sprout).1.Firm := by
  induction regular generalizing offset with
  | leaf wide => exact .of_children (fun opening => Nat.lt_add_of_pos_right (wide (.inr opening))) nofun nofun
  | @branch kind role children notName solid suits _ ih =>
      refine .of_children (fun opening => ?_) (fun block => ?_) fun child mem => ?_
      · have few : 1 ≤ kind.solids := by
          rw [Kind.solids, show kind.isOpening = true from opening]
          split <;> decide
        exact start_lt_stop_place offset _ (isSolid_branch.mpr (Nat.le_trans few solid))
      · have two : kind.solids = 2 := if_pos (show kind.opensBlock = true from block)
        have several := Nat.le_trans (two ▸ solid) (countP_isSolid_le offset children)
        exact fun child mem => (laidBetween_startOf (laid_placeAll offset children)).2.range_ne several mem
      · obtain ⟨sprout, own, offset, rfl⟩ := exists_of_mem_placeAll mem
        exact ih sprout own offset

end Sprout

namespace Tree

/-- Every block of a program that is read has its range for itself, and what can open a scope is not empty. -/
theorem blocks_ofSource (dialect : Dialect) (source : Bytes) :
    (((ofSource dialect source).nodes.filter fun t => t.kind.opensBlock).map Tree.range).Nodup ∧
      ∀ t ∈ (ofSource dialect source).nodes, t.kind.isOpening = true → t.start < t.stop := by
  have firm : ∀ child ∈ (ofSource dialect source).children, child.Firm := by
    intro child mem
    obtain ⟨sprout, own, offset, rfl⟩ := Sprout.exists_of_mem_placeAll mem
    exact (Sprout.regular_ofRunes dialect (fun _ => Rune.wide_of_mem_ofBytes) sprout own).place_firm offset
  constructor
  · exact List.pairwise_map.mpr ((Sprout.laid_placeAll 0 _).pairwise_blocks firm)
  · intro t mem opening
    rcases mem_nodes.mp mem with rfl | ⟨child, own, below⟩
    · cases opening
    · exact (firm child own).wide t below opening

end Tree

end Rebundle
