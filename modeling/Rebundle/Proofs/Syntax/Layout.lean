import Rebundle.Proofs.Document.Outermost
import Rebundle.Syntax.Program

/-!
# The layout of trees

In a laid-out tree children lie inside their parent, in order and disjoint. Then of two nodes one
lies below the other or they are disjoint, and a node that covers something has one parent only.
Placing makes laid-out trees.
-/

namespace Rebundle.Tree

/-- A node without children. -/
def leaf (kind : Kind) (role : Option Role) (start stop : Nat) : Tree :=
  .node ⟨kind, role, ⟨start, stop⟩, false⟩ []

theorem mem_nodesAll {t : Tree} {trees : List Tree} :
    t ∈ nodesAll trees ↔ ∃ child ∈ trees, t ∈ child.nodes := by
  induction trees with
  | nil => simp [nodesAll]
  | cons first rest ih => simp [nodesAll, ih]

theorem mem_nodes {t root : Tree} :
    t ∈ root.nodes ↔ t = root ∨ ∃ child ∈ root.children, t ∈ child.nodes := by
  cases root
  simp [nodes, children, mem_nodesAll]

@[simp] theorem self_mem_nodes (t : Tree) : t ∈ t.nodes := mem_nodes.mpr (.inl rfl)

theorem child_mem_nodes {child t : Tree} (mem : child ∈ t.children) : child ∈ t.nodes :=
  mem_nodes.mpr (.inr ⟨child, mem, self_mem_nodes child⟩)

theorem size_le_sizeAll {child : Tree} {trees : List Tree} (mem : child ∈ trees) :
    child.size ≤ sizeAll trees := by
  induction trees with
  | nil => cases mem
  | cons first rest ih =>
      rw [sizeAll]
      cases mem with
      | head => omega
      | tail _ mem => have := ih mem; omega

theorem size_child_lt {child t : Tree} (mem : child ∈ t.children) : child.size < t.size := by
  cases t with
  | node label trees =>
      have := size_le_sizeAll mem
      rw [size]
      simp only [children] at this
      omega

/-- What passes from the children of a node to the node holds of every tree. -/
theorem childrenInduction {motive : Tree → Prop}
    (step : ∀ t : Tree, (∀ child ∈ t.children, motive child) → motive t) (t : Tree) : motive t := by
  generalize bound : t.size = n
  induction n using Nat.strongRecOn generalizing t with
  | _ n ih => exact step t fun child mem => ih _ (bound ▸ size_child_lt mem) child rfl

theorem mem_nodes_trans {a b c : Tree} (ab : a ∈ b.nodes) (bc : b ∈ c.nodes) : a ∈ c.nodes := by
  induction c using childrenInduction with
  | step c ih =>
      rcases mem_nodes.mp bc with rfl | ⟨child, mem, below⟩
      · exact ab
      · exact mem_nodes.mpr (.inr ⟨child, mem, ih child mem below⟩)

theorem size_le_of_mem_nodes {a b : Tree} (mem : a ∈ b.nodes) : a.size ≤ b.size := by
  induction b using childrenInduction with
  | step b ih =>
      rcases mem_nodes.mp mem with rfl | ⟨child, mem, below⟩
      · exact Nat.le_refl _
      · have := ih child mem below
        have := size_child_lt mem
        omega

/-- A node lies nowhere below its own children. -/
theorem not_mem_nodes_child {child t : Tree} (mem : child ∈ t.children) : t ∉ child.nodes := by
  intro below
  have := size_le_of_mem_nodes below
  have := size_child_lt mem
  omega

theorem mem_nodes_antisymm {a b : Tree} (ab : a ∈ b.nodes) (ba : b ∈ a.nodes) : a = b := by
  rcases mem_nodes.mp ab with rfl | ⟨child, mem, below⟩
  · rfl
  · exact absurd (mem_nodes_trans ba below) (not_mem_nodes_child mem)

mutual

/-- Whether children lie inside their parent, in order and disjoint, all the way down. -/
def Laid : Tree → Prop
  | .node label children => LaidBetween label.range.start label.range.stop children

/-- Whether a row of trees lies between two offsets. -/
def LaidBetween (start stop : Nat) : List Tree → Prop
  | [] => start ≤ stop
  | t :: rest => start ≤ t.start ∧ Laid t ∧ LaidBetween t.stop stop rest

end

mutual

def decideLaid : (t : Tree) → Decidable t.Laid
  | .node label children => decideLaidBetween label.range.start label.range.stop children

def decideLaidBetween (start stop : Nat) : (trees : List Tree) →
    Decidable (LaidBetween start stop trees)
  | [] => inferInstanceAs (Decidable (start ≤ stop))
  | t :: rest =>
      have := decideLaid t
      have := decideLaidBetween t.stop stop rest
      inferInstanceAs (Decidable (start ≤ t.start ∧ Laid t ∧ LaidBetween t.stop stop rest))

end

instance (t : Tree) : Decidable t.Laid := decideLaid t

mutual

theorem Laid.start_le_stop : ∀ {t : Tree}, t.Laid → t.start ≤ t.stop
  | .node label children, laid => by
      rw [Laid] at laid
      exact LaidBetween.le laid

theorem LaidBetween.le : ∀ {start stop : Nat} {trees : List Tree},
    LaidBetween start stop trees → start ≤ stop
  | _, _, [], laid => by
      rw [LaidBetween] at laid
      exact laid
  | _, _, t :: rest, laid => by
      rw [LaidBetween] at laid
      have := Laid.start_le_stop laid.2.1
      have := LaidBetween.le laid.2.2
      omega

end

theorem LaidBetween.mem {start stop : Nat} {trees : List Tree} (laid : LaidBetween start stop trees)
    {t : Tree} (mem : t ∈ trees) : t.Laid ∧ start ≤ t.start ∧ t.stop ≤ stop := by
  induction trees generalizing start with
  | nil => cases mem
  | cons first rest ih =>
      rw [LaidBetween] at laid
      obtain ⟨begins, laidFirst, laidRest⟩ := laid
      cases mem with
      | head => exact ⟨laidFirst, begins, laidRest.le⟩
      | tail _ mem =>
          obtain ⟨laidT, later, ends⟩ := ih laidRest mem
          have := laidFirst.start_le_stop
          exact ⟨laidT, by omega, ends⟩

theorem LaidBetween.pairwise {start stop : Nat} {trees : List Tree}
    (laid : LaidBetween start stop trees) : trees.Pairwise fun a b => a.stop ≤ b.start := by
  induction trees generalizing start with
  | nil => exact List.Pairwise.nil
  | cons first rest ih =>
      rw [LaidBetween] at laid
      obtain ⟨_, _, laidRest⟩ := laid
      exact List.pairwise_cons.mpr ⟨fun t mem => (laidRest.mem mem).2.1, ih laidRest⟩

theorem Laid.children {t : Tree} (laid : t.Laid) : LaidBetween t.start t.stop t.children := by
  cases t
  rw [Laid] at laid
  exact laid

theorem Laid.child {t child : Tree} (laid : t.Laid) (mem : child ∈ t.children) :
    child.Laid ∧ t.start ≤ child.start ∧ child.stop ≤ t.stop :=
  laid.children.mem mem

theorem Laid.node {root t : Tree} (laid : root.Laid) (mem : t ∈ root.nodes) :
    t.Laid ∧ root.start ≤ t.start ∧ t.stop ≤ root.stop := by
  induction root using childrenInduction with
  | step root ih =>
      rcases mem_nodes.mp mem with rfl | ⟨child, mem, below⟩
      · exact ⟨laid, Nat.le_refl _, Nat.le_refl _⟩
      · obtain ⟨laidChild, begins, ends⟩ := laid.child mem
        obtain ⟨laidT, begins', ends'⟩ := ih child mem laidChild below
        exact ⟨laidT, by omega, by omega⟩

/-- Two children of one node are the same or disjoint. -/
theorem Laid.siblings {t a b : Tree} (laid : t.Laid) (memA : a ∈ t.children)
    (memB : b ∈ t.children) : a = b ∨ a.stop ≤ b.start ∨ b.stop ≤ a.start := by
  have ordered := laid.children.pairwise
  generalize t.children = trees at memA memB ordered
  induction trees with
  | nil => cases memA
  | cons first rest ih =>
      obtain ⟨before, orderedRest⟩ := List.pairwise_cons.mp ordered
      rcases List.mem_cons.mp memA with rfl | restA
      · rcases List.mem_cons.mp memB with rfl | restB
        · exact .inl rfl
        · exact .inr (.inl (before b restB))
      · rcases List.mem_cons.mp memB with rfl | restB
        · exact .inr (.inr (before a restA))
        · exact ih restA restB orderedRest

/-- Of two nodes one lies below the other, or they are disjoint. -/
theorem Laid.comparable {root a b : Tree} (laid : root.Laid) (memA : a ∈ root.nodes)
    (memB : b ∈ root.nodes) :
    a ∈ b.nodes ∨ b ∈ a.nodes ∨ a.stop ≤ b.start ∨ b.stop ≤ a.start := by
  induction root using childrenInduction with
  | step root ih =>
      rcases mem_nodes.mp memA with rfl | ⟨childA, memA', belowA⟩
      · exact .inr (.inl memB)
      · rcases mem_nodes.mp memB with rfl | ⟨childB, memB', belowB⟩
        · exact .inl memA
        · rcases laid.siblings memA' memB' with rfl | apart
          · exact ih childA memA' (laid.child memA').1 belowA belowB
          · have insideA := (laid.child memA').1.node belowA
            have insideB := (laid.child memB').1.node belowB
            exact .inr (.inr (by omega))

theorem Laid.nestedOrDisjoint {root a b : Tree} (laid : root.Laid) (memA : a ∈ root.nodes)
    (memB : b ∈ root.nodes) : a.range.NestedOrDisjoint b.range := by
  rcases laid.comparable memA memB with below | below | apart
  · exact .inr (.inl ((laid.node memB).1.node below).2)
  · exact .inl ((laid.node memA).1.node below).2
  · exact .inr (.inr apart)

/-- A node that is not empty has one parent only. -/
theorem Laid.parent_unique {root a b t : Tree} (laid : root.Laid) (memA : a ∈ root.nodes)
    (memB : b ∈ root.nodes) (childA : t ∈ a.children) (childB : t ∈ b.children)
    (nonempty : t.start < t.stop) : a = b := by
  have inside {p q : Tree} (memP : p ∈ root.nodes) (childP : t ∈ p.children) (childQ : t ∈ q.children)
      (below : q ∈ p.nodes) : q = p := by
    have laidP := (laid.node memP).1
    have laidQ := (laidP.node below).1
    rcases mem_nodes.mp below with rfl | ⟨other, memOther, belowOther⟩
    · rfl
    · have insideT := laidQ.child childQ
      have insideQ := (laidP.child memOther).1.node belowOther
      rcases laidP.siblings childP memOther with rfl | apart
      · exact absurd belowOther (not_mem_nodes_child childQ)
      · omega
  rcases laid.comparable memA memB with below | below | apart
  · exact inside memB childB childA below
  · exact (inside memA childA childB below).symm
  · have insideA := (laid.node memA).1.child childA
    have insideB := (laid.node memB).1.child childB
    omega

end Rebundle.Tree

/-!
Placing adds widths up, so a placed tree is laid out behind the offset at which it was placed, whatever
its sprout is. The nodes of a program other than the program itself are placed in one row.
-/

namespace Rebundle

open Tree

namespace Sprout

/-- A row that begins behind an offset begins at its first tree. -/
theorem laidBetween_startOf {offset stop : Nat} {trees : List Tree}
    (laid : LaidBetween offset stop trees) :
    offset ≤ startOf offset trees ∧ LaidBetween (startOf offset trees) stop trees := by
  cases trees with
  | nil => exact ⟨Nat.le_refl _, laid⟩
  | cons first rest =>
      rw [LaidBetween] at laid
      exact ⟨laid.1, by rw [startOf, LaidBetween]; exact ⟨Nat.le_refl _, laid.2⟩⟩

mutual

theorem laid_place (offset : Nat) : ∀ sprout : Sprout,
    offset ≤ (place offset sprout).1.start ∧ (place offset sprout).1.Laid ∧
      (place offset sprout).1.stop = (place offset sprout).2
  | .leaf kind role gap width => by
      refine ⟨Nat.le_add_right offset gap, ?_, rfl⟩
      rw [place, Laid, LaidBetween]
      exact Nat.le_add_right (offset + gap) width
  | .branch kind role sprouts => by
      obtain ⟨begins, laid⟩ := laidBetween_startOf (laid_placeAll offset sprouts)
      rw [place]
      exact ⟨begins, by rw [Laid]; exact laid, rfl⟩

theorem laid_placeAll (offset : Nat) : ∀ sprouts : List Sprout,
    LaidBetween offset (placeAll offset sprouts).2 (placeAll offset sprouts).1
  | [] => by
      simp only [placeAll, LaidBetween, Nat.le_refl]
  | sprout :: rest => by
      obtain ⟨begins, laid, ends⟩ := laid_place offset sprout
      have behind := laid_placeAll (place offset sprout).2 rest
      rw [placeAll, LaidBetween]
      refine ⟨begins, laid, ?_⟩
      rw [ends]
      exact behind

end

end Sprout

namespace Tree

/-- Whether everything below the root is laid out; the root itself may end anywhere. -/
def LaidBelow (root : Tree) : Prop := ∀ child ∈ root.children, child.Laid

theorem laidBelow_ofSource (dialect : Dialect) (source : Bytes) : (ofSource dialect source).LaidBelow :=
  fun _ mem => ((Sprout.laid_placeAll 0 _).mem mem).1

theorem LaidBelow.node {root t : Tree} (laid : root.LaidBelow) (mem : t ∈ root.nodes) (below : t ≠ root) :
    t.Laid := by
  rcases mem_nodes.mp mem with rfl | ⟨child, childMem, inside⟩
  · exact absurd rfl below
  · exact ((laid child childMem).node inside).1

end Tree

/-- A parser that lays trees out: a root that is no error is a program, and what lies below it is laid out. -/
structure Parser.Lays (parser : Parser) : Prop where
  program : ∀ {dialect : Dialect} {source : Bytes} {root : Tree}, parser dialect source = .ok root →
    root.kind ≠ .error → root.kind = .program
  laid : ∀ {dialect : Dialect} {source : Bytes} {root : Tree}, parser dialect source = .ok root →
    root.kind ≠ .error → root.LaidBelow

theorem Parser.lays_standard : standard.Lays where
  program read _ := by
    cases read
    rfl
  laid read _ := by
    cases read
    exact Tree.laidBelow_ofSource _ _

end Rebundle
