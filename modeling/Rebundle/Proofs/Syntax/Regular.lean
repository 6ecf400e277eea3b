import Rebundle.Proofs.Syntax.Layout
import Rebundle.Scope.Analysis

/-!
# Regular trees

What every grammar of the language promises about the nodes that have to do with names. Names are leaves that are
not empty; functions and classes are called by names; functions have rows of parameters; and what modules exchange
is written in leaves.
-/

namespace Rebundle

/-- What a node asks of a child. -/
inductive Demand where
  | anything | name | leaf | parameters | nothing

/-- Whether a child of a kind, a leaf or not, is what is asked for. -/
def Demand.Met (kind : Kind) (isLeaf : Bool) : Demand → Prop
  | .anything => True
  | .name => kind.isName = true
  | .leaf => isLeaf = true
  | .parameters => kind = .formalParameters
  | .nothing => False

theorem Demand.Met.mono {demand : Demand} {kind : Kind} {isLeaf other : Bool} (met : demand.Met kind isLeaf)
    (leaf : isLeaf = true → other = true) : demand.Met kind other := by
  cases demand with
  | leaf => exact leaf met
  | _ => exact met

/-- What a node of a kind asks of a child in a role. -/
@[reducible] def Kind.asks (parent : Kind) (role : Option Role) : Demand :=
  match parent with
  | .functionDeclaration | .generatorFunctionDeclaration | .functionExpression | .generatorFunction
  | .arrowFunction =>
      match role with
      | some .name => .name
      | some .parameters => .parameters
      | _ => .anything
  | .methodDefinition =>
      match role with
      | some .parameters => .parameters
      | _ => .anything
  | .classDeclaration | .classExpression =>
      match role with
      | some .name => .name
      | _ => .anything
  | .importSpecifier =>
      match role with
      | some .alias => .name
      | _ => .leaf
  | .exportSpecifier | .namespaceExport => .leaf
  | .token _ | .identifier | .typeIdentifier | .shorthandPropertyIdentifier
  | .shorthandPropertyIdentifierPattern => .nothing
  | _ => .anything

namespace Kind

/-- Kinds of nodes that open scopes, unless they are bodies of functions or classes without names. -/
def isOpening (kind : Kind) : Bool := kind.opensFunction || kind.opensBlock || kind == .classExpression

/-- How many children of a node are not empty, at least. A block has something on both of its ends. -/
def solids (kind : Kind) : Nat := if kind.opensBlock then 2 else if kind.isOpening then 1 else 0

end Kind

namespace Sprout

def role : Sprout → Option Role
  | .leaf _ role _ _ => role
  | .branch _ role _ => role

def isLeaf : Sprout → Bool
  | .leaf .. => true
  | .branch .. => false

mutual

/-- Whether a sprout covers something. -/
def isSolid : Sprout → Bool
  | .leaf _ _ _ width => 0 < width
  | .branch _ _ children => anySolid children

def anySolid : List Sprout → Bool
  | [] => false
  | sprout :: rest => sprout.isSolid || anySolid rest

end

theorem anySolid_eq_any (row : List Sprout) : anySolid row = row.any isSolid := by
  induction row with
  | nil => rfl
  | cons sprout rest ih => rw [anySolid, ih, List.any_cons]

theorem isSolid_branch {kind : Kind} {role : Option Role} {children : List Sprout} :
    (branch kind role children).isSolid = true ↔ 0 < children.countP isSolid := by
  rw [isSolid, anySolid_eq_any, List.any_eq_true, List.countP_pos_iff]

theorem isSolid_inRole (role : Role) (sprout : Sprout) : (sprout.inRole role).isSolid = sprout.isSolid := by
  cases sprout <;> rfl

/-- Whether a node of a kind may have this child. -/
def Suits (parent : Kind) (sprout : Sprout) : Prop := (parent.asks sprout.role).Met sprout.kind sprout.isLeaf

inductive Regular : Sprout → Prop
  | leaf {kind : Kind} {role : Option Role} {gap width : Nat}
      (wide : kind.isName = true ∨ kind.isOpening = true → 0 < width) : Regular (.leaf kind role gap width)
  | branch {kind : Kind} {role : Option Role} {children : List Sprout} (notName : kind.isName = false)
      (solid : kind.solids ≤ children.countP isSolid) (suits : ∀ child ∈ children, child.Suits kind)
      (regular : ∀ child ∈ children, child.Regular) : Regular (.branch kind role children)

theorem Regular.inRole {sprout : Sprout} (regular : sprout.Regular) (role : Role) : (sprout.inRole role).Regular := by
  cases regular with
  | leaf wide => exact .leaf wide
  | branch notName solid suits regular => exact .branch notName solid suits regular

theorem exists_of_mem_placeAll {offset : Nat} {sprouts : List Sprout} {t : Tree}
    (mem : t ∈ (placeAll offset sprouts).1) : ∃ sprout ∈ sprouts, ∃ offset, t = (place offset sprout).1 := by
  induction sprouts generalizing offset with
  | nil => cases mem
  | cons sprout rest ih =>
      rw [placeAll] at mem
      rcases List.mem_cons.mp mem with rfl | later
      · exact ⟨sprout, List.mem_cons_self, offset, rfl⟩
      · obtain ⟨found, here, place⟩ := ih later
        exact ⟨found, List.mem_cons_of_mem _ here, place⟩

end Sprout

namespace Tree

/-- Whether the nodes of a tree have the children that the language asks for. -/
structure Regular (root : Tree) : Prop where
  names : ∀ t ∈ root.nodes, t.kind.isName = true → t.children = [] ∧ t.start < t.stop
  asked : ∀ t ∈ root.nodes, ∀ child ∈ t.children,
    (t.kind.asks child.label.role).Met child.kind child.children.isEmpty

variable {root t : Tree} {start stop : Nat}

theorem Regular.node (regular : root.Regular) (mem : t ∈ root.nodes) : t.Regular :=
  ⟨fun u below => regular.names u (mem_nodes_trans below mem),
    fun u below => regular.asked u (mem_nodes_trans below mem)⟩

/-- A tree is regular where its root and the trees below the root are. -/
theorem Regular.of_children (names : root.kind.isName = true → root.children = [] ∧ root.start < root.stop)
    (asked : ∀ child ∈ root.children, (root.kind.asks child.label.role).Met child.kind child.children.isEmpty)
    (below : ∀ child ∈ root.children, child.Regular) : root.Regular := by
  constructor
  · intro t mem isName
    rcases mem_nodes.mp mem with rfl | ⟨child, own, inside⟩
    · exact names isName
    · exact (below child own).names t inside isName
  · intro t mem
    rcases mem_nodes.mp mem with rfl | ⟨child, own, inside⟩
    · exact asked
    · exact (below child own).asked t inside

theorem Regular.child (regular : root.Regular) (mem : t ∈ root.children) : t.Regular :=
  regular.node (child_mem_nodes mem)

mutual

/-- The names of a tree stand one behind the other. -/
theorem Laid.pairwise_names : ∀ {t : Tree}, t.Laid → t.Regular →
    (t.nodes.filter fun t => t.kind.isName).Pairwise fun a b => a.stop ≤ b.start
  | .node label children, laid, regular => by
      rw [nodes, List.filter_cons]
      split
      · rename_i isName
        obtain ⟨rfl, _⟩ : children = [] ∧ _ := regular.names _ (self_mem_nodes _) isName
        exact List.pairwise_singleton _ _
      · rw [Laid] at laid
        exact laid.pairwise_names fun t mem => regular.child mem

theorem LaidBetween.pairwise_names : ∀ {start stop : Nat} {row : List Tree}, LaidBetween start stop row →
    (∀ t ∈ row, t.Regular) → ((nodesAll row).filter fun t => t.kind.isName).Pairwise fun a b => a.stop ≤ b.start
  | _, _, [], _, _ => List.Pairwise.nil
  | start, stop, t :: rest, laid, regular => by
      rw [LaidBetween] at laid
      obtain ⟨_, laid, behind⟩ := laid
      rw [nodesAll, List.filter_append]
      refine List.pairwise_append.mpr ⟨laid.pairwise_names (regular t List.mem_cons_self),
        behind.pairwise_names fun u mem => regular u (List.mem_cons_of_mem t mem), fun a memA b memB => ?_⟩
      have insideA := laid.node (List.mem_filter.mp memA).1
      obtain ⟨u, mem, below⟩ := mem_nodesAll.mp (List.mem_filter.mp memB).1
      obtain ⟨laidU, late, _⟩ := behind.mem mem
      have insideB := laidU.node below
      omega

end

end Tree

namespace Sprout

open Tree

theorem Suits.place {parent : Kind} {sprout : Sprout} (suits : sprout.Suits parent) (offset : Nat) :
    let t := (place offset sprout).1
    (parent.asks t.label.role).Met t.kind t.children.isEmpty := by
  cases sprout with
  | leaf => exact suits
  | branch => exact suits.mono nofun

theorem Regular.place {sprout : Sprout} (regular : sprout.Regular) (offset : Nat) :
    (place offset sprout).1.Regular := by
  induction regular generalizing offset with
  | leaf wide =>
      refine .of_children (fun isName => ⟨rfl, ?_⟩) nofun nofun
      exact Nat.lt_add_of_pos_right (wide (.inl isName))
  | branch notName _ suits _ ih =>
      refine .of_children (fun isName => ?_) ?_ ?_
      · cases notName.symm.trans isName
      · intro child mem
        obtain ⟨sprout, own, offset, rfl⟩ := exists_of_mem_placeAll mem
        exact (suits sprout own).place offset
      · intro child mem
        obtain ⟨sprout, own, offset, rfl⟩ := exists_of_mem_placeAll mem
        exact ih sprout own offset

end Sprout

namespace Tree

theorem regular_ofSprouts (length : Nat) {sprouts : List Sprout} (regular : ∀ sprout ∈ sprouts, sprout.Regular) :
    (ofSprouts length sprouts).Regular := by
  refine .of_children nofun (fun _ _ => trivial) fun child mem => ?_
  obtain ⟨sprout, own, offset, rfl⟩ := Sprout.exists_of_mem_placeAll mem
  exact (regular sprout own).place offset

end Tree

end Rebundle
