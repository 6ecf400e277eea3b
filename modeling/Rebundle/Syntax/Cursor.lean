import Rebundle.Syntax.Tree

/-!
# Cursors and walks

A cursor is a place in a tree: the node there, and for every node above it what stands before and
behind the way down. A walk moves one cursor through the whole tree; it enters every node before its
children and leaves it behind them, and it skips the children of a node when entering says so.
-/

namespace Rebundle

/-- One step of the way down: the parent's label and the siblings on either side, those before the
way nearest first. -/
structure Crumb where
  label : Label
  before : List Tree
  behind : List Tree

structure Cursor where
  focus : Tree
  path : List Crumb

namespace Cursor

def ofTree (t : Tree) : Cursor := ⟨t, []⟩

def firstChild? (c : Cursor) : Option Cursor :=
  match c.focus with
  | .node _ [] => none
  | .node label (child :: rest) => some ⟨child, ⟨label, [], rest⟩ :: c.path⟩

def nextSibling? (c : Cursor) : Option Cursor :=
  match c.path with
  | ⟨label, before, sibling :: rest⟩ :: above =>
      some ⟨sibling, ⟨label, c.focus :: before, rest⟩ :: above⟩
  | _ => none

def parent? (c : Cursor) : Option Cursor :=
  match c.path with
  | [] => none
  | ⟨label, before, behind⟩ :: above => some ⟨.node label (before.reverse ++ c.focus :: behind), above⟩

/-- The labels of the nodes above, the nearest first. -/
def ancestors (c : Cursor) : List Label := c.path.map (·.label)

def kind (c : Cursor) : Kind := c.focus.kind

def range (c : Cursor) : Range := c.focus.range

def child? (role : Role) (c : Cursor) : Option Tree := c.focus.child? role

/-- The kind of the parent, if there is one. -/
def parentKind? (c : Cursor) : Option Kind := c.path.head?.map (·.label.kind)

/-- Twice the nodes behind the way down, and one for each step of it. -/
def remaining : List Crumb → Nat
  | [] => 0
  | crumb :: above => 2 * Tree.sizeAll crumb.behind + 1 + remaining above

/-- What is left of a walk that is about to enter the cursor. -/
def entering (c : Cursor) : Nat := 2 * c.focus.size + remaining c.path

/-- What is left of a walk that is about to leave the cursor. -/
def leaving (c : Cursor) : Nat := remaining c.path + 1

theorem entering_firstChild {c d : Cursor} (h : c.firstChild? = some d) : d.entering < c.entering := by
  obtain ⟨⟨label, children⟩, path⟩ := c
  cases children with
  | nil => simp [firstChild?] at h
  | cons child rest =>
      simp only [firstChild?, Option.some.injEq] at h
      subst h
      simp [entering, remaining, Tree.size, Tree.sizeAll]
      omega

theorem leaving_lt_entering (c : Cursor) : c.leaving < c.entering := by
  have := c.focus.size_pos
  simp only [leaving, entering]
  omega

theorem entering_nextSibling {c d : Cursor} (h : c.nextSibling? = some d) : d.entering < c.leaving := by
  obtain ⟨focus, path⟩ := c
  match path, h with
  | ⟨label, before, sibling :: rest⟩ :: above, h =>
      simp only [nextSibling?, Option.some.injEq] at h
      subst h
      simp [entering, leaving, remaining, Tree.sizeAll]
      omega

theorem leaving_parent {c d : Cursor} (h : c.parent? = some d) : d.leaving < c.leaving := by
  obtain ⟨focus, path⟩ := c
  match path, h with
  | ⟨label, before, behind⟩ :: above, h =>
      simp only [parent?, Option.some.injEq] at h
      subst h
      simp [leaving, remaining]

end Cursor

/-- What a walk does at a node: entering gives the new state and whether the children are visited,
and leaving gives the new state. -/
structure Visitor (σ : Type) where
  enter : Cursor → σ → Bool × σ
  leave : Cursor → σ → σ := fun _ s => s

namespace Visitor

variable {σ : Type}

mutual

/-- Enters the node at the cursor and goes on from there. -/
def enterAt (v : Visitor σ) (c : Cursor) (s : σ) : σ :=
  let (descend, s) := v.enter c s
  if descend then
    match _down : c.firstChild? with
    | some child => enterAt v child s
    | none => leaveAt v c s
  else leaveAt v c s
termination_by c.entering
decreasing_by
  · exact Cursor.entering_firstChild ‹_›
  · exact Cursor.leaving_lt_entering c
  · exact Cursor.leaving_lt_entering c

/-- Leaves the node at the cursor and goes on with its next sibling, or with its parent. -/
def leaveAt (v : Visitor σ) (c : Cursor) (s : σ) : σ :=
  let s := v.leave c s
  match _across : c.nextSibling? with
  | some sibling => enterAt v sibling s
  | none =>
      match _up : c.parent? with
      | some parent => leaveAt v parent s
      | none => s
termination_by c.leaving
decreasing_by
  · exact Cursor.entering_nextSibling ‹_›
  · exact Cursor.leaving_parent ‹_›

end

/-- The state after a walk through the whole tree. -/
def walk (v : Visitor σ) (root : Tree) (s : σ) : σ := enterAt v (Cursor.ofTree root) s

end Visitor

end Rebundle
