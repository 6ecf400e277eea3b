import Rebundle.Proofs.Script.Basic

/-!
# Rows of nodes in scripts

The nodes of a script are those of its tree, with what stands between them. Renaming changes no roles, and the
kinds of shorthand properties only. What the nodes of a script contribute comes from the same nodes before and
after a renaming, as long as no name contributes anything.
-/

namespace Rebundle.Script

open Tree

variable {source : Bytes} {new? new?' : Range → Option Text} {α : Type}

theorem collectAll_eq (own : Kind → List Script → List α) (row : List Script) :
    collectAll own row = row.flatMap (collect own) := by
  induction row with
  | nil => rfl
  | cons s rest ih => rw [collectAll, ih, List.flatMap_cons]

theorem boundInAll_eq (row : List Script) : boundInAll source row = row.flatMap (boundNames source) := by
  induction row with
  | nil => rfl
  | cons s rest ih => rw [boundInAll, ih, List.flatMap_cons]

theorem boundInRole_eq (role : Role) (row : List Script) :
    boundInRole source role row = ((inRole? role row).map (boundNames source)).getD [] := by
  induction row with
  | nil => rfl
  | cons s rest ih =>
      rw [boundInRole, inRole?, List.find?_cons]
      cases s.role? == some role with
      | true => rfl
      | false => exact ih

theorem keyOfLeft?_eq (row : List Script) : keyOfLeft? source row = (inRole? .left row).bind (key? source) := by
  induction row with
  | nil => rfl
  | cons s rest ih =>
      rw [keyOfLeft?, inRole?, List.find?_cons]
      cases s.role? == some .left with
      | true => rfl
      | false => exact ih

/-! A row of nodes, without what stands between them. -/

theorem any_row {p : Script → Bool} (blind : ∀ part, p (piece part) = false) (start stop : Nat) (ts : List Tree) :
    (row source new? start stop ts).any p = ts.any fun t => p (ofTree source new? t) := by
  induction ts generalizing start with
  | nil => simp [row, copied, blind]
  | cons t rest ih => simp [row, copied, blind, ih]

theorem filterMap_row {f : Script → Option α} (blind : ∀ part, f (piece part) = none) (start stop : Nat)
    (ts : List Tree) : (row source new? start stop ts).filterMap f =
      ts.filterMap fun t => f (ofTree source new? t) := by
  induction ts generalizing start with
  | nil => simp [row, copied, blind]
  | cons t rest ih => simp [row, copied, blind, List.filterMap_cons, ih]

theorem flatMap_row {f : Script → List α} (blind : ∀ part, f (piece part) = []) (start stop : Nat)
    (ts : List Tree) :
    (row source new? start stop ts).flatMap f = ts.flatMap fun t => f (ofTree source new? t) := by
  induction ts generalizing start with
  | nil => simp [row, copied, blind]
  | cons t rest ih => simp [row, copied, blind, ih]

theorem find?_row {p : Script → Bool} (blind : ∀ part, p (piece part) = false) (start stop : Nat) (ts : List Tree) :
    (row source new? start stop ts).find? p =
      (ts.find? fun t => p (ofTree source new? t)).map (ofTree source new?) := by
  induction ts generalizing start with
  | nil => simp [row, copied, blind]
  | cons t rest ih =>
      rw [row, copied, List.find?_cons_of_neg (by simp [blind]), List.find?_cons, List.find?_cons]
      cases p (ofTree source new? t) with
      | true => rfl
      | false => exact ih t.stop

@[simp] theorem role?_piece (part : Part) : (piece part).role? = none := rfl

@[simp] theorem role?_node (kind : Kind) (role : Option Role) (place : Range) (children : List Script) :
    (node kind role place children).role? = role := rfl

theorem role?_ofName (label : Label) (name : Option Text) : (ofName source label name).role? = label.role := by
  unfold ofName
  split
  · rfl
  · split <;> rfl

@[simp] theorem role?_ofTree (t : Tree) : (ofTree source new? t).role? = t.label.role := by
  obtain ⟨label, children⟩ := t
  rw [ofTree]
  split
  · exact role?_ofName label _
  · split
    · rfl
    · split
      · cases children with
        | nil => rfl
        | cons t rest =>
            rw [defaultedRow]
            cases defaultedName? new? t <;> rfl
      · rfl

/-- Whether kinds are told apart only by what renaming leaves as it is. -/
structure Steady (p : Kind → Bool) : Prop where
  pair : p .pair = p .shorthandPropertyIdentifier
  pairPattern : p .pairPattern = p .shorthandPropertyIdentifierPattern
  defaulted : p .pairPattern = p .objectAssignmentPattern

theorem hasKind_ofName {p : Kind → Bool} (steady : Steady p) (label : Label) (name : Option Text) :
    (ofName source label name).hasKind p = p label.kind := by
  unfold ofName
  split
  · rfl
  · split
    · rename_i kind
      rw [kind]
      exact steady.pair
    · rename_i kind
      rw [kind]
      exact steady.pairPattern
    · rfl

theorem hasKind_ofTree {p : Kind → Bool} (steady : Steady p) (t : Tree) :
    (ofTree source new? t).hasKind p = p t.kind := by
  obtain ⟨label, children⟩ := t
  rw [ofTree]
  split
  · exact hasKind_ofName steady label _
  · split
    · rfl
    · split
      · rename_i kind
        cases children with
        | nil => rfl
        | cons t rest =>
            rw [defaultedRow]
            cases defaultedName? new? t with
            | none => rfl
            | some new =>
                change p .pairPattern = p label.kind
                rw [kind]
                exact steady.defaulted
      · rfl

/-- A node that is no name with a new name has the text of its source when it is a leaf. -/
theorem text?_ofTree {t : Tree} (none : newName? new? t = none) :
    (ofTree source new? t).text? source =
      if t.kind.isName || t.children.isEmpty then some (t.range.text source) else .none := by
  obtain ⟨label, children⟩ := t
  have none : (if label.kind.isName = true then new? label.range else .none) = .none := none
  rw [ofTree]
  split
  · rename_i isName
    rw [if_pos isName] at none
    rw [none]
    simp [ofName, copied, text?, Tree.kind, Tree.label, Tree.range, isName]
  · rename_i noName
    have noName : label.kind.isName = false := by simpa using noName
    cases children with
    | nil =>
        split
        · simp [specifierRow, copied, text?, Tree.children, Tree.range, Tree.label]
        · split
          · simp [defaultedRow, copied, text?, Tree.children, Tree.range, Tree.label]
          · simp [row, copied, text?, Tree.children, Tree.range, Tree.label]
    | cons t rest =>
        have filled : ((Tree.node label (t :: rest)).kind.isName || (t :: rest).isEmpty) = false := by
          simp [Tree.kind, Tree.label, noName]
        change _ = if ((Tree.node label (t :: rest)).kind.isName || (t :: rest).isEmpty) = true then _ else _
        rw [filled]
        split
        · rw [specifierRow]
          cases newName? new? t <;> rfl
        · split
          · rw [defaultedRow]
            cases defaultedName? new? t <;> rfl
          · rw [row]
            rfl

theorem inRole?_row (role : Role) (start stop : Nat) (ts : List Tree) :
    inRole? role (row source new? start stop ts) =
      (ts.find? fun t => t.label.role == some role).map (ofTree source new?) := by
  rw [inRole?, find?_row (fun _ => rfl)]
  simp only [role?_ofTree]

theorem firstPart?_row (start stop : Nat) (ts : List Tree) :
    firstPart? (row source new? start stop ts) =
      (ts.find? fun t => t.isNamed && t.kind != .comment).map (ofTree source new?) := by
  have steady : Steady fun kind => kind.isNamed && kind != .comment := ⟨rfl, rfl, rfl⟩
  rw [firstPart?, find?_row (fun _ => rfl)]
  simp only [hasKind_ofTree steady]
  rfl

theorem isName_of_newName? {t : Tree} {new : Text} (named : newName? new? t = some new) : t.kind.isName = true := by
  unfold newName? at named
  split at named
  · assumption
  · cases named

theorem isName_of_defaultedName? {t : Tree} {new : Text} (named : defaultedName? new? t = some new) :
    t.kind = .shorthandPropertyIdentifierPattern ∧ t.label.role = some .left ∧ new? t.range = some new := by
  unfold defaultedName? at named
  split at named
  · rename_i facts
    exact ⟨facts.1, facts.2, named⟩
  · cases named

/-- Most nodes have the scripts of their children. -/
theorem children_ofTree {t : Tree} (noName : t.kind.isName = false) (noDefault : t.kind ≠ .objectAssignmentPattern)
    (aliased : t.kind = .exportSpecifier → ∃ own ∈ t.children, own.label.role = some .alias) :
    (ofTree source new? t).children = row source new? t.start t.stop t.children := by
  obtain ⟨label, children⟩ := t
  have noName : ¬ label.kind.isName = true := Bool.eq_false_iff.mp noName
  have noDefault : ¬ label.kind = .objectAssignmentPattern := noDefault
  rw [ofTree, if_neg noName, if_neg, if_neg noDefault]
  · rfl
  · rintro ⟨kind, bare⟩
    obtain ⟨own, mem, role⟩ := aliased kind
    exact bare own mem role

theorem children_ofTree_of_bare {t : Tree} (kind : t.kind = .exportSpecifier)
    (bare : ∀ own ∈ t.children, own.label.role ≠ some .alias) :
    (ofTree source new? t).children = specifierRow source new? t.start t.stop t.children := by
  obtain ⟨label, children⟩ := t
  rw [ofTree, if_neg, if_pos ⟨kind, bare⟩]
  · rfl
  · rw [show label.kind = _ from kind]
    exact Bool.false_ne_true

theorem ofTree_of_isName {t : Tree} (isName : t.kind.isName = true) :
    ofTree source new? t = ofName source t.label (new? t.range) := by
  obtain ⟨label, children⟩ := t
  rw [ofTree]
  exact if_pos isName

/-- The kinds of the nodes by which something is public. -/
def isPublic : Kind → Bool
  | .object | .objectPattern | .exportStatement => true
  | _ => false

/-- Whether only these nodes contribute. -/
def Quiet (own : Kind → List Script → List α) : Prop :=
  ∀ kind, isPublic kind = false → ∀ row, own kind row = []

theorem isPublic_of_isName {kind : Kind} (isName : kind.isName = true) : isPublic kind = false := by
  revert isName
  cases kind <;> simp [Kind.isName, isPublic]

/-! What the nodes of a script contribute. -/

variable {own : Kind → List Script → List α} (quiet : Quiet own)

include quiet

theorem collect_leaf (kind : Kind) (inner : isPublic kind = false) (role : Option Role) (place : Range) (t : Text) :
    collect own (leaf kind role place t) = [] := by
  simp [leaf, collect, collectAll, quiet kind inner]

theorem collect_ofTree_of_isName {t : Tree} (isName : t.kind.isName = true) :
    collect own (ofTree source new? t) = [] := by
  have inner := isPublic_of_isName isName
  rw [ofTree_of_isName isName]
  unfold ofName
  split
  · rw [collect, quiet t.label.kind inner]
    rfl
  · split
    · simp [collect, collectAll, keyed, collect_leaf quiet .propertyIdentifier rfl,
        collect_leaf quiet .identifier rfl, quiet .pair rfl]
    · simp [collect, collectAll, keyed, collect_leaf quiet .propertyIdentifier rfl,
        collect_leaf quiet .identifier rfl, quiet .pairPattern rfl]
    · exact collect_leaf quiet _ inner _ _ _

omit quiet in
theorem collectAll_row (start stop : Nat) (ts : List Tree) : collectAll own (row source new? start stop ts) =
    ts.flatMap fun child => collect own (ofTree source new? child) := by
  rw [collectAll_eq]
  exact flatMap_row (fun _ => rfl) start stop ts

theorem collectAll_specifierRow (start stop : Nat) (ts : List Tree) :
    collectAll own (specifierRow source new? start stop ts) =
      ts.flatMap fun child => collect own (ofTree source new? child) := by
  induction ts generalizing start with
  | nil => rfl
  | cons t rest ih =>
      have later := ih t.stop
      rw [collectAll_eq] at later
      rw [collectAll_eq, specifierRow, List.flatMap_cons, List.flatMap_append, later, List.flatMap_cons]
      cases found : newName? new? t with
      | none => simp [ofSpecified, copied, collect]
      | some new =>
          have isName := isName_of_newName? found
          have same := collect_leaf quiet _ (isPublic_of_isName isName)
          rw [collect_ofTree_of_isName quiet isName]
          simp [ofSpecified, copied, collect, same]

theorem collect_defaultedRow (label : Label) (kind : label.kind = .objectAssignmentPattern) (ts : List Tree) :
    collect own (defaultedRow source new? label ts) =
      ts.flatMap fun child => collect own (ofTree source new? child) := by
  have inner : isPublic label.kind = false := by
    rw [kind]
    rfl
  cases ts with
  | nil =>
      rw [defaultedRow, collect, quiet _ inner]
      rfl
  | cons t rest =>
      rw [defaultedRow, List.flatMap_cons]
      cases found : defaultedName? new? t with
      | none =>
          rw [ofDefaulted, collect, quiet _ inner, collectAll, collectAll, collectAll_row]
          rfl
      | some new =>
          have isName : t.kind.isName = true := by
            rw [(isName_of_defaultedName? found).1]
            rfl
          rw [collect_ofTree_of_isName quiet isName]
          simp [ofDefaulted, keyed, copied, collect, collectAll, collectAll_row, quiet .pairPattern rfl,
            quiet .assignmentPattern rfl, collect_leaf quiet .propertyIdentifier rfl,
            collect_leaf quiet .identifier rfl]

/-- What the nodes below a node contribute stays with their scripts, whatever the node becomes. -/
theorem collect_ofTree {t : Tree} (noName : t.kind.isName = false) :
    collect own (ofTree source new? t) =
      own t.kind (row source new? t.start t.stop t.children) ++
        t.children.flatMap fun child => collect own (ofTree source new? child) := by
  obtain ⟨label, children⟩ := t
  change label.kind.isName = false at noName
  rw [ofTree, if_neg (by simp [noName])]
  split
  · rename_i specifier
    have inner : isPublic label.kind = false := by
      rw [specifier.1]
      rfl
    rw [collect, quiet _ inner, collectAll_specifierRow quiet, Tree.kind, Tree.label, quiet _ inner]
    rfl
  · split
    · rename_i kind
      have inner : isPublic label.kind = false := by
        rw [kind]
        rfl
      rw [collect_defaultedRow quiet label kind, Tree.kind, Tree.label, quiet _ inner]
      rfl
    · rw [collect, collectAll_row]
      rfl

/-- What the nodes of a program contribute changes by what the public ones change. -/
theorem collect_map {root : Tree} {f : α → α}
    (changes : ∀ t ∈ root.nodes, isPublic t.kind = true → own t.kind (row source new? t.start t.stop t.children) =
      (own t.kind (row source new?' t.start t.stop t.children)).map f) {t : Tree} (mem : t ∈ root.nodes) :
    collect own (ofTree source new? t) = (collect own (ofTree source new?' t)).map f := by
  induction t using childrenInduction with
  | step t ih =>
      cases isName : t.kind.isName with
      | true =>
          rw [collect_ofTree_of_isName quiet isName, collect_ofTree_of_isName quiet isName]
          rfl
      | false =>
          rw [collect_ofTree quiet isName, collect_ofTree quiet isName, List.map_append, List.map_flatMap]
          congr 1
          · cases inner : isPublic t.kind with
            | true => exact changes t mem inner
            | false =>
                rw [quiet _ inner, quiet _ inner]
                rfl
          · exact List.flatMap_congr fun child below => ih child below (mem_nodes_trans (child_mem_nodes below) mem)

end Rebundle.Script
