import Rebundle.Proofs.Scope.Additions
import Rebundle.Proofs.Scope.Grammatical
import Rebundle.Proofs.Syntax.Accounting

/-!
# The places where patterns bind

A pattern takes a value apart. On the way from a pattern to a name below it every step goes into a part that is
taken apart in turn, or into a key, a default, a type or another thing that stands beside. A pattern binds the names
to which all steps are of the first sort, and the other names are as unknown as before: they are collected when a
walk comes to them.
-/

namespace Rebundle

open Cursor

/-- What a child of a node in a pattern is for. -/
inductive Use where
  | binding | key | default | beside
deriving DecidableEq

namespace Kind

/-- Kinds of the names that a pattern binds. -/
def isBindable : Kind → Bool
  | .identifier | .shorthandPropertyIdentifierPattern => true
  | _ => false

/-- What a child is for in a node of this kind. -/
def use (parent : Kind) (role : Option Role) : Use :=
  match parent with
  | .objectPattern | .arrayPattern | .restPattern => .binding
  | .pairPattern => if role = some .value then .binding else .key
  | .assignmentPattern | .objectAssignmentPattern => if role = some .left then .binding else .default
  | .requiredParameter | .optionalParameter =>
      if role = some .pattern then .binding else if role = some .value then .default else .beside
  | _ => .beside

/-- The role of the one child that is bound in a node of this kind, where there is but one. -/
def boundRole? : Kind → Option Role
  | .pairPattern => some .value
  | .assignmentPattern | .objectAssignmentPattern => some .left
  | .requiredParameter | .optionalParameter => some .pattern
  | _ => none

theorem isName_of_isBindable {kind : Kind} (bindable : kind.isBindable = true) : kind.isName = true := by
  unfold isBindable at bindable
  split at bindable
  · rfl
  · rfl
  · cases bindable

/-- Names have no parts that are bound. -/
theorem use_of_isBindable {kind : Kind} (bindable : kind.isBindable = true) (role : Option Role) :
    kind.use role = .beside := by
  unfold isBindable at bindable
  split at bindable
  · rfl
  · rfl
  · cases bindable

theorem use_eq_binding {kind : Kind} {role : Role} (bound : kind.boundRole? = some role) (other : Option Role) :
    kind.use other = .binding ↔ other = some role := by
  have either {use : Use} (beside : use ≠ .binding) :
      (if other = some role then Use.binding else use) = .binding ↔ other = some role := by
    by_cases bound : other = some role
    · simp [bound]
    · simp [bound, beside]
  unfold boundRole? at bound
  split at bound
  · obtain rfl := Option.some.inj bound
    exact either Use.noConfusion
  · obtain rfl := Option.some.inj bound
    exact either Use.noConfusion
  · obtain rfl := Option.some.inj bound
    exact either Use.noConfusion
  · obtain rfl := Option.some.inj bound
    exact either (by split <;> exact Use.noConfusion)
  · obtain rfl := Option.some.inj bound
    exact either (by split <;> exact Use.noConfusion)
  · cases bound

end Kind

namespace Tree

/-- What the language says of the nodes of a pattern: pairs of a key and a pattern stand in object patterns, and one
child at most plays the role of what is bound. -/
structure Formed (pattern : Tree) : Prop where
  pairs : ∀ t ∈ pattern.nodes, ∀ child ∈ t.children, child.kind = .pairPattern → t.kind = .objectPattern
  single : ∀ t ∈ pattern.nodes, ∀ role ∈ t.kind.boundRole?,
    (t.children.filter fun child => child.label.role = some role).length ≤ 1

instance (pattern : Tree) : Decidable pattern.Formed :=
  decidable_of_iff
    ((∀ t ∈ pattern.nodes, ∀ child ∈ t.children, child.kind = .pairPattern → t.kind = .objectPattern) ∧
      ∀ t ∈ pattern.nodes, ∀ role ∈ t.kind.boundRole?,
        (t.children.filter fun child => child.label.role = some role).length ≤ 1)
    ⟨fun ⟨pairs, single⟩ => ⟨pairs, single⟩, fun formed => ⟨formed.pairs, formed.single⟩⟩

theorem Formed.child {t child : Tree} (formed : t.Formed) (mem : child ∈ t.children) : child.Formed where
  pairs u below := formed.pairs u (mem_nodes_trans below (child_mem_nodes mem))
  single u below := formed.single u (mem_nodes_trans below (child_mem_nodes mem))

/-- The names that a node binds where it stands in what is bound: a pair binds what its pattern binds. -/
def boundHere (t : Tree) : List Tree :=
  match t.kind with
  | .pairPattern => boundInRole .value t.children
  | _ => boundNames t

theorem boundHere_of_ne {t : Tree} (other : t.kind ≠ .pairPattern) : t.boundHere = t.boundNames := by
  unfold boundHere
  split
  · rename_i pair
    exact absurd pair other
  · rfl

/-- Keywords, punctuation and comments bind nothing. -/
theorem boundNames_of_not {t : Tree} (other : (t.isNamed && t.kind != .comment) = false) : t.boundNames = [] := by
  obtain ⟨⟨kind, role, range, missing⟩, children⟩ := t
  cases kind <;> first | rfl | cases other

theorem boundInParts_eq (row : List Tree) : boundInParts row = row.flatMap boundNames := by
  induction row with
  | nil => rfl
  | cons t rest ih =>
      rw [boundInParts, ih, List.flatMap_cons]
      split
      · rfl
      · rename_i other
        rw [boundNames_of_not (Bool.eq_false_iff.mpr other)]

theorem boundInEntries_eq (row : List Tree) : boundInEntries row = row.flatMap boundHere := by
  induction row with
  | nil => rfl
  | cons t rest ih =>
      obtain ⟨label, children⟩ := t
      rw [boundInEntries, ih, List.flatMap_cons]
      rfl

/-- The first child in a role is the only one. -/
theorem boundInRole_eq {role : Role} {row : List Tree}
    (single : (row.filter fun child => child.label.role = some role).length ≤ 1) :
    boundInRole role row =
      row.flatMap fun child => if child.label.role = some role then child.boundNames else [] := by
  induction row with
  | nil => rfl
  | cons t rest ih =>
      rw [boundInRole, List.flatMap_cons]
      by_cases plays : t.label.role = some role
      · rw [List.filter_cons_of_pos (by simpa using plays), List.length_cons] at single
        have others : rest.filter (fun child => child.label.role = some role) = [] :=
          List.length_eq_zero_iff.mp (by omega)
        rw [if_pos plays, if_pos plays, List.flatMap_eq_nil_iff.mpr, List.append_nil]
        intro child mem
        refine if_neg fun plays' => ?_
        exact List.filter_eq_nil_iff.mp others child mem (by simpa using plays')
      · rw [List.filter_cons_of_neg (by simpa using plays)] at single
        rw [if_neg plays, if_neg plays, ih single, List.nil_append]

/-- What is bound by the children of a node that are for binding. -/
def boundBelow (t : Tree) : List Tree :=
  t.children.flatMap fun child => if t.kind.use child.label.role = .binding then child.boundHere else []

section

variable {t : Tree} (formed : t.Formed)

include formed

/-- Pairs stand in object patterns only. -/
theorem Formed.boundHere_child (other : t.kind ≠ .objectPattern) {child : Tree} (mem : child ∈ t.children) :
    child.boundHere = child.boundNames :=
  boundHere_of_ne fun pair => other (formed.pairs t (self_mem_nodes t) child mem pair)

theorem Formed.boundInParts_children (other : t.kind ≠ .objectPattern) (all : ∀ role, t.kind.use role = .binding) :
    boundInParts t.children = t.boundBelow := by
  rw [boundInParts_eq, boundBelow]
  refine List.flatMap_congr fun child mem => ?_
  rw [if_pos (all _), formed.boundHere_child other mem]

theorem Formed.boundInRole_children {role : Role} (bound : t.kind.boundRole? = some role) :
    boundInRole role t.children = t.boundBelow := by
  have other : t.kind ≠ .objectPattern := by
    intro object
    rw [object] at bound
    cases bound
  rw [boundInRole_eq (formed.single t (self_mem_nodes t) role bound), boundBelow]
  refine List.flatMap_congr fun child mem => ?_
  simp only [Kind.use_eq_binding bound, formed.boundHere_child other mem]

end

theorem boundBelow_of_beside {t : Tree} (beside : ∀ role, t.kind.use role = .beside) : t.boundBelow = [] := by
  refine List.flatMap_eq_nil_iff.mpr fun child _ => if_neg ?_
  rw [beside]
  exact Use.noConfusion

/-- A node binds itself, if it is a name, and what its children bind that are for binding. -/
theorem boundHere_eq {t : Tree} (formed : t.Formed) :
    t.boundHere = (if t.kind.isBindable then [t] else []) ++ t.boundBelow := by
  obtain ⟨⟨kind, role, range, missing⟩, children⟩ := t
  cases kind with
  | identifier =>
      rw [boundBelow_of_beside]
      · rfl
      · exact fun _ => rfl
  | shorthandPropertyIdentifierPattern =>
      rw [boundBelow_of_beside]
      · rfl
      · exact fun _ => rfl
  | objectPattern => exact boundInEntries_eq children
  | arrayPattern => exact formed.boundInParts_children nofun fun _ => rfl
  | restPattern => exact formed.boundInParts_children nofun fun _ => rfl
  | pairPattern => exact formed.boundInRole_children rfl
  | assignmentPattern => exact formed.boundInRole_children rfl
  | objectAssignmentPattern => exact formed.boundInRole_children rfl
  | requiredParameter => exact formed.boundInRole_children rfl
  | optionalParameter => exact formed.boundInRole_children rfl
  | _ => exact (boundBelow_of_beside fun _ => rfl).symm

end Tree

namespace Cursor

/-- What a place is for in the node above it. -/
def use (c : Cursor) : Use :=
  match c.path with
  | [] => .binding
  | crumb :: _ => crumb.label.kind.use c.focus.label.role

/-- Whether every step from the top to a place goes into what is bound. -/
def isBinding (c : Cursor) : Bool := (c :: c.above).all fun d => d.use == .binding

/-- Whether a place is a name in a place where a pattern binds. -/
def isBound (c : Cursor) : Bool := c.kind.isBindable && c.isBinding

/-- The places of the names that a pattern binds, in the order in which they stand. -/
def bindings (pattern : Tree) : List Cursor := (all pattern).filter isBound

theorem isBinding_child (t : Tree) (path : List Crumb) (label : Label) (before rest : List Tree) :
    (⟨t, ⟨label, before, rest⟩ :: path⟩ : Cursor).isBinding =
      (label.kind.use t.label.role == .binding &&
        (⟨.node label (before.reverse ++ t :: rest), path⟩ : Cursor).isBinding) := rfl

theorem isBinding_above {a c : Cursor} (binding : c.isBinding = true) (above : a ∈ c.above) : a.isBinding = true := by
  rw [isBinding, List.all_eq_true] at binding ⊢
  intro d mem
  refine binding d (List.mem_cons_of_mem _ ?_)
  rcases List.mem_cons.mp mem with rfl | higher
  · exact above
  · exact above_trans higher above

/-- Beside what is bound nothing is bound. -/
theorem filter_isBound_eq_nil {path : List Crumb} {t : Tree} (beside : (⟨t, path⟩ : Cursor).isBinding = false) :
    (entered (fun _ => false) path t).filter isBound = [] := by
  rw [List.filter_eq_nil_iff]
  intro c mem bound
  rw [isBound, Bool.and_eq_true] at bound
  have binding : (⟨t, path⟩ : Cursor).isBinding = true := by
    rcases eq_or_mem_above mem with rfl | above
    · exact bound.2
    · exact isBinding_above bound.2 above
  rw [beside] at binding
  cases binding

mutual

/-- The names that a node binds are those at which every step goes into what is bound. -/
theorem focus_bound : ∀ {path : List Crumb} {t : Tree}, t.Formed → (⟨t, path⟩ : Cursor).isBinding = true →
    ((entered (fun _ => false) path t).filter isBound).map focus = t.boundHere
  | path, .node label children, formed, binding => by
      have here : (⟨.node label children, path⟩ : Cursor).isBound = label.kind.isBindable := by
        rw [isBound, binding, Bool.and_true]
        rfl
      have below : ((enteredAll (fun _ => false) path label [] children).filter isBound).map focus =
          (Tree.node label children).boundBelow :=
        focus_boundAll [] (fun child mem => formed.child mem) binding
      rw [entered, if_neg Bool.false_ne_true, List.filter_cons, here, Tree.boundHere_eq formed, ← below]
      cases bindable : label.kind.isBindable with
      | true => simp [Tree.kind, Tree.label, bindable]
      | false => simp [Tree.kind, Tree.label, bindable]

theorem focus_boundAll : ∀ {path : List Crumb} {label : Label} (before : List Tree) {row : List Tree},
    (∀ t ∈ row, t.Formed) →
    (⟨.node label (before.reverse ++ row), path⟩ : Cursor).isBinding = true →
    ((enteredAll (fun _ => false) path label before row).filter isBound).map focus =
      row.flatMap fun child => if label.kind.use child.label.role = .binding then child.boundHere else []
  | path, label, before, [], _, _ => by
      rw [enteredAll]
      rfl
  | path, label, before, t :: rest, formed, binding => by
      rw [List.forall_mem_cons] at formed
      have later := focus_boundAll (t :: before) formed.2 (by rw [rotate]; exact binding)
      rw [enteredAll, List.filter_append, List.map_append, later, List.flatMap_cons]
      congr 1
      have child := isBinding_child t path label before rest
      rw [binding, Bool.and_true] at child
      split
      · rename_i use
        exact focus_bound formed.1 (by rw [child, use]; rfl)
      · rename_i beside
        rw [filter_isBound_eq_nil (by rw [child]; exact beq_false_of_ne beside)]
        rfl

end

/-- A pattern binds the names at its binding places. -/
theorem focus_bindings {pattern : Tree} (formed : pattern.Formed) (single : pattern.kind ≠ .pairPattern) :
    (bindings pattern).map focus = pattern.boundNames := by
  rw [bindings, all, focus_bound formed rfl, Tree.boundHere_of_ne single]

end Cursor

/-! Declaring a row of names. -/

namespace Scope

/-- The places that declare a name in a scope. -/
def declarations (scope : Scope) (name : Text) : List Range :=
  ((scope.bindings.get? name).map Binding.declarations).getD []

theorem declarations_declare (scope : Scope) (name other : Text) (kind : BindingKind) (place : Range) :
    (scope.declare name kind place).declarations other =
      scope.declarations other ++ if other = name then [place] else [] := by
  rw [declarations, declare, Table.get?_put]
  by_cases same : other = name
  · subst same
    rw [if_pos rfl, if_pos rfl, declarations]
    cases scope.bindings.get? other <;> rfl
  · rw [if_neg same, if_neg same, List.append_nil]
    rfl

/-- The scope with the names of a row declared in it, one after the other. -/
def declareNames (source : Bytes) (kind : BindingKind) (names : List Tree) (scope : Scope) : Scope :=
  names.foldl (fun scope name => scope.declare (name.text source) kind name.range) scope

theorem declarations_declareNames (source : Bytes) (kind : BindingKind) (names : List Tree) (scope : Scope)
    (name : Text) : (scope.declareNames source kind names).declarations name =
      scope.declarations name ++ (names.filter fun n => n.text source = name).map Tree.range := by
  induction names generalizing scope with
  | nil => simp [declareNames]
  | cons n rest ih =>
      have step := ih (scope.declare (n.text source) kind n.range)
      rw [declarations_declare, List.append_assoc] at step
      rw [List.filter_cons]
      refine step.trans ?_
      congr 1
      by_cases same : n.text source = name
      · simp [same]
      · simp [same, Ne.symm same]

end Scope

namespace ScopeWalk

variable {source : Bytes} {walk : ScopeWalk}

/-- The state with the names of a row declared in a scope, at places that declare nothing yet. -/
def withNames (source : Bytes) (i : Nat) (kind : BindingKind) (names : List Tree) (walk : ScopeWalk) : ScopeWalk :=
  { walk with
    scopes := walk.scopes.modify i (·.declareNames source kind names)
    declared := (names.map Tree.range).reverse ++ walk.declared
    byPlace := names.foldl (fun table name => table.put name.range ⟨i, name.text source⟩) walk.byPlace }

theorem withNames_nil (source : Bytes) (i : Nat) (kind : BindingKind) (walk : ScopeWalk) :
    walk.withNames source i kind [] = walk := by
  have same : walk.scopes.modify i (·.declareNames source kind []) = walk.scopes := List.modify_id i walk.scopes
  rw [withNames, same]
  rfl

theorem withNames_cons (source : Bytes) (i : Nat) (kind : BindingKind) (name : Tree) (rest : List Tree)
    (walk : ScopeWalk) (fresh : name.range ∉ walk.declared) :
    walk.withNames source i kind (name :: rest) =
      (walk.declare source i kind name).withNames source i kind rest := by
  rw [declare, if_neg (by simpa using fresh)]
  simp only [withNames]
  congr 1
  · rw [List.modify_modify_eq]
    rfl
  · simp

/-- Declaring names at different places declares those at whose places nothing is declared yet. -/
theorem foldl_declare (source : Bytes) (i : Nat) (kind : BindingKind) {names : List Tree}
    (once : (names.map Tree.range).Nodup) (walk : ScopeWalk) :
    names.foldl (fun walk name => walk.declare source i kind name) walk =
      walk.withNames source i kind (names.filter fun name => !walk.declared.contains name.range) := by
  induction names generalizing walk with
  | nil => exact (withNames_nil source i kind walk).symm
  | cons name rest ih =>
      obtain ⟨absent, once⟩ := List.nodup_cons.mp once
      rw [List.foldl_cons, ih once]
      by_cases known : walk.declared.contains name.range = true
      · rw [declare, if_pos known, List.filter_cons_of_neg (by simpa using known)]
      · have fresh : name.range ∉ walk.declared := by simpa using known
        rw [List.filter_cons_of_pos (by simpa using fresh), withNames_cons source i kind name _ walk fresh]
        congr 1
        apply List.filter_congr
        intro other mem
        have differ : other.range ≠ name.range := fun same => absent (List.mem_map.mpr ⟨other, mem, same⟩)
        rw [declare, if_neg known]
        simp [differ]

theorem scopes_withNames {i : Nat} {kind : BindingKind} {scope : Scope} (known : walk.scopes[i]? = some scope)
    (names : List Tree) :
    (walk.withNames source i kind names).scopes[i]? = some (scope.declareNames source kind names) := by
  simp only [withNames, List.getElem?_modify, known]
  simp

/-- What is declared elsewhere does not matter to a name. -/
theorem collects_withNames {i : Nat} {kind : BindingKind} {names : List Tree} {t : Tree}
    (other : t.range ∉ names.map Tree.range) : (walk.withNames source i kind names).collects t = walk.collects t := by
  have same : (walk.withNames source i kind names).declared.contains t.range = walk.declared.contains t.range := by
    rw [Bool.eq_iff_iff, List.contains_iff_mem, List.contains_iff_mem, withNames, List.mem_append, List.mem_reverse]
    exact or_iff_right other
  rw [collects, same]
  rfl

/-- Entering a name collects it, unless it is declared or belongs to another module. -/
theorem enter_of_isName {d : Cursor} (name : d.focus.kind.isName = true) :
    walk.enter source d =
      if walk.collects d.focus then
        { walk with pending := walk.pending ++ [⟨d.focus.text source, d.range, walk.current⟩] }
      else walk := by
  have other : ¬ (d.focus.kind.opensFunction = true ∨ d.focus.kind.opensBlock = true ∨
      d.focus.kind.isVariableDeclaration = true) := by
    intro kind
    rw [isName_of kind] at name
    cases name
  rw [not_or, not_or] at other
  rw [ScopeWalk.enter]
  dsimp only
  rw [if_neg other.1, if_neg other.2.1, if_neg other.2.2, if_pos name, enterName,
    collects_of_isName walk name]
  cases walk.declared.contains d.focus.range || walk.ignored.contains d.focus.range ||
    d.focus.kind == .typeIdentifier <;> rfl

/-- What declaring a pattern in a scope comes to: the names at the binding places of the pattern are declared there,
each once and in the order in which they stand, unless their places declare something already, and nothing else
changes. A name to which some step goes into a key, a default or what stands beside is not among them: entering it
afterwards collects it if entering it before would have. The names of properties are never collected. -/
structure Takes (source : Bytes) (i : Nat) (kind : BindingKind) (pattern : Tree) (walk next : ScopeWalk) : Prop where
  state : next = walk.withNames source i kind
    (((bindings pattern).map focus).filter fun name => !walk.declared.contains name.range)
  declarations : ∀ scope, walk.scopes[i]? = some scope → ∃ scope', next.scopes[i]? = some scope' ∧
    ∀ name, scope'.declarations name = scope.declarations name ++
      ((bindings pattern).filter fun c =>
        !walk.declared.contains c.range && c.focus.text source = name).map Cursor.range
  once : ((bindings pattern).map Cursor.range).Nodup
  ordered : pattern.Laid → (bindings pattern).Pairwise fun a b => a.focus.stop ≤ b.focus.start
  others : ∀ c ∈ all pattern, (∃ d ∈ c :: c.above, d.use ≠ .binding) → c.kind.isName = true →
    c.range ∉ (bindings pattern).map Cursor.range ∧
    ∀ d : Cursor, d.focus = c.focus → next.enter source d =
      if walk.collects c.focus then
        { next with pending := next.pending ++ [⟨c.focus.text source, c.range, next.current⟩] }
      else next
  properties : ∀ d : Cursor, d.kind = .propertyIdentifier → next.enter source d = next

end ScopeWalk

namespace Cursor

variable {pattern : Tree}

theorem isBinding_iff {c : Cursor} : c.isBinding = true ↔ ∀ d ∈ c :: c.above, d.use = .binding := by
  simp [isBinding]

theorem use_of_parent {a e : Cursor} (up : e.parent? = some a) : e.use = a.kind.use e.focus.label.role := by
  obtain ⟨t, path⟩ := e
  cases path with
  | nil => cases up
  | cons crumb path =>
      cases up
      rfl

/-- No name that is bound stands above another. -/
theorem not_above_of_isBound {a b : Cursor} (boundA : a.isBound = true) (boundB : b.isBound = true) :
    a ∉ b.above := by
  intro above
  obtain ⟨e, up, way⟩ := exists_branch above
  rw [isBound, Bool.and_eq_true] at boundA boundB
  have use : e.use = .binding := isBinding_iff.mp boundB.2 e (List.mem_cons.mpr way)
  rw [use_of_parent up, Kind.use_of_isBindable boundA.1] at use
  cases use

theorem ordered_bindings (laid : pattern.Laid) :
    (bindings pattern).Pairwise fun a b => a.focus.stop ≤ b.focus.start := by
  refine List.Pairwise.imp_of_mem ?_ ((ordered_entered [] pattern laid).filter isBound)
  rintro a b memA memB (above | before)
  · exact absurd above (not_above_of_isBound (List.mem_filter.mp memA).2 (List.mem_filter.mp memB).2)
  · exact before

theorem isName_of_isBound {c : Cursor} (bound : c.isBound = true) : c.kind.isName = true := by
  rw [isBound, Bool.and_eq_true] at bound
  exact Kind.isName_of_isBindable bound.1

theorem nodup_bindings (apart : pattern.NamesApart) : ((bindings pattern).map Cursor.range).Nodup := by
  apply List.Nodup.map_on
  · intro a memA b memB same
    obtain ⟨placeA, boundA⟩ := List.mem_filter.mp memA
    obtain ⟨placeB, boundB⟩ := List.mem_filter.mp memB
    exact eq_of_range_eq apart (whole_of_mem_entered placeA) (whole_of_mem_entered placeB)
      (isName_of_isBound boundA) (isName_of_isBound boundB) same
  · exact (nodup_entered _ [] pattern).of_map.filter _

/-- A name that is not bound has another place than those that are. -/
theorem range_not_mem_bindings (apart : pattern.NamesApart) {c : Cursor} (place : c ∈ all pattern)
    (beside : ∃ d ∈ c :: c.above, d.use ≠ .binding) (name : c.kind.isName = true) :
    c.range ∉ (bindings pattern).map Cursor.range := by
  intro mem
  obtain ⟨a, bound, same⟩ := List.mem_map.mp mem
  obtain ⟨placeA, boundA⟩ := List.mem_filter.mp bound
  obtain rfl := eq_of_range_eq apart (whole_of_mem_entered placeA) (whole_of_mem_entered place)
    (isName_of_isBound boundA) name same
  rw [isBound, Bool.and_eq_true] at boundA
  obtain ⟨d, above, other⟩ := beside
  exact other (isBinding_iff.mp boundA.2 d above)

end Cursor

namespace ScopeWalk

/-- Declaring a pattern declares the names at its binding places, and nothing else. -/
theorem takes_declarePattern (source : Bytes) (i : Nat) (kind : BindingKind) {pattern : Tree}
    (formed : pattern.Formed) (single : pattern.kind ≠ .pairPattern) (apart : pattern.NamesApart) (walk : ScopeWalk) :
    walk.Takes source i kind pattern (walk.declarePattern source i kind pattern) := by
  have once := nodup_bindings apart
  have state : walk.declarePattern source i kind pattern = walk.withNames source i kind
      (((bindings pattern).map focus).filter fun name => !walk.declared.contains name.range) := by
    rw [declarePattern, ← focus_bindings formed single]
    exact foldl_declare source i kind (by rw [List.map_map]; exact once) walk
  refine ⟨state, ?_, once, ordered_bindings, ?_, ?_⟩
  · intro scope known
    rw [state]
    refine ⟨_, scopes_withNames known _, fun name => ?_⟩
    rw [Scope.declarations_declareNames, List.filter_filter, List.filter_map, List.map_map]
    congr 2
    apply List.filter_congr
    intro c _
    exact Bool.and_comm _ _
  · intro c place beside name
    have free := range_not_mem_bindings apart place beside name
    refine ⟨free, fun d same => ?_⟩
    have other : d.focus.range ∉ (((bindings pattern).map focus).filter fun name =>
        !walk.declared.contains name.range).map Tree.range := by
      intro mem
      obtain ⟨n, kept, range⟩ := List.mem_map.mp mem
      obtain ⟨a, bound, rfl⟩ := List.mem_map.mp (List.mem_filter.mp kept).1
      exact free (List.mem_map.mpr ⟨a, bound, range.trans (congrArg Tree.range same)⟩)
    rw [enter_of_isName (by rw [same]; exact name), state, collects_withNames other, same]
    rw [Cursor.range, same]
    rfl
  · intro d property
    rw [ScopeWalk.enter, show d.focus.kind = .propertyIdentifier from property]
    rfl

/-- The parameter `{a,b:[c=d,...e],[f]:{g=h}}:T=i`. -/
def deep : Bytes :=
  [0x7B, 0x61, 0x2C, 0x62, 0x3A, 0x5B, 0x63, 0x3D, 0x64, 0x2C, 0x2E, 0x2E, 0x2E, 0x65, 0x5D, 0x2C, 0x5B, 0x66,
    0x5D, 0x3A, 0x7B, 0x67, 0x3D, 0x68, 0x7D, 0x7D, 0x3A, 0x54, 0x3D, 0x69]

def deepPattern : Tree :=
  let leaf (kind : Kind) (role : Option Role) (start stop : Nat) : Tree :=
    .node ⟨kind, role, ⟨start, stop⟩, false⟩ []
  let branch (kind : Kind) (role : Option Role) (start stop : Nat) (children : List Tree) : Tree :=
    .node ⟨kind, role, ⟨start, stop⟩, false⟩ children
  branch .requiredParameter none 0 30 [
    branch .objectPattern (some .pattern) 0 26 [
      leaf (.token "\x7b") none 0 1, leaf .shorthandPropertyIdentifierPattern none 1 2, leaf (.token ",") none 2 3,
      branch .pairPattern none 3 15 [
        leaf .propertyIdentifier none 3 4, leaf (.token ":") none 4 5,
        branch .arrayPattern (some .value) 5 15 [
          leaf (.token "[") none 5 6,
          branch .assignmentPattern none 6 9 [
            leaf .identifier (some .left) 6 7, leaf (.token "=") none 7 8, leaf .identifier none 8 9],
          leaf (.token ",") none 9 10,
          branch .restPattern none 10 14 [leaf (.token "...") none 10 13, leaf .identifier none 13 14],
          leaf (.token "]") none 14 15]],
      leaf (.token ",") none 15 16,
      branch .pairPattern none 16 25 [
        branch .computedPropertyName none 16 19 [
          leaf (.token "[") none 16 17, leaf .identifier none 17 18, leaf (.token "]") none 18 19],
        leaf (.token ":") none 19 20,
        branch .objectPattern (some .value) 20 25 [
          leaf (.token "\x7b") none 20 21,
          branch .objectAssignmentPattern none 21 24 [
            leaf .shorthandPropertyIdentifierPattern (some .left) 21 22, leaf (.token "=") none 22 23,
            leaf .identifier none 23 24],
          leaf (.token "\x7d") none 24 25]],
      leaf (.token "\x7d") none 25 26],
    branch .typeAscription none 26 28 [leaf (.token ":") none 26 27, leaf .typeIdentifier none 27 28],
    leaf (.token "=") none 28 29, leaf .identifier (some .value) 29 30]

theorem deepPattern_takes : deepPattern.Formed ∧ deepPattern.kind ≠ .pairPattern ∧ deepPattern.NamesApart ∧
    (start.openScope .program deepPattern).Takes deep 0 .param deepPattern
      ((start.openScope .program deepPattern).declarePattern deep 0 .param deepPattern) := by
  have formed : deepPattern.Formed := by decide +kernel
  have single : deepPattern.kind ≠ .pairPattern := by decide
  have apart : deepPattern.NamesApart := by decide +kernel
  exact ⟨formed, single, apart, takes_declarePattern deep 0 .param formed single apart _⟩

example : (bindings deepPattern).map (fun c => c.focus.text deep) = ["a", "c", "e", "g"] := by decide +kernel

end ScopeWalk

end Rebundle
