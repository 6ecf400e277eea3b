import Rebundle.Proofs.Scope.Growth

/-!
# The additions of the constructs

One lemma for each construct says what entering it adds. Together they say that entering a node adds what
the node opens, names, hides and refers to.
-/

namespace Rebundle

namespace ScopeWalk

/-- Where a node declares that an analysis is about to enter. -/
def holder (walk : ScopeWalk) : Holder → Nat
  | .around => walk.current
  | .itself => walk.scopes.length
  | .function => Scope.varHolder walk.scopes walk.current
  | .program => 0

/-- Names with the scopes that hold them. -/
def held (walk : ScopeWalk) (namings : List Naming) : List (Nat × Tree) :=
  namings.map fun naming => (walk.holder naming.holder, naming.name)

variable {source : Bytes} {walk next : ScopeWalk} {t : Tree}

theorem current_congr (same : next.opened = walk.opened) : next.current = walk.current := by
  rw [current, current, same]

theorem held_append (walk : ScopeWalk) (namings namings' : List Naming) :
    walk.held (namings ++ namings') = walk.held namings ++ walk.held namings' := List.map_append

theorem held_map (walk : ScopeWalk) (holder : Holder) (names : List Tree) :
    walk.held (names.map (⟨holder, ·⟩)) = names.map (walk.holder holder, ·) := by
  rw [held, List.map_map]
  rfl

/-- What opening a scope adds. -/
def frame (walk : ScopeWalk) (kind : ScopeKind) (t : Tree) : ScopeKind × Range × Option Nat :=
  (kind, t.range, some walk.current)

namespace Grows

theorem opening (source : Bytes) (ready : walk.Ready) (kind : ScopeKind) (t : Tree) :
    Grows source walk (walk.openScope kind t)
      { frames := [walk.frame kind t], opened := [⟨t.range, t.kind, walk.scopes.length⟩] } := by
  have opens := openScope source walk kind t
  rw [ready.head] at opens
  exact opens

theorem enterFunction (ready : walk.Ready) (t : Tree) (opens : t.kind.opensFunction = true) :
    Grows source walk (walk.enterFunction source t)
      { frames := [walk.frame .function t]
        opened := [⟨t.range, t.kind, walk.scopes.length⟩]
        declared := walk.held t.functionNamings
        bodies := t.functionBody?.toList.map Tree.range } := by
  unfold ScopeWalk.enterFunction
  extract_lets name around inside parameters declared opened named bound
  have first : Grows source walk declared { declared := around.map (walk.current, ·) } :=
    declareNames ready.current (fun _ same => current_congr same) .function around
  have length : declared.scopes.length = walk.scopes.length := first.length
  have second : Grows source declared opened
      { frames := [walk.frame .function t], opened := [⟨t.range, t.kind, walk.scopes.length⟩] } := by
    have opens := openScope source declared .function t
    have same : declared.opened = walk.opened := first.opened
    rw [same, ready.head, length] at opens
    exact opens
  have room : walk.scopes.length < opened.scopes.length := by
    rw [second.length, length]
    exact Nat.lt_succ_self _
  have here (next : ScopeWalk) (same : next.opened = opened.opened) :
      next.current = walk.scopes.length := by
    rw [ScopeWalk.current, same, second.opened]
    rfl
  have third : Grows source opened named { declared := inside.map (walk.scopes.length, ·) } :=
    declareNames room here .function inside
  have fourth : Grows source named bound
      { declared := (parameters.flatMap Tree.boundNames).map (walk.scopes.length, ·) } := by
    have same : named.current = walk.scopes.length := here named third.opened
    simp only [bound, same]
    exact declarePatterns (by rw [third.length]; exact room) .param parameters
  have all := ((first.trans second).trans third).trans fourth
  have names : walk.held t.functionNamings = around.map (walk.current, ·) ++
      (inside.map (walk.scopes.length, ·) ++
        (parameters.flatMap Tree.boundNames).map (walk.scopes.length, ·)) := by
    rw [Tree.functionNamings, held_append, held_append, held_map, held_map, held_map]
    rfl
  rw [names]
  have bodyless (none : t.functionBody? = Option.none) : Grows source walk bound
      { frames := [walk.frame .function t]
        opened := [⟨t.range, t.kind, walk.scopes.length⟩]
        declared := around.map (walk.current, ·) ++ (inside.map (walk.scopes.length, ·) ++
          (parameters.flatMap Tree.boundNames).map (walk.scopes.length, ·))
        bodies := t.functionBody?.toList.map Tree.range } := by
    rw [none]
    simpa [Delta.andThen] using all
  cases body : t.child? .body with
  | none => exact bodyless (by simp [Tree.functionBody?, body])
  | some body' =>
      by_cases block : (body'.kind == .statementBlock) = true
      · have found : t.functionBody? = some body' := by simp only [Tree.functionBody?, body, opens, block,
          Bool.and_self, if_true]
        have noted := all.trans (note bound body'.range)
        rw [found]
        simpa [Delta.andThen, block] using noted
      · simp only [block]
        exact bodyless (by simp only [Tree.functionBody?, body, block, Bool.and_false, if_false,
          Bool.false_eq_true])

/-- Opening a block and declaring what its head binds. -/
theorem block (ready : walk.Ready) (t : Tree) {holder : Holder} {i : Nat} (same : i = walk.holder holder)
    (inside : i ≤ walk.scopes.length) (kind : BindingKind) (patterns : List Tree) :
    Grows source walk ((walk.openScope .block t).declarePatterns source i kind patterns)
      { frames := [walk.frame .block t]
        opened := [⟨t.range, t.kind, walk.scopes.length⟩]
        declared := walk.held ((patterns.flatMap Tree.boundNames).map (⟨holder, ·⟩)) } := by
  have opened := opening source ready .block t
  have room : i < (walk.openScope .block t).scopes.length := by
    rw [opened.length]
    exact Nat.lt_succ_of_le inside
  rw [held_map, ← same]
  simpa [Delta.andThen] using opened.trans (declarePatterns room kind patterns)

/-- In a block that was just opened `var` still goes to the function around. -/
theorem varHolder_openScope (ready : walk.Ready) (t : Tree) :
    Scope.varHolder (walk.openScope .block t).scopes (walk.openScope .block t).current =
      walk.holder .function := by
  have parent : (walk.openScope .block t).scopes =
      walk.scopes ++ [⟨.block, t.range, some walk.current, []⟩] := by
    rw [ScopeWalk.openScope, ← ready.head]
  rw [parent]
  exact Scope.varHolder_block walk.scopes t.range ready.current

theorem enterBlock (ready : walk.Ready) (t : Tree) (opens : walk.bodies.contains t.range = false) :
    Grows source walk (walk.enterBlock source t)
      { frames := [walk.frame .block t]
        opened := [⟨t.range, t.kind, walk.scopes.length⟩]
        declared := walk.held t.blockNamings } := by
  have opened := opening source ready .block t
  have early : walk.holder .function ≤ walk.scopes.length :=
    Nat.le_of_lt (Nat.lt_of_le_of_lt (Scope.varHolder_le _ _) ready.current)
  have own : walk.holder .itself ≤ walk.scopes.length := Nat.le_refl _
  rw [ScopeWalk.enterBlock, if_neg (by simpa using opens)]
  dsimp only
  split
  · rename_i kind
    have names : t.blockNamings =
        ((t.child? .parameter).toList.flatMap Tree.boundNames).map (⟨.itself, ·⟩) := by
      simp only [Tree.blockNamings, kind]
    rw [names]
    exact block ready t rfl own _ _
  · rename_i kind
    split
    · rename_i plain
      have names : t.blockNamings = [] := by simp only [Tree.blockNamings, kind, plain]
      rw [names]
      exact opened
    · rename_i keyword found
      by_cases var : BindingKind.ofKeyword keyword.kind = .var
      · have names : t.blockNamings =
            ((t.child? .left).toList.flatMap Tree.boundNames).map (⟨.function, ·⟩) := by
          simp only [Tree.blockNamings, kind, found, var, if_true]
        simp only [var, if_true]
        rw [names, varHolder_openScope ready]
        exact block ready t rfl early _ _
      · have names : t.blockNamings =
            ((t.child? .left).toList.flatMap Tree.boundNames).map (⟨.itself, ·⟩) := by
          simp only [Tree.blockNamings, kind, found, var, if_false]
        simp only [var, if_false]
        rw [names]
        exact block ready t rfl own _ _
  · rename_i noCatch noLoop
    have names : t.blockNamings = [] := by
      unfold Tree.blockNamings
      split
      · rename_i kind
        exact absurd kind noCatch
      · rename_i kind
        exact absurd kind noLoop
      · rfl
    rw [names]
    exact opened

theorem enterDeclaration (ready : walk.Ready) (t : Tree) :
    Grows source walk (walk.enterDeclaration source t) { declared := walk.held t.declarationNamings } := by
  rw [ScopeWalk.enterDeclaration, Tree.declarationNamings, held_map]
  by_cases var : (t.kind == .variableDeclaration) = true
  · simp only [var, if_true]
    exact declarePatterns (Nat.lt_of_le_of_lt (Scope.varHolder_le _ _) ready.current) _ _
  · simp only [var, if_false, Bool.false_eq_true]
    exact declarePatterns ready.current _ _

/-! Imports declare in the scope of the program. -/

theorem enterSpecifier (inside : 0 < walk.scopes.length) (spec : Tree) :
    Grows source walk (walk.enterSpecifier source spec)
      { declared := spec.specifierNames.map (0, ·)
        ignored := (if (spec.child? .alias).isSome then (spec.child? .name).toList else []).map
          Tree.range } := by
  rw [ScopeWalk.enterSpecifier, Tree.specifierNames]
  cases spec.child? .alias with
  | some own =>
      have hidden := ignore source walk (spec.child? .name).toList
      have both := hidden.trans (declare (hidden.length ▸ inside) .import own)
      simpa [Delta.andThen] using both
  | none =>
      cases spec.child? .name with
      | none => exact refl walk
      | some name =>
          dsimp only
          split
          · exact declare inside .import name
          · exact refl walk

theorem enterImported (inside : 0 < walk.scopes.length) (t : Tree) :
    Grows source walk (walk.enterImported source t)
      { declared := t.importedNames.map (0, ·), ignored := t.renamedImports.map Tree.range } := by
  rw [ScopeWalk.enterImported, Tree.importedNames, Tree.renamedImports]
  cases kind : t.kind with
  | identifier => exact declare inside .import t
  | namespaceImport => exact declareNames inside (fun _ _ => rfl) .import _
  | namedImports =>
      simp only [List.map_flatMap]
      exact foldl fun next spec _ _ length => enterSpecifier (length ▸ inside) spec
  | _ => exact refl walk

theorem enterImport (inside : 0 < walk.scopes.length) (t : Tree) :
    Grows source walk (walk.enterImport source t)
      { declared := (t.importedParts.flatMap Tree.importedNames).map (0, ·)
        ignored := (t.importedParts.flatMap Tree.renamedImports).map Tree.range } := by
  rw [ScopeWalk.enterImport, List.map_flatMap, List.map_flatMap]
  exact foldl fun next part _ _ length => enterImported (length ▸ inside) part

end Grows

/-- Whether a name is a reference when an analysis enters it. -/
def collects (walk : ScopeWalk) (t : Tree) : Bool :=
  t.kind.isName && t.kind != .typeIdentifier &&
    !(walk.declared.contains t.range || walk.ignored.contains t.range)

/-- What entering a node adds. -/
def addition (source : Bytes) (c : Cursor) (walk : ScopeWalk) : Delta where
  frames := c.opens?.toList.map (walk.frame · c.focus)
  opened := c.opens?.toList.map fun _ => ⟨c.range, c.kind, walk.scopes.length⟩
  declared := walk.held c.focus.namings
  ignored := c.foreign.map Tree.range
  bodies := c.focus.functionBody?.toList.map Tree.range
  pending := if walk.collects c.focus then [⟨c.focus.text source, c.range, walk.current⟩] else []

theorem collects_of_isName (walk : ScopeWalk) {t : Tree} (name : t.kind.isName = true) :
    walk.collects t = !(walk.declared.contains t.range || walk.ignored.contains t.range ||
      t.kind == .typeIdentifier) := by
  rw [collects, name, bne, Bool.true_and, Bool.not_or (_ || _), Bool.and_comm]

theorem Grows.enterName (walk : ScopeWalk) (t : Tree) (name : t.kind.isName = true) :
    Grows source walk (walk.enterName source t)
      { pending := if walk.collects t then [⟨t.text source, t.range, walk.current⟩] else [] } := by
  rw [ScopeWalk.enterName, collects_of_isName walk name]
  split
  · rename_i known
    rw [known]
    exact refl walk
  · rename_i free
    rw [Bool.eq_false_iff.mpr free]
    exact collect walk _

/-! What the kinds tell apart. -/

theorem functionBody?_of_not {t : Tree} (other : t.kind.opensFunction = false) : t.functionBody? = none := by
  rw [Tree.functionBody?]
  cases t.child? .body with
  | none => rfl
  | some body => simp [other]

theorem collects_of_not (walk : ScopeWalk) {t : Tree} (other : t.kind.isName = false) :
    walk.collects t = false := by
  rw [collects, other, Bool.false_and, Bool.false_and]

/-- Only imports and exports hide names of other modules. -/
theorem foreign_of {c : Cursor} (kind : c.kind.opensFunction = true ∨ c.kind.opensBlock = true ∨
    c.kind.isVariableDeclaration = true ∨ c.kind.isName = true) : c.foreign = [] := by
  unfold Cursor.foreign
  split
  · rename_i same
    rw [same] at kind
    exact absurd kind (by decide)
  · rename_i same
    rw [same] at kind
    exact absurd kind (by decide)
  · rename_i same
    rw [same] at kind
    exact absurd kind (by decide)
  · rfl

/-- Nodes that open scopes or declare are no names. -/
theorem isName_of {k : Kind} (kind : k.opensFunction = true ∨ k.opensBlock = true ∨
    k.isVariableDeclaration = true) : k.isName = false := by
  revert kind
  cases k with
  | identifier => decide
  | typeIdentifier => decide
  | shorthandPropertyIdentifier => decide
  | shorthandPropertyIdentifierPattern => decide
  | _ => exact fun _ => rfl

theorem otherNamings_of_isName {t : Tree} (name : t.kind.isName = true) : t.otherNamings = [] := by
  unfold Tree.otherNamings
  split
  · rename_i same
    rw [same] at name
    exact absurd name (by decide)
  · rename_i same
    rw [same] at name
    exact absurd name (by decide)
  · rename_i same
    rw [same] at name
    exact absurd name (by decide)
  · rfl

section

variable {c : Cursor}

theorem grows_function (ready : walk.Ready) (function : c.focus.kind.opensFunction = true) :
    Grows source walk (walk.enterFunction source c.focus) (walk.addition source c) := by
  have opens : c.opens? = some .function := by rw [Cursor.opens?, Cursor.kind, if_pos function]
  have names : c.focus.namings = c.focus.functionNamings := by rw [Tree.namings, if_pos function]
  rw [addition, opens, names, foreign_of (.inl function),
    collects_of_not walk (isName_of (.inl function))]
  exact Grows.enterFunction ready c.focus function

theorem grows_block (ready : walk.Ready) (function : ¬ c.focus.kind.opensFunction = true)
    (block : c.focus.kind.opensBlock = true) (body : walk.bodies.contains c.focus.range = c.isBody)
    (plain : c.isBody = true → c.focus.kind = .statementBlock) :
    Grows source walk (walk.enterBlock source c.focus) (walk.addition source c) := by
  have opens : c.opens? = if c.isBody then none else some .block := by
    rw [Cursor.opens?, Cursor.kind, if_neg function, if_pos block]
  have names : c.focus.namings = c.focus.blockNamings := by
    rw [Tree.namings, if_neg function, if_pos block]
  rw [addition, opens, names, foreign_of (.inr (.inl block)),
    functionBody?_of_not (Bool.eq_false_iff.mpr function),
    collects_of_not walk (isName_of (.inr (.inl block)))]
  by_cases inner : c.isBody = true
  · have nothing : c.focus.blockNamings = [] := by rw [Tree.blockNamings, plain inner]
    rw [ScopeWalk.enterBlock, body, if_pos inner, if_pos inner, nothing]
    exact Grows.refl walk
  · rw [if_neg inner]
    exact Grows.enterBlock ready c.focus (body.trans (Bool.eq_false_iff.mpr inner))

/-- The remaining nodes that open a scope are the class expressions. -/
theorem opens?_of_not (function : ¬ c.focus.kind.opensFunction = true)
    (block : ¬ c.focus.kind.opensBlock = true) (other : c.focus.kind ≠ .classExpression) :
    c.opens? = none := by
  rw [Cursor.opens?, Cursor.kind, if_neg function, if_neg block, if_neg]
  rwa [beq_iff_eq]

theorem grows_declaration (ready : walk.Ready) (function : ¬ c.focus.kind.opensFunction = true)
    (block : ¬ c.focus.kind.opensBlock = true) (declares : c.focus.kind.isVariableDeclaration = true) :
    Grows source walk (walk.enterDeclaration source c.focus) (walk.addition source c) := by
  have other : c.focus.kind ≠ .classExpression := by
    intro kind
    rw [kind] at declares
    exact absurd declares (by decide)
  have names : c.focus.namings = c.focus.declarationNamings := by
    rw [Tree.namings, if_neg function, if_neg block, if_pos declares]
  rw [addition, opens?_of_not function block other, names,
    functionBody?_of_not (Bool.eq_false_iff.mpr function), foreign_of (.inr (.inr (.inl declares))),
    collects_of_not walk (isName_of (.inr (.inr declares)))]
  exact Grows.enterDeclaration ready c.focus

theorem grows_name (function : ¬ c.focus.kind.opensFunction = true)
    (block : ¬ c.focus.kind.opensBlock = true) (declares : ¬ c.focus.kind.isVariableDeclaration = true)
    (name : c.focus.kind.isName = true) :
    Grows source walk (walk.enterName source c.focus) (walk.addition source c) := by
  have other : c.focus.kind ≠ .classExpression := by
    intro kind
    rw [kind] at name
    exact absurd name (by decide)
  have names : c.focus.namings = [] := by
    rw [Tree.namings, if_neg function, if_neg block, if_neg declares]
    exact otherNamings_of_isName name
  rw [addition, opens?_of_not function block other, names,
    functionBody?_of_not (Bool.eq_false_iff.mpr function), foreign_of (.inr (.inr (.inr name)))]
  exact Grows.enterName walk c.focus name

/-! The other nodes that matter are told by their kinds. -/

section

variable (function : ¬ c.focus.kind.opensFunction = true) (block : ¬ c.focus.kind.opensBlock = true)

include function block

theorem opens?_classExpression (kind : c.focus.kind = .classExpression) :
    c.opens? = (c.focus.child? .name).map fun _ => .classBody := by
  rw [Cursor.opens?, Cursor.kind, if_neg function, if_neg block, kind]
  rfl

variable (declares : ¬ c.focus.kind.isVariableDeclaration = true) (name : ¬ c.focus.kind.isName = true)

include declares name

theorem addition_of_not (source : Bytes) (walk : ScopeWalk) :
    walk.addition source c =
      { frames := c.opens?.toList.map (walk.frame · c.focus)
        opened := c.opens?.toList.map fun _ => ⟨c.range, c.kind, walk.scopes.length⟩
        declared := walk.held c.focus.otherNamings
        ignored := c.foreign.map Tree.range } := by
  have namings : c.focus.namings = c.focus.otherNamings := by
    rw [Tree.namings, if_neg function, if_neg block, if_neg declares]
  rw [addition, namings, functionBody?_of_not (Bool.eq_false_iff.mpr function),
    collects_of_not walk (Bool.eq_false_iff.mpr name)]
  rfl

theorem grows_other (ready : walk.Ready) :
    Grows source walk (walk.enter source c) (walk.addition source c) := by
  rw [addition_of_not function block declares name, ScopeWalk.enter]
  dsimp only
  rw [if_neg function, if_neg block, if_neg declares, if_neg name]
  split
  · rename_i kind
    rw [opens?_of_not function block (by rw [kind]; decide), Tree.otherNamings, Cursor.foreign,
      Cursor.kind, kind]
    dsimp only
    rw [held_map]
    exact Grows.declareNames ready.current (fun _ same => current_congr same) .className _
  · rename_i kind
    rw [opens?_classExpression function block kind, Tree.otherNamings, Cursor.foreign, Cursor.kind,
      kind]
    cases c.focus.child? .name with
    | none => exact Grows.refl walk
    | some name =>
        have opened := Grows.opening source ready .classBody c.focus
        have room : walk.scopes.length < (walk.openScope .classBody c.focus).scopes.length := by
          rw [opened.length]
          exact Nat.lt_succ_self _
        rw [kind] at opened
        exact opened.trans (Grows.declare room .className name)
  · rename_i kind
    rw [opens?_of_not function block (by rw [kind]; decide), Tree.otherNamings, Cursor.foreign,
      Cursor.kind, kind]
    dsimp only
    rw [held_map]
    exact Grows.enterImport (Nat.lt_of_le_of_lt (Nat.zero_le _) ready.current) c.focus
  · rename_i kind
    rw [opens?_of_not function block (by rw [kind]; decide), Tree.otherNamings, Cursor.foreign,
      Cursor.kind, kind, ScopeWalk.enterExportSpecifier]
    have renamed := Grows.ignore source walk (c.child? .alias).toList
    dsimp only
    cases (c.parent?.bind Cursor.parent?).bind (·.child? .source) with
    | none =>
        rw [Option.isSome_none, if_neg Bool.false_ne_true, List.append_nil]
        exact renamed
    | some _ =>
        rw [Option.isSome_some, if_pos rfl, List.map_append]
        exact renamed.trans (Grows.ignore source _ (c.child? .name).toList)
  · rename_i kind
    rw [opens?_of_not function block (by rw [kind]; decide), Tree.otherNamings, Cursor.foreign,
      Cursor.kind, kind]
    exact Grows.ignore source walk c.focus.parts
  · rename_i noDeclaration noClass noImport noExport noNamespace
    have namings : c.focus.otherNamings = [] := by
      unfold Tree.otherNamings
      split <;> first | contradiction | rfl
    have foreign : c.foreign = [] := by
      unfold Cursor.foreign
      split <;> first | contradiction | rfl
    rw [opens?_of_not function block noClass, namings, foreign]
    exact Grows.refl walk

end

end

/-- Entering a node adds what the node opens, names, hides and refers to. -/
theorem grows_enter (source : Bytes) (ready : walk.Ready) (c : Cursor)
    (body : c.focus.kind.opensBlock = true → walk.bodies.contains c.focus.range = c.isBody)
    (plain : c.focus.kind.opensBlock = true → c.isBody = true → c.focus.kind = .statementBlock) :
    Grows source walk (walk.enter source c) (walk.addition source c) := by
  by_cases function : c.focus.kind.opensFunction = true
  · rw [ScopeWalk.enter, if_pos function]
    exact grows_function ready function
  by_cases block : c.focus.kind.opensBlock = true
  · rw [ScopeWalk.enter, if_neg function, if_pos block]
    exact grows_block ready function block (body block) (plain block)
  by_cases declares : c.focus.kind.isVariableDeclaration = true
  · rw [ScopeWalk.enter, if_neg function, if_neg block, if_pos declares]
    exact grows_declaration ready function block declares
  by_cases name : c.focus.kind.isName = true
  · rw [ScopeWalk.enter, if_neg function, if_neg block, if_neg declares, if_pos name]
    exact grows_name function block declares name
  exact grows_other function block declares name ready

end ScopeWalk

end Rebundle
