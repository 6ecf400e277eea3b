import Rebundle.Proofs.Rewrite.Covering
import Rebundle.Proofs.Rewrite.Patched

/-!
# Replaced bodies

The body of a configured function is replaced by one text. What is recorded below the function comes later,
so it loses against the replacement even where it lies on the same range; and what is recorded above the
function and covers the body covers the function.
-/

namespace Rebundle

open Source Tree Cursor TopLevelAwait

namespace Body

/-- The functions that are called by a name, with the name: a function that is declared, one that a plain
variable begins with, and a method with a plain name. -/
inductive Names (cursor : Cursor) : Tree → Tree → Prop where
  | declaration {name : Tree} (declares : cursor.kind.isFunctionDeclaration = true)
      (named : cursor.focus.child? .name = some name) : Names cursor name cursor.focus
  | value {name value : Tree} (kind : cursor.kind = .variableDeclarator)
      (named : cursor.focus.child? .name = some name) (plain : name.kind = .identifier)
      (given : cursor.focus.child? .value = some value) (function : isFunctionValue value.kind = true) :
      Names cursor name value
  | method {name : Tree} (kind : cursor.kind = .methodDefinition)
      (named : cursor.focus.child? .name = some name) (plain : name.kind = .propertyIdentifier) :
      Names cursor name cursor.focus

variable {cursor c d : Cursor} {name function : Tree}

/-- The replacement of bodies looks at the functions that are called by a name, and at no others. -/
theorem names_iff : Names cursor name function ↔
    pass.concerns cursor.kind = true ∧ ∃ label, target? cursor = some (name, function, label) := by
  constructor
  · intro names
    cases names with
    | declaration declares named =>
        refine ⟨by simp [pass, declares], "function", ?_⟩
        unfold target?
        dsimp only
        rw [named]
        revert declares
        unfold Cursor.kind
        cases cursor.focus.kind <;> simp [Kind.isFunctionDeclaration]
    | value kind named plain given isValue =>
        refine ⟨by simp [pass, kind], "function expression", ?_⟩
        unfold target?
        dsimp only
        rw [named, show cursor.focus.kind = .variableDeclarator from kind]
        simp [given, plain, isValue]
    | method kind named plain =>
        refine ⟨by simp [pass, kind], ?_⟩
        unfold target?
        dsimp only
        rw [named, show cursor.focus.kind = .methodDefinition from kind]
        simp [plain]
  · rintro ⟨concerned, label, found⟩
    simp only [pass, Bool.or_eq_true, beq_iff_eq] at concerned
    unfold target? at found
    dsimp only at found
    split at found
    · cases found
    · rename_i kind named
      split at found
      · rename_i value given
        split at found
        · rename_i simple
          cases found
          simp only [Bool.and_eq_true, beq_iff_eq] at simple
          exact .value kind named simple.1 given simple.2
        · cases found
      · cases found
    · rename_i kind named
      split at found
      · rename_i plain
        cases found
        exact .method kind named (beq_iff_eq.mp plain)
      · cases found
    · rename_i named noDeclarator noMethod
      cases found
      rcases concerned with (declares | declarator) | method
      · exact .declaration declares named
      · exact absurd declarator noDeclarator
      · exact absurd method noMethod

namespace Names

theorem isFunction (names : Names cursor name function) : function.kind.isFunction = true := by
  obtain ⟨concerned, label, found⟩ := names_iff.mp names
  exact (isFunction_of_target concerned found).1

/-- A place that names a function is no declaration of variables and no function value. -/
theorem kind_apart (names : Names cursor name function) :
    cursor.kind.isVariableDeclaration = false ∧ isFunctionValue cursor.kind = false := by
  cases names with
  | declaration declares =>
      revert declares
      cases cursor.kind <;>
        simp [Kind.isFunctionDeclaration, Kind.isVariableDeclaration, isFunctionValue]
  | value kind =>
      rw [kind]
      decide
  | method kind =>
      rw [kind]
      decide

/-- The function stands at the place that names it, or right below it as a value. -/
theorem place (names : Names cursor name function) : ∃ f : Cursor, f.focus = function ∧
    (f = cursor ∨ f.parent? = some cursor ∧ isFunctionValue f.kind = true) := by
  cases names with
  | declaration => exact ⟨cursor, rfl, .inl rfl⟩
  | value _ _ _ given isValue =>
      obtain ⟨f, up, rfl⟩ := exists_child (List.mem_of_find?_eq_some given)
      exact ⟨f, rfl, .inr ⟨up, isValue⟩⟩
  | method => exact ⟨cursor, rfl, .inl rfl⟩

/-- A place names one function. -/
theorem unique {name' function' : Tree} (names : Names cursor name function)
    (names' : Names cursor name' function') : name = name' ∧ function = function' := by
  obtain ⟨_, label, found⟩ := names_iff.mp names
  obtain ⟨_, label', found'⟩ := names_iff.mp names'
  rw [found] at found'
  simp only [Option.some.injEq, Prod.mk.injEq] at found'
  exact ⟨found'.1, found'.2.1⟩

end Names

/-- A task replaces the body of the function that a place names. -/
structure Replaces (source : Bytes) (config : PatchConfig) (cursor : Cursor) (function body : Tree)
    (value : Text) : Prop where
  configured : ∃ name, Names cursor name function ∧
    config.replaceFunctionBody.get? (name.text source) = some value
  has : function.child? .body = some body

/-- What is written for the body. -/
def block (source : Bytes) (cursor : Cursor) (value : Text) : Text :=
  returnBlock value (lineIndent source cursor.range.start)

namespace Replaces

variable {source : Bytes} {config : PatchConfig} {root body : Tree} {value : Text}
  (replaces : Replaces source config cursor function body value)

include replaces

theorem unique {function' body' : Tree} {value' : Text}
    (replaces' : Replaces source config cursor function' body' value') :
    function = function' ∧ body = body' ∧ value = value' := by
  obtain ⟨⟨name, names, configured⟩, has⟩ := replaces
  obtain ⟨⟨name', names', configured'⟩, has'⟩ := replaces'
  obtain ⟨rfl, rfl⟩ := names.unique names'
  exact ⟨rfl, Option.some.inj (has.symm.trans has'), Option.some.inj (configured.symm.trans configured')⟩

theorem child : body ∈ function.children := List.mem_of_find?_eq_some replaces.has

theorem role : body.label.role = some .body := by simpa using List.find?_some replaces.has

theorem isFunction : function.kind.isFunction = true := by
  obtain ⟨name, names, _⟩ := replaces.configured
  exact names.isFunction

theorem applies : pass.applies config = true := by
  obtain ⟨name, _, configured⟩ := replaces.configured
  simp only [pass, Bool.not_eq_true']
  cases row : config.replaceFunctionBody with
  | nil =>
      rw [row] at configured
      cases configured
  | cons => rfl

theorem place : ∃ f : Cursor, f.focus = function ∧
    (f = cursor ∨ f.parent? = some cursor ∧ isFunctionValue f.kind = true) := by
  obtain ⟨name, names, _⟩ := replaces.configured
  exact names.place

theorem kind_apart : cursor.kind.isVariableDeclaration = false ∧ isFunctionValue cursor.kind = false := by
  obtain ⟨name, names, _⟩ := replaces.configured
  exact names.kind_apart

theorem function_below : function ∈ cursor.focus.nodes := by
  obtain ⟨f, rfl, rfl | ⟨up, _⟩⟩ := replaces.place
  · exact self_mem_nodes _
  · exact child_mem_nodes (parent_spec up).1

variable (wf : root.WellFormed source) (stands : cursor.whole = root)

include stands

theorem known : function ∈ root.nodes :=
  mem_nodes_trans replaces.function_below (stands ▸ cursor.focus_mem_whole)

include wf

theorem solid : Solid source body.range :=
  wf.solid function (replaces.known stands) body replaces.child (.inr ⟨replaces.isFunction, replaces.role⟩)

/-- The body is in the function, and the function at the place that names it. -/
theorem inside : body.start < body.stop ∧ function.start ≤ body.start ∧ body.stop ≤ function.stop ∧
    cursor.focus.start ≤ function.start ∧ function.stop ≤ cursor.focus.stop := by
  have filled : body.start < body.stop := (replaces.solid wf stands).start_lt_stop
  have inner := (wf.laid.node (replaces.known stands)).1.child replaces.child
  have outer := (wf.laid.node (stands ▸ cursor.focus_mem_whole : cursor.focus ∈ root.nodes)).1.node
    replaces.function_below
  exact ⟨filled, inner.2.1, inner.2.2, outer.2.1, outer.2.2⟩

omit wf in
/-- What covers the place or one above it covers the function. -/
theorem around (laid : root.Laid) {s : Cursor} (higher : s = cursor ∨ s ∈ cursor.above) :
    s.focus.start ≤ function.start ∧ function.stop ≤ s.focus.stop := by
  have inner := (laid.node (stands ▸ cursor.focus_mem_whole : cursor.focus ∈ root.nodes)).1.node
    replaces.function_below
  rcases higher with rfl | above
  · exact inner.2
  · have outer := range_of_mem_above (by rw [stands]; exact laid) above
    exact ⟨outer.1.trans inner.2.1, inner.2.2.trans outer.2⟩

omit wf in
/-- What stands below the place is the function as a value, or below the function, or apart from it. -/
theorem below_cases (laid : root.Laid) (below : cursor ∈ d.above) : ∃ f : Cursor, f.focus = function ∧
    f.whole = root ∧ (d = f ∧ isFunctionValue d.kind = true ∨ f ∈ d.above ∨
      f.focus.stop ≤ d.focus.start ∨ d.focus.stop ≤ f.focus.start) := by
  obtain ⟨f, here, way⟩ := replaces.place
  have standsD : d.whole = root := (mem_nodes_of_mem_above below).1.symm.trans stands
  have standsF : f.whole = root := by
    rcases way with rfl | ⟨up, _⟩
    · exact stands
    · exact (whole_parent up).symm.trans stands
  have notUnder : d ∉ f.above := by
    intro higher
    rcases way with rfl | ⟨up, _⟩
    · exact not_mem_above_self _ (above_trans higher below)
    · rw [above_eq up] at higher
      rcases List.mem_cons.mp higher with rfl | higher
      · exact not_mem_above_self _ below
      · exact not_mem_above_self _ (above_trans higher below)
  refine ⟨f, here, standsF, ?_⟩
  rcases comparable laid standsF standsD with rfl | higher | higher | apart
  · rcases way with rfl | ⟨_, isValue⟩
    · exact absurd below (not_mem_above_self _)
    · exact .inl ⟨rfl, isValue⟩
  · exact .inr (.inl higher)
  · exact absurd higher notUnder
  · exact .inr (.inr apart)

/-- A declaration below the function lies in the body or apart from it. -/
theorem below_body (above : cursor ∈ d.above) (declares : d.kind.isVariableDeclaration = true) :
    (d.focus.stop ≤ body.start ∨ body.stop ≤ d.focus.start) ∨
      body.start ≤ d.focus.start ∧ d.focus.stop ≤ body.stop := by
  have inside := replaces.inside wf stands
  have laidD : d.whole.Laid := by
    rw [← (mem_nodes_of_mem_above above).1, stands]
    exact wf.laid
  obtain ⟨f, rfl, _, same | higher | apart⟩ := replaces.below_cases stands wf.laid above
  · obtain ⟨rfl, isValue⟩ := same
    revert declares isValue
    cases d.kind <;> simp [Kind.isVariableDeclaration, isFunctionValue]
  · rcases child_on_way laidD higher replaces.child with apart | ⟨e, _, same, way⟩
    · exact .inl apart.symm
    · right
      rw [← same]
      rcases way with rfl | way
      · exact ⟨Nat.le_refl _, Nat.le_refl _⟩
      · exact range_of_mem_above laidD way
  · exact .inl (by omega)

/-- Declarators that lie on the range of the body are part of it, or what they cover covers the function. -/
theorem of_declarators {first last : Tree} (standsD : d.whole = root)
    (declares : d.kind.isVariableDeclaration = true) (hull : d.focus.Hull first last)
    (starts : first.start = body.start) (stops : last.stop = body.stop) :
    (first.start ≤ function.start ∧ function.stop ≤ last.stop) ∨ cursor ∈ d.above := by
  obtain ⟨filled, inside⟩ := replaces.inside wf stands
  have known : d.focus ∈ root.nodes := standsD ▸ d.focus_mem_whole
  have within := hull.inside (wf.laid.node known).1
  rcases comparable wf.laid standsD stands with rfl | above | below | apart
  · have other := replaces.kind_apart.1
    rw [declares] at other
    cases other
  · left
    rcases wf.declarators_around_child known hull (replaces.known stands) replaces.child filled (by omega)
        (by omega) with covers | below | same
    · exact covers
    · -- the body would be around the function
      obtain ⟨_, branch, branchMem, belowD⟩ := mem_nodes_of_mem_above above
      have cycle := mem_nodes_trans (mem_nodes_trans (mem_nodes_trans replaces.function_below belowD)
        (child_mem_nodes branchMem)) below
      exact absurd cycle (not_mem_nodes_child replaces.child)
    · have isFunction := replaces.isFunction
      rw [← same] at isFunction
      revert declares isFunction
      unfold Cursor.kind
      cases d.focus.kind <;> simp [Kind.isVariableDeclaration, Kind.isFunction,
        Kind.isFunctionDeclaration, Body.isFunctionValue]
  · exact .inr below
  · omega

/-- Of two replaced bodies on one range one is that of an outer function, whose body is the inner function. -/
theorem of_same_range {function' body' : Tree} {value' : Text} (standsD : d.whole = root)
    (replaces' : Replaces source config d function' body' value') (starts : body'.start = body.start)
    (stops : body'.stop = body.stop) :
    (body'.start ≤ function.start ∧ function.stop ≤ body'.stop) ∨ cursor ∈ d.above ∨ d = cursor := by
  obtain ⟨filled, inside⟩ := replaces.inside wf stands
  obtain ⟨filled', inside'⟩ := replaces'.inside wf standsD
  rcases comparable wf.laid standsD stands with same | above | below | apart
  · exact .inr (.inr same)
  · left
    obtain ⟨f, rfl, standsF, same | higher | apart⟩ := replaces'.below_cases standsD wf.laid above
    · obtain ⟨rfl, isValue⟩ := same
      rw [replaces.kind_apart.2] at isValue
      cases isValue
    · rcases child_on_way (by rw [stands]; exact wf.laid) higher replaces'.child with apart | ⟨s, _, same, way⟩
      · omega
      · rw [← same]
        exact replaces.around stands wf.laid way
    · omega
  · exact .inr (.inl below)
  · omega

end Replaces

end Body

/-- The text of a visit covers the node or its parent. -/
theorem Blot.place {source : Bytes} {root : Tree} {cursor : Cursor} {entry : Entry}
    (blot : Blot source cursor entry) (wf : root.WellFormed source) (stands : cursor.whole = root)
    (filled : entry.start < entry.stop) : ∃ s : Cursor, (s = cursor ∨ cursor.parent? = some s) ∧
      s.focus.start < s.focus.stop ∧ entry.start ≤ s.focus.start ∧ s.focus.stop ≤ entry.stop := by
  cases blot with
  | own => exact ⟨cursor, .inl rfl, filled, Nat.le_refl _, Nat.le_refl _⟩
  | @statement statement holds deletable reason _ =>
      have standsS : statement.whole = root := (whole_of_near holds).trans stands
      have known : statement.focus ∈ root.nodes := standsS ▸ statement.focus_mem_whole
      obtain ⟨removed, _⟩ := Entry.removed_ofStatement wf standsS deletable reason
      exact ⟨statement, holds, (wf.solid_of_deletable known deletable).start_lt_stop, removed.covers wf known⟩

theorem Entry.reason_deletion (source : Bytes) (range : Range) (reason : Text) (owner : Option Label) :
    (deletion source range reason owner).reason = reason := by
  unfold deletion
  split
  · split <;> rfl
  · rfl

/-- What is recorded as the replacement of a body is one. -/
theorem Noted.replaces {source : Bytes} {config : PatchConfig} {c : Cursor} {e : Entry}
    (noted : Noted source config c e) (reason : e.reason = "replace body") :
    ∃ function body value, Body.Replaces source config c function body value ∧ e.range = body.range ∧
      e.parts = [.text (Body.block source c value)] := by
  cases noted with
  | blot blot =>
      cases blot with
      | own _ _ other => exact absurd reason other
      | @statement statement _ _ _ other =>
          refine absurd ?_ other
          rw [← reason]
          unfold Entry.ofStatement
          split
          · split <;> rw [Entry.reason_deletion]
          · rw [Entry.reason_deletion]
  | declarators _ _ _ other => exact absurd reason other
  | body concerned target configured has =>
      exact ⟨_, _, _, ⟨⟨_, Body.names_iff.mpr ⟨concerned, _, target⟩, configured⟩, has⟩, rfl, rfl⟩

/-- A text on the range of a replaced body is recorded below the function, or it covers the function. -/
theorem Blot.on_body {source : Bytes} {config : PatchConfig} {root : Tree} {c d : Cursor}
    {function body : Tree} {value : Text} {e : Entry} (blot : Blot source d e) (wf : root.WellFormed source)
    (standsD : d.whole = root) (replaces : Body.Replaces source config c function body value)
    (stands : c.whole = root) (starts : e.start = body.start) (stops : e.stop = body.stop) :
    (e.start ≤ function.start ∧ function.stop ≤ e.stop) ∨ c ∈ d.above := by
  obtain ⟨filled, inside⟩ := replaces.inside wf stands
  obtain ⟨s, way, filledS, begins, ends⟩ := blot.place wf standsD (by omega)
  have standsS : s.whole = root := by
    rcases way with rfl | up
    · exact standsD
    · exact (whole_parent up).trans standsD
  have covered (higher : s = c ∨ s ∈ c.above) : e.start ≤ function.start ∧ function.stop ≤ e.stop := by
    have around := replaces.around stands wf.laid higher
    exact ⟨begins.trans around.1, around.2.trans ends⟩
  rcases comparable wf.laid standsS stands with same | above | below | apart
  · exact .inl (covered (.inl same))
  · exact .inl (covered (.inr above))
  · right
    rcases way with rfl | up
    · exact below
    · rw [above_eq up]
      exact List.mem_cons_of_mem _ below
  · omega

/-- What is recorded on the range of a replaced body is recorded below the function, or it is the
replacement, or it covers the function. -/
theorem Noted.on_body {source : Bytes} {config : PatchConfig} {root : Tree} {c d : Cursor}
    {function body : Tree} {value : Text} {e : Entry} (noted : Noted source config d e)
    (wf : root.WellFormed source) (standsD : d.whole = root)
    (replaces : Body.Replaces source config c function body value) (stands : c.whole = root)
    (starts : e.start = body.start) (stops : e.stop = body.stop) :
    (e.start ≤ function.start ∧ function.stop ≤ e.stop) ∨ c ∈ d.above ∨
      d = c ∧ e.parts = [.text (Body.block source c value)] := by
  cases noted with
  | blot blot => exact (blot.on_body wf standsD replaces stands starts stops).imp_right .inl
  | declarators declares hull =>
      exact (replaces.of_declarators wf stands standsD declares hull starts stops).imp_right .inl
  | @body name function' body' label value' concerned target configured has =>
      have replaces' : Body.Replaces source config d function' body' value' :=
        ⟨⟨name, Body.names_iff.mpr ⟨concerned, label, target⟩, configured⟩, has⟩
      rcases replaces.of_same_range wf stands standsD replaces' starts stops with covers | below | rfl
      · exact .inl covers
      · exact .inr (.inl below)
      · obtain ⟨_, _, rfl⟩ := replaces.unique replaces'
        exact .inr (.inr ⟨rfl, rfl⟩)

namespace Narrated

variable {source : Bytes} {config : PatchConfig} {root : Tree} {passes : List RewritePass}
  {first rewrite next : Rewrite} {noted : List Cursor} {taken : List (Tree × Edit)} {c : Cursor}
  {function body : Tree} {value : Text}
  (narrated : Narrated source config root passes first rewrite noted)
  (finishing : Finishing source root rewrite next taken) (led : root.AwaitsLed)
  (asked : Body.pass ∈ passes) (replaces : Body.Replaces source config c function body value)
  (stands : c.whole = root)

include narrated finishing replaces stands

/-- What covers a body as the replacement does, or over it, covers the function or is the replacement. -/
theorem over_body {eraser top : Edit} (known : eraser ∈ rewrite.doc.edits)
    (place : noted[eraser.seq]? = some c) (range : eraser.range = body.range)
    (parts : eraser.parts = [.text (Body.block source c value)])
    (mem : top ∈ (finish root rewrite).doc.edits) (higher : top = eraser ∨ top.dominates eraser = true) :
    (top.start ≤ function.start ∧ function.stop ≤ top.stop) ∨
      top.range = body.range ∧ top.parts = [.text (Body.block source c value)] := by
  rcases higher with rfl | higher
  · exact .inr ⟨range, parts⟩
  · have wf := finishing.wf
    have starts : eraser.start = body.start := congrArg Range.start range
    have stops : eraser.stop = body.stop := congrArg Range.stop range
    obtain ⟨filled, inside⟩ := replaces.inside wf stands
    have fits := wf.node_fits (replaces.known stands)
    rw [Edit.dominates_iff] at higher
    have lies := narrated.lies finishing mem (by omega)
    have noList : function.kind.listsStatements = false := by
      have isFunction := replaces.isFunction
      revert isFunction
      cases function.kind <;> simp [Kind.listsStatements, Kind.isFunction, Kind.isFunctionDeclaration,
        Body.isFunctionValue]
    rcases lies.around_child wf (replaces.known stands) replaces.child (replaces.solid wf stands)
      (wf.rewritable_not_case (replaces.known stands) replaces.child
        (.inr ⟨replaces.isFunction, replaces.role⟩)) noList
      (by simp only [Edit.range]; omega) (by simp only [Edit.range]; omega) with
      covers | same | ⟨declares, _⟩
    · exact .inl covers
    · have starts' : top.start = body.start := congrArg Range.start same
      have stops' : top.stop = body.stop := congrArg Range.stop same
      rcases finishing.cases_finish mem with walked | ⟨entry, known', rfl⟩ | ⟨begins, _⟩
      · obtain ⟨d, placeD, note⟩ := narrated.chronicle.edits top walked
        rcases note.on_body wf (narrated.stands placeD) replaces stands starts' stops' with
          covers | above | ⟨_, parts⟩
        · exact .inl covers
        · have later := narrated.chronicle.seq_lt place placeD above
          omega
        · exact .inr ⟨same, parts⟩
      · have later := (finishing.spec.removals entry known').1
        have earlier := finishing.disciplined.kept.seq_lt known
        omega
      · omega
    · have isFunction := replaces.isFunction
      revert declares isFunction
      cases function.kind <;> simp [Kind.isVariableDeclaration, Kind.isFunction,
        Kind.isFunctionDeclaration, Body.isFunctionValue]

include led asked

/-- A walk erases a body that is to be replaced: with the function, or with the replacement. -/
theorem erases_body (late : first.skipBefore < c.focus.stop) :
    ∃ eraser, Erases (finish root rewrite).doc.edits eraser body.range ∧
      ∀ top ∈ (finish root rewrite).doc.edits, top = eraser ∨ top.dominates eraser = true →
        (top.start ≤ function.start ∧ function.stop ≤ top.stop) ∨
          top.range = body.range ∧ top.parts = [.text (Body.block source c value)] := by
  have wf := finishing.wf
  obtain ⟨filled, begins, ends, inside⟩ := replaces.inside wf stands
  by_cases met : c ∈ reached (RewritePass.below passes first) root ∧ RewritePass.below passes first c = true
  · obtain ⟨name, names, configured⟩ := replaces.configured
    obtain ⟨concerned, label, found⟩ := Body.names_iff.mp names
    obtain ⟨eraser, mem, place, entry⟩ := (narrated.settled c met.1).owed met.2 late Body.pass asked concerned _
      fun rewrite serves => Body.replaces serves found configured replaces.has
    have starts : eraser.start = body.start := congrArg Entry.start entry
    have stops : eraser.stop = body.stop := congrArg Entry.stop entry
    have parts : eraser.parts = [.text (Body.block source c value)] := congrArg Entry.parts entry
    have range : eraser.range = body.range := congrArg₂ Range.mk starts stops
    refine ⟨eraser, narrated.erases finishing led mem place (Nat.le_of_eq starts) filled
      (Nat.le_of_eq stops.symm) ?_ ?_ ?_ ?_, fun top => narrated.over_body finishing replaces stands mem place
        range parts⟩
    · simp only [Tree.start, Tree.stop] at *
      omega
    · intro declares
      rw [replaces.kind_apart.1] at declares
      cases declares
    · rintro e kind (rfl | above)
      · omega
      · have := range_of_mem_above (by rw [stands]; exact wf.laid) above
        omega
    · intro d above declares
      have standsD : d.whole = root := (mem_nodes_of_mem_above above).1.symm.trans stands
      refine (replaces.below_body wf stands above declares).imp_right fun below one last hull => ?_
      have within := hull.inside (wf.laid.node (standsD ▸ d.focus_mem_whole)).1
      omega
  · have closed (reached : c ∈ reached (RewritePass.below passes first) root) :
        RewritePass.below passes first c = false :=
      Bool.eq_false_iff.mpr fun goes => met ⟨reached, goes⟩
    obtain ⟨eraser, erases⟩ : ∃ eraser, Erases (finish root rewrite).doc.edits eraser function.range :=
      narrated.erases_closed finishing led stands closed late inside.1 (by
        change function.start < function.stop
        omega) inside.2
    refine ⟨eraser, erases.narrow begins filled ends, fun top _ higher => .inl ?_⟩
    have beginsE := erases.begins
    have endsE := erases.ends
    have around := Edit.covers_of_over higher
    simp only [Tree.start, Tree.stop] at *
    omega

end Narrated

namespace Patcher

variable {patcher : Patcher} {prepared : Prepared}

/-- A program patched by the standard passes is put together from pieces of it and from texts of edits. Of a
body that the task replaces no piece is copied, and no text stands for a part of it: there is the replacement,
or a text for something around the function. Where the body is written, the replacement stands between
what is before the body and what is behind it, unless an edit stands there for the whole function. No other
body is replaced. -/
theorem patch_bodies (standard : patcher.passes = RewritePass.standard) (config : PatchConfig)
    (wf : prepared.root.WellFormed prepared.source) (led : prepared.root.AwaitsLed) :
    let rewritten := (patcher.rewrite config prepared).value
    let pane := rewritten.doc.pane
    (finish prepared rewritten).value.map (·.code) =
        ((Piece.assemble prepared.source pane.pieces).map Utf8.decodeEscaped).mapError .encoding ∧
      (∀ inner, pane.Opens inner → inner.pieces <:+: pane.pieces) ∧
      (∀ c function body value, c.whole = prepared.root →
        Body.Replaces prepared.source config c function body value → prepared.start < c.focus.stop →
        (∀ start stop, .copied start stop ∈ pane.pieces →
          0 ≤ start ∧ start ≤ stop ∧ stop ≤ (prepared.source.length : Int) ∧
            (stop ≤ (body.start : Int) ∨ (body.stop : Int) ≤ start)) ∧
        (∀ edit text, .text edit text ∈ pane.pieces → edit.start < body.stop → body.start < edit.stop →
          (edit.start ≤ function.start ∧ function.stop ≤ edit.stop) ∨
            edit.range = body.range ∧ text = Body.block prepared.source c value) ∧
        ∀ inner, pane.Opens inner → inner.start ≤ (body.start : Int) → (body.stop : Int) ≤ inner.stop →
          ∃ edit ∈ inner.edited, (edit.start ≤ function.start ∧ function.stop ≤ edit.stop) ∨
            ∃ front back, [.copied front body.start, .text edit (Body.block prepared.source c value),
              .copied body.stop back] <:+: inner.pieces) ∧
      ∀ edit ∈ rewritten.doc.edits, edit.reason = "replace body" →
        ∃ c function body value, c.whole = prepared.root ∧
          Body.Replaces prepared.source config c function body value ∧ edit.range = body.range ∧
            edit.parts = [.text (Body.block prepared.source c value)] := by
  intro rewritten pane
  obtain ⟨taken, next, finishing, _, _⟩ := finishing_walked standard config wf
  obtain ⟨first, noted, skip, narrated⟩ := narrated_walked standard config prepared
  have made : rewritten = TopLevelAwait.finish prepared.root (patcher.walked config prepared) :=
    rewrite_value (.of_eq standard) config prepared
  have made' : pane = (TopLevelAwait.finish prepared.root (patcher.walked config prepared)).doc.pane :=
    congrArg (fun rewrite : Rewrite => rewrite.doc.pane) made
  refine ⟨code_eq_assemble standard config wf, fun inner opens => opens.pieces_stand, ?_, ?_⟩
  · intro c function body value stands replaces late
    have asked : Body.pass ∈ patcher.passes.filter fun pass => pass.applies config := by
      rw [standard]
      exact List.mem_filter.mpr ⟨by simp [RewritePass.standard], replaces.applies⟩
    obtain ⟨eraser, erases, settled⟩ :=
      narrated.erases_body finishing led asked replaces stands (by rw [skip]; exact late)
    have sound := finishing.sound
    have all := finishing.all_within
    have filled := erases.nonempty
    rw [made']
    refine ⟨fun start stop mem => erases.copied sound all mem, ?_, ?_⟩
    · intro edit text mem begins ends
      obtain ⟨known, part, higher⟩ := erases.text sound all mem begins ends
      refine (settled edit known higher).imp_right fun same => ⟨same.1, ?_⟩
      rw [same.2] at part
      simpa using part
    · intro inner opens begins ends
      obtain ⟨edit, written, higher⟩ := erases.exists_over sound all opens
        (by simp only [Tree.start, Tree.stop] at *; omega) (by simp only [Tree.start, Tree.stop] at *; omega)
      have known := opens.edits_sublist.mem (inner.edited_sublist.mem written)
      refine ⟨edit, written, (settled edit known higher).imp_right fun same => ?_⟩
      have starts : edit.start = body.start := congrArg Range.start same.1
      have stops : edit.stop = body.stop := congrArg Range.stop same.1
      obtain ⟨front, back, row⟩ := Pane.replaced_between written
      rw [Pane.replaced, Edit.pieces, same.2, starts, stops] at row
      exact ⟨front, back, row⟩
  · intro edit mem reason
    rw [made] at mem
    rcases finishing.cases_finish mem with walked | ⟨entry, known, rfl⟩ | ⟨_, _, _, _, other⟩
    · obtain ⟨c, place, note⟩ := narrated.chronicle.edits edit walked
      obtain ⟨function, body, value, replaces, range, parts⟩ := note.replaces reason
      exact ⟨c, function, body, value, narrated.stands place, replaces, range, parts⟩
    · rw [(finishing.spec.removals entry known).2] at reason
      exact absurd reason (by simp only [removal]; decide)
    · rw [other] at reason
      exact absurd reason (by decide)

/-- The function `() => foo()` of the program below. -/
def delegatingFunction : Tree :=
  .node ⟨.arrowFunction, some .value, ⟨10, 21⟩, false⟩ [
    .node ⟨.formalParameters, some .parameters, ⟨10, 12⟩, false⟩ [
      leaf (.token "(") none 10 11, leaf (.token ")") none 11 12],
    leaf (.token "=>") none 13 15,
    .node ⟨.callExpression, some .body, ⟨16, 21⟩, false⟩ [
      leaf .identifier (some .callee) 16 19,
      .node ⟨.arguments, none, ⟨19, 21⟩, false⟩ [
        leaf (.token "(") none 19 20, leaf (.token ")") none 20 21]]]

/-- The declarator `g = () => foo()` in its place. -/
def delegatingPlace : Cursor where
  focus :=
    .node ⟨.variableDeclarator, none, ⟨6, 21⟩, false⟩ [
      leaf .identifier (some .name) 6 7, leaf (.token "=") none 8 9, delegatingFunction]
  path := [
    ⟨⟨.lexicalDeclaration, none, ⟨0, 22⟩, false⟩, [leaf (.token "const") (some .kind) 0 5],
      [leaf (.token ";") none 21 22]⟩,
    ⟨⟨.program, none, ⟨0, 22⟩, false⟩, [], []⟩]

/-- The program `const g = () => foo();`. -/
def delegating : Prepared where
  source := [0x63, 0x6F, 0x6E, 0x73, 0x74, 0x20, 0x67, 0x20, 0x3D, 0x20, 0x28, 0x29, 0x20, 0x3D, 0x3E, 0x20,
    0x66, 0x6F, 0x6F, 0x28, 0x29, 0x3B]
  start := 0
  root := delegatingPlace.whole

/-- The body of `g` is replaced, although the call that it consists of is to be removed too. -/
theorem delegating_body :
    let config := { PatchConfig.empty with
      removeFunctionCalls := ["foo"], replaceFunctionBody := [("g", "x")] }
    let pieces := (standard.rewrite config delegating).value.doc.pane.pieces
    (∀ start stop, .copied start stop ∈ pieces → stop ≤ 16 ∨ 21 ≤ start) ∧
      ∃ edit front back, [.copied front 16, .text edit (Body.block delegating.source delegatingPlace "x"),
        .copied 21 back] <:+: pieces := by
  intro config pieces
  have wf : delegating.root.WellFormed delegating.source := by decide
  have passes : standard.passes = RewritePass.standard := rfl
  have names : Body.Names delegatingPlace (leaf .identifier (some .name) 6 7) delegatingFunction :=
    .value rfl rfl rfl rfl rfl
  have replaces : Body.Replaces delegating.source config delegatingPlace delegatingFunction
      (.node ⟨.callExpression, some .body, ⟨16, 21⟩, false⟩ [
        leaf .identifier (some .callee) 16 19,
        .node ⟨.arguments, none, ⟨19, 21⟩, false⟩ [
          leaf (.token "(") none 19 20, leaf (.token ")") none 20 21]]) "x" :=
    ⟨⟨_, names, by decide⟩, rfl⟩
  obtain ⟨clear, _, written⟩ :=
    (patch_bodies passes config wf (by decide)).2.2.1 delegatingPlace _ _ _ rfl replaces (by decide)
  refine ⟨fun start stop mem => (clear start stop mem).2.2.2, ?_⟩
  have small : ∀ edit ∈ (standard.rewrite config delegating).value.doc.edits,
      ¬ (edit.start ≤ 10 ∧ 21 ≤ edit.stop) := by decide +kernel
  obtain ⟨edit, mem, covers | ⟨front, back, row⟩⟩ := written _ .here (by decide) (by decide +kernel)
  · exact absurd covers (small edit (Pane.edited_sublist _ |>.mem mem))
  · exact ⟨edit, front, back, row⟩

end Patcher

end Rebundle
