import Rebundle.Proofs.Rewrite.Covering
import Rebundle.Proofs.Rewrite.Patched

/-!
# Removed code

Of the functions, declarators and calls that a task removes nothing is left: a node is visited and a text
written over it, or it is dropped from its declaration, or it lies in a node that the walk does not go below.
A declaration that loses only some of its declarators is written with the others, once each and in their
order.
-/

namespace Rebundle

open Source Tree Cursor TopLevelAwait

/-- The nodes that a task removes: functions and variables by name, and calls by a name of what is called. -/
inductive Removal.Doomed (source : Bytes) (config : PatchConfig) (root : Tree) : Tree → Prop where
  | function {t name : Tree} (mem : t ∈ root.nodes) (declares : t.kind.isFunctionDeclaration = true)
      (named : t.child? .name = some name)
      (listed : config.removeIdentifiers.contains (name.text source) = true) : Doomed source config root t
  | declarator {declaration t : Tree} (mem : declaration ∈ root.nodes)
      (declares : declaration.kind.isVariableDeclaration = true) (child : t ∈ declaration.declarators)
      (named : Removal.isDoomed source config t = true) : Doomed source config root t
  | call {t : Tree} {name : Text} (mem : t ∈ root.nodes) (kind : t.kind = .callExpression)
      (named : name ∈ t.calleeNames source) (listed : config.removeFunctionCalls.contains name = true) :
      Doomed source config root t

namespace Removal.Doomed

variable {source : Bytes} {config : PatchConfig} {root t : Tree}

/-- A task that removes something lets the removals be active. -/
theorem applies (doomed : Doomed source config root t) : Removal.pass.applies config = true := by
  have nonempty {names : List Text} {name : Text} (listed : names.contains name = true) :
      names.isEmpty = false := by
    cases names with
    | nil => cases listed
    | cons => rfl
  simp only [Removal.pass, Bool.or_eq_true, Bool.not_eq_true']
  cases doomed with
  | function _ _ _ listed => exact .inl (nonempty listed)
  | declarator _ _ _ named =>
      unfold isDoomed at named
      split at named
      · rw [Bool.and_eq_true] at named
        exact .inl (nonempty named.2)
      · cases named
  | call _ _ _ listed => exact .inr (nonempty listed)

theorem mem (doomed : Doomed source config root t) : t ∈ root.nodes := by
  cases doomed with
  | function mem => exact mem
  | @declarator declaration _ mem _ child =>
      exact WellFormed.child_node mem (declaration.declarators_sublist.mem child)
  | call mem => exact mem

theorem nonempty (doomed : Doomed source config root t) (wf : root.WellFormed source) : t.start < t.stop := by
  have rewritten : t.kind.isRewritten = true := by
    cases doomed with
    | function _ declares =>
        exact Kind.isRewritten_of_isDeletable (Kind.isDeletable_of_declares (.inl declares)).1
    | declarator _ _ child => exact isRewritten_of_mem_declarators child
    | call _ kind =>
        rw [kind]
        rfl
  exact (wf.solid_of_rewritten doomed.mem rewritten).start_lt_stop

end Removal.Doomed

namespace Narrated

variable {source : Bytes} {config : PatchConfig} {root : Tree} {passes : List RewritePass}
  {first rewrite next : Rewrite} {noted : List Cursor} {taken : List (Tree × Edit)} {c : Cursor} {t : Tree}
  (narrated : Narrated source config root passes first rewrite noted)
  (finishing : Finishing source root rewrite next taken) (led : root.AwaitsLed)

include narrated finishing led

/-- A walk with removals erases the declarators that are to be removed, with all declarators of their
declaration at hand. -/
theorem erases_declarator (removes : Removal.pass ∈ passes) {declaration : Tree}
    (mem : declaration ∈ root.nodes) (declares : declaration.kind.isVariableDeclaration = true)
    (late : first.skipBefore < declaration.stop) (child : t ∈ declaration.declarators)
    (named : Removal.isDoomed source config t = true) :
    ∃ eraser, Erases (finish root rewrite).doc.edits eraser t.range ∧ ∀ one last, declaration.Hull one last →
      eraser.start ≤ one.start ∧ last.stop ≤ eraser.stop := by
  obtain ⟨c, stands, rfl⟩ := exists_place mem
  have wf := finishing.wf
  have laid := (wf.laid.node mem).1
  have some : c.focus.declarators.any (Removal.isDoomed source config) = true :=
    List.any_eq_true.mpr ⟨t, child, named⟩
  by_cases met : c ∈ reached (RewritePass.below passes first) root ∧
      Removal.keptOf source config c.focus ≠ []
  · exact narrated.erases_dropped finishing led removes met.1 declares late met.2 child named
  · obtain ⟨one, last, hull⟩ := Removal.exists_hull some
    have wide := hull.inside laid
    have concerned : Removal.pass.concerns c.kind = true := by simp [Removal.pass, Cursor.kind, declares]
    have closed (reached : c ∈ reached (RewritePass.below passes first) root) :
        RewritePass.below passes first c = false := by
      refine narrated.below_of_ends removes concerned fun rewrite serves =>
        Removal.ends_declaration serves declares some ?_
      by_contra kept
      exact met ⟨reached, kept⟩
    obtain ⟨eraser, erases⟩ : ∃ eraser,
        Erases (finish root rewrite).doc.edits eraser ⟨one.start, last.stop⟩ :=
      narrated.erases_closed finishing led stands closed late wide.1 (wf.hull_lt mem hull) wide.2.2
    have inside := hull.declarator laid child
    have doomed : Removal.Doomed source config root t := .declarator mem declares child named
    refine ⟨eraser, erases.narrow inside.1 (doomed.nonempty wf) inside.2, ?_⟩
    intro one' last' hull'
    obtain ⟨rfl, rfl⟩ := hull.unique hull'
    exact ⟨erases.begins, erases.ends⟩

/-- A walk with removals erases what is to be removed behind the bootstrap. -/
theorem erases_doomed (asked : Removal.pass.applies config = true → Removal.pass ∈ passes)
    (doomed : Removal.Doomed source config root t) (late : first.skipBefore < t.stop) :
    ∃ eraser, Erases (finish root rewrite).doc.edits eraser t.range := by
  have removes := asked doomed.applies
  have nonempty := doomed.nonempty finishing.wf
  cases doomed with
  | function mem declares named listed =>
      obtain ⟨c, stands, rfl⟩ := exists_place mem
      refine narrated.erases_closed finishing led stands (fun _ => ?_) late (Nat.le_refl _) nonempty
        (Nat.le_refl _)
      refine narrated.below_of_ends removes (by simp [Removal.pass, Cursor.kind, declares]) ?_
      exact fun rewrite serves => Removal.ends_function serves declares named listed
  | call mem kind named listed =>
      obtain ⟨c, stands, rfl⟩ := exists_place mem
      refine narrated.erases_closed finishing led stands (fun _ => ?_) late (Nat.le_refl _) nonempty
        (Nat.le_refl _)
      refine narrated.below_of_ends removes (by simp [Removal.pass, Cursor.kind, kind]) ?_
      exact fun rewrite serves => Removal.ends_call serves kind named listed
  | @declarator declaration _ mem declares child named =>
      have inside := (finishing.wf.laid.node mem).1.child (declaration.declarators_sublist.mem child)
      obtain ⟨eraser, erases, _⟩ :=
        narrated.erases_declarator finishing led removes mem declares (by omega) child named
      exact ⟨eraser, erases⟩

/-- Where the declarators of a declaration that keeps some of them are written, an edit stands for the whole
declaration, or one for the declarators that writes those that stay. -/
theorem dropped_written (removes : Removal.pass ∈ passes) {declaration one last : Tree}
    (mem : declaration ∈ root.nodes) (declares : declaration.kind.isVariableDeclaration = true)
    (late : first.skipBefore < declaration.stop)
    (child : t ∈ declaration.declarators) (named : Removal.isDoomed source config t = true)
    (kept : Removal.keptOf source config declaration ≠ []) (hull : declaration.Hull one last) {pane : Pane}
    (opens : (finish root rewrite).doc.pane.Opens pane) (begins : pane.start ≤ one.start)
    (ends : (last.stop : Int) ≤ pane.stop) :
    ∃ edit ∈ pane.edited, (edit.start ≤ declaration.start ∧ declaration.stop ≤ edit.stop) ∨
      edit.start = one.start ∧ edit.stop = last.stop ∧
        edit.parts = Removal.keptParts (Removal.keptOf source config declaration) := by
  obtain ⟨eraser, erases, wide⟩ :=
    narrated.erases_declarator finishing led removes mem declares late child named
  have wf := finishing.wf
  have laid := (wf.laid.node mem).1
  have childT := declaration.declarators_sublist.mem child
  have solid := wf.solid_declarator mem child
  have filled : t.start < t.stop := solid.start_lt_stop
  have insideT := hull.declarator laid child
  obtain ⟨beginsE, endsE⟩ := wide one last hull
  have sound := finishing.sound.opened opens
  obtain ⟨top, topMem, higher⟩ := erases.exists_over finishing.sound finishing.all_within opens
    (by simp only [Tree.start, Tree.stop] at *; omega) (by simp only [Tree.start, Tree.stop] at *; omega)
  have around := Edit.covers_of_over higher
  have covers : top.start ≤ one.start ∧ last.stop ≤ top.stop := by omega
  have fits := wf.node_fits mem
  have inside := hull.inside laid
  have lies := narrated.lies finishing (opens.edits_sublist.mem (pane.edited_sublist.mem topMem)) (by omega)
  refine ⟨top, topMem, ?_⟩
  rcases lies.around_child wf mem childT solid (by rw [kind_of_mem_declarators child]; rfl)
    (by revert declares; cases declaration.kind <;> simp [Kind.isVariableDeclaration, Kind.listsStatements])
    (by simp only [Edit.range]; omega) (by simp only [Edit.range]; omega) with
    covers | same | ⟨_, one', last', hull', range, parts⟩
  · exact .inl covers
  · -- a declarator that is kept lies beside the one that is dropped
    obtain ⟨other, rest, row⟩ := List.exists_cons_of_ne_nil kept
    have keeps : other ∈ Removal.keptOf source config declaration := by rw [row]; exact List.mem_cons_self
    have beside := hull.declarator laid (List.mem_filter.mp keeps).1
    have starts : top.start = t.start := congrArg Range.start same
    have stops : top.stop = t.stop := congrArg Range.stop same
    have filledO : other.start < other.stop := (wf.solid_declarator mem (List.mem_filter.mp keeps).1).start_lt_stop
    have apart := Removal.kept_apart laid child named keeps
    omega
  · obtain ⟨rfl, rfl⟩ := hull.unique hull'
    exact .inr ⟨congrArg Range.start range, congrArg Range.stop range, parts⟩

end Narrated

namespace Edit

/-- An edit that drops declarators writes the others with commas between. -/
theorem pieces_keptParts {edit : Edit} {kept : List Tree} (parts : edit.parts = Removal.keptParts kept)
    (inner : Span → List Piece) : edit.pieces inner =
      List.intercalate [.text edit ", "] (kept.map fun t => inner (Span.ofRange t.range [])) := by
  unfold pieces
  rw [parts]
  clear parts
  induction kept with
  | nil => rfl
  | cons t rest ih =>
      cases rest with
      | nil => simp [Removal.keptParts]
      | cons u rest =>
          rw [Removal.keptParts, List.flatMap_cons, List.flatMap_cons, ih]
          · simp [List.intercalate]
          · simp

end Edit

namespace Patcher

variable {patcher : Patcher} {prepared : Prepared}

/-- A program from which the task removes something, patched by the standard passes, is put together from
pieces of it and from texts of edits. No piece touches a node that is to be removed, and no text stands for a
part of one. Where a declaration is written that keeps some of its declarators, these are written in
their order, once each and with commas between, unless an edit stands there for the whole declaration. -/
theorem patch_removes (standard : patcher.passes = RewritePass.standard) (config : PatchConfig)
    (wf : prepared.root.WellFormed prepared.source) (led : prepared.root.AwaitsLed) :
    let rewritten := (patcher.rewrite config prepared).value
    let pane := rewritten.doc.pane
    (finish prepared rewritten).value.map (·.code) =
        ((Piece.assemble prepared.source pane.pieces).map Utf8.decodeEscaped).mapError .encoding ∧
      (∀ inner, pane.Opens inner → inner.pieces <:+: pane.pieces) ∧
      (∀ t, Removal.Doomed prepared.source config prepared.root t → prepared.start < t.stop →
        (∀ start stop, .copied start stop ∈ pane.pieces →
          0 ≤ start ∧ start ≤ stop ∧ stop ≤ (prepared.source.length : Int) ∧
            (stop ≤ (t.start : Int) ∨ (t.stop : Int) ≤ start)) ∧
        ∀ edit text, .text edit text ∈ pane.pieces → edit.start < t.stop → t.start < edit.stop →
          edit.start ≤ t.start ∧ t.stop ≤ edit.stop) ∧
      ∀ declaration ∈ prepared.root.nodes, declaration.kind.isVariableDeclaration = true →
        prepared.start < declaration.stop →
        declaration.declarators.any (Removal.isDoomed prepared.source config) = true →
        Removal.keptOf prepared.source config declaration ≠ [] →
        ∀ first last, declaration.Hull first last → ∀ inner, pane.Opens inner →
          inner.start ≤ (first.start : Int) → (last.stop : Int) ≤ inner.stop →
          ∃ edit ∈ inner.edited, (edit.start ≤ declaration.start ∧ declaration.stop ≤ edit.stop) ∨
            ∃ front back, .copied front first.start ::
              (List.intercalate [.text edit ", "] ((Removal.keptOf prepared.source config declaration).map
                fun t => (inner.under edit (Span.ofRange t.range [])).pieces) ++ [.copied last.stop back]) <:+:
                  inner.pieces := by
  intro rewritten pane
  obtain ⟨taken, next, finishing, _, _⟩ := finishing_walked standard config wf
  obtain ⟨first, noted, skip, narrated⟩ := narrated_walked standard config prepared
  have asked : Removal.pass.applies config = true →
      Removal.pass ∈ patcher.passes.filter fun pass => pass.applies config := by
    intro applies
    rw [standard]
    exact List.mem_filter.mpr ⟨by simp [RewritePass.standard], applies⟩
  have made : pane = (TopLevelAwait.finish prepared.root (patcher.walked config prepared)).doc.pane :=
    congrArg (fun rewrite : Rewrite => rewrite.doc.pane) (rewrite_value (.of_eq standard) config prepared)
  refine ⟨code_eq_assemble standard config wf, fun inner opens => opens.pieces_stand, ?_, ?_⟩
  · intro t doomed late
    obtain ⟨eraser, erases⟩ := narrated.erases_doomed finishing led asked doomed (by rw [skip]; exact late)
    have sound := finishing.sound
    have all := finishing.all_within
    rw [made]
    refine ⟨fun start stop mem => erases.copied sound all mem, ?_⟩
    intro edit text mem begins ends
    obtain ⟨_, _, higher⟩ := erases.text sound all mem begins ends
    have beginsE := erases.begins
    have endsE := erases.ends
    simp only [Tree.start, Tree.stop] at *
    rcases higher with rfl | higher
    · exact ⟨beginsE, endsE⟩
    · rw [Edit.dominates_iff] at higher
      omega
  · intro declaration mem declares late some kept one last hull inner opens begins ends
    obtain ⟨t, child, named⟩ := List.any_eq_true.mp some
    have doomed : Removal.Doomed prepared.source config prepared.root t := .declarator mem declares child named
    rw [made] at opens
    obtain ⟨edit, written, covers | ⟨starts, stops, parts⟩⟩ := narrated.dropped_written finishing led
      (asked doomed.applies) mem declares (by rw [skip]; exact late) child named kept hull opens begins ends
    · exact ⟨edit, written, .inl covers⟩
    · obtain ⟨front, back, row⟩ := Pane.replaced_between written
      rw [Pane.replaced, Edit.pieces_keptParts parts, starts, stops] at row
      exact ⟨edit, written, .inr ⟨front, back, row⟩⟩

/-- The call `f()` of the program below. -/
def disposingCall : Tree :=
  .node ⟨.callExpression, some .value, ⟨28, 31⟩, false⟩ [
    leaf .identifier (some .callee) 28 29,
    .node ⟨.arguments, none, ⟨29, 31⟩, false⟩ [leaf (.token "(") none 29 30, leaf (.token ")") none 30 31]]

/-- The declaration `var b = 1, c = f();` of the program below. -/
def disposingDeclaration : Tree :=
  .node ⟨.variableDeclaration, none, ⟨13, 32⟩, false⟩ [
    leaf (.token "var") none 13 16,
    .node ⟨.variableDeclarator, none, ⟨17, 22⟩, false⟩ [
      leaf .identifier (some .name) 17 18, leaf (.token "=") none 19 20, leaf .number (some .value) 21 22],
    leaf (.token ",") none 22 23,
    .node ⟨.variableDeclarator, none, ⟨24, 31⟩, false⟩ [
      leaf .identifier (some .name) 24 25, leaf (.token "=") none 26 27, disposingCall],
    leaf (.token ";") none 31 32]

/-- The program `using a = x;` with `var b = 1, c = f();` on the next line. -/
def disposing : Prepared where
  source := [0x75, 0x73, 0x69, 0x6E, 0x67, 0x20, 0x61, 0x20, 0x3D, 0x20, 0x78, 0x3B, 0x0A,
    0x76, 0x61, 0x72, 0x20, 0x62, 0x20, 0x3D, 0x20, 0x31, 0x2C, 0x20,
    0x63, 0x20, 0x3D, 0x20, 0x66, 0x28, 0x29, 0x3B]
  start := 0
  root :=
    .node ⟨.program, none, ⟨0, 32⟩, false⟩ [
      .node ⟨.usingDeclaration, none, ⟨0, 12⟩, false⟩ [
        leaf (.token "using") (some .kind) 0 5,
        .node ⟨.variableDeclarator, none, ⟨6, 11⟩, false⟩ [
          leaf .identifier (some .name) 6 7, leaf (.token "=") none 8 9,
          leaf .identifier (some .value) 10 11],
        leaf (.token ";") none 11 12],
      disposingDeclaration]

/-- Neither the variable `b` nor the call of `f` is left of `disposing` when they are to be removed. -/
theorem disposing_removes :
    let config := { PatchConfig.empty with removeIdentifiers := ["b"], removeFunctionCalls := ["f"] }
    ∀ start stop, .copied start stop ∈ (standard.rewrite config disposing).value.doc.pane.pieces →
      (stop ≤ 17 ∨ 22 ≤ start) ∧ (stop ≤ 28 ∨ 31 ≤ start) := by
  intro config start stop mem
  have wf : disposing.root.WellFormed disposing.source := by decide
  have passes : standard.passes = RewritePass.standard := rfl
  have removes := (patch_removes passes config wf (by decide)).2.2.1
  have declaration : disposingDeclaration ∈ disposing.root.nodes :=
    child_mem_nodes (List.mem_cons_of_mem _ List.mem_cons_self)
  have dropped := removes _ (.declarator declaration rfl (List.mem_cons_self) (by decide)) (by decide)
  have replaced := removes disposingCall
    (.call (List.mem_of_getElem? (i := 18) rfl) rfl (List.mem_cons_self) (by decide)) (by decide)
  exact ⟨(dropped.1 start stop mem).2.2.2, (replaced.1 start stop mem).2.2.2⟩

/-- The variable that `using` declares is left in `disposing` when it is to be removed. -/
theorem disposing_keeps :
    let config := { PatchConfig.empty with removeIdentifiers := ["a"] }
    disposing.root.WellFormed disposing.source ∧ disposing.root.AwaitsLed ∧
      ∃ t ∈ disposing.root.nodes, t.kind = .variableDeclarator ∧
        Removal.isDoomed disposing.source config t = true ∧ disposing.start < t.stop ∧
        ∃ start stop, .copied start stop ∈ (standard.rewrite config disposing).value.doc.pane.pieces ∧
          0 ≤ start ∧ start ≤ (t.start : Int) ∧ (t.stop : Int) ≤ stop := by
  intro config
  refine ⟨by decide, by decide, _, List.mem_of_getElem? (i := 3) rfl, rfl, by decide, by decide, 0, 32, ?_,
    by decide, by decide, by decide⟩
  have same : (standard.rewrite config disposing).value.doc.pane = ⟨[], 0, 32⟩ := by
    have edits : (standard.rewrite config disposing).value.doc.edits = [] := by decide +kernel
    have source : (standard.rewrite config disposing).value.doc.source = disposing.source := by
      decide +kernel
    rw [Document.pane, edits, source]
    rfl
  rw [same, Pane.pieces_eq]
  exact List.mem_singleton.mpr rfl

end Patcher

end Rebundle
