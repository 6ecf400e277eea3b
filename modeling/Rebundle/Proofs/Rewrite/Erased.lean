import Rebundle.Proofs.Rewrite.Chronicle
import Rebundle.Proofs.Rewrite.Finished

/-!
# What a walk erases

A walk writes a text over every node that it does not go below, and where it drops some declarators of a
declaration the others are written again. In the finished document nothing is left of such a node, nor of
a dropped declarator: wherever a declarator around it is written again, the edit over it is at hand.
-/

namespace Rebundle

open Source Tree Cursor TopLevelAwait

/-- The declarators of a declaration are not empty. -/
theorem Tree.WellFormed.hull_lt {source : Bytes} {root declaration first last : Tree}
    (wf : root.WellFormed source) (mem : declaration ∈ root.nodes) (hull : declaration.Hull first last) :
    first.start < last.stop := by
  have filled : first.start < first.stop := (wf.solid_declarator mem hull.first_mem_declarators).start_lt_stop
  have wide := hull.declarator (wf.laid.node mem).1 hull.first_mem_declarators
  omega

/-- A declarator that is kept lies beside one that is dropped. -/
theorem Removal.kept_apart {source : Bytes} {config : PatchConfig} {declaration t kept : Tree}
    (laid : declaration.Laid) (child : t ∈ declaration.declarators) (doomed : isDoomed source config t = true)
    (keeps : kept ∈ keptOf source config declaration) : kept.stop ≤ t.start ∨ t.stop ≤ kept.start := by
  obtain ⟨among, spared⟩ := List.mem_filter.mp keeps
  rcases laid.siblings (declaration.declarators_sublist.mem among) (declaration.declarators_sublist.mem child)
    with rfl | apart
  · rw [doomed] at spared
    cases spared
  · exact apart

theorem Entry.plain_deletion (source : Bytes) (range : Range) (reason : Text) (owner : Option Label) :
    ∃ t, (deletion source range reason owner).parts = [.text t] := by
  unfold deletion
  split
  · split
    · exact ⟨[], rfl⟩
    · exact ⟨";", rfl⟩
  · exact ⟨[], rfl⟩

theorem Blot.plain {source : Bytes} {cursor : Cursor} {entry : Entry} (blot : Blot source cursor entry) :
    ∃ t, entry.parts = [.text t] := by
  cases blot with
  | own t => exact ⟨t, rfl⟩
  | statement =>
      unfold Entry.ofStatement
      split
      · split
        · exact Entry.plain_deletion source _ _ _
        · exact Entry.plain_deletion source _ _ _
      · exact Entry.plain_deletion source _ _ _

/-- The texts of a visit replace a node as a whole or with its lines: the visited one, or a statement around
it. -/
theorem Blot.deleted {source : Bytes} {root : Tree} {cursor : Cursor} {entry : Entry}
    (blot : Blot source cursor entry) (wf : root.WellFormed source) (stands : cursor.whole = root) :
    ∃ t ∈ root.nodes, cursor.focus ∈ t.nodes ∧ (entry.range = t.range ∨ t.kind.isDeletable = true) ∧
      Deleted source root t entry.range := by
  cases blot with
  | own =>
      exact ⟨cursor.focus, stands ▸ cursor.focus_mem_whole, self_mem_nodes _, .inl rfl, .alone⟩
  | @statement statement holds deletable reason _ =>
      have standsS : statement.whole = root := (whole_of_near holds).trans stands
      have below : cursor.focus ∈ statement.focus.nodes := by
        rcases holds with rfl | up
        · exact self_mem_nodes _
        · exact child_mem_nodes (parent_spec up).1
      have known : statement.focus ∈ root.nodes := standsS ▸ statement.focus_mem_whole
      obtain ⟨removed, _⟩ := Entry.removed_ofStatement wf standsS deletable reason
      cases removed with
      | itself deleted => exact ⟨_, known, below, .inr deletable, deleted⟩
      | exported mem kind child deleted =>
          exact ⟨_, mem, mem_nodes_trans below (child_mem_nodes child), .inr (by rw [kind]; rfl), deleted⟩

theorem Blot.covers {source : Bytes} {root : Tree} {cursor : Cursor} {entry : Entry}
    (blot : Blot source cursor entry) (wf : root.WellFormed source) (stands : cursor.whole = root) :
    entry.start ≤ cursor.focus.start ∧ cursor.focus.stop ≤ entry.stop := by
  obtain ⟨t, mem, below, _, deleted⟩ := blot.deleted wf stands
  have inside := ((wf.laid.node mem).1.node below).2
  have wide := deleted.covers wf mem
  simp only [Entry.range] at wide
  omega

/-- The text of a visit stays in a declarator around the node. -/
theorem Blot.inside {source : Bytes} {root : Tree} {cursor a : Cursor} {entry : Entry}
    (blot : Blot source cursor entry) (wf : root.WellFormed source) (stands : cursor.whole = root)
    (above : a ∈ cursor.above) (kind : a.kind = .variableDeclarator) :
    a.focus.start ≤ entry.start ∧ entry.stop ≤ a.focus.stop := by
  cases blot with
  | own => exact range_of_mem_above (by rw [stands]; exact wf.laid) above
  | @statement statement holds deletable reason _ =>
      have notSame : a.focus ≠ statement.focus := by
        intro same
        rw [Cursor.kind, ← same, show a.focus.kind = .variableDeclarator from kind] at deletable
        cases deletable
      have standsS : statement.whole = root := (whole_of_near holds).trans stands
      have aboveS : a ∈ statement.above := by
        rcases holds with rfl | up
        · exact above
        · rw [above_eq up] at above
          rcases List.mem_cons.mp above with rfl | above
          · exact absurd rfl notSame
          · exact above
      obtain ⟨standsA, child, childMem, below⟩ := mem_nodes_of_mem_above aboveS
      obtain ⟨parent, _, _, parentMem, childA, _⟩ :=
        wf.cursor_parent (standsA.trans standsS) (by rw [kind]; simp)
      obtain ⟨removed, _⟩ := Entry.removed_ofStatement wf standsS deletable reason
      exact removed.inside wf (standsS ▸ statement.focus_mem_whole) deletable parentMem childA
        (by rw [show a.focus.kind = .variableDeclarator from kind]; rfl)
        (mem_nodes.mpr (.inr ⟨child, childMem, below⟩)) notSame
        (by rw [show a.focus.kind = .variableDeclarator from kind]; simp)

/-- A walk of standard passes from the state `first`, told: `noted` holds the places at which its edits were
recorded. -/
structure Narrated (source : Bytes) (config : PatchConfig) (root : Tree) (passes : List RewritePass)
    (first rewrite : Rewrite) (noted : List Cursor) : Prop where
  known : ∀ pass ∈ passes, pass ∈ RewritePass.standard
  serves : first.Serves source config
  chronicle : Chronicle source config noted (reached (RewritePass.below passes first) root) rewrite.doc
  settled : ∀ c ∈ reached (RewritePass.below passes first) root, Settled source config passes first.skipBefore
    (RewritePass.below passes first) noted rewrite.doc c

namespace Narrated

variable {source : Bytes} {config : PatchConfig} {root : Tree} {passes : List RewritePass}
  {first rewrite next : Rewrite} {noted : List Cursor} {taken : List (Tree × Edit)} {c : Cursor}
  (narrated : Narrated source config root passes first rewrite noted)

include narrated

theorem stands {seq : Nat} (place : noted[seq]? = some c) : c.whole = root :=
  (mem_reached.mp (narrated.chronicle.known c (List.mem_of_getElem? place))).1

/-- A walk goes below a node behind the bootstrap when no pass that the node concerns ends its visit. -/
theorem below_of_open (late : first.skipBefore < c.focus.stop)
    (goes : ∀ pass ∈ RewritePass.standard, pass.concerns c.kind = true → ∀ rewrite : Rewrite,
      rewrite.Serves source config → (pass.visit c rewrite).1 = true) :
    RewritePass.below passes first c = true := by
  have concerned := RewritePass.concerned_known narrated.known c
  simp only [RewritePass.below, RewritePass.visitor]
  rw [if_neg (by simp [Nat.not_le.mpr late])]
  exact RewritePass.visitAll_open concerned narrated.serves
    fun pass mem => goes pass (concerned pass mem).1 (concerned pass mem).2

/-- A walk does not go below a node when a pass that the node concerns ends its visit. -/
theorem below_of_ends {pass : RewritePass} (mem : pass ∈ passes) (concerned : pass.concerns c.kind = true)
    (ends : ∀ rewrite : Rewrite, rewrite.Serves source config → (pass.visit c rewrite).1 = false) :
    RewritePass.below passes first c = false := by
  simp only [RewritePass.below, RewritePass.visitor]
  split
  · rfl
  · exact RewritePass.visitAll_ends (RewritePass.concerned_known narrated.known c) narrated.serves
      (List.mem_filter.mpr ⟨mem, concerned⟩) ends

theorem below_declarator (late : first.skipBefore < c.focus.stop) (kind : c.kind = .variableDeclarator) :
    RewritePass.below passes first c = true := by
  apply narrated.below_of_open late
  intro pass known concerned rewrite _
  rw [kind] at concerned
  rcases RewritePass.mem_standard.mp known with rfl | rfl | rfl | rfl | rfl
  · cases concerned
  · cases concerned
  · cases concerned
  · exact Body.visit_goesOn c rewrite
  · cases concerned

/-- A walk goes below a declaration that keeps a declarator. -/
theorem below_of_kept (late : first.skipBefore < c.focus.stop)
    (declares : c.kind.isVariableDeclaration = true)
    (kept : Removal.keptOf source config c.focus ≠ []) : RewritePass.below passes first c = true := by
  apply narrated.below_of_open late
  intro pass known concerned rewrite serves
  rw [Removal.pass_of_declaration declares known concerned, Removal.visit_declaration declares,
    Removal.removeDeclarators_goesOn serves, Bool.eq_false_iff.mpr fun empty => kept (List.isEmpty_iff.mp empty),
    Bool.and_false]
  rfl

/-- What is written again are the kept declarators of declarations. -/
theorem written_again {edit : Edit} (mem : edit ∈ rewrite.doc.edits) {span : Span}
    (part : .span span ∈ edit.parts) : ∃ c one last, noted[edit.seq]? = some c ∧
      c.kind.isVariableDeclaration = true ∧ c.focus.Hull one last ∧
      edit.start = one.start ∧ edit.stop = last.stop ∧
      ∃ t ∈ Removal.keptOf source config c.focus, span = Span.ofRange t.range [] := by
  obtain ⟨c, place, note⟩ := narrated.chronicle.edits edit mem
  obtain ⟨start, stop, parts, seq, reason⟩ := edit
  simp only [Edit.entry] at note
  cases note with
  | blot blot =>
      obtain ⟨t, plain⟩ := blot.plain
      simp only at plain
      rw [plain] at part
      simp at part
  | declarators declares hull =>
      exact ⟨c, _, _, place, declares, hull, rfl, rfl, Removal.mem_keptParts part⟩
  | body => simp at part

section

variable (finishing : Finishing source root rewrite next taken) (led : root.AwaitsLed)

include finishing led

/-- An edit of the walk erases a range of the node at which it was recorded, when it stays in the declarators
around the node and covers the declarators below the node, and no declarator of the node itself that is kept
touches the range. -/
theorem erases {eraser : Edit} (mem : eraser ∈ rewrite.doc.edits) (place : noted[eraser.seq]? = some c)
    {range : Range} (begins : eraser.start ≤ range.start) (nonempty : range.start < range.stop)
    (ends : range.stop ≤ eraser.stop) (inside : c.focus.start ≤ range.start ∧ range.stop ≤ c.focus.stop)
    (here : c.kind.isVariableDeclaration = true → ∀ t ∈ Removal.keptOf source config c.focus,
      t.stop ≤ range.start ∨ range.stop ≤ t.start)
    (around : ∀ e : Cursor, e.kind = .variableDeclarator → e = c ∨ e ∈ c.above →
      e.focus.start ≤ eraser.start ∧ eraser.stop ≤ e.focus.stop)
    (higher : ∀ d : Cursor, c ∈ d.above → d.kind.isVariableDeclaration = true →
      (d.focus.stop ≤ range.start ∨ range.stop ≤ d.focus.start) ∨ ∀ one last, d.focus.Hull one last →
        eraser.start ≤ one.start ∧ last.stop ≤ eraser.stop) :
    Erases (finish root rewrite).doc.edits eraser range := by
  apply finishing.erases led mem begins nonempty ends
  intro edit known span part
  have laid := finishing.wf.laid
  obtain ⟨d, one, last, placeD, declares, hull, starts, stops, t, kept, rfl⟩ :=
    narrated.written_again known part
  have standsC := narrated.stands place
  have standsD := narrated.stands placeD
  have declarator := (List.mem_filter.mp kept).1
  have laidD := (laid.node (standsD ▸ d.focus_mem_whole)).1
  have within := laidD.child (d.focus.declarators_sublist.mem declarator)
  have apart (clear : t.stop ≤ range.start ∨ range.stop ≤ t.start) :
      (Span.ofRange t.range []).Apart range := by
    simp only [Span.Apart, Span.ofRange, Tree.start, Tree.stop] at *
    omega
  rcases comparable laid standsC standsD with rfl | above | above | clear
  · exact .inl (apart (here declares t kept))
  · -- the declarator is written again below the node
    have later := narrated.chronicle.seq_lt place placeD above
    rcases higher d above declares with clear | covers
    · exact .inl (apart (by omega))
    · have covers := covers one last hull
      have filled := finishing.wf.hull_lt (standsD ▸ d.focus_mem_whole) hull
      refine .inr (.inr (Edit.dominates_iff.mpr ?_))
      omega
  · rcases child_on_way (by rw [standsC]; exact laid) above
      (d.focus.declarators_sublist.mem declarator) with clear | ⟨e, _, rfl, way⟩
    · exact .inl (apart (by omega))
    · refine .inr (.inl ⟨?_, Abreast.within_ofRange.mpr
        (around e (kind_of_mem_declarators declarator) way)⟩)
      intro same
      rw [same, placeD] at place
      cases place
      exact not_mem_above_self _ above
  · exact .inl (apart (by omega))

/-- A walk erases a node that it does not go below. -/
theorem erases_pruned (met : c ∈ reached (RewritePass.below passes first) root)
    (pruned : RewritePass.below passes first c = false) (late : first.skipBefore < c.focus.stop)
    {range : Range} (begins : c.focus.start ≤ range.start) (nonempty : range.start < range.stop)
    (ends : range.stop ≤ c.focus.stop) :
    ∃ eraser, Erases (finish root rewrite).doc.edits eraser range := by
  obtain ⟨e, blot, eraser, mem, place, rfl⟩ := (narrated.settled c met).pruned pruned late
  have wf := finishing.wf
  have stands := (mem_reached.mp met).1
  have covers := blot.covers wf stands
  simp only [Edit.entry] at covers
  refine ⟨eraser, narrated.erases finishing led mem place (by omega) nonempty (by omega) ⟨begins, ends⟩
    ?_ ?_ ?_⟩
  · intro declares t kept
    rw [narrated.below_of_kept late declares (List.ne_nil_of_mem kept)] at pruned
    cases pruned
  · rintro e kind (rfl | above)
    · rw [narrated.below_declarator late kind] at pruned
      cases pruned
    · exact blot.inside wf stands above kind
  · intro d above declares
    by_cases standsD : d.whole = root
    · refine .inr fun one last hull => ?_
      have inside := range_of_mem_above (by rw [standsD]; exact wf.laid) above
      have within := hull.inside (wf.laid.node (standsD ▸ d.focus_mem_whole)).1
      omega
    · exact absurd ((mem_nodes_of_mem_above above).1.symm.trans stands) standsD

/-- What lies in a place that a walk does not go below, or does not reach, is erased. -/
theorem erases_closed (stands : c.whole = root)
    (closed : c ∈ reached (RewritePass.below passes first) root → RewritePass.below passes first c = false)
    (late : first.skipBefore < c.focus.stop) {range : Range} (begins : c.focus.start ≤ range.start)
    (nonempty : range.start < range.stop) (ends : range.stop ≤ c.focus.stop) :
    ∃ eraser, Erases (finish root rewrite).doc.edits eraser range := by
  by_cases met : c ∈ reached (RewritePass.below passes first) root
  · exact narrated.erases_pruned finishing led met (closed met) late begins nonempty ends
  · obtain ⟨a, above, metA, pruned⟩ := exists_pruned stands met
    have around := range_of_mem_above (by rw [stands]; exact finishing.wf.laid) above
    exact narrated.erases_pruned finishing led metA pruned (by omega) (by omega) nonempty (by omega)

omit finishing led in
/-- A walk records what drops the declarators of a declaration that keeps some of them. -/
theorem filed_drop (asked : Removal.pass ∈ passes)
    (met : c ∈ reached (RewritePass.below passes first) root)
    (declares : c.kind.isVariableDeclaration = true) (late : first.skipBefore < c.focus.stop)
    (some : c.focus.declarators.any (Removal.isDoomed source config) = true)
    (kept : Removal.keptOf source config c.focus ≠ []) {one last : Tree} (hull : c.focus.Hull one last) :
    Filed noted rewrite.doc c ⟨one.start, last.stop,
      Removal.keptParts (Removal.keptOf source config c.focus), "remove declarator"⟩ := by
  refine (narrated.settled c met).owed (narrated.below_of_kept late declares kept) late Removal.pass asked ?_ _
    fun rewrite serves => Removal.drops serves declares some hull kept
  simp [Removal.pass, declares]

/-- A walk erases a declarator that it drops. -/
theorem erases_dropped (asked : Removal.pass ∈ passes)
    (met : c ∈ reached (RewritePass.below passes first) root)
    (declares : c.kind.isVariableDeclaration = true) (late : first.skipBefore < c.focus.stop)
    (kept : Removal.keptOf source config c.focus ≠ []) {t : Tree} (declarator : t ∈ c.focus.declarators)
    (doomed : Removal.isDoomed source config t = true) :
    ∃ eraser, Erases (finish root rewrite).doc.edits eraser t.range ∧ ∀ one last, c.focus.Hull one last →
      eraser.start ≤ one.start ∧ last.stop ≤ eraser.stop := by
  have some : c.focus.declarators.any (Removal.isDoomed source config) = true :=
    List.any_eq_true.mpr ⟨t, declarator, doomed⟩
  obtain ⟨one, last, hull⟩ := Removal.exists_hull some
  obtain ⟨eraser, mem, place, entry⟩ := narrated.filed_drop asked met declares late some kept hull
  have starts : eraser.start = one.start := congrArg Entry.start entry
  have stops : eraser.stop = last.stop := congrArg Entry.stop entry
  have wf := finishing.wf
  have stands := (mem_reached.mp met).1
  have known : c.focus ∈ root.nodes := stands ▸ c.focus_mem_whole
  have laid := (wf.laid.node known).1
  have wide : one.start ≤ t.range.start ∧ t.range.stop ≤ last.stop := hull.declarator laid declarator
  have within := hull.inside laid
  refine ⟨eraser, narrated.erases finishing led mem place (by omega)
    (wf.solid_declarator known declarator).start_lt_stop (by omega)
    (laid.child (c.focus.declarators_sublist.mem declarator)).2 ?_ ?_ ?_, ?_⟩
  · exact fun _ _ => Removal.kept_apart laid declarator doomed
  · rintro e kind (rfl | above)
    · rw [kind] at declares
      cases declares
    · have around := range_of_mem_above (by rw [stands]; exact wf.laid) above
      omega
  · -- a declaration below lies in one child of this one
    intro d above _
    obtain ⟨standsD, branch, child, below⟩ := mem_nodes_of_mem_above above
    have laidD := (wf.laid.node ((standsD.symm.trans stands) ▸ d.focus_mem_whole)).1
    have inside := ((laid.child child).1.node below).2
    rcases hull.inside_child_cases laid child inside.1 inside.2 with before | behind | around
    · exact .inl (.inl (by omega))
    · exact .inl (.inr (by omega))
    · refine .inr fun one' last' hull' => ?_
      have := hull'.inside laidD
      omega
  · intro one' last' hull'
    obtain ⟨rfl, rfl⟩ := hull.unique hull'
    exact ⟨Nat.le_of_eq starts, Nat.le_of_eq stops.symm⟩

end

end Narrated

/-- The walk of the standard passes through a program, told from its first state. -/
theorem Patcher.narrated_walked {patcher : Patcher} (standard : patcher.passes = RewritePass.standard)
    (config : PatchConfig) (prepared : Prepared) : ∃ first noted, first.skipBefore = prepared.start ∧
      Narrated prepared.source config prepared.root
        (patcher.passes.filter fun pass => pass.applies config) first (patcher.walked config prepared)
        noted := by
  have known : ∀ pass ∈ patcher.passes.filter fun pass => pass.applies config,
      pass ∈ RewritePass.standard := by
    rw [standard]
    exact fun pass mem => (List.mem_filter.mp mem).1
  let begin := Patcher.start config prepared (Patcher.scopesFor config prepared).value
  have serves : begin.Serves prepared.source config := ⟨rfl, rfl⟩
  have keeps := RewritePass.keeps_prepared known begin
  have doc := RewritePass.prepare_doc known begin
  obtain ⟨noted, chronicle, settled⟩ :=
    RewritePass.chronicle_walked known prepared.root serves rfl rfl
  refine ⟨_, noted, keeps.skipBefore, known, ?_, chronicle, ?_⟩
  · exact ⟨by rw [doc]; rfl, keeps.config⟩
  · rw [keeps.skipBefore]
    exact settled

/-- The code of a patch is put together from the pieces of the finished document. -/
theorem Patcher.code_eq_assemble {patcher : Patcher} {prepared : Prepared}
    (standard : patcher.passes = RewritePass.standard) (config : PatchConfig)
    (wf : prepared.root.WellFormed prepared.source) :
    let rewritten := (patcher.rewrite config prepared).value
    (Patcher.finish prepared rewritten).value.map (·.code) =
      ((Piece.assemble prepared.source rewritten.doc.pane.pieces).map Utf8.decodeEscaped).mapError
        .encoding := by
  intro rewritten
  obtain ⟨taken, next, finishing, _, _⟩ := finishing_walked standard config wf
  have source : rewritten.doc.source = prepared.source := by
    have made : rewritten = TopLevelAwait.finish prepared.root (patcher.walked config prepared) :=
      rewrite_value (.of_eq standard) config prepared
    rw [made]
    exact finishing.source_finish
  rw [finish_code, Document.render_eq_assemble, source]

end Rebundle
