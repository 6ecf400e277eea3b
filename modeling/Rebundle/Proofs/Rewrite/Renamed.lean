import Rebundle.Proofs.Rewrite.Chronicle
import Rebundle.Proofs.Rewrite.Discipline
import Rebundle.Proofs.Script.Rendering

/-!
# Renamed programs

A walk of the renaming records one edit at every name that gets a new one: a name behind the bootstrap, outside
of imports, at a place of a renamed binding. Other passes may stand beside the renaming as long as they have
nothing to do in the program. So the document is rendered as the script of the program with the new names.
-/

namespace Rebundle

open Cursor Script

namespace RewritePass

/-- Whether a pass has nothing to do in a program. -/
structure Idle (root : Tree) (pass : RewritePass) : Prop where
  prepare : ∀ rewrite, pass.prepare rewrite = rewrite
  visit : ∀ c : Cursor, c.whole = root → pass.concerns c.kind = true → ∀ rewrite,
    pass.visit c rewrite = (true, rewrite)
  finish : ∀ rewrite, pass.finish root rewrite = rewrite

variable {root : Tree} {passes front back : List RewritePass} {c : Cursor} (rewrite : Rewrite)

theorem foldl_prepare (idle : ∀ pass ∈ passes, Idle root pass) :
    passes.foldl (fun rewrite pass => pass.prepare rewrite) rewrite = rewrite := by
  induction passes with
  | nil => rfl
  | cons pass rest ih =>
      rw [List.foldl_cons, (idle pass List.mem_cons_self).prepare]
      exact ih fun other mem => idle other (List.mem_cons_of_mem _ mem)

theorem foldl_finish (idle : ∀ pass ∈ passes, Idle root pass) :
    passes.foldl (fun rewrite pass => pass.finish root rewrite) rewrite = rewrite := by
  induction passes with
  | nil => rfl
  | cons pass rest ih =>
      rw [List.foldl_cons, (idle pass List.mem_cons_self).finish]
      exact ih fun other mem => idle other (List.mem_cons_of_mem _ mem)

theorem visitAll_append (c : Cursor) (first second : List RewritePass) : visitAll c rewrite (first ++ second) =
    if (visitAll c rewrite first).1 then visitAll c (visitAll c rewrite first).2 second
    else visitAll c rewrite first := by
  induction first generalizing rewrite with
  | nil => rfl
  | cons pass rest ih =>
      rw [List.cons_append, visitAll, visitAll]
      cases pass.visit c rewrite with
      | mk goesOn next =>
          cases goesOn with
          | true => exact ih next
          | false => rfl

theorem visitAll_idle (idle : ∀ pass ∈ passes, Idle root pass) (stands : c.whole = root) :
    visitAll c rewrite (passes.filter fun pass => pass.concerns c.kind) = (true, rewrite) := by
  induction passes with
  | nil => rfl
  | cons pass others ih =>
      have later := ih fun other mem => idle other (List.mem_cons_of_mem _ mem)
      rw [List.filter_cons]
      split
      · rename_i concerned
        rw [visitAll, (idle pass List.mem_cons_self).visit c stands concerned]
        exact later
      · exact later

/-- Passes that have nothing to do change nothing beside others. -/
theorem enter_idle {passes : List RewritePass} (before : ∀ pass ∈ front, Idle root pass)
    (behind : ∀ pass ∈ back, Idle root pass) (stands : c.whole = root) :
    (visitor (front ++ (passes ++ back))).enter c rewrite = (visitor passes).enter c rewrite := by
  simp only [visitor]
  split
  · rfl
  · rw [List.filter_append, List.filter_append, visitAll_append, visitAll_idle rewrite before stands, if_pos rfl,
      visitAll_append, visitAll_idle _ behind stands]
    split
    · rename_i goesOn
      exact Prod.ext goesOn.symm rfl
    · rfl

/-- Running a pass beside others that have nothing to do is running it alone. -/
theorem run_idle {passes : List RewritePass} (before : ∀ pass ∈ front, Idle root pass)
    (behind : ∀ pass ∈ back, Idle root pass) :
    run (front ++ (passes ++ back)) root rewrite = run passes root rewrite := by
  simp only [run, List.foldl_append]
  rw [foldl_prepare _ before, foldl_prepare _ behind, foldl_finish _ before, foldl_finish _ behind]
  congr 1
  refine Visitor.walk_related (fun a b : Rewrite => a = b) ?_ ?_ rfl
  · rintro c s _ stands rfl
    rw [enter_idle s before behind stands]
    exact ⟨rfl, rfl⟩
  · rintro c s _ _ rfl
    rfl

end RewritePass

/-- Where nothing is imported and nothing asks for `import.meta`, the modules need no change. -/
theorem Modules.idle {root : Tree}
    (others : ∀ t ∈ root.nodes, t.kind ≠ .importStatement ∧ t.kind ≠ .metaProperty ∧
      t.kind ≠ .importCallee ∧ t.kind ≠ .token "import") : pass.Idle root where
  prepare _ := rfl
  finish _ := rfl
  visit c stands _ rewrite := by
    have here := others c.focus (stands ▸ c.focus_mem_whole)
    have below {owner : Tree} {t : Tree} (mem : t ∈ root.nodes) (own : t.child? .object = some owner) :
        owner ∈ root.nodes := Tree.mem_nodes_trans (Tree.child_mem_nodes (List.mem_of_find?_eq_some own)) mem
    have plain {owner : Tree} (mem : owner ∈ root.nodes) (source : Bytes) : owner.isImportMeta source = false := by
      unfold Tree.isImportMeta
      split
      · exact absurd ‹_› (others owner mem).2.1
      · split
        · rename_i inner property own _
          have apart := others inner (below mem own)
          rw [beq_false_of_ne apart.2.2.1, beq_false_of_ne apart.2.2.2]
          rfl
        · rfl
      · rfl
    change (if c.kind == .importStatement then rewriteImport c rewrite else rewriteMember c rewrite) = _
    have other : (c.kind == .importStatement) = false := beq_false_of_ne here.1
    rw [other, if_neg Bool.false_ne_true, rewriteMember]
    split
    · rename_i owner name own _
      rw [plain (below (stands ▸ c.focus_mem_whole) own), if_neg Bool.false_ne_true]
    · rfl

/-- Where nothing waits, no wrapper is needed. -/
theorem TopLevelAwait.idle {root : Tree} (others : ∀ t ∈ root.nodes, t.kind ≠ .awaitExpression) :
    pass.Idle root where
  prepare _ := rfl
  visit _ _ _ _ := rfl
  finish rewrite := by
    refine finish_none (List.filter_eq_nil_iff.mpr ?_)
    intro t part waits
    rw [Bool.and_eq_true, beq_iff_eq, Option.map_eq_some_iff] at waits
    obtain ⟨_, inner, first, kind⟩ := waits
    have below : inner ∈ t.nodes := Tree.mem_nodes_of_mem_parts (List.mem_of_head? first)
    exact others inner (Tree.mem_nodes_trans below (Tree.mem_nodes_of_mem_parts part)) kind

namespace Renaming

/-- What a visit records: the new name over the name of its node. -/
def recorded? (renames : Table Range Text) (source : Bytes) (c : Cursor) : Option Entry :=
  if insideImport c.ancestors then none
  else (renames.get? c.range).map fun new =>
    ⟨c.range.start, c.range.stop, [.text (written c (c.focus.text source) new)], "rename"⟩

/-- The walk of the renaming alone. -/
def visitor : Visitor Rewrite := RewritePass.visitor [pass]

/-- Whether a walk goes below a place. -/
def below (skip : Nat) (c : Cursor) : Bool := !(c.focus.stop ≤ skip && c.kind != .program)

/-- What a walk records at a place. -/
def noted (renames : Table Range Text) (source : Bytes) (skip : Nat) (c : Cursor) : Option Entry :=
  if below skip c then if c.kind.isName then recorded? renames source c else none else none

theorem visit_doc (c : Cursor) (rewrite : Rewrite) :
    (visit c rewrite).2.doc = rewrite.doc.enter (recorded? rewrite.renames rewrite.source c) := by
  unfold visit recorded?
  cases inside : insideImport c.ancestors with
  | true => split <;> rfl
  | false => cases rewrite.renames.get? c.range <;> rfl

theorem visit_renames (c : Cursor) (rewrite : Rewrite) : (visit c rewrite).2.renames = rewrite.renames := by
  unfold visit
  repeat' split
  all_goals rfl

theorem enter_visitor (c : Cursor) (rewrite : Rewrite) : visitor.enter c rewrite =
    if below rewrite.skipBefore c then if c.kind.isName then visit c rewrite else (true, rewrite)
    else (false, rewrite) := by
  have skipped : (c.focus.stop ≤ rewrite.skipBefore && c.kind != .program) = !below rewrite.skipBefore c := by
    rw [below, Bool.not_not]
  simp only [visitor, RewritePass.visitor, skipped]
  cases below rewrite.skipBefore c with
  | false => rfl
  | true =>
    by_cases isName : c.kind.isName = true
    · rw [List.filter_cons_of_pos (a := pass) isName, if_pos isName]
      change RewritePass.visitAll c rewrite [pass] = pass.visit c rewrite
      rw [RewritePass.visitAll]
      cases pass.visit c rewrite with
      | mk goesOn next => cases goesOn <;> rfl
    · rw [List.filter_cons_of_neg (a := pass) isName, if_neg isName]
      rfl

/-- What a walk records when it enters a node. -/
theorem enter_doc (c : Cursor) (rewrite : Rewrite) :
    (visitor.enter c rewrite).2.doc =
        rewrite.doc.enter (noted rewrite.renames rewrite.source rewrite.skipBefore c) ∧
      (visitor.enter c rewrite).2.renames = rewrite.renames ∧ rewrite.Keeps (visitor.enter c rewrite).2 := by
  rw [enter_visitor, noted]
  split
  · split
    · exact ⟨visit_doc c rewrite, visit_renames c rewrite, Rewrite.steps_keeps.visit_renaming c rewrite trivial⟩
    · exact ⟨rfl, rfl, .refl rewrite⟩
  · exact ⟨rfl, rfl, .refl rewrite⟩

/-- A walk goes on behind the bootstrap, whatever was recorded. -/
theorem steady (renames : Table Range Text) (source : Bytes) (skip : Nat) :
    visitor.Steady (below skip) fun rewrite =>
      rewrite.renames = renames ∧ rewrite.source = source ∧ rewrite.skipBefore = skip where
  agree c rewrite holds := by
    rw [enter_visitor, holds.2.2]
    split
    · split
      · rename_i goes _
        rw [goes]
        exact visit_goesOn c rewrite
      · exact Eq.symm ‹_›
    · exact (Bool.eq_false_iff.mpr ‹_›).symm
  keeps c rewrite holds := by
    obtain ⟨doc, renames, keeps⟩ := enter_doc c rewrite
    refine ⟨renames.trans holds.1, ?_, keeps.skipBefore.trans holds.2.2⟩
    rw [Rewrite.source, doc]
    rw [← Document.enterAll_toList, Document.enterAll_source]
    exact holds.2.1
  idle _ _ := rfl

/-- A walk records one entry for each name that gets a new one. -/
theorem walk_doc (root : Tree) (rewrite : Rewrite) : (visitor.walk root rewrite).doc =
    rewrite.doc.enterAll ((reached (below rewrite.skipBefore) root).filterMap
      (noted rewrite.renames rewrite.source rewrite.skipBefore)) := by
  have steady := steady rewrite.renames rewrite.source rewrite.skipBefore
  have step (row : List Cursor) (state : Rewrite) (holds : state.renames = rewrite.renames ∧
      state.source = rewrite.source ∧ state.skipBefore = rewrite.skipBefore) :
      (row.foldl (fun state c => (visitor.enter c state).2) state).doc = state.doc.enterAll
        (row.filterMap (noted rewrite.renames rewrite.source rewrite.skipBefore)) := by
    induction row generalizing state with
    | nil => rfl
    | cons c rest ih =>
        obtain ⟨doc, _⟩ := enter_doc c state
        rw [holds.1, holds.2.1, holds.2.2] at doc
        rw [List.foldl_cons, ih _ (steady.keeps c state holds), doc, List.filterMap_cons]
        cases noted rewrite.renames rewrite.source rewrite.skipBefore c <;> rfl
  rw [steady.walk_eq_foldl ⟨rfl, rfl, rfl⟩]
  exact step _ _ ⟨rfl, rfl, rfl⟩

theorem source_walk (root : Tree) (rewrite : Rewrite) :
    (visitor.walk root rewrite).doc.source = rewrite.doc.source := by
  rw [walk_doc, Document.enterAll_source]

/-- Where no place has a new name, the renaming does nothing. -/
theorem walk_unnamed (root : Tree) {rewrite : Rewrite} (unnamed : rewrite.renames = []) :
    (RewritePass.visitor []).walk root rewrite = visitor.walk root rewrite := by
  have both : visitor.walk root rewrite = (RewritePass.visitor []).walk root rewrite ∧
      (visitor.walk root rewrite).renames = [] := by
    refine Visitor.walk_related (fun a b : Rewrite => b = a ∧ b.renames = []) ?_ ?_ ⟨rfl, unnamed⟩
    · rintro c _ s _ ⟨rfl, unnamed⟩
      have same : visitor.enter c s = (RewritePass.visitor []).enter c s := by
        have idle : visit c s = (true, s) := by
          rw [visit, unnamed]
          rfl
        rw [enter_visitor, idle, ite_self, below]
        simp only [RewritePass.visitor]
        cases (c.focus.stop ≤ s.skipBefore && c.kind != .program : Bool) <;> rfl
      rw [same]
      refine ⟨rfl, rfl, ?_⟩
      rw [← same, (enter_doc c s).2.1, unnamed]
    · rintro c s _ _ same
      exact same
  exact both.1.symm

end Renaming

namespace Document

theorem mem_enterAll {doc : Document} {entries : List Entry} {edit : Edit}
    (mem : edit ∈ (doc.enterAll entries).edits) : edit ∈ doc.edits ∨ edit.entry ∈ entries := by
  induction entries generalizing doc with
  | nil => exact .inl mem
  | cons e rest ih =>
      rcases ih (show edit ∈ ((doc.enter (some e)).enterAll rest).edits from mem) with known | later
      · rcases Edit.mem_insert.mp known with rfl | known
        · exact .inr List.mem_cons_self
        · exact .inl known
      · exact .inr (List.mem_cons_of_mem _ later)

theorem mem_enterAll_of_mem {doc : Document} {edit : Edit} (mem : edit ∈ doc.edits) (entries : List Entry) :
    edit ∈ (doc.enterAll entries).edits := by
  induction entries generalizing doc with
  | nil => exact mem
  | cons e rest ih =>
      have kept : edit ∈ (doc.enter (some e)).edits := Edit.mem_insert.mpr (.inr mem)
      exact ih kept

theorem exists_enterAll (doc : Document) {entries : List Entry} {e : Entry} (mem : e ∈ entries) :
    ∃ edit ∈ (doc.enterAll entries).edits, edit.entry = e := by
  induction entries generalizing doc with
  | nil => cases mem
  | cons first rest ih =>
      rcases List.mem_cons.mp mem with rfl | later
      · obtain ⟨edit, entered, entry⟩ : ∃ edit ∈ (doc.enter (some e)).edits, edit.entry = e :=
          ⟨_, Edit.mem_insert.mpr (.inl rfl), rfl⟩
        exact ⟨edit, mem_enterAll_of_mem entered rest, entry⟩
      · exact ih (doc.enter (some first)) later

end Document

namespace Document.Disciplined

variable {source : Bytes} {root : Tree} {doc : Document} (disciplined : doc.Disciplined source root)

include disciplined

/-- A disciplined document is rendered in a sound pane. -/
theorem sound (wf : root.WellFormed source) : doc.pane.Sound source.length where
  orderly := by
    have kept := disciplined.kept
    refine ⟨kept.sorted, ?_, fun edit mem => (kept.inside edit mem).1, ?_,
      kept.numbered.nodup_iff.mpr List.nodup_range⟩
    · intro a memA b memB
      exact wf.nested_regions (disciplined.regions a memA) (disciplined.regions b memB)
    · intro edit mem span part
      obtain ⟨range, rfl, region, _⟩ := disciplined.spans edit mem span part
      have fits := wf.region_fits region
      simp only [Span.ofRange]
      omega
  begins := Int.le_refl _
  proper := Int.natCast_nonneg _
  ends := by
    change ((doc.source.length : Nat) : Int) ≤ _
    rw [disciplined.unchanged]

theorem within {edit : Edit} (mem : edit ∈ doc.edits) : edit.within doc.pane.start doc.pane.stop = true := by
  have inside := (disciplined.kept.inside edit mem).2
  rw [Edit.within_iff]
  simp only [Document.pane]
  omega

end Document.Disciplined

namespace Renaming

/-- The new name of a place: that of its binding, for a name behind the bootstrap and outside of imports. -/
def newName (renames : Table Range Text) (skip : Nat) (root : Tree) (place : Range) : Option Text :=
  if skip < place.stop ∧
      ∀ c ∈ Cursor.all root, c.kind.isName = true → c.range = place → insideImport c.ancestors = false then
    renames.get? place
  else none

section

variable {source : Bytes} {root : Tree} {renames : Table Range Text} {skip : Nat} {c : Cursor}

theorem newName_eq_some {place : Range} {new : Text} (named : newName renames skip root place = some new) :
    renames.get? place = some new ∧ skip < place.stop := by
  unfold newName at named
  split at named
  · exact ⟨named, (‹_ ∧ _› : _ ∧ _).1⟩
  · cases named

/-- A walk notes the names that get a new one. -/
theorem noted_eq_some (distinct : root.Distinct) (stands : c.whole = root) {e : Entry} :
    noted renames source skip c = some e ↔ ∃ new, newName? (newName renames skip root) c.focus = some new ∧
      e = ⟨c.range.start, c.range.stop, [.text (written c (c.focus.text source) new)], "rename"⟩ := by
  cases isName : c.kind.isName with
  | false =>
      have none : newName? (newName renames skip root) c.focus = none :=
        if_neg (by rw [show c.focus.kind.isName = _ from isName]; exact Bool.false_ne_true)
      rw [noted, none, isName]
      simp
  | true =>
      have same : newName? (newName renames skip root) c.focus = newName renames skip root c.range := if_pos isName
      have alone : (∀ d ∈ Cursor.all root, d.kind.isName = true → d.range = c.range →
          insideImport d.ancestors = false) ↔ insideImport c.ancestors = false := by
        constructor
        · exact fun outside => outside c (stands ▸ mem_all c) isName rfl
        · intro outside d mem isName' range
          rw [eq_of_range_eq distinct.names (whole_of_mem_entered mem) stands isName' isName range]
          exact outside
      have behind : below skip c = true ↔ skip < c.range.stop := by
        have other : (c.kind != .program) = true := by
          rw [bne_iff_ne]
          intro program
          rw [program] at isName
          cases isName
        rw [below, other, Bool.and_true, Bool.not_eq_true', decide_eq_false_iff_not, Nat.not_le]
        rfl
      rw [same, noted, newName, isName, recorded?]
      simp only [alone, behind]
      by_cases late : skip < c.range.stop
      · cases inside : insideImport c.ancestors with
        | true => simp [late]
        | false => simp [late, Option.map_eq_some_iff, @eq_comm _ e]
      · simp [late]

/-- A name that gets a new one is a leaf behind the bootstrap that covers something. -/
theorem named_facts (wf : root.WellFormed source) (plain : root.Plain) (stands : c.whole = root) {new : Text}
    (named : newName? (newName renames skip root) c.focus = some new) :
    c.focus.start < c.focus.stop ∧ c.focus.children = [] ∧ skip < c.focus.stop := by
  have mem : c.focus ∈ root.nodes := stands ▸ c.focus_mem_whole
  have isName := isName_of_newName? named
  have given : newName renames skip root c.focus.range = some new := by rw [← named, newName?, if_pos isName]
  exact ⟨(wf.solid_of_rewritten mem (Kind.isRewritten_of_isName isName)).start_lt_stop,
    List.isEmpty_iff.mp (plain.leaves _ mem isName), (newName_eq_some given).2⟩

/-- A walk reaches what gets a new name. -/
theorem reached_of_named (wf : root.WellFormed source) (stands : c.whole = root) (late : skip < c.focus.stop) :
    c ∈ reached (below skip) root := by
  refine mem_reached.mpr ⟨stands, fun a above => ?_⟩
  have around := (range_of_mem_above (by rw [stands]; exact wf.laid) above).2
  have entered : decide (a.focus.stop ≤ skip) = false := decide_eq_false (by omega)
  rw [below, entered]
  rfl

/-- Of two leaves that cover something neither covers the other. -/
theorem eq_of_covers (wf : root.WellFormed source) {d : Cursor} (stands : c.whole = root) (stands' : d.whole = root)
    (leaf : c.focus.children = []) (leaf' : d.focus.children = []) (filled : c.focus.start < c.focus.stop)
    (covers : d.focus.start ≤ c.focus.start ∧ c.focus.stop ≤ d.focus.stop) : d = c := by
  rcases comparable wf.laid stands' stands with same | above | above | apart
  · exact same
  · obtain ⟨_, child, below, _⟩ := mem_nodes_of_mem_above above
    rw [leaf'] at below
    cases below
  · obtain ⟨_, child, below, _⟩ := mem_nodes_of_mem_above above
    rw [leaf] at below
    cases below
  · omega

/-- The edits of a document are those that a walk of the renaming records. -/
def Records (renames : Table Range Text) (source : Bytes) (skip : Nat) (root : Tree) (doc : Document) : Prop :=
  doc = (Document.ofSource source).enterAll ((reached (below skip) root).filterMap (noted renames source skip))

/-- Every edit of the walk writes the new name of a name over it. -/
theorem Records.named {doc : Document} (records : Records renames source skip root doc) (distinct : root.Distinct)
    {edit : Edit} (mem : edit ∈ doc.edits) : ∃ c : Cursor, c.whole = root ∧ ∃ new,
      newName? (newName renames skip root) c.focus = some new ∧ edit.range = c.range ∧
        edit.parts = [.text (written c (c.focus.text source) new)] := by
  rw [records] at mem
  rcases Document.mem_enterAll mem with none | entered
  · cases none
  · obtain ⟨c, met, noted⟩ := List.mem_filterMap.mp entered
    have stands := (mem_reached.mp met).1
    obtain ⟨new, named, entry⟩ := (noted_eq_some distinct stands).mp noted
    exact ⟨c, stands, new, named, congrArg Entry.range entry, congrArg Entry.parts entry⟩

/-- Over every name that gets a new one the walk records an edit. -/
theorem Records.exists_edit {doc : Document} (records : Records renames source skip root doc)
    (wf : root.WellFormed source) (distinct : root.Distinct) (plain : root.Plain) (stands : c.whole = root)
    {new : Text} (named : newName? (newName renames skip root) c.focus = some new) :
    ∃ edit ∈ doc.edits, edit.range = c.range := by
  have late := (named_facts wf plain stands named).2.2
  obtain ⟨edit, mem, entry⟩ := Document.exists_enterAll (Document.ofSource source)
    (List.mem_filterMap.mpr ⟨c, reached_of_named wf stands late,
      (noted_eq_some distinct stands).mpr ⟨new, named, rfl⟩⟩)
  exact ⟨edit, records ▸ mem, congrArg Entry.range entry⟩

/-- What the walk records is written: an edit over another stands at the same place. -/
theorem Records.pane_renames {doc : Document} (records : Records renames source skip root doc)
    (disciplined : doc.Disciplined source root) (wf : root.WellFormed source) (distinct : root.Distinct)
    (plain : root.Plain) : doc.pane.Renames source root (newName renames skip root) := by
  have sound := disciplined.sound wf
  refine ⟨sound, ?_, ?_⟩
  · intro edit mem
    obtain ⟨c, stands, new, named, range, _⟩ := records.named distinct (doc.pane.edited_sublist.mem mem)
    exact ⟨c, stands, by rw [named]; rfl, range⟩
  · intro c stands new named
    obtain ⟨filled, leaf, _⟩ := named_facts wf plain stands named
    obtain ⟨edit, mem, range⟩ := records.exists_edit wf distinct plain stands named
    have start : edit.start = c.focus.start := congrArg Range.start range
    have stop : edit.stop = c.focus.stop := congrArg Range.stop range
    obtain ⟨top, written, atop⟩ := sound.orderly.exists_undominated mem (disciplined.within mem)
    rw [← sound.edited_eq] at written
    obtain ⟨d, standsD, new', named', range', parts⟩ :=
      records.named distinct (doc.pane.edited_sublist.mem written)
    have same : d = c := by
      refine eq_of_covers wf stands standsD leaf (named_facts wf plain standsD named').2.1 filled ?_
      have start' : top.start = d.focus.start := congrArg Range.start range'
      have stop' : top.stop = d.focus.stop := congrArg Range.stop range'
      have := Edit.covers_of_over atop
      omega
    subst same
    cases named'.symm.trans named
    exact ⟨top, written, range', parts⟩

/-- The document of a walk of the renaming has the new names of the program over its names. -/
theorem renames_walk (wf : root.WellFormed source) (distinct : root.Distinct) (plain : root.Plain) {first : Rewrite}
    (fresh : first.doc = Document.ofSource source) :
    (visitor.walk root (prepare first)).doc.pane.Renames source root
      (newName (prepare first).renames first.skipBefore root) := by
  have doc : (prepare first).doc = Document.ofSource source := (prepare_doc first).trans fresh
  have skips : (prepare first).skipBefore = first.skipBefore := (keeps_prepare first).skipBefore
  have disciplined : (visitor.walk root (prepare first)).doc.Disciplined source root := by
    have before : first.doc.Disciplined source root := by
      rw [fresh]
      exact .ofSource source root
    have known : ∀ own ∈ [pass], own ∈ RewritePass.standard := by simp [RewritePass.standard]
    exact RewritePass.disciplined_walked wf known before
  have records := walk_doc root (prepare first)
  rw [skips, doc, show (prepare first).source = source from congrArg Document.source doc] at records
  exact Records.pane_renames records disciplined wf distinct plain

end

end Renaming

namespace Patcher

variable {patcher : Patcher} {prepared : Prepared} {front back : List RewritePass}

/-- Where the renaming alone has something to do, a program is rewritten by its walk. -/
theorem rewrite_renaming (passes : patcher.passes = front ++ Renaming.pass :: back) (config : PatchConfig)
    (idle : ∀ pass ∈ front ++ back, pass.applies config = true → pass.Idle prepared.root) :
    (patcher.rewrite config prepared).value = Renaming.visitor.walk prepared.root
      (Renaming.prepare (start config prepared (scopesFor config prepared).value)) := by
  have before : ∀ pass ∈ front.filter fun pass => pass.applies config, pass.Idle prepared.root := fun pass mem =>
    idle pass (List.mem_append_left _ (List.mem_filter.mp mem).1) (List.mem_filter.mp mem).2
  have behind : ∀ pass ∈ back.filter fun pass => pass.applies config, pass.Idle prepared.root := fun pass mem =>
    idle pass (List.mem_append_right _ (List.mem_filter.mp mem).1) (List.mem_filter.mp mem).2
  change RewritePass.run (patcher.passes.filter fun pass => pass.applies config) prepared.root _ = _
  rw [passes, List.filter_append, ← List.singleton_append (l := back), List.filter_append,
    RewritePass.run_idle _ before behind]
  cases none : config.renameIdentifiers.isEmpty with
  | false =>
      rw [List.filter_cons_of_pos (by simp [Renaming.pass, none])]
      rfl
  | true =>
      -- the renaming does not apply, and no place gets a new name
      rw [List.filter_cons_of_neg (by simp [Renaming.pass, none])]
      have nothing : Renaming.prepare (start config prepared (scopesFor config prepared).value) =
          start config prepared (scopesFor config prepared).value := by
        change config.renameIdentifiers.foldl Renaming.renameAll _ = _
        rw [List.isEmpty_iff.mp none]
        rfl
      rw [nothing]
      exact Renaming.walk_unnamed prepared.root rfl

end Patcher

end Rebundle
