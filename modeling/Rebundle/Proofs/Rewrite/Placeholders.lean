import Rebundle.Proofs.Rewrite.Occurrences

/-!
# The placeholders of removed calls

A call that is removed, but is no statement of its own, is replaced. The text that stands for it begins with a
semicolon where the call opens a statement of a list, however many nodes are between the call and this statement,
and nowhere else. So no statement is added where a single one is required.
-/

namespace Rebundle

open Cursor

namespace Cursor

/-- The innermost expression statement around a node. -/
def statement? (c : Cursor) : Option Cursor := c.above.find? fun a => a.kind == .expressionStatement

/-- Whether a statement stands in a list of statements, or alone. -/
def IsListed (c : Cursor) : Prop := ∀ owner ∈ c.parent?, owner.kind.listsStatements = true
deriving Decidable

/-- Whether a node opens a statement of a list: the innermost expression statement around it begins where it does,
and is listed. -/
def OpensStatement (c : Cursor) : Prop :=
  ∃ statement ∈ c.statement?, statement.range.start = c.range.start ∧ statement.IsListed
deriving Decidable

end Cursor

theorem Cursor.isListed_iff {c : Cursor} :
    c.IsListed ↔ c.ancestors.head?.all (fun label => label.kind.listsStatements) = true := by
  rcases c.parent_cases with ⟨none, labels, _⟩ | ⟨owner, up⟩
  · simp [IsListed, none, labels]
  · simp [IsListed, up, (parent_spec up).2, Cursor.kind, Tree.kind]

namespace Removal

theorem opensStatement_cons (start : Nat) (label : Label) (above : List Label) :
    opensStatement start (label :: above) = (label.range.start == start &&
      if label.kind == .expressionStatement then above.head?.all fun owner => owner.kind.listsStatements
      else opensStatement start above) := by
  rw [opensStatement.eq_def]
  cases here : label.range.start == start <;> cases above <;> simp [bne, here]

/-- The ancestors tell whether the innermost expression statement around a node begins at an offset and is listed,
when the node begins there or before. -/
theorem opensStatement_iff_of_le {c : Cursor} (laid : c.whole.Laid) {start : Nat} (begins : c.range.start ≤ start) :
    opensStatement start c.ancestors = true ↔
      ∃ statement ∈ c.statement?, statement.range.start = start ∧ statement.IsListed := by
  induction c using aboveInduction with
  | top c none =>
      rcases c.parent_cases with ⟨_, labels, _⟩ | ⟨d, up⟩
      · rw [parent?_eq, List.head?_eq_none_iff] at none
        simp [labels, none, opensStatement, statement?]
      · rw [up] at none
        cases none
  | step c d up ih =>
      have laidD : d.whole.Laid := (whole_parent up).symm ▸ laid
      have around := (range_of_mem_above laid (above_eq up ▸ List.mem_cons_self)).1
      have beginsD : d.range.start ≤ start := around.trans begins
      rw [(parent_spec up).2, opensStatement_cons, Bool.and_eq_true, beq_iff_eq, statement?, above_eq up]
      change d.range.start = start ∧ (if d.kind == .expressionStatement then _ else _) = true ↔ _
      cases expression : d.kind == .expressionStatement with
      | true => simp [expression, isListed_iff]
      | false =>
          simp only [List.find?_cons, expression, Bool.false_eq_true, if_false]
          rw [ih laidD beginsD]
          refine and_iff_right_of_imp ?_
          rintro ⟨statement, found, here, _⟩
          -- what is above begins no later, so all on the way up begins at the offset
          have above := (range_of_mem_above laidD (List.mem_of_find?_eq_some found)).1
          exact Nat.le_antisymm beginsD (here ▸ above)

theorem opensStatement_iff {c : Cursor} (laid : c.whole.Laid) :
    opensStatement c.range.start c.ancestors = true ↔ c.OpensStatement :=
  opensStatement_iff_of_le laid (Nat.le_refl _)

/-- Whether a call is replaced: one that is to be removed, and is no statement of its own. -/
def replaces (source : Bytes) (config : PatchConfig) (c : Cursor) : Bool :=
  c.kind == .callExpression && (c.focus.calleeNames source).any (config.removeFunctionCalls.contains ·) &&
    !isWholeStatement c

/-- What is recorded where a call is replaced. -/
def replacement (c : Cursor) : Entry :=
  ⟨c.range.start, c.range.stop, [.text (if c.OpensStatement then ";(void 0)" else "(void 0)")], "remove call"⟩

/-- What is recorded at a place for a call that is replaced there. -/
def noted (source : Bytes) (config : PatchConfig) (skip : Nat) (c : Cursor) : Option Entry :=
  if Renaming.below skip c && replaces source config c then some (replacement c) else none

theorem entriesFor_replaceCall {c : Cursor} (laid : c.whole.Laid) (rewrite : Rewrite) :
    ((removeCall.replaceCall c rewrite).2.doc.entriesFor "remove call").Perm
      (replacement c :: rewrite.doc.entriesFor "remove call") := by
  have text : (if opensStatement c.range.start c.ancestors then ";" ++ placeholder else placeholder) =
      if c.OpensStatement then (";(void 0)" : Text) else "(void 0)" := by
    simp only [opensStatement_iff laid]
    rfl
  rw [replacement, ← text]
  exact rewrite.doc.entriesFor_record _ _ _ _

end Removal

/-- A step of a pass records nothing for a reason that is not its own. -/
theorem Rewrite.steps_entriesFor (reason : Text) :
    Steps (· ≠ reason) fun before after => after.doc.entriesFor reason = before.doc.entriesFor reason where
  refl _ := rfl
  trans ab bc := bc.trans ab
  write _ _ := rfl
  count _ _ _ := rfl
  fresh _ _ := rfl
  record _ _ _ _ _ other := congrArg (List.map Edit.entry)
    (Edit.filter_insert_of_not (p := fun edit => edit.reason == reason) (beq_eq_false_iff_ne.mpr other) _)

namespace Removal

section

variable {c : Cursor} (rewrite : Rewrite)

/-- A visit of a call records its replacement, if it is replaced. -/
theorem entriesFor_visit (laid : c.whole.Laid) (kind : c.kind = .callExpression) :
    ((visit c rewrite).2.doc.entriesFor "remove call").Perm
      ((if replaces rewrite.source rewrite.config c then some (replacement c) else none).toList ++
        rewrite.doc.entriesFor "remove call") := by
  have steps := Rewrite.steps_entriesFor "remove call"
  rw [visit, if_pos (beq_iff_eq.mpr kind), replaces, kind, beq_self_eq_true, Bool.true_and, removeCall]
  dsimp only
  cases named : (c.focus.calleeNames rewrite.source).find? (rewrite.config.removeFunctionCalls.contains ·) with
  | none =>
      rw [List.any_eq_false.mpr (by simpa using named)]
      exact .refl _
  | some name =>
      rw [List.any_eq_true.mpr ⟨name, List.mem_of_find?_eq_some named, List.find?_some named⟩, Bool.true_and]
      cases whole : isWholeStatement c with
      | true =>
          obtain ⟨parent, up⟩ : ∃ parent, c.parent? = some parent := by
            rcases c.parent_cases with ⟨none, _⟩ | up
            · simp [isWholeStatement, none] at whole
            · exact up
          simp only [up, if_true]
          exact .of_eq ((steps.removeStatement (rewrite.write _) _ _ (by decide)).trans (steps.write rewrite _))
      | false =>
          have replaced := entriesFor_replaceCall laid (rewrite.write (Log.info ("removing call to " ++ name)))
          cases up : c.parent? with
          | none => exact replaced
          | some parent =>
              simp only [Bool.false_eq_true, if_false]
              exact replaced

/-- A visit of a call that goes on has done nothing. -/
theorem visit_idle (kind : c.kind = .callExpression) (goesOn : (visit c rewrite).1 = true) :
    (visit c rewrite).2 = rewrite := by
  rw [visit, if_pos (beq_iff_eq.mpr kind)] at goesOn ⊢
  unfold removeCall at goesOn ⊢
  dsimp only at goesOn ⊢
  split at goesOn
  · rfl
  · split at goesOn
    · split at goesOn <;> cases goesOn
    · cases goesOn

end

end Removal

namespace RewritePass

variable {passes : List RewritePass}

/-- Calls concern no pass but the removal. -/
theorem eq_removal {pass : RewritePass} (known : pass ∈ standard) (concerned : pass.concerns .callExpression = true) :
    pass = Removal.pass := by
  rcases mem_standard.mp known with rfl | rfl | rfl | rfl | rfl
  · cases concerned
  · cases concerned
  · rfl
  · cases concerned
  · cases concerned

/-- Whether calls are removed, or there are none to remove. -/
def RemovesCalls (passes : List RewritePass) (config : PatchConfig) : Prop :=
  Removal.pass ∈ passes ∨ config.removeFunctionCalls = []

section

variable (known : ∀ pass ∈ passes, pass ∈ standard) {c : Cursor} (rewrite : Rewrite)

include known

/-- The visits of a call are visits of the removal, of which the first does all there is to do. -/
theorem visitAll_call (kind : c.kind = .callExpression) (removes : Removal.pass ∈ passes) :
    (visitAll c rewrite (passes.filter fun pass => pass.concerns c.kind)).2 = (Removal.visit c rewrite).2 := by
  have alike : ∀ pass ∈ passes.filter fun pass => pass.concerns c.kind, pass = Removal.pass := by
    intro pass mem
    obtain ⟨mem, concerned⟩ := List.mem_filter.mp mem
    exact eq_removal (known pass mem) (kind ▸ concerned)
  have some : passes.filter (fun pass => pass.concerns c.kind) ≠ [] := by
    refine List.ne_nil_of_mem (List.mem_filter.mpr ⟨removes, ?_⟩)
    rw [kind]
    rfl
  generalize passes.filter (fun pass => pass.concerns c.kind) = row at alike some
  induction row with
  | nil => exact absurd rfl some
  | cons pass rest ih =>
      obtain rfl := alike pass List.mem_cons_self
      rw [visitAll, show Removal.pass.visit = Removal.visit from rfl]
      cases visited : Removal.visit c rewrite with
      | mk goesOn next =>
          cases goesOn with
          | false => rfl
          | true =>
              have idle : next = rewrite := by
                have same := Removal.visit_idle rewrite kind (by rw [visited])
                rwa [visited] at same
              subst idle
              cases rest with
              | nil => rfl
              | cons other rest =>
                  rw [ih (fun pass mem => alike pass (List.mem_cons_of_mem _ mem)) (List.cons_ne_nil _ _), visited]

/-- The visits of what is no call replace no call. -/
theorem entriesFor_visitAll_other (other : c.kind ≠ .callExpression) :
    (visitAll c rewrite (passes.filter fun pass => pass.concerns c.kind)).2.doc.entriesFor "remove call" =
      rewrite.doc.entriesFor "remove call" := by
  have steps := Rewrite.steps_entriesFor "remove call"
  refine steps.visitAll c rewrite fun pass mem rewrite => ?_
  have one := known pass (List.mem_filter.mp mem).1
  rcases eq_renaming_or one with rfl | ⟨unconcerned, _⟩
  · exact steps.visit_renaming c rewrite (by decide)
  · exact steps.visit (fun _ _ calls => calls) c rewrite one unconcerned fun call => absurd call other

/-- What entering a node records for a removed call: its replacement, at a call behind the bootstrap that is
replaced. -/
theorem entriesFor_enter (removes : RemovesCalls passes rewrite.config) (laid : c.whole.Laid) :
    (((visitor passes).enter c rewrite).2.doc.entriesFor "remove call").Perm
      ((Removal.noted rewrite.source rewrite.config rewrite.skipBefore c).toList ++
        rewrite.doc.entriesFor "remove call") := by
  simp only [enter_eq, Removal.noted]
  cases Renaming.below rewrite.skipBefore c with
  | false => exact .refl _
  | true =>
      simp only [if_true, Bool.true_and]
      by_cases kind : c.kind = .callExpression
      · by_cases present : Removal.pass ∈ passes
        · rw [visitAll_call known rewrite kind present]
          exact Removal.entriesFor_visit rewrite laid kind
        · have unvisited : passes.filter (fun pass => pass.concerns c.kind) = [] := by
            refine List.filter_eq_nil_iff.mpr fun pass mem concerned => present ?_
            rwa [← eq_removal (known pass mem) (kind ▸ concerned)]
          have spared : Removal.replaces rewrite.source rewrite.config c = false := by
            simp [Removal.replaces, removes.resolve_left present]
          rw [unvisited, spared]
          exact .refl _
      · have spared : Removal.replaces rewrite.source rewrite.config c = false := by
          simp [Removal.replaces, kind]
        rw [entriesFor_visitAll_other known rewrite kind, spared]
        exact .refl _

end

end RewritePass

namespace Patcher

open RewritePass

variable {patcher : Patcher} {config : PatchConfig} {prepared : Prepared}

/-- What a rewriting records for the calls that it replaces. -/
def replacements (patcher : Patcher) (config : PatchConfig) (prepared : Prepared) : List Entry :=
  (patcher.rewrite config prepared).value.doc.entriesFor "remove call"

section

variable (known : ∀ pass ∈ patcher.passes, pass ∈ RewritePass.standard)
  (removes : Removal.pass ∈ patcher.passes) (laid : prepared.root.Laid)

include known removes laid

theorem replacements_perm : (patcher.replacements config prepared).Perm
    (((patcher.visited config prepared).filter (Removal.replaces prepared.source config)).map
      Removal.replacement) := by
  have among : ∀ pass ∈ patcher.active config, pass ∈ RewritePass.standard := fun pass mem =>
    known pass (List.mem_filter.mp mem).1
  have active : RemovesCalls (patcher.active config) config := by
    cases applies : Removal.pass.applies config with
    | true => exact .inl (List.mem_filter.mpr ⟨removes, applies⟩)
    | false =>
        refine .inr ?_
        simp only [Removal.pass, Bool.or_eq_false_iff, Bool.not_eq_false'] at applies
        exact List.isEmpty_iff.mp applies.2
  let begin := start config prepared (scopesFor config prepared).value
  let first := (patcher.active config).foldl (fun rewrite pass => pass.prepare rewrite) begin
  have keeps : begin.Keeps first := keeps_prepared among begin
  have blank : first.doc.entriesFor "remove call" = [] := by
    rw [show first.doc = begin.doc from prepare_doc among begin]
    rfl
  have serves : first.Serves prepared.source config := ⟨keeps.source, keeps.config⟩
  have walked : (((visitor (patcher.active config)).walk prepared.root first).doc.entriesFor "remove call").Perm
      ((reached (below (patcher.active config) first) prepared.root).filterMap
        (Removal.noted prepared.source config prepared.start) ++ first.doc.entriesFor "remove call") := by
    refine entriesFor_walk (fun _ => True) among serves trivial ?_
    intro c met state serves skip _
    have stands := (mem_reached.mp met).1
    have entered := entriesFor_enter among state (serves.config.symm ▸ active) (stands.symm ▸ laid)
    rw [skip, show first.skipBefore = prepared.start from keeps.skipBefore, serves.config,
      show state.source = prepared.source from serves.source] at entered
    exact ⟨trivial, entered⟩
  have finished := (Rewrite.steps_entriesFor "remove call").finish (fun _ _ calls => calls)
    ((visitor (patcher.active config)).walk prepared.root first) among prepared.root
  rw [replacements, show (patcher.rewrite config prepared).value.doc.entriesFor "remove call" = _ from finished]
  refine walked.trans (.of_eq ?_)
  rw [blank, List.append_nil, visited, ← List.filterMap_eq_map, List.filterMap_filter, List.filterMap_filter]
  refine List.filterMap_congr fun c _ => ?_
  rw [Removal.noted]
  cases Renaming.below prepared.start c <;> rfl

/-- Every call that is visited and replaced gets one placeholder: behind a semicolon, if the innermost expression
statement around the call begins with its first byte and is listed, and without one otherwise. So none gets a
semicolon in a statement that has to be a single one. -/
theorem rewrite_placeholders :
    (patcher.replacements config prepared).Perm
      (((patcher.visited config prepared).filter (Removal.replaces prepared.source config)).map
        Removal.replacement) ∧
    ∀ c ∈ patcher.visited config prepared, Removal.replaces prepared.source config c = true →
      ∀ statement ∈ c.statement?, ¬ statement.IsListed →
        ⟨c.range.start, c.range.stop, [.text "(void 0)"], "remove call"⟩ ∈
          patcher.replacements config prepared := by
  have perm := @replacements_perm patcher config prepared known removes laid
  refine ⟨perm, fun c met replaced statement found single => ?_⟩
  have closed : ¬ c.OpensStatement := by
    rintro ⟨other, found', _, listed⟩
    exact single (Option.mem_unique found found' ▸ listed)
  refine perm.mem_iff.mpr (List.mem_map.mpr ⟨c, List.mem_filter.mpr ⟨met, replaced⟩, ?_⟩)
  rw [Removal.replacement, if_neg closed]

end

/-- The program `f().g;if(a)f().g;`. -/
def chained : Prepared where
  source := [0x66, 0x28, 0x29, 0x2E, 0x67, 0x3B, 0x69, 0x66, 0x28, 0x61, 0x29, 0x66, 0x28, 0x29, 0x2E, 0x67, 0x3B]
  start := 0
  root :=
    let leaf (kind : Kind) (role : Option Role) (start stop : Nat) : Tree :=
      .node ⟨kind, role, ⟨start, stop⟩, false⟩ []
    let chain (start : Nat) : Tree :=
      .node ⟨.expressionStatement, none, ⟨start, start + 6⟩, false⟩ [
        .node ⟨.memberExpression, none, ⟨start, start + 5⟩, false⟩ [
          .node ⟨.callExpression, some .object, ⟨start, start + 3⟩, false⟩ [
            leaf .identifier (some .callee) start (start + 1),
            .node ⟨.arguments, none, ⟨start + 1, start + 3⟩, false⟩ [
              leaf (.token "(") none (start + 1) (start + 2), leaf (.token ")") none (start + 2) (start + 3)]],
          leaf (.token ".") none (start + 3) (start + 4),
          leaf .propertyIdentifier (some .property) (start + 4) (start + 5)],
        leaf (.token ";") none (start + 5) (start + 6)]
    .node ⟨.program, none, ⟨0, 17⟩, false⟩ [
      chain 0,
      .node ⟨.ifStatement, none, ⟨6, 17⟩, false⟩ [
        leaf (.token "if") none 6 8,
        .node ⟨.parenthesizedExpression, none, ⟨8, 11⟩, false⟩ [
          leaf (.token "(") none 8 9, leaf .identifier none 9 10, leaf (.token ")") none 10 11],
        chain 11]]

/-- A call that opens a statement of the program gets a semicolon, and one that opens the body of a condition gets
none. -/
theorem chained_separated :
    let config := { PatchConfig.empty with removeFunctionCalls := ["f"] }
    chained.root.Laid ∧ (standard.replacements config chained).Perm
      [⟨0, 3, [.text ";(void 0)"], "remove call"⟩, ⟨11, 14, [.text "(void 0)"], "remove call"⟩] := by
  intro config
  have laid : chained.root.Laid := by decide +kernel
  obtain ⟨perm, _⟩ := @rewrite_placeholders standard config chained (fun _ => id) (.tail _ (.tail _ (.head _))) laid
  have calls : ((standard.visited config chained).filter (Removal.replaces chained.source config)).map
      (fun c => (c.range, decide c.OpensStatement)) = [(⟨0, 3⟩, true), (⟨11, 14⟩, false)] := by decide +kernel
  refine ⟨laid, perm.trans (.of_eq ?_)⟩
  have entries := congrArg (List.map fun call : Range × Bool => (⟨call.1.start, call.1.stop,
    [.text (if call.2 then ";(void 0)" else "(void 0)")], "remove call"⟩ : Entry)) calls
  rw [List.map_map] at entries
  refine Eq.trans (List.map_congr_left fun c _ => ?_) entries
  simp [Removal.replacement]

end Patcher

end Rebundle
