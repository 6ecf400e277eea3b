import Rebundle.Proofs.Rewrite.Wrapper

/-!
# Deleted statements

No edit of the walk covers a waiting statement of the program: it would have to lie on the statement,
on the wait in it, or on the keyword. So the removal of the statement is written, and the statement
is gone.
-/

namespace Rebundle

open Source Tree

namespace Tree

/-- Whether every wait has its keyword among its children, as a leaf that covers something. -/
def AwaitsLed (root : Tree) : Prop :=
  ∀ t ∈ root.nodes, t.kind = .awaitExpression → ∃ keyword ∈ t.children,
    keyword.kind = .token "await" ∧ keyword.children = [] ∧ keyword.start < keyword.stop

instance (root : Tree) : Decidable root.AwaitsLed :=
  inferInstanceAs (Decidable (∀ t ∈ root.nodes, t.kind = .awaitExpression →
    ∃ keyword ∈ t.children,
      keyword.kind = .token "await" ∧ keyword.children = [] ∧ keyword.start < keyword.stop))

/-- A node below `t` that covers what a child of `t` covers is `t` or lies below that child. -/
theorem Laid.covering {t child node : Tree} (laid : t.Laid) (mem : child ∈ t.children)
    (nonempty : child.start < child.stop) (below : node ∈ t.nodes) (begins : node.start ≤ child.start)
    (ends : child.stop ≤ node.stop) : node = t ∨ node ∈ child.nodes := by
  rcases mem_nodes.mp below with rfl | ⟨other, memOther, belowOther⟩
  · exact .inl rfl
  · have inside := ((laid.child memOther).1.node belowOther).2
    rcases laid.siblings mem memOther with rfl | apart
    · exact .inr belowOther
    · omega

theorem kind_of_isAwaitStatement {t : Tree} (await : t.isAwaitStatement = true) :
    t.kind = .expressionStatement := by
  simp only [isAwaitStatement, Bool.and_eq_true, beq_iff_eq] at await
  exact await.1

/-- Edits cover no wait and no keyword of one as a whole. -/
theorem not_rewritable_of_wait {parent node : Tree}
    (kind : node.kind = .awaitExpression ∨ node.kind = .token "await")
    (plain : parent.kind.isFunction = false) : ¬ parent.Rewritable node := by
  rintro (rewritten | ⟨function, _⟩)
  · rcases kind with kind | kind
    · rw [kind] at rewritten
      cases rewritten
    · rw [kind] at rewritten
      cases rewritten
  · rw [plain] at function
    cases function

namespace WellFormed

variable {source : Bytes} {root : Tree} (wf : root.WellFormed source)

include wf

/-- A node that covers a waiting statement is the root, the statement, its wait, or the keyword. -/
theorem covering_await (led : root.AwaitsLed) {t node : Tree} (child : t ∈ root.children)
    (await : t.isAwaitStatement = true) (mem : node ∈ root.nodes) (begins : node.start ≤ t.start)
    (ends : t.stop ≤ node.stop) :
    node = root ∨ node = t ∨
      (node.kind = .awaitExpression ∧ node ∈ t.children) ∨
      ∃ wait ∈ t.children, wait.kind = .awaitExpression ∧ node ∈ wait.children ∧
        node.kind = .token "await" := by
  simp only [isAwaitStatement, Bool.and_eq_true, beq_iff_eq] at await
  obtain ⟨_, first⟩ := await
  obtain ⟨wait, head, waits⟩ := Option.map_eq_some_iff.mp first
  have tMem := child_node (self_mem_nodes root) child
  have childWait : wait ∈ t.children := List.filter_sublist.mem (List.mem_of_head? head)
  have waitMem := child_node tMem childWait
  obtain ⟨keyword, childKeyword, token, leaf, nonempty⟩ := led wait waitMem waits
  have insideT := ((wf.laid.node tMem).1.child childWait).2
  have insideWait := ((wf.laid.node waitMem).1.child childKeyword).2
  rcases wf.laid.covering child (by omega) mem begins ends with same | below
  · exact .inl same
  · rcases (wf.laid.node tMem).1.covering childWait (by omega) below (by omega) (by omega)
      with same | below
    · exact .inr (.inl same)
    · rcases (wf.laid.node waitMem).1.covering childKeyword nonempty below (by omega) (by omega)
        with rfl | below
      · exact .inr (.inr (.inl ⟨waits, childWait⟩))
      · have same : node = keyword := by
          rcases mem_nodes.mp below with same | ⟨_, none, _⟩
          · exact same
          · rw [leaf] at none
            cases none
        rw [same]
        exact .inr (.inr (.inr ⟨wait, childWait, waits, childKeyword, token⟩))

/-- No node that edits may cover covers a waiting statement. -/
theorem child_not_covering (led : root.AwaitsLed) {t : Tree} (child : t ∈ root.children)
    (await : t.isAwaitStatement = true) {parent node : Tree} (parentMem : parent ∈ root.nodes)
    (mem : node ∈ parent.children) (rewritable : parent.Rewritable node)
    (allows : Spared parent node) (begins : node.start ≤ t.start) (ends : t.stop ≤ node.stop) :
    False := by
  have kind := kind_of_isAwaitStatement await
  have tMem := child_node (self_mem_nodes root) child
  have nonempty : t.start < t.stop :=
    (wf.solid_of_deletable tMem (by rw [kind]; rfl)).start_lt_stop
  have owner {other : Tree} (otherMem : other ∈ root.nodes) (below : node ∈ other.children) :
      parent = other :=
    wf.laid.parent_unique parentMem otherMem mem below (by omega)
  rcases wf.covering_await led child await (child_node parentMem mem) begins ends with
    same | rfl | ⟨waits, below⟩ | ⟨wait, childWait, waits, below, token⟩
  · exact wf.child_ne_root parentMem mem same
  · rw [allows (by rw [owner (self_mem_nodes root) child]; exact wf.program)] at await
    cases await
  · rw [owner tMem below] at rewritable
    exact not_rewritable_of_wait (.inl waits) (by rw [kind]; rfl) rewritable
  · rw [owner (child_node tMem childWait) below] at rewritable
    exact not_rewritable_of_wait (.inr token) (by rw [waits]; rfl) rewritable

/-- A statement that may be removed covers a waiting one, or its lines lie inside the waiting one or apart from it. -/
theorem extent_around_await {t : Tree} (child : t ∈ root.children) (await : t.isAwaitStatement = true)
    {parent statement : Tree} (parentMem : parent ∈ root.nodes) (mem : statement ∈ parent.children)
    (lists : parent.kind.listsStatements = true) (deletable : statement.kind.isDeletable = true) :
    (statement.start ≤ t.start ∧ t.stop ≤ statement.stop) ∨
      (t.start < (extent source statement.range).start ∧ (extent source statement.range).stop < t.stop) ∨
        (extent source statement.range).stop ≤ t.start ∨ t.stop ≤ (extent source statement.range).start := by
  have kind := kind_of_isAwaitStatement await
  have tMem := child_node (self_mem_nodes root) child
  have statementMem := child_node parentMem mem
  have solid := wf.solid_of_deletable tMem (by rw [kind]; rfl)
  have wide := wf.widened statementMem
  rcases wf.laid.comparable statementMem tMem with below | above | apart | apart
  · rcases wf.extent_inside parentMem mem lists deletable (self_mem_nodes root) child (by rw [kind]; rfl) below
      with rfl | inside
    · exact .inl ⟨Nat.le_refl _, Nat.le_refl _⟩
    · exact .inr (.inl inside)
  · exact .inl ((wf.laid.node statementMem).1.node above).2
  · exact .inr (.inr (.inl (wide.behind solid apart)))
  · exact .inr (.inr (.inr (wide.before solid apart)))

/-- No region of the walk covers a waiting statement. -/
theorem region_not_covering (led : root.AwaitsLed) {t : Tree} (child : t ∈ root.children)
    (await : t.isAwaitStatement = true) {range : Range} (region : Region source root Spared range)
    (begins : range.start ≤ t.start) (ends : t.stop ≤ range.stop) : False := by
  have kind := kind_of_isAwaitStatement await
  have tMem := child_node (self_mem_nodes root) child
  have solid := wf.solid_of_deletable tMem (by rw [kind]; rfl)
  have nonempty : t.start < t.stop := solid.start_lt_stop
  cases region with
  | node parentMem mem rewritable allows =>
      exact wf.child_not_covering led child await parentMem mem rewritable allows begins ends
  | @declarators declaration first last mem declares hull =>
      obtain ⟨front, _, behind⟩ := hull.inside (wf.laid.node mem).1
      rcases wf.covering_await led child await mem (Nat.le_trans front begins)
          (Nat.le_trans ends behind) with rfl | rfl | ⟨waits, _⟩ | ⟨_, _, _, _, token⟩
      · rw [wf.program] at declares
        cases declares
      · rw [kind] at declares
        cases declares
      · rw [waits] at declares
        cases declares
      · rw [token] at declares
        cases declares
  | @removal parent statement parentMem mem lists deletable allows =>
      rcases wf.extent_around_await child await parentMem mem lists deletable with covers | inside | apart
      · exact wf.child_not_covering led child await parentMem mem
          (.inl (Kind.isRewritten_of_isDeletable deletable)) allows covers.1 covers.2
      · omega
      · omega

end WellFormed

end Tree

namespace TopLevelAwait.Finishing

variable {source : Bytes} {root : Tree} {rewrite next : Rewrite} {taken : List (Tree × Edit)}
  (finishing : Finishing source root rewrite next taken)

include finishing

/-- Two statements that lie apart are removed apart. -/
theorem removals_apart {a b : Tree × Edit} (memA : a ∈ taken) (memB : b ∈ taken)
    (apart : a.1.stop ≤ b.1.start) : a.2.stop ≤ b.2.start := by
  have solid {entry : Tree × Edit} (mem : entry ∈ taken) : Solid source entry.1.range := by
    obtain ⟨child, kind, _⟩ := mem_statements (finishing.entry_mem mem)
    exact finishing.wf.solid_of_deletable (child_mem_nodes child) (by rw [kind]; rfl)
  have widened {entry : Tree × Edit} (mem : entry ∈ taken) :
      Widened source entry.1.range (extent source entry.1.range) := by
    obtain ⟨child, _, _⟩ := mem_statements (finishing.entry_mem mem)
    exact finishing.wf.widened (child_mem_nodes child)
  rw [(finishing.spec.removals a memA).2, (finishing.spec.removals b memB).2,
    finishing.disciplined.unchanged, removal_start, removal_stop]
  exact (widened memA).both (widened memB) (solid memA) (solid memB) apart

/-- The removal of a waiting statement is written. -/
theorem removal_mem_undominated (led : root.AwaitsLed) {entry : Tree × Edit}
    (mem : entry ∈ taken) : entry.2 ∈ undominated next.doc.edits 0 source.length := by
  have known : entry.2 ∈ next.doc.edits := finishing.mem_iff.mpr (.inr ⟨entry, mem, rfl⟩)
  have fits := (finishing.kept.inside entry.2 known).2
  rw [finishing.unchanged] at fits
  have covers := finishing.covers mem
  have nonempty := finishing.nonempty mem
  have free : ∀ other ∈ next.doc.edits, other.dominates entry.2 = false := by
    intro other known
    rw [Bool.eq_false_iff, ne_eq, Edit.dominates_iff]
    rintro ⟨begins, inside, ends, different⟩
    rcases finishing.mem_iff.mp known with walked | ⟨entry', mem', rfl⟩
    · -- the walk spares the statement
      have statement := finishing.entry_mem mem
      exact finishing.wf.region_not_covering led (mem_statements statement).1
        (isAwaitStatement_of_mem statement) (finishing.disciplined.regions other walked)
        (Nat.le_trans begins covers.1) (Nat.le_trans covers.2 ends)
    · rcases finishing.apart mem mem' with rfl | before | behind
      · omega
      · have := finishing.removals_apart mem mem' before
        omega
      · have := finishing.removals_apart mem' mem behind
        omega
  refine mem_undominated.mpr ⟨known, ?_, fun other known _ => free other known⟩
  rw [Edit.within_iff]
  omega

end TopLevelAwait.Finishing

end Rebundle
