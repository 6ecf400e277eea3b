import Mathlib.Algebra.GroupWithZero.Nat
import Rebundle.Proofs.Number.Ratio
import Rebundle.Proofs.Syntax.Reached
import Rebundle.Syntax.ErrorSummary

/-!
# The account of syntax errors

The walk over a tree stops at errors and at whatever ends too early, so it meets each error that counts once and
none inside another. What it adds up is the account of the whole tree: so many nodes, so many bytes under some
error, and the first place of them.
-/

namespace Rebundle

namespace Tree

/-- Whether a node is an error or missing. -/
def isFault (t : Tree) : Bool := t.kind == .error || t.isMissing

theorem hasError_eq (t : Tree) : t.hasError = (t.isFault || anyError t.children) := by
  cases t
  rfl

theorem anyError_iff {trees : List Tree} : anyError trees = true ↔ ∃ t ∈ trees, t.hasError = true := by
  induction trees with
  | nil => simp [anyError]
  | cons first rest ih => simp [anyError, ih]

/-- A tree has an error exactly when one of its nodes is an error or missing. -/
theorem hasError_iff {t : Tree} : t.hasError = true ↔ ∃ node ∈ t.nodes, node.isFault = true := by
  induction t using childrenInduction with
  | step t ih =>
      rw [hasError_eq, Bool.or_eq_true, anyError_iff]
      constructor
      · rintro (here | ⟨child, mem, error⟩)
        · exact ⟨t, self_mem_nodes t, here⟩
        · obtain ⟨node, below, fault⟩ := (ih child mem).mp error
          exact ⟨node, mem_nodes.mpr (.inr ⟨child, mem, below⟩), fault⟩
      · rintro ⟨node, mem, fault⟩
        rcases mem_nodes.mp mem with rfl | ⟨child, childMem, below⟩
        · exact .inl fault
        · exact .inr ⟨child, childMem, (ih child childMem).mpr ⟨node, below, fault⟩⟩

/-- A tree as a reader recovers it: laid out, and its missing nodes are empty leaves and no errors. -/
structure Recovered (root : Tree) : Prop where
  laid : root.Laid
  leaf : ∀ t ∈ root.nodes, t.isMissing = true → t.kind ≠ .error ∧ t.children = []
  empty : ∀ t ∈ root.nodes, t.isMissing = true → t.start = t.stop

/-- Whether a byte stands under some error. -/
def underError (root : Tree) (i : Nat) : Bool :=
  root.nodes.any fun t => t.kind == .error && t.start ≤ i && i < t.stop

theorem underError_iff {root : Tree} {i : Nat} :
    root.underError i = true ↔ ∃ t ∈ root.nodes, t.kind = .error ∧ t.start ≤ i ∧ i < t.stop := by
  simp [underError, and_assoc]

end Tree

namespace Cursor

variable {root : Tree} {c : Cursor}

mutual

/-- Of two places one is above the other, or it ends before the other begins, in the order of a walk. -/
theorem ordered_entered : ∀ (path : List Crumb) (t : Tree), t.Laid →
    (entered (fun _ => false) path t).Pairwise fun a b => a ∈ b.above ∨ a.focus.stop ≤ b.focus.start
  | path, .node label children, laid => by
      rw [entered, if_neg Bool.false_ne_true]
      rw [Tree.Laid] at laid
      exact List.pairwise_cons.mpr ⟨fun b below => .inl (mem_above_of_row below),
        ordered_enteredAll path label [] children laid⟩

theorem ordered_enteredAll (path : List Crumb) (label : Label) : ∀ (before row : List Tree) {start stop : Nat},
    Tree.LaidBetween start stop row → (enteredAll (fun _ => false) path label before row).Pairwise
      fun a b => a ∈ b.above ∨ a.focus.stop ≤ b.focus.start
  | before, [], _, _, _ => by
      rw [enteredAll]
      exact List.Pairwise.nil
  | before, t :: rest, _, _, laid => by
      rw [Tree.LaidBetween] at laid
      obtain ⟨_, laidT, laidRest⟩ := laid
      rw [enteredAll, List.pairwise_append]
      refine ⟨ordered_entered _ t laidT, ordered_enteredAll path label (t :: before) rest laidRest, ?_⟩
      intro a here b later
      have inside := List.mem_map_of_mem (f := focus) here
      have behind := List.mem_map_of_mem (f := focus) later
      rw [focus_entered] at inside
      rw [focus_enteredAll, Tree.mem_nodesAll] at behind
      obtain ⟨u, mem, below⟩ := behind
      obtain ⟨laidU, begins, _⟩ := laidRest.mem mem
      have ends := (laidT.node inside).2.2
      have starts := (laidU.node below).2.1
      exact .inr (by omega)

end

/-- Above a place in an error, or at it, is an error that no other is above. -/
theorem exists_outermost (c : Cursor) (error : c.kind = .error) :
    ∃ a : Cursor, (a = c ∨ a ∈ c.above) ∧ a.kind = .error ∧ ∀ b ∈ a.above, b.kind ≠ .error := by
  by_cases outer : ∃ a ∈ c.above, a.kind = .error
  · obtain ⟨a, above, errorA⟩ := outer
    have := (address_of_mem_above above).2
    obtain ⟨b, stands, errorB, outermost⟩ := exists_outermost a errorA
    refine ⟨b, .inr ?_, errorB, outermost⟩
    rcases stands with rfl | higher
    · exact above
    · exact above_trans higher above
  · exact ⟨c, .inl rfl, error, fun b above errorB => outer ⟨b, above, errorB⟩⟩
termination_by c.address.length

/-- Whether a place counts from an offset on: an error or a missing node that ends behind it, inside no error. -/
def counts (start : Nat) (c : Cursor) : Bool :=
  c.focus.isFault && start < c.focus.stop && c.above.all fun a => a.kind != .error

/-- The places that count, in the order of a walk. -/
def counted (start : Nat) (root : Tree) : List Cursor := (all root).filter (counts start)

theorem mem_counted {start : Nat} : c ∈ counted start root ↔
    c.whole = root ∧ c.focus.isFault = true ∧ start < c.focus.stop ∧ ∀ a ∈ c.above, a.kind ≠ .error := by
  simp only [counted, List.mem_filter, counts, Bool.and_eq_true, decide_eq_true_eq, List.all_eq_true, bne_iff_ne,
    and_assoc]
  constructor
  · rintro ⟨mem, facts⟩
    exact ⟨whole_of_mem_entered mem, facts⟩
  · rintro ⟨rfl, facts⟩
    exact ⟨mem_all c, facts⟩

section

variable (recovered : root.Recovered) {start : Nat}

include recovered

/-- Nothing stands below a missing node. -/
theorem not_missing_of_mem_above {a : Cursor} (stands : c.whole = root) (mem : a ∈ c.above) :
    a.focus.isMissing = false := by
  rw [Bool.eq_false_iff]
  intro missing
  obtain ⟨same, child, childMem, _⟩ := mem_nodes_of_mem_above mem
  have none := (recovered.leaf a.focus ((same.trans stands) ▸ a.focus_mem_whole) missing).2
  rw [none] at childMem
  cases childMem

/-- A place that counts is an error, or a missing node, but not both. -/
theorem error_iff_of_counted (mem : c ∈ counted start root) : c.kind = .error ↔ c.focus.isMissing = false := by
  obtain ⟨stands, fault, _⟩ := mem_counted.mp mem
  rw [Tree.isFault, Bool.or_eq_true, beq_iff_eq] at fault
  constructor
  · intro error
    rw [Bool.eq_false_iff]
    exact fun missing => (recovered.leaf c.focus (stands ▸ c.focus_mem_whole) missing).1 error
  · intro present
    rw [present] at fault
    exact fault.resolve_right Bool.false_ne_true

/-- The places that count follow each other in the source. -/
theorem counted_apart : (counted start root).Pairwise fun a b => a.focus.stop ≤ b.focus.start := by
  refine List.Pairwise.imp_of_mem ?_ ((ordered_entered [] root recovered.laid).filter (counts start))
  rintro a b memA memB (above | before)
  · obtain ⟨standsA, fault, _⟩ := mem_counted.mp memA
    obtain ⟨standsB, _, _, outermost⟩ := mem_counted.mp memB
    rw [Tree.isFault, not_missing_of_mem_above recovered standsB above, Bool.or_false, beq_iff_eq] at fault
    exact absurd fault (outermost a above)
  · exact before

/-- A byte from an offset on stands under some error exactly when it stands under an error that counts. -/
theorem underError_iff_counted {i : Nat} (late : start ≤ i) : root.underError i = true ↔
    ∃ c ∈ counted start root, c.focus.isMissing = false ∧ c.focus.start ≤ i ∧ i < c.focus.stop := by
  rw [Tree.underError_iff]
  constructor
  · rintro ⟨t, mem, error, begins, ends⟩
    obtain ⟨c, stands, rfl⟩ := exists_place mem
    obtain ⟨a, way, errorA, outermost⟩ := exists_outermost c error
    have standsA : a.whole = root := by
      rcases way with rfl | above
      · exact stands
      · exact (mem_nodes_of_mem_above above).1.trans stands
    have around : a.focus.start ≤ c.focus.start ∧ c.focus.stop ≤ a.focus.stop := by
      rcases way with rfl | above
      · exact ⟨Nat.le_refl _, Nat.le_refl _⟩
      · exact range_of_mem_above (stands ▸ recovered.laid) above
    have fault : a.focus.isFault = true := by
      rw [Tree.isFault, show a.focus.kind = .error from errorA]
      rfl
    have among : a ∈ counted start root := mem_counted.mpr ⟨standsA, fault, by omega, outermost⟩
    exact ⟨a, among, (error_iff_of_counted recovered among).mp errorA, by omega, by omega⟩
  · rintro ⟨c, among, present, begins, ends⟩
    have stands := (mem_counted.mp among).1
    exact ⟨c.focus, stands ▸ c.focus_mem_whole, (error_iff_of_counted recovered among).mpr present, begins, ends⟩

end

end Cursor

/-! Bytes under disjoint ranges are counted range by range. -/

theorem countP_or_of_disjoint {α : Type} {p q : α → Bool} {l : List α}
    (disjoint : ∀ a ∈ l, p a = true → q a = false) :
    l.countP (fun a => p a || q a) = l.countP p + l.countP q := by
  induction l with
  | nil => rfl
  | cons a rest ih =>
      have later := ih fun b mem => disjoint b (List.mem_cons_of_mem _ mem)
      have here := disjoint a List.mem_cons_self
      rw [List.countP_cons, List.countP_cons, List.countP_cons, later]
      cases first : p a with
      | false => simp only [Bool.false_or, Bool.false_eq_true, if_false]; omega
      | true =>
          rw [here first]
          simp only [Bool.true_or, Bool.false_eq_true, if_true, if_false]
          omega

theorem countP_between (first last n : Nat) :
    (List.range n).countP (fun i => first ≤ i && i < last) = min last n - first := by
  induction n with
  | zero => simp
  | succ n ih =>
      rw [List.range_succ, List.countP_append, ih, List.countP_singleton]
      split
      · rename_i inside
        simp only [Bool.and_eq_true, decide_eq_true_eq] at inside
        omega
      · rename_i outside
        simp only [Bool.and_eq_true, decide_eq_true_eq] at outside
        omega

theorem countP_any_between (n : Nat) (ranges : List Range)
    (apart : ranges.Pairwise fun a b => a.stop ≤ b.start) (fits : ∀ range ∈ ranges, range.stop ≤ n) :
    (List.range n).countP (fun i => ranges.any fun range => range.start ≤ i && i < range.stop) =
      (ranges.map fun range => range.stop - range.start).sum := by
  induction ranges with
  | nil => simp
  | cons first rest ih =>
      obtain ⟨before, apartRest⟩ := List.pairwise_cons.mp apart
      have later := ih apartRest fun range mem => fits range (List.mem_cons_of_mem _ mem)
      have here := fits first List.mem_cons_self
      simp only [List.any_cons]
      rw [countP_or_of_disjoint, later, countP_between, Nat.min_eq_left here, List.map_cons, List.sum_cons]
      intro i _ inside
      rw [List.any_eq_false]
      intro range mem within
      have := before range mem
      simp only [Bool.and_eq_true, decide_eq_true_eq] at inside within
      omega

open Cursor

namespace ErrorSummary

/-- Where a walk goes below: at what ends late enough and has an error below, but is none. -/
def below (start : Nat) (c : Cursor) : Bool :=
  start < c.focus.stop && c.focus.hasError && !c.focus.isFault

/-- The summary with one more error or missing node. -/
def tally (start : Nat) (c : Cursor) (summary : ErrorSummary) : ErrorSummary :=
  if c.focus.isMissing then summary.addMissing c.focus.start else summary.addError start c.focus.range

/-- At a place a walk adds up an error or missing node that ends late enough. -/
theorem visitor_enter (start : Nat) (c : Cursor) (summary : ErrorSummary) :
    (visitor start).enter c summary =
      (below start c, if c.focus.isFault && start < c.focus.stop then tally start c summary else summary) := by
  have error := c.focus.hasError_eq
  simp only [visitor, below, tally, Tree.isFault] at error ⊢
  by_cases late : start < c.focus.stop
  · by_cases missing : c.focus.isMissing = true
    · rw [missing, Bool.or_true, Bool.true_or] at error
      simp [error, missing, late]
    · by_cases kind : c.focus.kind == .error
      · rw [kind, Bool.true_or, Bool.true_or] at error
        simp [error, missing, kind, late]
      · by_cases holds : c.focus.hasError <;> simp [missing, kind, holds, late]
  · simp [late]

theorem visitor_steady (start : Nat) : (visitor start).Steady (below start) fun _ => True where
  agree c summary _ := by rw [visitor_enter]
  keeps _ _ _ := trivial
  idle _ _ := rfl

variable {root : Tree} {start : Nat}

/-- What a walk adds up are the places that count. -/
theorem filter_reached (recovered : root.Recovered) : (reached (below start) root).filter
    (fun c => c.focus.isFault && start < c.focus.stop) = counted start root := by
  rw [reached, List.filter_filter, counted]
  apply List.filter_congr
  intro c mem
  have stands : c.whole = root := whole_of_mem_entered mem
  rw [counts, Bool.eq_iff_iff, Bool.and_eq_true, Bool.and_eq_true _ (c.above.all _), reaches]
  refine and_congr_right fun here => ?_
  rw [Bool.and_eq_true, decide_eq_true_eq] at here
  rw [List.all_eq_true, List.all_eq_true]
  refine forall₂_congr fun a above => ?_
  -- above a place that counts, all ends late enough and has an error, so only errors keep a walk away
  have inside := range_of_mem_above (stands ▸ recovered.laid) above
  obtain ⟨_, child, childMem, inChild⟩ := mem_nodes_of_mem_above above
  have error : a.focus.hasError = true :=
    Tree.hasError_iff.mpr ⟨c.focus, Tree.mem_nodes.mpr (.inr ⟨child, childMem, inChild⟩), here.1⟩
  simp only [below, error, Tree.isFault, not_missing_of_mem_above recovered stands above, Bool.or_false,
    Bool.and_true, Bool.and_eq_true, decide_eq_true_eq, Bool.not_eq_true', bne, kind]
  exact and_iff_right (by omega)

/-- The summary of a tree is the tally of the places that count. -/
theorem ofTree_eq_foldl (recovered : root.Recovered) :
    ofTree start root = (counted start root).foldl (fun summary c => tally start c summary) empty := by
  rw [ofTree]
  split
  · rw [(visitor_steady start).walk_eq_foldl trivial, ← filter_reached recovered, List.foldl_filter]
    simp only [visitor_enter]
  · rename_i clean
    have none : counted start root = [] := by
      rw [List.eq_nil_iff_forall_not_mem]
      intro c mem
      obtain ⟨stands, fault, _⟩ := mem_counted.mp mem
      exact clean (Tree.hasError_iff.mpr ⟨c.focus, stands ▸ c.focus_mem_whole, fault⟩)
    rw [none]
    rfl

/-- What a tally has added up. -/
theorem foldl_tally (places : List Cursor) (summary : ErrorSummary) :
    places.foldl (fun summary c => tally start c summary) summary =
      { errorNodes := summary.errorNodes + places.countP fun c => !c.focus.isMissing
        missingNodes := summary.missingNodes + places.countP fun c => c.focus.isMissing
        errorBytes := summary.errorBytes + ((places.filter fun c => !c.focus.isMissing).map fun c =>
          c.focus.stop - max c.focus.start start).sum
        firstError := summary.firstError.or (places.head?.map fun c =>
          if c.focus.isMissing then c.focus.start else max c.focus.start start) } := by
  induction places generalizing summary with
  | nil => simp
  | cons c rest ih =>
      rw [List.foldl_cons, ih]
      cases missing : c.focus.isMissing with
      | true =>
          simp [tally, addMissing, missing, Nat.add_assoc, Nat.add_comm]
      | false =>
          simp [tally, addError, missing, Tree.start, Tree.stop, Nat.add_assoc, Nat.add_comm]

section

variable (recovered : root.Recovered)

include recovered

/-- The parts of the counted errors behind an offset have as many bytes as stand under an error there. -/
theorem sum_counted : (((counted start root).filter fun c => !c.focus.isMissing).map fun c =>
    c.focus.stop - max c.focus.start start).sum =
      (List.range root.stop).countP fun i => start ≤ i && root.underError i := by
  have among {c : Cursor} (mem : c ∈ (counted start root).filter fun c => !c.focus.isMissing) :
      c ∈ counted start root ∧ c.focus.isMissing = false := by
    simpa using List.mem_filter.mp mem
  have summed := countP_any_between root.stop
    (((counted start root).filter fun c => !c.focus.isMissing).map fun c =>
      ⟨max c.focus.start start, c.focus.stop⟩) ?_ ?_
  · rw [List.map_map] at summed
    refine summed.symm.trans (List.countP_congr fun i _ => ?_)
    rw [List.any_map, List.any_eq_true, Bool.and_eq_true, decide_eq_true_eq]
    simp only [Function.comp_apply, Bool.and_eq_true, decide_eq_true_eq]
    constructor
    · rintro ⟨c, mem, begins, ends⟩
      have late : start ≤ i := by omega
      exact ⟨late, (underError_iff_counted recovered late).mpr
        ⟨c, (among mem).1, (among mem).2, by omega, ends⟩⟩
    · rintro ⟨late, error⟩
      obtain ⟨c, mem, present, begins, ends⟩ := (underError_iff_counted recovered late).mp error
      exact ⟨c, List.mem_filter.mpr ⟨mem, by simp [present]⟩, by omega, ends⟩
  · rw [List.pairwise_map]
    refine ((counted_apart recovered).filter _).imp fun {a b} before => ?_
    simp only
    omega
  · intro range mem
    obtain ⟨c, known, rfl⟩ := List.mem_map.mp mem
    exact (recovered.laid.node ((mem_counted.mp (among known).1).1 ▸ c.focus_mem_whole)).2.2

/-- The first place that counts is the least one. -/
theorem head_counted : ((counted start root).head?.map fun c =>
    if c.focus.isMissing then c.focus.start else max c.focus.start start) =
      ((counted start root).map fun c => max c.focus.start start).min? := by
  rw [List.min?_eq_head?, List.head?_map]
  · cases first : (counted start root).head? with
    | none => rfl
    | some c =>
        obtain ⟨stands, _, late, _⟩ := mem_counted.mp (List.mem_of_head? first)
        rw [Option.map_some, Option.map_some]
        split
        · rename_i missing
          have empty := recovered.empty c.focus (stands ▸ c.focus_mem_whole) missing
          rw [Nat.max_eq_left (by omega)]
        · rfl
  · rw [List.pairwise_map]
    refine List.Pairwise.imp_of_mem ?_ (counted_apart recovered)
    intro a b memA _ before
    have ordered := (recovered.laid.node ((mem_counted.mp memA).1 ▸ a.focus_mem_whole)).1.start_le_stop
    omega

theorem ofTree_eq : ofTree start root =
    { errorNodes := (counted start root).countP fun c => c.kind == .error
      missingNodes := (counted start root).countP fun c => c.focus.isMissing
      errorBytes := (List.range root.stop).countP fun i => start ≤ i && root.underError i
      firstError := ((counted start root).map fun c => max c.focus.start start).min? } := by
  have errors : ((counted start root).countP fun c => !c.focus.isMissing) =
      (counted start root).countP fun c => c.kind == .error := by
    refine List.countP_congr fun c mem => ?_
    rw [Bool.not_eq_true', beq_iff_eq, error_iff_of_counted recovered mem]
  rw [ofTree_eq_foldl recovered, foldl_tally, errors, sum_counted recovered, head_counted recovered]
  simp [empty]

theorem errorBytes_le : (ofTree start root).errorBytes ≤ root.stop - start := by
  rw [ofTree_eq recovered]
  have all := countP_between start root.stop root.stop
  rw [Nat.min_self] at all
  rw [← all]
  refine List.countP_mono_left fun i mem holds => ?_
  have inside := List.mem_range.mp mem
  simp only [Bool.and_eq_true, decide_eq_true_eq] at holds ⊢
  exact ⟨holds.1, inside⟩

/-- Errors that end in front of an offset have no bytes from there on. -/
theorem errorBytes_eq_zero (before : ∀ t ∈ root.nodes, t.kind = .error → t.stop ≤ start) :
    (ofTree start root).errorBytes = 0 := by
  rw [ofTree_eq recovered]
  refine List.countP_eq_zero.mpr fun i _ holds => ?_
  rw [Bool.and_eq_true, decide_eq_true_eq, Tree.underError_iff] at holds
  obtain ⟨late, t, mem, error, _, ends⟩ := holds
  have := before t mem error
  omega

end

end ErrorSummary

open ErrorSummary

namespace Tree

/-- A tree is accepted when its root is no error and the threshold is not below the share of its errors. -/
theorem judge_accepts {root : Tree} {length start : Nat} {threshold : Number} (kind : root.kind ≠ .error)
    (share : threshold.below (.real (Binary64.ofRatio false (ofTree start root).errorBytes
      (max (length - start) 1))) = false) : (root.judge length start threshold).value = .ok root := by
  have kind' : (root.kind == .error) = false := beq_false_of_ne kind
  simp only [judge, kind', share, Bool.false_eq_true, if_false]
  split <;> rfl

/-- The account of syntax errors is exact. Of a recovered tree a summary has the errors inside no other error and
the missing nodes inside no error, as far as they end behind an offset; the bytes from the offset on that stand
under an error, which are not more than the tree has there; and the least place of what it counts. So a tree whose
root is no error is accepted when it lies in its source and the threshold is not below one, and when its errors
end in front of the offset and the threshold is not negative. -/
theorem errors_accounted {root : Tree} (recovered : root.Recovered) (start : Nat) :
    ofTree start root =
        { errorNodes := (counted start root).countP fun c => c.kind == .error
          missingNodes := (counted start root).countP fun c => c.focus.isMissing
          errorBytes := (List.range root.stop).countP fun i => start ≤ i && root.underError i
          firstError := ((counted start root).map fun c => max c.focus.start start).min? } ∧
      (ofTree start root).errorBytes ≤ root.stop - start ∧
      (root.kind ≠ .error → ∀ (length : Nat) (threshold : Number),
        (root.stop ≤ length → threshold.below (.whole 1) = false →
            (root.judge length start threshold).value = .ok root) ∧
          ((∀ t ∈ root.nodes, t.kind = .error → t.stop ≤ start) → threshold.below (.whole 0) = false →
            (root.judge length start threshold).value = .ok root)) := by
  have few : (ofTree start root).errorBytes ≤ root.stop - start := errorBytes_le recovered
  refine ⟨ofTree_eq recovered, few, fun kind length threshold =>
    ⟨fun fits one => ?_, fun before positive => ?_⟩⟩
  · exact judge_accepts kind (Number.not_below_share one (by omega))
  · refine judge_accepts kind ?_
    rw [errorBytes_eq_zero recovered before]
    exact Number.not_below_none _ positive

/-- The program `ok();`, `)`, `ok(;` on three lines, with the parenthesis in the middle skipped and the last one
missing. -/
def unbalanced : Tree :=
  .node ⟨.program, none, ⟨0, 13⟩, false⟩
    [leaf .expressionStatement none 0 5, leaf .error none 6 7,
      .node ⟨.expressionStatement, none, ⟨8, 12⟩, false⟩ [.node ⟨.token ")", none, ⟨11, 11⟩, true⟩ []]]

theorem unbalanced_recovered : unbalanced.Recovered := ⟨by decide, by decide, by decide⟩

theorem errors_accounted_unbalanced :
    unbalanced.Recovered ∧ ofTree 3 unbalanced = ⟨1, 1, 1, some 6⟩ ∧
      (unbalanced.judge 13 3 (.whole 1)).value = .ok unbalanced ∧
      (unbalanced.judge 13 7 (.whole 0)).value = .ok unbalanced := by
  obtain ⟨account, _, first⟩ := errors_accounted unbalanced_recovered 3
  obtain ⟨_, _, second⟩ := errors_accounted unbalanced_recovered 7
  refine ⟨unbalanced_recovered, account, ?_, ?_⟩
  · exact (first (by decide) 13 (.whole 1)).1 (by decide) (by decide)
  · exact (second (by decide) 13 (.whole 0)).2 (by decide) (by decide)

/-- Errors in front of the offset do lead to a rejection under a negative threshold, or when the whole program is
one; and a missing node that is no empty leaf hides the error below it. -/
theorem judge_rejects_front :
    (unbalanced.Recovered ∧ (∀ t ∈ unbalanced.nodes, t.isFault = true → t.stop ≤ 11) ∧
        (unbalanced.judge 13 11 (.whole (-1))).value = .error (.tooManyErrors empty 2)) ∧
      ((leaf .error none 0 3).Recovered ∧
        ((leaf .error none 0 3).judge 3 3 (.whole 1)).value = .error .wholeProgram) ∧
      (Laid (.node ⟨.expressionStatement, none, ⟨0, 3⟩, true⟩ [leaf .error none 1 2]) ∧
        (ofTree 0 (.node ⟨.expressionStatement, none, ⟨0, 3⟩, true⟩
          [leaf .error none 1 2])).errorNodes = 0) := by
  have summary : ofTree 11 unbalanced = empty := by
    rw [ErrorSummary.ofTree, Visitor.walk_eq_descend]
    rfl
  refine ⟨⟨unbalanced_recovered, by decide, ?_⟩,
    ⟨⟨by decide, by decide, by decide⟩, rfl⟩, by decide, ?_⟩
  · have share : Number.below (.whole (-1)) (.real (Binary64.ofRatio false 0 2)) = true := by decide +kernel
    rw [judge, summary]
    simp only [show (max (13 - 11) 1) = 2 from rfl, show empty.errorBytes = 0 from rfl, share, if_true]
    rfl
  · rw [ErrorSummary.ofTree, Visitor.walk_eq_descend]
    rfl

end Tree

end Rebundle
