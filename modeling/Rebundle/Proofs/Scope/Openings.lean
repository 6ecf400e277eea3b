import Rebundle.Proofs.Scope.Language
import Rebundle.Proofs.Scope.Stations
import Rebundle.Proofs.Syntax.Blocks

/-!
# Scopes and the nodes that open them

The scopes of a table are those of the nodes that open one, in the order of the nodes, behind the one of the program.
An analysis knows the body of a function by its range only. As every block has its range for itself, this is no other
block, so the blocks without scopes are the bodies of the functions right above them.
-/

namespace Rebundle

open Cursor Sites

namespace Cursor

variable {skips : Tree → Bool} {p : Cursor → Bool}

mutual

/-- A walk that skips trees enters all of some places, but those of the nodes that it skips, when below a skipped tree
it would skip them all. -/
theorem filter_entered : ∀ (path : List Crumb) (t : Tree),
    (∀ u ∈ t.nodes, skips u = true → ∀ c : Cursor, c.focus ∈ u.nodes → p c = true →
      skips c.focus = true) →
      (entered skips path t).filter p = (entered (fun _ => false) path t).filter fun c => p c && !skips c.focus
  | path, .node label children, closed => by
      have below := filter_enteredAll path label [] children fun u mem =>
        closed u (by rw [Tree.nodes]; exact List.mem_cons_of_mem _ mem)
      rw [entered]
      split
      · rename_i skipped
        rw [List.filter_nil, eq_comm, List.filter_eq_nil_iff]
        intro c mem
        have inside : c.focus ∈ Tree.nodes (.node label children) := by
          rw [← focus_entered path]
          exact List.mem_map_of_mem mem
        cases holds : p c with
        | false => simp
        | true => simp [closed _ (Tree.self_mem_nodes _) skipped c inside holds]
      · rename_i entering
        rw [entered, if_neg Bool.false_ne_true, List.filter_cons, List.filter_cons, below,
          Bool.eq_false_iff.mpr entering, Bool.not_false, Bool.and_true]

theorem filter_enteredAll (path : List Crumb) (label : Label) : ∀ before row : List Tree,
    (∀ u ∈ Tree.nodesAll row, skips u = true → ∀ c : Cursor, c.focus ∈ u.nodes → p c = true →
      skips c.focus = true) →
      (enteredAll skips path label before row).filter p =
        (enteredAll (fun _ => false) path label before row).filter fun c => p c && !skips c.focus
  | before, [], _ => by rw [enteredAll, enteredAll]; rfl
  | before, t :: rest, closed => by
      rw [enteredAll, enteredAll, List.filter_append, List.filter_append, filter_entered _ t, filter_enteredAll]
      · exact fun u mem => closed u (List.mem_append_right _ mem)
      · exact fun u mem => closed u (List.mem_append_left _ mem)

end

end Cursor

/-- The kind and the range of the scope that a node opens. -/
def Cursor.opening (c : Cursor) : Option ScopeKind × Range := (c.opens?, c.range)

/-- What a walk has done with the nodes before it that open scopes, and with the bodies of functions. -/
structure ScopeWalk.Opened (root : Tree) (done : List Cursor) (walk : ScopeWalk) : Prop where
  ready : walk.Attaches
  scopes : walk.scopes.map (fun scope => (some scope.kind, scope.range)) =
    (some .program, root.range) :: (done.filter opens).map opening
  bodies : ∀ r, r ∈ walk.bodies ↔ ∃ d ∈ done, ∃ body, d.focus.functionBody? = some body ∧ body.range = r

/-- A node is entered behind the one right above it. -/
theorem Sites.mem_of_parent {sites done later : List Cursor} {c d : Cursor}
    (ordered : sites.Pairwise fun a b => b ∉ a.above) (closed : ∀ c ∈ sites, ∀ a ∈ c.above, a ∈ sites)
    (split : sites = done ++ c :: later) (up : c.parent? = some d) : d ∈ done := by
  have above : d ∈ c.above := by
    rw [above_eq up]
    exact List.mem_cons_self
  have known := closed c (by simp [split]) d above
  rw [split] at known ordered
  rcases List.mem_append.mp known with before | behind
  · exact before
  · rcases List.mem_cons.mp behind with rfl | behind
    · exact absurd above (not_mem_above_self _)
    · exact absurd above ((List.pairwise_cons.mp (List.pairwise_append.mp ordered).2.1).1 d behind)

namespace ScopeWalk.Opened

variable {source : Bytes} {root : Tree} {sites done later : List Cursor} {walk : ScopeWalk} {c : Cursor}

theorem leave (opened : walk.Opened root done) (t : Tree) : (walk.leave t).Opened root done := by
  have ready := opened.ready.leave t
  revert ready
  rw [ScopeWalk.leave]
  repeat' split
  all_goals exact fun ready => ⟨ready, opened.scopes, opened.bodies⟩

/-- Entering a node that opens a scope adds its scope, and entering another one adds none. -/
theorem enter (arranged : Arranged root sites) (ordered : sites.Pairwise fun a b => b ∉ a.above)
    (blocks : root.BlocksApart) (closed : ∀ c ∈ sites, ∀ a ∈ c.above, a ∈ sites)
    (split : sites = done ++ c :: later) (opened : walk.Opened root done) :
    (walk.enter source c).Opened root (done ++ [c]) := by
  have stands : c.whole = root := arranged.stands c (by simp [split])
  have noted (block : c.focus.kind.opensBlock = true) : walk.bodies.contains c.focus.range = c.isBody := by
    rw [Bool.eq_iff_iff, List.contains_iff_mem, opened.bodies, isBody_iff]
    constructor
    · rintro ⟨d, before, body, found, same⟩
      have standsD := arranged.stands d (by simp [split, before])
      exact ⟨d, body, (body_eq blocks stands standsD block found same).1, found, same⟩
    · rintro ⟨d, body, up, found, same⟩
      exact ⟨d, mem_of_parent ordered closed split up, body, found, same⟩
  have grows := grows_enter source opened.ready.ready c noted (kind_of_isBody blocks stands)
  refine ⟨(Attaches.stable source c.focus).enter opened.ready, ?_, ?_⟩
  · have frames := congrArg (List.map fun frame : ScopeKind × Range × Option Nat => (some frame.1, frame.2.1))
      grows.frames
    rw [List.map_append, List.map_map, List.map_map] at frames
    rw [List.filter_append, List.map_append, ← List.cons_append, ← opened.scopes]
    refine frames.trans (congrArg (_ ++ ·) ?_)
    rw [ScopeWalk.addition, List.filter_singleton, Cursor.opens]
    cases opens : c.opens? with
    | none => rfl
    | some kind => simp [opening, opens, ScopeWalk.frame, Cursor.range]
  · intro r
    rw [grows.bodies, opened.bodies]
    simp only [ScopeWalk.addition, List.mem_map, Option.mem_toList, List.mem_append, List.mem_singleton]
    constructor
    · rintro (⟨d, before, known⟩ | known)
      · exact ⟨d, .inl before, known⟩
      · exact ⟨c, .inr rfl, known⟩
    · rintro ⟨d, before | rfl, known⟩
      · exact .inl ⟨d, before, known⟩
      · exact .inr known

theorem ofTree (source : Bytes) (skipBefore : Nat) (blocks : root.BlocksApart) :
    (ScopeTable.walk source skipBefore root).Opened root (Sites.ofTree skipBefore root) := by
  have closed (c : Cursor) (mem : c ∈ Sites.ofTree skipBefore root) (a : Cursor) (above : a ∈ c.above) :
      a ∈ Sites.ofTree skipBefore root :=
    (above_of_mem_entered mem above).resolve_right nofun
  have visits : Visitor.Visits (ScopeWalk.visitor source skipBefore) (skips skipBefore)
      (fun cursor walk => walk.enter source cursor) (fun done walk => walk.Opened root done)
      (Sites.ofTree skipBefore root) := by
    refine ⟨fun _ _ => rfl, ?_, fun _ cursor _ opened => opened.leave cursor.focus⟩
    intro done c later walk split opened
    exact enter (arranged_ofTree skipBefore root) (pairwise_entered _ [] root) blocks closed split opened
  exact visits.walk rfl ⟨.start root, rfl, by simp [openScope, ScopeWalk.start]⟩

end ScopeWalk.Opened

/-- The places of the nodes of a program that open a scope. -/
def Tree.openings (root : Tree) : List Cursor := (Cursor.all root).filter opens

/-- Whether scopes are the one of a program and those of the nodes that open one and end behind an offset, in the
order of the nodes. The nodes are different and none is empty; blocks open no scopes exactly where they are bodies of
functions; and of the words and signs it is the keyword of functions that opens one. -/
structure Tree.OpensAll (root : Tree) (skipBefore : Nat) (scopes : List Scope) : Prop where
  scopes : scopes.map (fun scope => (some scope.kind, scope.range)) =
    (some .program, root.range) :: (root.openings.filter (skipBefore < ·.focus.stop)).map opening
  once : (root.openings.map address).Nodup
  wide : ∀ c ∈ root.openings, c.focus.start < c.focus.stop
  bodies : ∀ c ∈ Cursor.all root, c.kind.opensBlock = true →
    (c.opens = false ↔ ∃ function, c.parent? = some function ∧ function.focus.functionBody? = some c.focus)
  words : ∀ c ∈ Cursor.all root, c.opens = true ∧ c.focus.isNamed = false ↔ c.kind = .token "function"

theorem Cursor.isOpening_of_opens {c : Cursor} (opens : c.opens = true) : c.kind.isOpening = true := by
  rw [Cursor.opens, opens?] at opens
  rw [Kind.isOpening, Bool.or_eq_true, Bool.or_eq_true]
  split at opens
  · rename_i function
    exact .inl (.inl function)
  · split at opens
    · rename_i block
      exact .inl (.inr block)
    · split at opens
      · rename_i kind
        exact .inr kind
      · cases opens

/-- Of words and signs the keyword of functions opens a scope. -/
theorem Cursor.opens_word_iff {c : Cursor} : c.opens = true ∧ c.focus.isNamed = false ↔
    c.kind = .token "function" := by
  constructor
  · rintro ⟨opens, anonymous⟩
    have opening := isOpening_of_opens opens
    change c.kind.isNamed = false at anonymous
    cases kind : c.kind with
    | token text =>
        rw [kind] at opening
        simpa [Kind.isOpening, Kind.opensFunction, Kind.opensBlock] using opening
    | _ =>
        rw [kind] at anonymous
        cases anonymous
  · intro kind
    refine ⟨by rw [Cursor.opens, opens?, kind]; rfl, ?_⟩
    change c.kind.isNamed = false
    rw [kind]
    rfl

/-- A node that opens a scope is skipped when it does not end behind the offset. -/
theorem Sites.skips_of_opens {c : Cursor} (opens : c.opens = true) (skipBefore : Nat) :
    skips skipBefore c.focus = !decide (skipBefore < c.focus.stop) := by
  have other : c.focus.kind ≠ .program := by
    intro kind
    have opening := isOpening_of_opens opens
    rw [Cursor.kind, kind] at opening
    cases opening
  rw [skips, bne_iff_ne.mpr other, Bool.and_true, ← decide_not, decide_eq_decide, Nat.not_lt]

/-- A block opens no scope exactly where it is the body of a function. -/
theorem Cursor.opens_eq_false_iff {root : Tree} {c : Cursor}
    (blocks : root.BlocksApart) (stands : c.whole = root) (block : c.kind.opensBlock = true) :
    c.opens = false ↔ ∃ function, c.parent? = some function ∧ function.focus.functionBody? = some c.focus := by
  constructor
  · intro closed
    have inner : c.isBody = true := by
      by_contra outer
      rw [opens_of_block block outer] at closed
      cases closed
    obtain ⟨d, body, up, found, same⟩ := isBody_iff.mp inner
    obtain ⟨-, focus, -⟩ := body_eq blocks stands ((whole_parent up).trans stands) block found same
    exact ⟨d, up, focus ▸ found⟩
  · rintro ⟨d, up, found⟩
    have inner : c.isBody = true := isBody_iff.mpr ⟨d, c.focus, up, found, rfl⟩
    have kind := kind_of_isBody blocks stands block inner
    rw [Cursor.opens, opens?, inner, Cursor.kind, kind]
    rfl

/-- Whether a tree is a program that is laid out, in which blocks have their ranges for themselves and what can open a
scope is not empty. -/
structure Tree.Spacious (root : Tree) : Prop where
  program : root.kind = .program
  laid : root.LaidBelow
  blocks : root.BlocksApart
  wide : ∀ t ∈ root.nodes, t.kind.isOpening = true → t.start < t.stop

theorem Tree.spacious_ofSource (dialect : Dialect) (source : Bytes) : (ofSource dialect source).Spacious where
  program := rfl
  laid := laidBelow_ofSource dialect source
  blocks := (blocks_ofSource dialect source).1
  wide := (blocks_ofSource dialect source).2

/-- A walk enters the nodes that open scopes and end behind its offset. -/
theorem Sites.filter_opens_ofTree {root : Tree} (spacious : root.Spacious) (skipBefore : Nat) :
    (ofTree skipBefore root).filter opens = root.openings.filter (skipBefore < ·.focus.stop) := by
  rw [ofTree, filter_entered [] root, Tree.openings, Cursor.all, List.filter_filter]
  · refine List.filter_congr fun c _ => ?_
    cases opens : c.opens with
    | false => simp
    | true => rw [skips_of_opens opens, Bool.not_not, Bool.and_comm]
  · -- what is below a skipped node does not end behind it
    intro u mem skipped c below opens
    rw [skips, Bool.and_eq_true, bne_iff_ne, decide_eq_true_eq] at skipped
    have laid := spacious.laid.node mem fun same => skipped.2 (same ▸ spacious.program)
    have inside := laid.node below
    rw [skips_of_opens opens, Bool.not_eq_true', decide_eq_false_iff_not]
    omega

namespace ScopeTable

/-- The table of a program has a scope for the program and one for each node that opens one, and no others. -/
theorem ofTree_openings (source : Bytes) (skipBefore : Nat) {root : Tree} (spacious : root.Spacious) :
    root.OpensAll skipBefore (ofTree source skipBefore root).value.scopes := by
  have stands {c : Cursor} (mem : c ∈ Cursor.all root) : c.whole = root := whole_of_mem_entered mem
  constructor
  · have frames := congrArg (List.map fun frame : ScopeKind × Range × Option Nat => (some frame.1, frame.2.1))
      (keeps_ofTree source skipBefore root).frames
    rw [List.map_map, List.map_map] at frames
    rw [← filter_opens_ofTree spacious]
    exact frames.trans (ScopeWalk.Opened.ofTree source skipBefore spacious.blocks).scopes
  · exact (nodup_entered _ [] root).sublist (List.filter_sublist.map _)
  · intro c mem
    obtain ⟨known, opens⟩ := List.mem_filter.mp mem
    have mem := c.focus_mem_whole
    rw [stands known] at mem
    exact spacious.wide c.focus mem (isOpening_of_opens opens)
  · exact fun c mem block => opens_eq_false_iff spacious.blocks (stands mem) block
  · exact fun c _ => opens_word_iff

/-- The program `function f(){}`. -/
def bodied : Bytes := [0x66, 0x75, 0x6E, 0x63, 0x74, 0x69, 0x6F, 0x6E, 0x20, 0x66, 0x28, 0x29, 0x7B, 0x7D]

/-- Of the function, its body and its keyword, the function and the keyword open scopes. -/
theorem bodied_openings :
    let root := Tree.ofSource .javascript bodied
    root.Spacious ∧ root.OpensAll 0 (ofTree bodied 0 root).value.scopes ∧
      root.openings.map opening = [(some .function, ⟨0, 14⟩), (some .function, ⟨0, 8⟩)] := by
  intro root
  have spacious := Tree.spacious_ofSource .javascript bodied
  exact ⟨spacious, ofTree_openings bodied 0 spacious, by decide +kernel⟩

end ScopeTable

end Rebundle
