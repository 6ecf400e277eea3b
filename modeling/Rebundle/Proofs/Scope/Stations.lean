import Rebundle.Proofs.Scope.Attachment
import Rebundle.Proofs.Scope.Grammatical

/-!
# What a walk does with names

A name is declared or ignored from a node above it, before the walk comes to the name itself. So what is
collected as a reference is neither declared nor ignored later, and in the end every name that was visited is
declared, ignored or collected.
-/

namespace Rebundle

open Cursor Sites

namespace ScopeWalk

variable {source : Bytes} {walk : ScopeWalk}

theorem exists_of_mem_held {namings : List Naming} {entry : Nat × Tree} (mem : entry ∈ walk.held namings) :
    ∃ naming ∈ namings, naming.name = entry.2 := by
  obtain ⟨naming, here, rfl⟩ := List.mem_map.mp mem
  exact ⟨naming, here, rfl⟩

theorem collects_iff {t : Tree} : walk.collects t = true ↔
    t.kind.isName = true ∧ t.kind ≠ .typeIdentifier ∧ t.range ∉ walk.declared ∧ t.range ∉ walk.ignored := by
  simp [collects, and_assoc]

/-- What entering a place adds to a walk, whatever is open: nothing is declared but what the node declares, what
it knows of other modules is ignored, and the node is collected if it is a reference then. -/
structure Adds (source : Bytes) (c : Cursor) (walk : ScopeWalk) (more : Delta) : Prop where
  grows : Grows source walk (walk.enter source c) more
  declared : ∀ entry ∈ more.declared, ∃ naming ∈ c.focus.namings, naming.name = entry.2
  ignored : more.ignored = c.foreign.map Tree.range
  pending : more.pending = if walk.collects c.focus then [⟨c.focus.text source, c.range, walk.current⟩] else []

theorem exists_adds (source : Bytes) (ready : walk.Ready) (c : Cursor) : ∃ more, Adds source c walk more := by
  have whole (grows : Grows source walk (walk.enter source c) (walk.addition source c)) :
      ∃ more, Adds source c walk more :=
    ⟨_, grows, fun _ => exists_of_mem_held, rfl, rfl⟩
  by_cases function : c.focus.kind.opensFunction = true
  · refine whole ?_
    rw [ScopeWalk.enter, if_pos function]
    exact grows_function ready function
  by_cases block : c.focus.kind.opensBlock = true
  · -- a block in the place of a function body declares nothing
    have foreign := foreign_of (c := c) (.inr (.inl block))
    have other := collects_of_not walk (isName_of (.inr (.inl block)))
    have enters : walk.enter source c = walk.enterBlock source c.focus := by
      rw [ScopeWalk.enter, if_neg function, if_pos block]
    by_cases body : walk.bodies.contains c.focus.range = true
    · refine ⟨{}, ?_, by simp, by rw [foreign]; rfl, by rw [other]; rfl⟩
      rw [enters, ScopeWalk.enterBlock, if_pos body]
      exact .refl walk
    · have grows : Grows source walk (walk.enterBlock source c.focus) _ :=
        .enterBlock ready c.focus (Bool.eq_false_iff.mpr body)
      refine ⟨_, enters ▸ grows, fun entry mem => ?_, by rw [foreign]; rfl, by rw [other]; rfl⟩
      rw [Tree.namings, if_neg function, if_pos block]
      exact exists_of_mem_held mem
  exact whole (grows_enter source ready c (fun block' => absurd block' block) fun block' => absurd block' block)

namespace Adds

variable {more : Delta} {c : Cursor} {r : Range} {reference : PendingReference}

theorem declared_cases (adds : Adds source c walk more) (mem : r ∈ (walk.enter source c).declared) :
    r ∈ walk.declared ∨ ∃ naming ∈ c.focus.namings, naming.name.range = r := by
  refine ((adds.grows.declared r).mp mem).imp_right fun new => ?_
  obtain ⟨entry, here, rfl⟩ := List.mem_map.mp new
  obtain ⟨naming, told, same⟩ := adds.declared entry here
  exact ⟨naming, told, by rw [same]⟩

theorem ignored_cases (adds : Adds source c walk more) (mem : r ∈ (walk.enter source c).ignored) :
    r ∈ walk.ignored ∨ ∃ n ∈ c.foreign, n.range = r := by
  refine ((adds.grows.ignored r).mp mem).imp_right fun new => ?_
  rw [adds.ignored] at new
  exact List.mem_map.mp new

theorem of_mem_pending (adds : Adds source c walk more) (mem : reference ∈ more.pending) :
    walk.collects c.focus = true ∧ reference.place = c.range := by
  rw [adds.pending] at mem
  split at mem
  · rename_i collected
    exact ⟨collected, congrArg PendingReference.place (List.mem_singleton.mp mem)⟩
  · cases mem

theorem pending_cases (adds : Adds source c walk more) (mem : reference ∈ (walk.enter source c).pending) :
    reference ∈ walk.pending ∨ walk.collects c.focus = true ∧ reference.place = c.range := by
  rw [adds.grows.pending] at mem
  exact (List.mem_append.mp mem).imp_right adds.of_mem_pending

/-- What was declared, ignored or collected stays so. -/
theorem told (adds : Adds source c walk more)
    (known : r ∈ walk.declared ∨ r ∈ walk.ignored ∨ r ∈ walk.pending.map (·.place)) :
    r ∈ (walk.enter source c).declared ∨ r ∈ (walk.enter source c).ignored ∨
      r ∈ (walk.enter source c).pending.map (·.place) := by
  rw [adds.grows.declared, adds.grows.ignored, adds.grows.pending, List.map_append, List.mem_append]
  exact known.imp .inl (Or.imp .inl .inl)

/-- A name is at one of the three when it has been entered. -/
theorem told_own (adds : Adds source c walk more) (isName : c.focus.kind.isName = true)
    (other : c.focus.kind ≠ .typeIdentifier) :
    c.range ∈ (walk.enter source c).declared ∨ c.range ∈ (walk.enter source c).ignored ∨
      c.range ∈ (walk.enter source c).pending.map (·.place) := by
  by_cases collected : walk.collects c.focus = true
  · refine .inr (.inr ?_)
    rw [adds.grows.pending, adds.pending, if_pos collected]
    simp
  · have known : c.range ∈ walk.declared ∨ c.range ∈ walk.ignored := by
      by_contra free
      exact collected (collects_iff.mpr ⟨isName, other, not_or.mp free⟩)
    exact adds.told (known.imp_right .inl)

/-- A name tells nothing of other names. -/
theorem apart_own (adds : Adds source c walk more) (isName : c.focus.kind.isName = true)
    (free : c.range ∉ walk.declared) (visible : c.range ∉ walk.ignored) :
    c.range ∉ (walk.enter source c).declared ∧ c.range ∉ (walk.enter source c).ignored := by
  constructor
  · intro mem
    rcases adds.declared_cases mem with known | ⟨naming, told, _⟩
    · exact free known
    · rw [Tree.namings_of_isName isName] at told
      cases told
  · intro mem
    rcases adds.ignored_cases mem with known | ⟨n, told, _⟩
    · exact visible known
    · rw [foreign_of (.inr (.inr (.inr isName)))] at told
      cases told

end Adds

end ScopeWalk

/-- What a walk has done with the names of the places before it: nothing is declared or ignored but what these
places declare and ignore, what is collected is neither, and every name is at one of the three. -/
structure ScopeWalk.Parts (done : List Cursor) (walk : ScopeWalk) : Prop where
  attaches : walk.Attaches
  declared : ∀ r ∈ walk.declared, ∃ d ∈ done, ∃ naming ∈ d.focus.namings, naming.name.range = r
  ignored : ∀ r ∈ walk.ignored, ∃ d ∈ done, ∃ n ∈ d.foreign, n.range = r
  pending : ∀ reference ∈ walk.pending, ∃ c ∈ done, c.kind.isName = true ∧ c.range = reference.place
  once : (walk.pending.map (·.place)).Nodup
  apart : ∀ reference ∈ walk.pending, reference.place ∉ walk.declared ∧ reference.place ∉ walk.ignored
  complete : ∀ c ∈ done, c.kind.isName = true → c.kind ≠ .typeIdentifier →
    c.range ∈ walk.declared ∨ c.range ∈ walk.ignored ∨ c.range ∈ walk.pending.map (·.place)

namespace ScopeWalk.Parts

variable {source : Bytes} {root : Tree} {sites done later : List Cursor} {walk : ScopeWalk} {c : Cursor}

theorem leave (parts : walk.Parts done) (t : Tree) : (walk.leave t).Parts done := by
  have attaches := parts.attaches.leave t
  revert attaches
  rw [ScopeWalk.leave]
  split
  · split
    · exact fun attaches => ⟨attaches, parts.declared, parts.ignored, parts.pending, parts.once, parts.apart,
        parts.complete⟩
    · exact fun _ => parts
  · exact fun _ => parts

section

variable (arranged : Arranged root sites) (ordered : sites.Pairwise fun a b => b ∉ a.above)
  (apart : root.NamesApart) (split : sites = done ++ c :: later)

include arranged ordered apart split

/-- The names below a place are other ones than those before it. -/
theorem fresh {p name : Tree} (below : p ∈ c.focus.nodes) (child : name ∈ p.children)
    (isName : name.kind.isName = true) {d : Cursor} (before : d ∈ done) (isName' : d.kind.isName = true) :
    name.range ≠ d.range := by
  intro same
  obtain ⟨e, rfl, whole, above, _⟩ := exists_under below child
  have standsC := arranged.stands c (by simp [split])
  have standsD := arranged.stands d (by simp [split, before])
  have equal : e = d := eq_of_range_eq apart (whole.trans standsC) standsD isName isName' same
  rw [split] at ordered
  exact (List.pairwise_append.mp ordered).2.2 d before c List.mem_cons_self (equal ▸ above)

variable (grammatical : root.Grammatical)

include grammatical

/-- What a node declares or ignores is no name before it. -/
theorem not_told {d : Cursor} (before : d ∈ done) (isName : d.kind.isName = true) :
    (∀ naming ∈ c.focus.namings, naming.name.range ≠ d.range) ∧ ∀ n ∈ c.foreign, n.range ≠ d.range := by
  have standsC := arranged.stands c (by simp [split])
  have standsD := arranged.stands d (by simp [split, before])
  have known : c.focus ∈ root.nodes := standsC ▸ c.focus_mem_whole
  constructor
  · intro naming told
    obtain ⟨p, below, child, _⟩ := Tree.holds_of_namings told
    exact fresh arranged ordered apart split below child (grammatical.names c.focus known naming told) before isName
  · intro n mem
    have lent := lent_of_foreign mem
    obtain ⟨p, below, child, _⟩ := Tree.exists_of_lent lent
    rcases grammatical.lent c.focus known n lent with name | other
    · exact fresh arranged ordered apart split below child name before isName
    · exact (other d.focus (standsD ▸ d.focus_mem_whole) isName).symm

omit ordered grammatical in
/-- A name is collected once: it is another one than those collected before it. -/
theorem once_enter (parts : walk.Parts done) {more : Delta} (adds : Adds source c walk more) :
    ((walk.enter source c).pending.map (·.place)).Nodup := by
  rw [adds.grows.pending, List.map_append, List.nodup_append]
  refine ⟨parts.once, ?_, ?_⟩
  · rw [adds.pending]
    split <;> simp
  · rintro r old _ new rfl
    obtain ⟨reference, here, rfl⟩ := List.mem_map.mp old
    obtain ⟨other, there, same⟩ := List.mem_map.mp new
    obtain ⟨d, before, isName, place⟩ := parts.pending reference here
    obtain ⟨collected, place'⟩ := adds.of_mem_pending there
    have equal : d = c := eq_of_range_eq apart (arranged.stands d (by simp [split, before]))
      (arranged.stands c (by simp [split])) isName (collects_iff.mp collected).1 (by rw [place, ← same, place'])
    have nodup := arranged.nodup.of_map
    rw [split] at nodup
    exact (List.nodup_append.mp nodup).2.2 d before c List.mem_cons_self equal

/-- What is collected before a place is neither declared nor ignored there. -/
theorem apart_before (parts : walk.Parts done) {more : Delta} (adds : Adds source c walk more)
    {reference : PendingReference} (old : reference ∈ walk.pending) :
    reference.place ∉ (walk.enter source c).declared ∧ reference.place ∉ (walk.enter source c).ignored := by
  obtain ⟨d, before, isName, place⟩ := parts.pending reference old
  obtain ⟨free, visible⟩ := parts.apart reference old
  obtain ⟨otherNames, otherModules⟩ := not_told arranged ordered apart split grammatical before isName
  constructor
  · intro mem
    rcases adds.declared_cases mem with known | ⟨naming, told, same⟩
    · exact free known
    · exact otherNames naming told (same.trans place.symm)
  · intro mem
    rcases adds.ignored_cases mem with known | ⟨n, told, same⟩
    · exact visible known
    · exact otherModules n told (same.trans place.symm)

theorem enter (parts : walk.Parts done) : (walk.enter source c).Parts (done ++ [c]) := by
  obtain ⟨more, adds⟩ := exists_adds source parts.attaches.ready c
  have here : c ∈ done ++ [c] := List.mem_append_right _ List.mem_cons_self
  refine ⟨(Attaches.stable source c.focus).enter parts.attaches, fun r mem => ?_, fun r mem => ?_,
    fun reference mem => ?_, once_enter arranged apart split parts adds, fun reference mem => ?_,
    fun d mem isName other => ?_⟩
  · rcases adds.declared_cases mem with old | told
    · obtain ⟨d, before, told⟩ := parts.declared r old
      exact ⟨d, List.mem_append_left _ before, told⟩
    · exact ⟨c, here, told⟩
  · rcases adds.ignored_cases mem with old | told
    · obtain ⟨d, before, told⟩ := parts.ignored r old
      exact ⟨d, List.mem_append_left _ before, told⟩
    · exact ⟨c, here, told⟩
  · rcases adds.pending_cases mem with old | ⟨collected, place⟩
    · obtain ⟨d, before, name⟩ := parts.pending reference old
      exact ⟨d, List.mem_append_left _ before, name⟩
    · exact ⟨c, here, (collects_iff.mp collected).1, place.symm⟩
  · rcases adds.pending_cases mem with old | ⟨collected, place⟩
    · exact apart_before arranged ordered apart split grammatical parts adds old
    · obtain ⟨isName, _, free, visible⟩ := collects_iff.mp collected
      rw [place]
      exact adds.apart_own isName free visible
  · rcases List.mem_append.mp mem with before | own
    · exact adds.told (parts.complete d before isName other)
    · obtain rfl := List.mem_singleton.mp own
      exact adds.told_own isName other

end

/-- In the end every name is declared, ignored or collected. -/
theorem ofTree (source : Bytes) (skipBefore : Nat) {root : Tree} (apart : root.NamesApart)
    (grammatical : root.Grammatical) :
    (ScopeTable.walk source skipBefore root).Parts (Sites.ofTree skipBefore root) := by
  have visits : Visitor.Visits (ScopeWalk.visitor source skipBefore) (skips skipBefore)
      (fun cursor walk => walk.enter source cursor) (fun done walk => walk.Parts done)
      (Sites.ofTree skipBefore root) := by
    refine ⟨fun _ _ => rfl, ?_, fun _ cursor _ parts => parts.leave cursor.focus⟩
    intro done c later walk split parts
    exact enter (arranged_ofTree skipBefore root) (pairwise_entered _ [] root) apart split grammatical parts
  exact visits.walk rfl ⟨.start root, by simp [openScope, ScopeWalk.start], by simp [openScope, ScopeWalk.start],
    by simp [openScope, ScopeWalk.start], by simp [openScope, ScopeWalk.start],
    by simp [openScope, ScopeWalk.start], by simp⟩

end ScopeWalk.Parts

/-- What a node declares is declared in the end, unless the node is a block in the place of a function body. -/
theorem ScopeTable.declared_of_namings (source : Bytes) (skipBefore : Nat) {root : Tree} {c : Cursor}
    (mem : c ∈ Sites.ofTree skipBefore root) (kind : c.focus.kind.opensBlock = false) {naming : Naming}
    (told : naming ∈ c.focus.namings) : naming.name.range ∈ (walk source skipBefore root).declared := by
  let holds (done : List Cursor) (walk : ScopeWalk) : Prop := walk.Attaches ∧ ∀ d ∈ done,
    d.focus.kind.opensBlock = false → ∀ naming ∈ d.focus.namings, naming.name.range ∈ walk.declared
  have visits : Visitor.Visits (ScopeWalk.visitor source skipBefore) (skips skipBefore)
      (fun cursor walk => walk.enter source cursor) holds (Sites.ofTree skipBefore root) := by
    refine ⟨fun _ _ => rfl, ?_, ?_⟩
    · rintro done d later walk _ ⟨attaches, declared⟩
      refine ⟨(ScopeWalk.Attaches.stable source d.focus).enter attaches, fun e mem plain naming told => ?_⟩
      rcases List.mem_append.mp mem with before | here
      · obtain ⟨more, adds⟩ := ScopeWalk.exists_adds source attaches.ready d
        exact (adds.grows.declared _).mpr (.inl (declared e before plain naming told))
      · rw [List.mem_singleton] at here
        subst here
        have grows := ScopeWalk.grows_enter source attaches.ready e (fun block => by simp [plain] at block)
          fun block => by simp [plain] at block
        exact (grows.declared _).mpr (.inr (List.mem_map.mpr ⟨_, List.mem_map.mpr ⟨naming, told, rfl⟩, rfl⟩))
    · rintro done d walk ⟨attaches, declared⟩
      have same : (walk.leave d.focus).declared = walk.declared := by
        rw [ScopeWalk.leave]
        repeat' split
        all_goals rfl
      exact ⟨attaches.leave d.focus, same ▸ declared⟩
  exact (visits.walk rfl ⟨.start root, by simp⟩).2 c mem kind naming told

end Rebundle
