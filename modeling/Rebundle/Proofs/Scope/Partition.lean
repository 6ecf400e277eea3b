import Rebundle.Proofs.Scope.Free
import Rebundle.Proofs.Scope.Stations

/-!
# Every name has one station

Every name that an analysis visits ends at one station: a binding declares it, a binding refers to it, it is
left free, or it belongs to another module.
-/

namespace Rebundle

open Cursor Sites

/-- Where a name can end: in a binding that declares it or refers to it, free, or in another module. -/
inductive Station where
  | declares (ref : BindingRef)
  | refers (ref : BindingRef)
  | free
  | ignored

/-- The station of what sees a binding, or sees none. -/
def Station.ofTarget : Option BindingRef → Station
  | some ref => .refers ref
  | none => .free

namespace ScopeTable

/-- Whether a place is at a station, when the places of other modules are `ignored`. -/
def At (ignored : List Range) (place : Range) (table : ScopeTable) : Station → Prop
  | .declares ref => ∃ binding, table.binding? ref = some binding ∧ place ∈ binding.declarations
  | .refers ref => ∃ binding, table.binding? ref = some binding ∧ place ∈ binding.references
  | .free => place ∈ table.unresolved.map (·.2)
  | .ignored => place ∈ ignored

namespace Attaches

variable {table : ScopeTable} {place : Range} {ref ref' : BindingRef} {binding binding' : Binding}

/-- A place has one binding. -/
theorem ref_unique (attaches : table.Attaches) (found : table.binding? ref = some binding)
    (found' : table.binding? ref' = some binding') (mem : place ∈ binding.places) (mem' : place ∈ binding'.places) :
    ref = ref' := by
  have first := (attaches.found place ref).mpr ⟨binding, found, mem⟩
  have second := (attaches.found place ref').mpr ⟨binding', found', mem'⟩
  exact Option.some.inj (first.symm.trans second)

theorem isDeclaration_iff (attaches : table.Attaches) : table.isDeclaration place = true ↔
    ∃ ref binding, table.binding? ref = some binding ∧ place ∈ binding.declarations := by
  rw [isDeclaration]
  constructor
  · intro holds
    split at holds
    · rename_i binding bound
      obtain ⟨ref, _, found⟩ := Option.bind_eq_some_iff.mp bound
      exact ⟨ref, binding, found, by simpa using holds⟩
    · cases holds
  · rintro ⟨ref, binding, found, declares⟩
    have bound := (attaches.found place ref).mpr ⟨binding, found, List.mem_append_left _ declares⟩
    rw [bound, Option.bind_some, found]
    simpa using declares

end Attaches

section

variable (source : Bytes) (skipBefore : Nat) {root : Tree} (apart : root.NamesApart)
  (grammatical : root.Grammatical) {place : Range}

include apart grammatical

theorem attaches_ofTree : (ofTree source skipBefore root).value.Attaches := by
  have parts := ScopeWalk.Parts.ofTree source skipBefore apart grammatical
  refine parts.attaches.table.foldl_resolve (fun reference mem => ?_) parts.once
  have free := (parts.apart reference mem).1
  rw [parts.attaches.declared] at free
  exact Option.not_isSome_iff_eq_none.mp free

/-- A binding declares every declared place. -/
theorem exists_declares_ofTree (mem : place ∈ (walk source skipBefore root).declared) :
    ∃ ref binding, (ofTree source skipBefore root).value.binding? ref = some binding ∧
      place ∈ binding.declarations := by
  have parts := ScopeWalk.Parts.ofTree source skipBefore apart grammatical
  rw [parts.attaches.declared] at mem
  obtain ⟨ref, bound⟩ := Option.isSome_iff_exists.mp mem
  obtain ⟨binding, found, here⟩ := (parts.attaches.table.found place ref).mp bound
  have kept : ((ofTree source skipBefore root).value.binding? ref).isSome = true := by
    rw [isSome_binding?, (keeps_ofTree source skipBefore root).declared]
    exact isSome_binding?.mp (Option.isSome_iff_exists.mpr ⟨binding, found⟩)
  obtain ⟨last, known⟩ := Option.isSome_iff_exists.mp kept
  obtain ⟨before, found', same⟩ := declarations_foldl known
  have equal : binding = before := Option.some.inj (found.symm.trans found')
  subst equal
  obtain ⟨scope, mem, entry⟩ := Option.bind_eq_some_iff.mp found
  have unreferred := (clean_walk source skipBefore root scope (List.mem_of_getElem? mem)).references _
    (Table.mem_of_get? entry)
  rw [Binding.places, unreferred, List.append_nil] at here
  exact ⟨ref, last, known, same ▸ here⟩

end

section

variable (source : Bytes) (skipBefore : Nat) (root : Tree) {place : Range} {ref : BindingRef} {binding : Binding}

/-- What was collected is at the station of what it sees. -/
theorem at_target {reference : PendingReference} (mem : reference ∈ (walk source skipBefore root).pending)
    (ignored : List Range) : (ofTree source skipBefore root).value.At ignored reference.place
      (.ofTarget (reference.target (ofTree source skipBefore root).value.scopes)) := by
  have resolves := Resolves.ofTree source skipBefore root
  cases sees : reference.target (ofTree source skipBefore root).value.scopes with
  | none =>
      rw [Station.ofTarget, At, resolves.unresolved, List.map_map]
      exact List.mem_map.mpr ⟨reference, List.mem_filter.mpr ⟨mem, decide_eq_true sees⟩, rfl⟩
  | some ref =>
      have declared := (Scope.lookup_eq_some_iff.mp sees).2.2.1
      rw [← (Scope.lookup_eq_some_iff.mp sees).1] at declared
      obtain ⟨binding, found⟩ := Option.isSome_iff_exists.mp (isSome_binding?.mpr declared)
      refine ⟨binding, found, ?_⟩
      rw [resolves.references ref binding found]
      exact List.mem_map.mpr ⟨reference, List.mem_filter.mpr ⟨mem, decide_eq_true sees⟩, rfl⟩

/-- What is at a station was declared, or was collected and sees what the station tells, or was ignored. -/
theorem at_cases {ignored : List Range} {station : Station}
    (here : (ofTree source skipBefore root).value.At ignored place station) :
    (∃ ref, station = .declares ref ∧ place ∈ (walk source skipBefore root).declared) ∨
      (∃ reference ∈ (walk source skipBefore root).pending, reference.place = place ∧
        station = .ofTarget (reference.target (ofTree source skipBefore root).value.scopes)) ∨
          station = .ignored ∧ place ∈ ignored := by
  have resolves := Resolves.ofTree source skipBefore root
  cases station with
  | declares ref =>
      obtain ⟨binding, found, mem⟩ := here
      exact .inl ⟨ref, rfl, (declared_of_declarations source skipBefore root found mem).1⟩
  | refers ref =>
      obtain ⟨binding, found, mem⟩ := here
      rw [resolves.references ref binding found] at mem
      obtain ⟨reference, kept, same⟩ := List.mem_map.mp mem
      obtain ⟨pending, sees⟩ := List.mem_filter.mp kept
      exact .inr (.inl ⟨reference, pending, same, by rw [of_decide_eq_true sees]; rfl⟩)
  | free =>
      rw [At, resolves.unresolved, List.map_map] at here
      obtain ⟨reference, kept, same⟩ := List.mem_map.mp here
      obtain ⟨pending, sees⟩ := List.mem_filter.mp kept
      exact .inr (.inl ⟨reference, pending, same, by rw [of_decide_eq_true sees]; rfl⟩)
  | ignored => exact .inr (.inr ⟨rfl, here⟩)

end

section

variable (source : Bytes) (skipBefore : Nat) {root : Tree} (apart : root.NamesApart)
  (grammatical : root.Grammatical) {c : Cursor}

include apart grammatical

/-- A name that is declared belongs to no other module. -/
theorem not_ignored_of_declared (stands : c.whole = root) (isName : c.kind.isName = true)
    (declared : c.range ∈ (walk source skipBefore root).declared) :
    c.range ∉ (walk source skipBefore root).ignored := by
  intro ignored
  have parts := ScopeWalk.Parts.ofTree source skipBefore apart grammatical
  obtain ⟨d, siteD, naming, told, same⟩ := parts.declared c.range declared
  obtain ⟨e, siteE, n, mem, same'⟩ := parts.ignored c.range ignored
  have standsD : d.whole = root := whole_of_mem_entered siteD
  have standsE : e.whole = root := whole_of_mem_entered siteE
  have isName' : n.kind.isName = true := by
    refine (grammatical.lent e.focus (standsE ▸ e.focus_mem_whole) n (lent_of_foreign mem)).resolve_right ?_
    exact fun other => other c.focus (stands ▸ c.focus_mem_whole) isName same'.symm
  exact not_foreign_of_naming apart grammatical standsD standsE told mem isName' (same.trans same'.symm)

/-- No name is at two stations. -/
theorem at_unique (stands : c.whole = root) (isName : c.kind.isName = true) {station station' : Station}
    (here : (ofTree source skipBefore root).value.At (walk source skipBefore root).ignored c.range station)
    (there : (ofTree source skipBefore root).value.At (walk source skipBefore root).ignored c.range station') :
    station = station' := by
  have parts := ScopeWalk.Parts.ofTree source skipBefore apart grammatical
  have hidden := not_ignored_of_declared source skipBefore apart grammatical stands isName
  have collected {reference : PendingReference} (mem : reference ∈ (walk source skipBefore root).pending)
      (place : reference.place = c.range) : c.range ∉ (walk source skipBefore root).declared ∧
        c.range ∉ (walk source skipBefore root).ignored := place ▸ parts.apart reference mem
  rcases at_cases source skipBefore root here with
    ⟨ref, rfl, declared⟩ | ⟨reference, pending, place, rfl⟩ | ⟨rfl, ignored⟩
  · rcases at_cases source skipBefore root there with
      ⟨ref', rfl, _⟩ | ⟨reference, pending, place, _⟩ | ⟨_, ignored⟩
    · obtain ⟨binding, found, mem⟩ := here
      obtain ⟨binding', found', mem'⟩ := there
      have attaches := attaches_ofTree source skipBefore apart grammatical
      rw [attaches.ref_unique found found' (List.mem_append_left _ mem) (List.mem_append_left _ mem')]
    · exact absurd declared (collected pending place).1
    · exact absurd ignored (hidden declared)
  · rcases at_cases source skipBefore root there with
      ⟨_, _, declared⟩ | ⟨reference', pending', place', rfl⟩ | ⟨_, ignored⟩
    · exact absurd declared (collected pending place).1
    · rw [List.inj_on_of_nodup_map parts.once pending pending' (place.trans place'.symm)]
    · exact absurd ignored (collected pending place).2
  · rcases at_cases source skipBefore root there with
      ⟨_, _, declared⟩ | ⟨reference, pending, place, _⟩ | ⟨rfl, _⟩
    · exact absurd ignored (hidden declared)
    · exact absurd ignored (collected pending place).2
    · rfl

/-- Every name that is visited is at some station. -/
theorem exists_at (mem : c ∈ Sites.ofTree skipBefore root) (isName : c.kind.isName = true)
    (other : c.kind ≠ .typeIdentifier) : ∃ station,
      (ofTree source skipBefore root).value.At (walk source skipBefore root).ignored c.range station := by
  have parts := ScopeWalk.Parts.ofTree source skipBefore apart grammatical
  rcases parts.complete c mem isName other with declared | ignored | collected
  · obtain ⟨ref, binding, found, here⟩ := exists_declares_ofTree source skipBefore apart grammatical declared
    exact ⟨.declares ref, binding, found, here⟩
  · exact ⟨.ignored, ignored⟩
  · obtain ⟨reference, pending, place⟩ := List.mem_map.mp collected
    exact ⟨_, place ▸ at_target source skipBefore root pending _⟩

end

/-- The scope table of a program is a partition of its names. Every name that is visited is at one station: one
binding declares it, or one binding refers to it, or it is free, or it belongs to another module. What a binding
holds has the name of the binding for its text and is held once; a binding is found at a place exactly where it
holds the place, and a place is a declaration exactly where a binding declares it. Every binding is stored in its
scope under its name, and declared somewhere. -/
theorem ofTree_partition (source : Bytes) (skipBefore : Nat) {root : Tree} (apart : root.NamesApart)
    (grammatical : root.Grammatical) :
    let table := (ofTree source skipBefore root).value
    (∀ c ∈ Sites.ofTree skipBefore root, c.kind.isName = true → c.kind ≠ .typeIdentifier →
      ∃! station, table.At (walk source skipBefore root).ignored c.range station) ∧
    (table.unresolved.map (·.2)).Nodup ∧
    (∀ ref binding, table.binding? ref = some binding →
      binding.places.Nodup ∧ ∀ place ∈ binding.places, place.text source = ref.name) ∧
    (∀ place ref, table.bindingFor place = some ref ↔
      ∃ binding, table.binding? ref = some binding ∧ place ∈ binding.places) ∧
    (∀ place, table.isDeclaration place = true ↔
      ∃ ref binding, table.binding? ref = some binding ∧ place ∈ binding.declarations) ∧
    ∀ bound ∈ table.bindings, table.binding? bound.1 = some bound.2 ∧ bound.2.declarations ≠ [] := by
  intro table
  have attaches : table.Attaches := attaches_ofTree source skipBefore apart grammatical
  have resolves := Resolves.ofTree source skipBefore root
  refine ⟨?_, ?_, ?_, attaches.found, fun _ => attaches.isDeclaration_iff, ?_⟩
  · intro c mem isName other
    obtain ⟨station, here⟩ := exists_at source skipBefore apart grammatical mem isName other
    exact ⟨station, here, fun station' there =>
      at_unique source skipBefore apart grammatical (whole_of_mem_entered mem) isName there here⟩
  · rw [resolves.unresolved, List.map_map]
    have once := (ScopeWalk.Parts.ofTree source skipBefore apart grammatical).once
    exact once.sublist (List.filter_sublist.map _)
  · intro ref binding found
    exact ⟨attaches.once ref binding found, fun place mem => text_of_places source skipBefore root found mem⟩
  · intro bound mem
    have found := binding?_of_mem_bindings resolves.nodup mem
    exact ⟨found, attaches.declared _ _ found⟩

/-- The program `import{b as a}from"m";a;c`. -/
def sorting : Bytes :=
  [0x69, 0x6D, 0x70, 0x6F, 0x72, 0x74, 0x7B, 0x62, 0x20, 0x61, 0x73, 0x20, 0x61, 0x7D, 0x66, 0x72,
    0x6F, 0x6D, 0x22, 0x6D, 0x22, 0x3B, 0x61, 0x3B, 0x63]

def sorted : Tree :=
  let leaf (kind : Kind) (role : Option Role) (start stop : Nat) : Tree :=
    .node ⟨kind, role, ⟨start, stop⟩, false⟩ []
  .node ⟨.program, none, ⟨0, 25⟩, false⟩ [
    .node ⟨.importStatement, none, ⟨0, 22⟩, false⟩ [
      leaf (.token "import") none 0 6,
      .node ⟨.importClause, none, ⟨6, 14⟩, false⟩ [
        .node ⟨.namedImports, none, ⟨6, 14⟩, false⟩ [
          leaf (.token "\x7b") none 6 7,
          .node ⟨.importSpecifier, none, ⟨7, 13⟩, false⟩ [
            leaf .identifier (some .name) 7 8, leaf (.token "as") none 9 11, leaf .identifier (some .alias) 12 13],
          leaf (.token "\x7d") none 13 14]],
      leaf (.token "from") none 14 18,
      leaf .string (some .source) 18 21,
      leaf (.token ";") none 21 22],
    .node ⟨.expressionStatement, none, ⟨22, 24⟩, false⟩
      [leaf .identifier none 22 23, leaf (.token ";") none 23 24],
    .node ⟨.expressionStatement, none, ⟨24, 25⟩, false⟩ [leaf .identifier none 24 25]]

/-- The first `a` declares, the second one refers to it, `c` is free, and `b` belongs to the other module. -/
theorem sorted_stations : sorted.NamesApart ∧ sorted.Grammatical ∧
    let table := (ofTree sorting 0 sorted).value
    let ignored := (walk sorting 0 sorted).ignored
    (∀ station, table.At ignored ⟨12, 13⟩ station ↔ station = .declares ⟨0, "a"⟩) ∧
    (∀ station, table.At ignored ⟨22, 23⟩ station ↔ station = .refers ⟨0, "a"⟩) ∧
    (∀ station, table.At ignored ⟨24, 25⟩ station ↔ station = .free) ∧
    ∀ station, table.At ignored ⟨7, 8⟩ station ↔ station = .ignored := by
  have apart : sorted.NamesApart := by decide +kernel
  have grammatical : sorted.Grammatical := by decide +kernel
  refine ⟨apart, grammatical, ?_⟩
  intro table ignored
  obtain ⟨partition, _⟩ := ofTree_partition sorting 0 apart grammatical
  have only {place : Range} {station : Station} (here : table.At ignored place station)
      (visited : ∃ c ∈ Sites.ofTree 0 sorted, c.kind.isName = true ∧ c.kind ≠ .typeIdentifier ∧
        c.range = place)
      (other : Station) : table.At ignored place other ↔ other = station := by
    obtain ⟨c, mem, isName, kind, rfl⟩ := visited
    obtain ⟨first, _, unique⟩ := partition c mem isName kind
    constructor
    · exact fun there => (unique other there).trans (unique station here).symm
    · rintro rfl
      exact here
  have bound (ref : BindingRef) (places : Binding → List Range) (place : Range)
      (found : (table.binding? ref).any (fun binding => (places binding).contains place) = true) :
      ∃ binding, table.binding? ref = some binding ∧ place ∈ places binding := by
    obtain ⟨binding, found, here⟩ := (Option.any_eq_true _ _).mp found
    exact ⟨binding, found, List.contains_iff_mem.mp here⟩
  refine ⟨only ?_ (by decide +kernel), only ?_ (by decide +kernel), only ?_ (by decide +kernel),
    only ?_ (by decide +kernel)⟩
  · exact bound ⟨0, "a"⟩ Binding.declarations ⟨12, 13⟩ (by decide +kernel)
  · exact bound ⟨0, "a"⟩ Binding.references ⟨22, 23⟩ (by decide +kernel)
  · exact (by decide +kernel : (⟨24, 25⟩ : Range) ∈ table.unresolved.map (·.2))
  · exact (by decide +kernel : (⟨7, 8⟩ : Range) ∈ ignored)

end ScopeTable

end Rebundle
