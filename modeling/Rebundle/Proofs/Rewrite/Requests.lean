import Rebundle.Proofs.Scope.Sites
import Rebundle.Rewrite.Modules

/-!
# What an import becomes

The statement that stands for an import asks for the module once, and declares names for it and for its properties.
Read from the left to the right, its declarators give every imported name what the import says.
-/

namespace Rebundle

namespace Modules

/-- What a declared name stands for: the module, a property of the module, or something else. -/
inductive Meaning where
  | module
  | property (name : Text)
  | other
deriving DecidableEq

/-- What a property of a value is. -/
def Meaning.get (name : Text) : Meaning → Meaning
  | .module => .property name
  | _ => .other

/-- A property of a value and the name that it is bound to. -/
structure Member where
  imported : Text
  name : Text
deriving DecidableEq

/-- What a declarator declares: one name for a value, or names for properties of it. -/
inductive Target where
  | whole (name : Text)
  | members (row : List Member)
deriving DecidableEq

/-- Where a declarator takes its value from. -/
inductive Value where
  | request
  | shared (name : Text)
deriving DecidableEq

structure Declarator where
  target : Target
  value : Value
deriving DecidableEq

/-- A statement that asks for a module. -/
inductive Emitted where
  | request
  | declares (row : List Declarator)
deriving DecidableEq

/-! How statements are written. -/

def Member.text (member : Member) : Text :=
  if member.name = member.imported then member.name else member.imported ++ ": " ++ member.name

def Target.text : Target → Text
  | .whole name => name
  | .members [] => "\x7b\x7d"
  | .members row => "\x7b " ++ Text.join ", " (row.map Member.text) ++ " \x7d"

def Value.text (request : Text) : Value → Text
  | .request => request
  | .shared name => name

def Declarator.text (request : Text) (declarator : Declarator) : Text :=
  declarator.target.text ++ " = " ++ declarator.value.text request

def Emitted.text (request : Text) : Emitted → Text
  | .request => request ++ ";"
  | .declares row => declaration (row.map (Declarator.text request))

/-! What statements do. -/

/-- How often a statement asks for its module. -/
def Emitted.requests : Emitted → Nat
  | .request => 1
  | .declares row => row.countP fun declarator => declarator.value = .request

/-- The names that a declarator declares, with what they stand for. -/
def Target.bind (value : Meaning) : Target → List (Text × Meaning)
  | .whole name => [(name, value)]
  | .members row => row.map fun member => (member.name, value.get member.imported)

/-- The value of a declarator, after some names were declared, the latest first. -/
def Value.meaning (known : Table Text Meaning) : Value → Meaning
  | .request => .module
  | .shared name => (known.get? name).getD .other

/-- The names that declarators declare one after the other. -/
def bindAll (known : Table Text Meaning) : List Declarator → List (Text × Meaning)
  | [] => []
  | declarator :: rest =>
      let bound := declarator.target.bind (declarator.value.meaning known)
      bound ++ bindAll (bound.reverse ++ known) rest

/-- All that a statement declares, in its order. -/
def Emitted.binds : Emitted → List (Text × Meaning)
  | .request => []
  | .declares row => bindAll [] row

/-! The statement for an import. -/

/-- The member that a specifier asks for, when `name` tells what its place is called. -/
def member? (source : Bytes) (name : Tree → Text) (specifier : Tree) : Option Member :=
  (specifier.child? .name).map fun t => ⟨t.text source, name ((specifier.child? .alias).getD t)⟩

/-- What an import declares. -/
def Imported.targets (imported : Imported) (source : Bytes) (name : Tree → Text) : List Target :=
  (imported.whole.toList ++ imported.namespaceName.toList).map (fun t => .whole (name t)) ++
    (imported.named.map fun row => .members (row.filterMap (member? source name))).toList

/-- How many declarators an import needs. -/
def Imported.count (imported : Imported) : Nat :=
  imported.whole.toList.length + imported.namespaceName.toList.length + imported.named.toList.length

theorem Imported.length_targets (imported : Imported) (source : Bytes) (name : Tree → Text) :
    (imported.targets source name).length = imported.count := by
  obtain ⟨whole, space, named⟩ := imported
  cases whole <;> cases space <;> cases named <;> rfl

/-- The statement that declares some targets. Of several, each takes the module from the name `shared`. -/
def emitted (shared : Text) : List Target → Emitted
  | [] => .request
  | [target] => .declares [⟨target, .request⟩]
  | targets => .declares (⟨.whole shared, .request⟩ :: targets.map fun target => ⟨target, .shared shared⟩)

/-- The name for a module that several declarators share. -/
def sharedName (shared : Text) (targets : List Target) : List Text := if 2 ≤ targets.length then [shared] else []

section

variable (request : Text) (imported : Imported) (rewrite : Rewrite)

theorem pattern_eq : pattern rewrite = fun row =>
    (Target.members (row.filterMap (member? rewrite.source rewrite.localName))).text := by
  funext row
  have properties : row.filterMap (property rewrite) =
      (row.filterMap (member? rewrite.source rewrite.localName)).map Member.text := by
    rw [List.map_filterMap]
    refine List.filterMap_congr fun specifier _ => ?_
    rw [property, member?, Option.map_map]
    rfl
  rw [pattern, properties]
  cases row.filterMap (member? rewrite.source rewrite.localName) <;> rfl

/-- The statement for an import is the one that declares its targets, and a fresh name is taken where it is
shared. -/
theorem statementFor_eq : statementFor request imported rewrite =
    let targets := imported.targets rewrite.source rewrite.localName
    ((emitted (Names.fresh "temp" rewrite.usedNames) targets).text request,
      { rewrite with
        usedNames := sharedName (Names.fresh "temp" rewrite.usedNames) targets ++ rewrite.usedNames }) := by
  obtain ⟨whole, space, named⟩ := imported
  cases whole <;> cases space <;> cases named <;> simp only [statementFor, pattern_eq] <;> rfl

end

theorem requests_emitted (shared : Text) (targets : List Target) : (emitted shared targets).requests = 1 := by
  match targets with
  | [] => rfl
  | [target] => rfl
  | first :: second :: rest => simp [emitted, Emitted.requests, Function.comp_def]

/-- Declarators that take the module from a shared name, where only the last may be a pattern. A name that is the
shared one itself stands for the module too. -/
theorem bindAll_shared {shared : Text} (names : List Text) (last : Option Target) {known : Table Text Meaning}
    (holds : known.get? shared = some .module) :
    bindAll known ((names.map Target.whole ++ last.toList).map fun target => ⟨target, .shared shared⟩) =
      (names.map Target.whole ++ last.toList).flatMap (Target.bind .module) := by
  induction names generalizing known with
  | nil =>
      cases last with
      | none => rfl
      | some target => simp [bindAll, Value.meaning, holds]
  | cons name rest ih =>
      have next : Table.get? shared ((name, Meaning.module) :: known) = some .module := by
        rw [Table.get?]
        split
        · rfl
        · exact holds
      have later := ih next
      simp only [List.map_cons, bindAll, Value.meaning, holds, Option.getD_some, Target.bind,
        List.reverse_singleton, List.nil_append, List.flatMap_cons, List.cons_append, later]

/-- A statement declares the shared name for the module, if it has one, and then what the targets say. -/
theorem binds_emitted (shared : Text) (names : List Text) (last : Option Target) :
    let targets := names.map Target.whole ++ last.toList
    (emitted shared targets).binds =
      (sharedName shared targets).map (·, .module) ++ targets.flatMap (Target.bind .module) := by
  intro targets
  have several := @bindAll_shared shared names last [(shared, .module)] (if_pos rfl)
  change bindAll _ (targets.map _) = targets.flatMap _ at several
  generalize targets = targets at several
  match targets with
  | [] => rfl
  | [target] => simp [emitted, sharedName, Emitted.binds, bindAll, Value.meaning]
  | first :: second :: rest =>
      rw [sharedName, if_pos (by simp)]
      exact congrArg ((shared, Meaning.module) :: ·) several

/-- What the statement for an import declares. -/
theorem binds_targets (shared : Text) (imported : Imported) (source : Bytes) (name : Tree → Text) :
    (emitted shared (imported.targets source name)).binds =
      (if 2 ≤ imported.count then [(shared, Meaning.module)] else []) ++
        (imported.targets source name).flatMap (Target.bind .module) := by
  have bound := binds_emitted shared ((imported.whole.toList ++ imported.namespaceName.toList).map name)
    (imported.named.map fun row => .members (row.filterMap (member? source name)))
  rw [List.map_map] at bound
  change (emitted shared (imported.targets source name)).binds =
    (sharedName shared (imported.targets source name)).map _ ++ (imported.targets source name).flatMap _ at bound
  rw [bound, sharedName, imported.length_targets]
  split <;> rfl

end Modules

open Modules

/-- Kinds of the parts of an import clause that bind names. -/
def Kind.isImported : Kind → Bool
  | .identifier | .namespaceImport | .namedImports => true
  | _ => false

namespace Tree

/-- The names that one part of an import clause binds, with what they stand for. -/
def imports (source : Bytes) (t : Tree) : List (Tree × Meaning) :=
  match t.kind with
  | .identifier => [(t, .module)]
  | .namespaceImport => (t.parts.filter (·.kind == .identifier)).map (·, .module)
  | .namedImports => (t.parts.filter (·.kind == .importSpecifier)).filterMap fun specifier =>
      (specifier.child? .name).map fun name =>
        ((specifier.child? .alias).getD name, .property (name.text source))
  | _ => []

/-- What the language says of the clause of an import: it has a default, a namespace with a name, and a list of
members, each at most once and in this order. A member has a name, which is an identifier if it gets no other. -/
structure ImportsOnce (t : Tree) (whole space named : Option Tree) : Prop where
  parts : t.importedParts.filter (·.kind.isImported) = whole.toList ++ space.toList ++ named.toList
  whole : ∀ p ∈ whole, p.kind = .identifier
  space : ∀ p ∈ space, p.kind = .namespaceImport ∧ ∃ name, p.parts.filter (·.kind == .identifier) = [name]
  named : ∀ p ∈ named, p.kind = .namedImports ∧ ∀ specifier ∈ p.parts, specifier.kind = .importSpecifier →
    ∃ name, specifier.child? .name = some name ∧ (specifier.child? .alias = none → name.kind = .identifier)

/-- Whether an import combines a default with a namespace or a list of members, or these two. -/
def combines (whole space named : Option Tree) : Bool :=
  whole.isSome && (space.isSome || named.isSome) || space.isSome && named.isSome

theorem flatMap_imported {α : Type} {f : Tree → List α} (none : ∀ p, p.kind.isImported = false → f p = [])
    (row : List Tree) : (row.filter (·.kind.isImported)).flatMap f = row.flatMap f := by
  induction row with
  | nil => rfl
  | cons p rest ih =>
      rw [List.filter_cons, List.flatMap_cons]
      split
      · rw [List.flatMap_cons, ih]
      · rename_i other
        rw [ih, none p (Bool.eq_false_iff.mpr other), List.nil_append]

namespace ImportsOnce

variable {t : Tree} {whole space named : Option Tree} (once : t.ImportsOnce whole space named)

include once

theorem ofStatement_eq : Imported.ofStatement t = ⟨whole, space.bind fun p => p.parts.find? (·.kind == .identifier),
    named.map fun p => p.parts.filter (·.kind == .importSpecifier)⟩ := by
  have others (row : List Tree) (imported : Imported) :
      (row.filter (·.kind.isImported)).foldl Imported.add imported = row.foldl Imported.add imported := by
    induction row generalizing imported with
    | nil => rfl
    | cons p rest ih =>
        rw [List.filter_cons, List.foldl_cons]
        split
        · rw [List.foldl_cons, ih]
        · rename_i other
          have same : imported.add p = imported := by
            unfold Imported.add
            split <;> simp_all [Kind.isImported]
          rw [ih, same]
  rw [Imported.ofStatement, ← importedParts, ← others, once.parts]
  have wholes := once.whole
  have spaces := once.space
  have lists := once.named
  cases whole <;> cases space <;> cases named <;>
    simp_all [Imported.add]

theorem find?_name {p : Tree} (mem : p ∈ space) : ∃ name, p.parts.filter (·.kind == .identifier) = [name] ∧
    p.parts.find? (·.kind == .identifier) = some name := by
  obtain ⟨_, name, alone⟩ := once.space p mem
  refine ⟨name, alone, ?_⟩
  rw [← List.head?_filter, alone]
  rfl

/-- The names that an import binds, the default first and its members last. -/
theorem imports_eq (source : Bytes) : t.importedParts.flatMap (imports source) =
    (whole.toList ++ (space.bind fun p => p.parts.find? (·.kind == .identifier)).toList).map (·, .module) ++
      named.toList.flatMap (imports source) := by
  have others (p : Tree) (other : p.kind.isImported = false) : p.imports source = [] := by
    unfold imports
    split <;> simp_all [Kind.isImported]
  rw [← flatMap_imported others, once.parts, List.flatMap_append, List.flatMap_append, List.map_append]
  congr 2
  · cases whole with
    | none => rfl
    | some p => simp [imports, once.whole p rfl]
  · cases space with
    | none => rfl
    | some p =>
        obtain ⟨name, alone, found⟩ := once.find?_name rfl
        simp [imports, (once.space p rfl).1, alone, found]

/-- The names that an import binds are those that it declares. -/
theorem map_imports (source : Bytes) :
    (t.importedParts.flatMap (imports source)).map (·.1) = t.importedParts.flatMap importedNames := by
  have others (p : Tree) (other : p.kind.isImported = false) : p.importedNames = [] := by
    unfold importedNames
    split <;> simp_all [Kind.isImported]
  rw [once.imports_eq, ← flatMap_imported others, once.parts, List.flatMap_append, List.flatMap_append,
    List.map_append, List.map_append, List.map_append]
  congr 2
  · cases whole with
    | none => rfl
    | some p => simp [importedNames, once.whole p rfl]
  · cases space with
    | none => rfl
    | some p =>
        obtain ⟨name, alone, found⟩ := once.find?_name rfl
        simp [importedNames, (once.space p rfl).1, alone, found]
  · cases named with
    | none => rfl
    | some p =>
        obtain ⟨kind, members⟩ := once.named p rfl
        simp only [Option.toList_some, List.flatMap_singleton, imports, importedNames, kind, List.map_filterMap]
        rw [List.filterMap_eq_flatMap_toList]
        refine List.flatMap_congr fun specifier mem => ?_
        obtain ⟨inside, own⟩ := List.mem_filter.mp mem
        obtain ⟨name, found, plain⟩ := members specifier inside (beq_iff_eq.mp own)
        rw [specifierNames, found]
        cases given : specifier.child? .alias with
        | none => simp [plain given]
        | some other => rfl

/-- The targets of an import bind what it says. -/
theorem bind_targets (source : Bytes) (name : Tree → Text) :
    ((Imported.ofStatement t).targets source name).flatMap (Target.bind .module) =
      (t.importedParts.flatMap (imports source)).map fun entry => (name entry.1, entry.2) := by
  have names (row : List Tree) : (row.map fun t => Target.whole (name t)).flatMap (Target.bind .module) =
      (row.map (·, Meaning.module)).map fun entry => (name entry.1, entry.2) := by
    rw [List.flatMap_map, List.map_map, List.map_eq_flatMap]
    rfl
  have members : ((named.map fun p => Target.members
        ((p.parts.filter (·.kind == .importSpecifier)).filterMap (member? source name))).toList).flatMap
        (Target.bind .module) = (named.toList.flatMap (imports source)).map fun entry => (name entry.1, entry.2) := by
    cases named with
    | none => rfl
    | some p =>
        simp only [Option.map_some, Option.toList_some, List.flatMap_singleton, Target.bind, imports,
          (once.named p rfl).1, List.map_filterMap]
        refine List.filterMap_congr fun specifier _ => ?_
        rw [member?, Option.map_map, Option.map_map]
        rfl
  rw [once.ofStatement_eq, once.imports_eq, Imported.targets, List.flatMap_append, names, Option.map_map]
  exact (congrArg _ members).trans List.map_append.symm

theorem two_le_count_iff : 2 ≤ (Imported.ofStatement t).count ↔ combines whole space named = true := by
  have spaces : (space.bind fun p => p.parts.find? (·.kind == .identifier)).toList.length = space.toList.length := by
    cases space with
    | none => rfl
    | some p =>
        obtain ⟨name, _, found⟩ := once.find?_name rfl
        rw [Option.bind_some, found]
        rfl
  rw [once.ofStatement_eq, Imported.count, spaces]
  cases whole <;> cases space <;> cases named <;> simp [combines]

end ImportsOnce

end Tree

end Rebundle
