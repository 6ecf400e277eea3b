import Rebundle.Proofs.Script.Rows

/-!
# The interface of a program under renaming

Renaming keeps the keys of objects and object patterns, and the names of export specifiers. The names that
exported declarations declare are renamed with everything else: no alias keeps them.
-/

namespace Rebundle.Script

open Tree

variable {source : Bytes} {new? new?' : Range → Option Text}

/-! The keys of objects. -/

theorem propertyName?_ofTree (t : Tree) :
    propertyName? source (ofTree source new? t) = propertyName? source (ofTree source new?' t) := by
  have steady : Steady Kind.isPropertyName := ⟨rfl, rfl, rfl⟩
  rw [propertyName?, propertyName?, hasKind_ofTree steady, hasKind_ofTree steady]
  split
  · rename_i property
    have noName : t.kind.isName = false := by
      revert property
      cases t.kind <;> simp [Kind.isPropertyName, Kind.isName]
    have unnamed (new? : Range → Option Text) : newName? new? t = none := if_neg (by simp [noName])
    rw [text?_ofTree (unnamed new?), text?_ofTree (unnamed new?')]
  · rfl

theorem key?_ofName {label : Label} (isName : label.kind.isName = true) (name : Option Text) :
    key? source (ofName source label name) =
      if label.kind = .shorthandPropertyIdentifier ∨ label.kind = .shorthandPropertyIdentifierPattern then
        some (label.range.text source) else none := by
  obtain ⟨kind, role, range, missing⟩ := label
  change kind.isName = true at isName
  unfold Kind.isName at isName
  split at isName
  case h_5 => cases isName
  all_goals cases name <;> rfl

theorem key?_defaultedRow {label : Label} (kind : label.kind = .objectAssignmentPattern) (ts : List Tree) :
    key? source (defaultedRow source new? label ts) =
      (ts.find? fun t => t.label.role == some .left).bind fun t => key? source (ofTree source new? t) := by
  obtain ⟨_, role, range, missing⟩ := label
  subst kind
  cases ts with
  | nil => rfl
  | cons t rest =>
      rw [defaultedRow, List.find?_cons]
      cases found : defaultedName? new? t with
      | none =>
          change keyOfLeft? source (ofTree source new? t :: row source new? t.stop range.stop rest) = _
          rw [keyOfLeft?, role?_ofTree]
          cases t.label.role == some .left with
          | true => rfl
          | false =>
              change keyOfLeft? source (row source new? t.stop range.stop rest) = _
              rw [keyOfLeft?_eq, inRole?_row, Option.bind_map]
              rfl
      | some new =>
          obtain ⟨shorthand, left, _⟩ := isName_of_defaultedName? found
          have isName : t.kind.isName = true := by
            rw [shorthand]
            rfl
          rw [left, beq_self_eq_true]
          change _ = key? source (ofTree source new? t)
          rw [ofTree_of_isName isName, key?_ofName isName, if_pos (.inr shorthand)]
          rfl

/-- Renaming changes no keys. -/
theorem key?_ofTree (t : Tree) : key? source (ofTree source new? t) = key? source (ofTree source new?' t) := by
  induction t using childrenInduction with
  | step t ih =>
      cases isName : t.kind.isName with
      | true => rw [ofTree_of_isName isName, ofTree_of_isName isName, key?_ofName isName, key?_ofName isName]
      | false =>
          obtain ⟨label, children⟩ := t
          have noName : ¬ label.kind.isName = true := Bool.eq_false_iff.mp isName
          rw [ofTree, ofTree, if_neg noName, if_neg noName]
          split
          · rename_i specifier
            obtain ⟨kind, role, range, missing⟩ := label
            obtain ⟨rfl, _⟩ := specifier
            rfl
          · split
            · rename_i kind
              rw [key?_defaultedRow kind, key?_defaultedRow kind]
              exact Option.bind_congr fun child found => ih child (List.mem_of_find?_eq_some found)
            · rename_i noDefault
              unfold key?
              split
              · rename_i kind
                exact absurd (by rw [kind]; rfl) noName
              · rename_i kind
                exact absurd (by rw [kind]; rfl) noName
              · rename_i kind
                simp only [firstPart?_row, Option.bind_map]
                exact Option.bind_congr fun child _ => propertyName?_ofTree child
              · rename_i kind
                simp only [firstPart?_row, Option.bind_map]
                exact Option.bind_congr fun child _ => propertyName?_ofTree child
              · rename_i kind
                simp only [inRole?_row, Option.bind_map]
                exact Option.bind_congr fun child _ => propertyName?_ofTree child
              · rename_i kind
                exact absurd kind noDefault
              · rfl

theorem quiet_of_kinds {α : Type} {own : Kind → List Script → List α}
    (other : ∀ kind row, kind ≠ .object → kind ≠ .objectPattern → kind ≠ .exportStatement →
      own kind row = []) :
    Quiet own := by
  intro kind inner row
  apply other
  all_goals
    rintro rfl
    cases inner

theorem quiet_ownKeys : Quiet (ownKeys source) :=
  quiet_of_kinds fun kind row object pattern _ => by simp [ownKeys, object, pattern]

theorem keys_ofTree (t : Tree) : keys source (ofTree source new? t) = keys source (ofTree source new?' t) := by
  refine (collect_map quiet_ownKeys ?_ (self_mem_nodes t)).trans (List.map_id _)
  intro t _ _
  rw [List.map_id, ownKeys, ownKeys, filterMap_row (fun _ => by rw [key?]), filterMap_row (fun _ => by rw [key?])]
  rw [List.filterMap_congr fun child _ => key?_ofTree child]

/-! The names of export specifiers. -/

theorem text?_ofTree_congr {t : Tree} (none : newName? new? t = none) (none' : newName? new?' t = .none) :
    (ofTree source new? t).text? source = (ofTree source new?' t).text? source := by
  rw [text?_ofTree none, text?_ofTree none']

@[simp] theorem newName?_keep (t : Tree) : newName? (fun _ => none) t = none := by
  unfold newName?
  split <;> rfl

/-- Whether the children of an export specifier get new names as the grammar has it: no alias gets one, and of the
others only the name that the specifier gives away. -/
structure Specified (new? : Range → Option Text) (t : Tree) : Prop where
  aliased : ∀ own, t.child? .alias = some own → newName? new? own = none
  named : ∀ child ∈ t.children, (newName? new? child).isSome = true → child.label.role ≠ some .alias →
    t.child? .name = some child

theorem specifierRow_of_none {ts : List Tree} (none : ∀ t ∈ ts, newName? new? t = none) (start stop : Nat) :
    specifierRow source new? start stop ts = row source new? start stop ts := by
  induction ts generalizing start with
  | nil => rfl
  | cons t rest ih =>
      rw [List.forall_mem_cons] at none
      rw [specifierRow, row, none.1, ih none.2]
      rfl

/-- What an export specifier without an alias gives away is its name, whatever name the program has for it. -/
theorem text?_specifierRow {ts : List Tree} (bare : ∀ t ∈ ts, t.label.role ≠ some .alias)
    (named : ∀ t ∈ ts, (newName? new? t).isSome = true → (ts.find? fun t => t.label.role == some .name) = some t)
    (start stop : Nat) :
    ((inRole? .alias (specifierRow source new? start stop ts)).or
      (inRole? .name (specifierRow source new? start stop ts))).bind (text? source) =
      (ts.find? fun t => t.label.role == some .name).bind
        fun t => (ofTree source (fun _ => none) t).text? source := by
  induction ts generalizing start with
  | nil => rfl
  | cons t rest ih =>
      have noAlias : (t.label.role == some .alias) = false := by simpa using bare t List.mem_cons_self
      cases isFirst : t.label.role == some .name with
      | true =>
          have first : ((t :: rest).find? fun t => t.label.role == some .name) = some t :=
            List.find?_cons_of_pos isFirst
          cases renamed : newName? new? t with
          | some new =>
              have isName := isName_of_newName? renamed
              rw [specifierRow, renamed, first, Option.bind_some, text?_ofTree (newName?_keep t), isName]
              simp [ofSpecified, copied, leaf, inRole?, text?, noAlias]
          | none =>
              have none : ∀ other ∈ t :: rest, newName? new? other = none := by
                intro other mem
                rw [← Option.not_isSome_iff_eq_none]
                intro some
                have same := named other mem some
                rw [first] at same
                rw [← Option.some.inj same, renamed] at some
                cases some
              have missing : ((t :: rest).find? fun t => t.label.role == some .alias) = .none :=
                List.find?_eq_none.mpr fun other mem => by simpa using bare other mem
              rw [specifierRow_of_none none, inRole?_row, inRole?_row, missing, first]
              exact text?_ofTree_congr renamed (newName?_keep t)
      | false =>
          have first : ((t :: rest).find? fun t => t.label.role == some .name) =
              rest.find? fun t => t.label.role == some .name := List.find?_cons_of_neg (by simp [isFirst])
          have renamed : newName? new? t = none := by
            rw [← Option.not_isSome_iff_eq_none]
            intro some
            have role := List.find?_some (named t List.mem_cons_self some)
            rw [isFirst] at role
            cases role
          have later := ih (fun other mem => bare other (List.mem_cons_of_mem _ mem))
            (fun other mem some => first ▸ named other (List.mem_cons_of_mem _ mem) some) t.stop
          rw [first, ← later, specifierRow, renamed]
          simp [ofSpecified, copied, inRole?, noAlias, isFirst]

/-- An export specifier gives away the same name whatever names the program has. -/
theorem specified?_ofTree {t : Tree} (specified : t.kind = .exportSpecifier → Specified new? t) :
    specified? source (ofTree source new? t) = specified? source (ofTree source (fun _ => none) t) := by
  have steady : Steady (· == .exportSpecifier) := ⟨rfl, rfl, rfl⟩
  rw [specified?, specified?, hasKind_ofTree steady, hasKind_ofTree steady]
  split
  · rename_i kind
    have kind := beq_iff_eq.mp kind
    obtain ⟨aliased, named⟩ := specified kind
    by_cases bare : ∀ own ∈ t.children, own.label.role ≠ some .alias
    · rw [children_ofTree_of_bare kind bare, children_ofTree_of_bare kind bare,
        text?_specifierRow bare fun child mem some => named child mem some (bare child mem),
        text?_specifierRow bare fun child mem some => by simp at some]
    · simp only [not_forall, not_not] at bare
      obtain ⟨other, mem, role⟩ := bare
      obtain ⟨own, found⟩ : ∃ own, t.child? .alias = some own :=
        Option.isSome_iff_exists.mp (List.find?_isSome.mpr ⟨other, mem, by simp [role]⟩)
      have found' : (t.children.find? fun t => t.label.role == some .alias) = some own := found
      have row (new? : Range → Option Text) :
          (ofTree source new? t).children = row source new? t.start t.stop t.children :=
        children_ofTree (by rw [kind]; rfl) (by simp [kind]) fun _ => ⟨other, mem, role⟩
      rw [row, row, inRole?_row, inRole?_row, inRole?_row, found']
      exact text?_ofTree_congr (aliased own found) (newName?_keep own)
  · rfl

theorem clauseNames_ofTree {t : Tree}
    (specified : ∀ child ∈ t.children, child.kind = .exportSpecifier → Specified new? child) :
    clauseNames source (ofTree source new? t) = clauseNames source (ofTree source (fun _ => none) t) := by
  have steady : Steady (· == .exportClause) := ⟨rfl, rfl, rfl⟩
  rw [clauseNames, clauseNames, hasKind_ofTree steady, hasKind_ofTree steady]
  split
  · rename_i kind
    have kind := beq_iff_eq.mp kind
    have row (new? : Range → Option Text) :
        (ofTree source new? t).children = row source new? t.start t.stop t.children :=
      children_ofTree (by rw [kind]; rfl) (by simp [kind]) (by simp [kind])
    rw [row, row, filterMap_row (fun _ => rfl), filterMap_row (fun _ => rfl)]
    exact List.filterMap_congr fun child mem => specified?_ofTree (specified child mem)
  · rfl

theorem quiet_ownSpecifiers : Quiet (ownSpecifiers source) :=
  quiet_of_kinds fun kind row _ _ statement => by simp [ownSpecifiers, statement]

/-- Renaming changes no name of an export specifier. -/
theorem specifiers_ofTree {t : Tree}
    (specified : ∀ specifier ∈ t.nodes, specifier.kind = .exportSpecifier → Specified new? specifier) :
    specifiers source (ofTree source new? t) = specifiers source (ofTree source (fun _ => none) t) := by
  refine (collect_map quiet_ownSpecifiers ?_ (self_mem_nodes t)).trans (List.map_id _)
  intro statement mem _
  rw [List.map_id, ownSpecifiers, ownSpecifiers, inRole?_row, inRole?_row, flatMap_row (fun _ => rfl),
    flatMap_row (fun _ => rfl), Option.isNone_map, Option.isNone_map]
  congr 1
  exact List.flatMap_congr fun clause below => clauseNames_ofTree fun specifier inside =>
    specified specifier (mem_nodes_trans (child_mem_nodes inside) (mem_nodes_trans (child_mem_nodes below) mem))

/-! The names of exported declarations. -/

/-- A name at a place, after the renaming. -/
def renamed (new? : Range → Option Text) (entry : Range × Text) : Range × Text :=
  (entry.1, (new? entry.1).getD entry.2)

theorem boundNames_ofName {label : Label} (isName : label.kind.isName = true) (name : Option Text) :
    boundNames source (ofName source label name) =
      if label.kind = .identifier ∨ label.kind = .shorthandPropertyIdentifierPattern then
        [(label.range, name.getD (label.range.text source))] else [] := by
  obtain ⟨kind, role, range, missing⟩ := label
  change kind.isName = true at isName
  unfold Kind.isName at isName
  split at isName
  case h_5 => cases isName
  all_goals cases name <;> rfl

theorem boundNames_defaultedRow {label : Label} (kind : label.kind = .objectAssignmentPattern) (ts : List Tree) :
    boundNames source (defaultedRow source new? label ts) =
      ((ts.find? fun t => t.label.role == some .left).map fun t =>
        boundNames source (ofTree source new? t)).getD [] := by
  obtain ⟨_, role, range, missing⟩ := label
  subst kind
  cases ts with
  | nil => rfl
  | cons t rest =>
      rw [defaultedRow, List.find?_cons]
      cases found : defaultedName? new? t with
      | none =>
          change boundInRole source .left (ofTree source new? t :: row source new? t.stop range.stop rest) = _
          rw [boundInRole, role?_ofTree]
          cases t.label.role == some .left with
          | true => rfl
          | false =>
              change boundInRole source .left (row source new? t.stop range.stop rest) = _
              rw [boundInRole_eq, inRole?_row, Option.map_map]
              rfl
      | some new =>
          obtain ⟨shorthand, left, renamed⟩ := isName_of_defaultedName? found
          have isName : t.kind.isName = true := by
            rw [shorthand]
            rfl
          rw [left, beq_self_eq_true]
          change _ = boundNames source (ofTree source new? t)
          rw [ofTree_of_isName isName, boundNames_ofName isName, if_pos (.inr shorthand)]
          change _ = [(t.range, (new? t.range).getD _)]
          rw [renamed]
          rfl

/-- A pattern binds the new names at its places. -/
theorem boundNames_ofTree (t : Tree) : boundNames source (ofTree source new? t) =
    (boundNames source (ofTree source (fun _ => none) t)).map (renamed new?) := by
  induction t using childrenInduction with
  | step t ih =>
      have first (role : Role) : ((t.children.find? fun t => t.label.role == some role).map
            fun t => boundNames source (ofTree source new? t)).getD [] =
          (((t.children.find? fun t => t.label.role == some role).map
            fun t => boundNames source (ofTree source (fun _ => none) t)).getD []).map (renamed new?) := by
        cases found : t.children.find? fun t => t.label.role == some role with
        | none => rfl
        | some child => exact ih child (List.mem_of_find?_eq_some found)
      cases isName : t.kind.isName with
      | true =>
          rw [ofTree_of_isName isName, ofTree_of_isName isName, boundNames_ofName isName, boundNames_ofName isName]
          split <;> rfl
      | false =>
          obtain ⟨label, children⟩ := t
          have noName : ¬ label.kind.isName = true := Bool.eq_false_iff.mp isName
          have all : boundInAll source (row source new? label.range.start label.range.stop children) =
              (boundInAll source (row source (fun _ => none) label.range.start label.range.stop children)).map
                (renamed new?) := by
            have blind (part : Part) : boundNames source (piece part) = [] := by rw [boundNames]
            rw [boundInAll_eq, boundInAll_eq, flatMap_row blind, flatMap_row blind, List.map_flatMap]
            exact List.flatMap_congr ih
          rw [ofTree, ofTree, if_neg noName, if_neg noName]
          split
          · rename_i specifier
            obtain ⟨kind, role, range, missing⟩ := label
            obtain ⟨rfl, _⟩ := specifier
            rfl
          · split
            · rename_i kind
              rw [boundNames_defaultedRow kind, boundNames_defaultedRow kind]
              exact first .left
            · unfold boundNames
              split
              · rename_i kind
                exact absurd (by rw [kind]; rfl) noName
              · rename_i kind
                exact absurd (by rw [kind]; rfl) noName
              · exact all
              · exact all
              · exact all
              · simp only [boundInRole_eq, inRole?_row, Option.map_map]
                exact first .value
              · simp only [boundInRole_eq, inRole?_row, Option.map_map]
                exact first .left
              · simp only [boundInRole_eq, inRole?_row, Option.map_map]
                exact first .left
              · rfl

theorem named_ofTree {t : Tree} (plain : t.kind = .identifier ∨ t.kind = .typeIdentifier) :
    named source (ofTree source new? t) = (named source (ofTree source (fun _ => none) t)).map (renamed new?) := by
  obtain ⟨⟨kind, role, range, missing⟩, children⟩ := t
  change kind = _ ∨ kind = _ at plain
  rcases plain with rfl | rfl
  all_goals
    rw [ofTree_of_isName rfl, ofTree_of_isName rfl]
    change named source (ofName source _ (new? range)) = [(range, (new? range).getD (range.text source))]
    cases new? range <;> rfl

theorem declaratorNames_ofTree (t : Tree) : declaratorNames source (ofTree source new? t) =
    (declaratorNames source (ofTree source (fun _ => none) t)).map (renamed new?) := by
  have steady : Steady (· == .variableDeclarator) := ⟨rfl, rfl, rfl⟩
  rw [declaratorNames, declaratorNames, hasKind_ofTree steady, hasKind_ofTree steady]
  split
  · rename_i kind
    have kind := beq_iff_eq.mp kind
    have row (new? : Range → Option Text) :
        (ofTree source new? t).children = row source new? t.start t.stop t.children :=
      children_ofTree (by rw [kind]; rfl) (by simp [kind]) (by simp [kind])
    rw [row, row, inRole?_row, inRole?_row]
    cases t.children.find? fun t => t.label.role == some .name with
    | none => rfl
    | some pattern => exact boundNames_ofTree pattern
  · rfl

/-- A declaration declares the new names at its places. -/
theorem declaredNames_ofTree (t : Tree) : declaredNames source (ofTree source new? t) =
    (declaredNames source (ofTree source (fun _ => none) t)).map (renamed new?) := by
  have declarations : Steady Kind.isVariableDeclaration := ⟨rfl, rfl, rfl⟩
  have others : Steady fun kind =>
      kind.isFunctionDeclaration || kind == .classDeclaration || kind == .abstractClassDeclaration :=
        ⟨rfl, rfl, rfl⟩
  simp only [declaredNames, hasKind_ofTree declarations, hasKind_ofTree others]
  split
  · rename_i declares
    have kind : t.kind.isName = false ∧ t.kind ≠ .objectAssignmentPattern ∧ t.kind ≠ .exportSpecifier := by
      revert declares
      cases t.kind <;> simp [Kind.isVariableDeclaration, Kind.isName]
    have row (new? : Range → Option Text) :
        (ofTree source new? t).children = row source new? t.start t.stop t.children :=
      children_ofTree kind.1 kind.2.1 fun specifier => absurd specifier kind.2.2
    rw [row, row, flatMap_row (fun _ => rfl), flatMap_row (fun _ => rfl), List.map_flatMap]
    exact List.flatMap_congr fun child _ => declaratorNames_ofTree child
  · split
    · rename_i declares
      have kind : t.kind.isName = false ∧ t.kind ≠ .objectAssignmentPattern ∧ t.kind ≠ .exportSpecifier := by
        revert declares
        cases t.kind <;> simp [Kind.isFunctionDeclaration, Kind.isName]
      have row (new? : Range → Option Text) :
          (ofTree source new? t).children = row source new? t.start t.stop t.children :=
        children_ofTree kind.1 kind.2.1 fun specifier => absurd specifier kind.2.2
      rw [row, row, inRole?_row, inRole?_row]
      cases t.children.find? fun t => t.label.role == some .name with
      | none => rfl
      | some name =>
          have plain : Steady fun kind => kind == .identifier || kind == .typeIdentifier := ⟨rfl, rfl, rfl⟩
          rw [Option.map_some, Option.map_some, Option.filter_some, Option.filter_some, hasKind_ofTree plain,
            hasKind_ofTree plain]
          split
          · rename_i plain
            exact named_ofTree (by simpa using plain)
          · rfl
    · rfl

theorem quiet_ownDeclared : Quiet (ownDeclared source) :=
  quiet_of_kinds fun kind row _ _ statement => by simp [ownDeclared, statement]

/-- The exported declarations declare the new names at their places. -/
theorem declared_ofTree (t : Tree) : declared source (ofTree source new? t) =
    (declared source (ofTree source (fun _ => none) t)).map (renamed new?) := by
  refine collect_map quiet_ownDeclared ?_ (self_mem_nodes t)
  intro statement _ _
  have steady : Steady (· == Kind.token "default") := ⟨rfl, rfl, rfl⟩
  rw [ownDeclared, ownDeclared, any_row (fun _ => rfl), any_row (fun _ => rfl), flatMap_row (fun _ => rfl),
    flatMap_row (fun _ => rfl)]
  simp only [hasKind_ofTree steady]
  split
  · rw [List.map_flatMap]
    exact List.flatMap_congr fun child _ => declaredNames_ofTree child
  · rfl

/-! Whole programs. -/

section

variable {α : Type} {own : Kind → List Script → List α} {root : Tree} (program : root.kind = .program)

include program

theorem collect_ofProgram (quiet : Quiet own) : collect own (ofProgram source new? root) =
    root.children.flatMap fun child => collect own (ofTree source new? child) := by
  rw [ofProgram, collect, program, quiet .program rfl, collectAll_eq]
  exact flatMap_row (fun _ => rfl) _ _ _

theorem keys_ofProgram : keys source (ofProgram source new? root) = keys source (ofProgram source new?' root) := by
  rw [keys, collect_ofProgram program quiet_ownKeys, collect_ofProgram program quiet_ownKeys]
  exact List.flatMap_congr fun child _ => keys_ofTree child

theorem specifiers_ofProgram
    (specified : ∀ specifier ∈ root.nodes, specifier.kind = .exportSpecifier → Specified new? specifier) :
    specifiers source (ofProgram source new? root) = specifiers source (ofProgram source (fun _ => none) root) := by
  rw [specifiers, collect_ofProgram program quiet_ownSpecifiers, collect_ofProgram program quiet_ownSpecifiers]
  exact List.flatMap_congr fun child mem => specifiers_ofTree fun specifier below =>
    specified specifier (mem_nodes_trans below (child_mem_nodes mem))

theorem declared_ofProgram : declared source (ofProgram source new? root) =
    (declared source (ofProgram source (fun _ => none) root)).map (renamed new?) := by
  rw [declared, collect_ofProgram program quiet_ownDeclared, collect_ofProgram program quiet_ownDeclared,
    List.map_flatMap]
  exact List.flatMap_congr fun child _ => declared_ofTree child

end

end Rebundle.Script
