import Rebundle.Proofs.Scope.Innermost
import Rebundle.Proofs.Syntax.Reached

/-!
# How far declarations reach

In strict mode a lexical declaration reaches through the innermost block around it, a `var` declaration through
the innermost function body or static block, an import through the module, and a parameter through its
function, but not into the name and the decorators of the function, which belong to what is around it.
A scope of the analysis may be larger: there is one for a whole function, and none that keeps the `var`
declarations of a static block. What the larger scopes add are three kinds of places.
-/

namespace Rebundle

open Cursor Sites

/-! Trees and places can be compared. -/

mutual

def Tree.decEq : (t u : Tree) → Decidable (t = u)
  | .node label children, .node label' children' =>
      match instDecidableEqLabel label label', Tree.decEqAll children children' with
      | .isTrue same, .isTrue same' => .isTrue (same ▸ same' ▸ rfl)
      | .isFalse other, _ => .isFalse fun equal => other (Tree.node.inj equal).1
      | _, .isFalse other => .isFalse fun equal => other (Tree.node.inj equal).2

def Tree.decEqAll : (ts us : List Tree) → Decidable (ts = us)
  | [], [] => .isTrue rfl
  | [], _ :: _ => .isFalse nofun
  | _ :: _, [] => .isFalse nofun
  | t :: ts, u :: us =>
      match Tree.decEq t u, Tree.decEqAll ts us with
      | .isTrue same, .isTrue same' => .isTrue (same ▸ same' ▸ rfl)
      | .isFalse other, _ => .isFalse fun equal => other (List.cons.inj equal).1
      | _, .isFalse other => .isFalse fun equal => other (List.cons.inj equal).2

end

instance : DecidableEq Tree := Tree.decEq

deriving instance DecidableEq for Crumb

deriving instance DecidableEq for Cursor

/-- All names that a node declares in the language, which knows of resources, too. -/
def Tree.declares (t : Tree) : List Naming :=
  if t.kind == .usingDeclaration then t.declarationNamings else t.namings

namespace Cursor

/-- Whether a place is a block that is the body of a function, or a static block. -/
def keepsVars (c : Cursor) : Bool := c.kind == .classStaticBlock || (c.kind == .statementBlock && c.isBody)

def isFunction (c : Cursor) : Bool := c.opens? = some .function

/-- The construct through which a declaration reaches in the language; none for the whole module. -/
def region? (d : Cursor) : Holder → Option Cursor
  | .itself => some d
  | .around => d.above.find? (·.kind.opensBlock)
  | .function => d.above.find? keepsVars
  | .program => none

/-- The node that opens the scope of a declaration in an analysis; none for the program. -/
def scope? (d : Cursor) : Holder → Option Cursor
  | .itself => some d
  | .around => d.above.find? opens
  | .function => d.above.find? isFunction
  | .program => none

/-- Whether a place is in the name of a node above it, which may be computed, or in one of its decorators. -/
def InHead (d c : Cursor) : Prop :=
  ∃ branch ∈ c :: c.above, branch.parent? = some d ∧
    (branch.focus.label.role = some .name ∨ branch.kind = .decorator)

instance (d c : Cursor) : Decidable (InHead d c) := inferInstanceAs (Decidable (∃ _ ∈ _, _))

/-- Whether what a node declares is known at a place in the language. -/
def Reaches (d : Cursor) (holder : Holder) (c : Cursor) : Prop :=
  ∀ region ∈ d.region? holder, region ∈ c.above ∧ ¬ (holder = .itself ∧ InHead region c)

instance (d : Cursor) (holder : Holder) (c : Cursor) : Decidable (d.Reaches holder c) :=
  inferInstanceAs (Decidable (∀ _ ∈ _, _))

/-- Whether what a node declares is known at a place to an analysis. -/
def Encloses (d : Cursor) (holder : Holder) (c : Cursor) : Prop := ∀ scope ∈ d.scope? holder, scope ∈ c.above

end Cursor

namespace Sites

/-- Whether the language leaves a reference free: no declaration of its name reaches it. -/
def Free (sites : List Cursor) (source : Bytes) (c : Cursor) : Prop :=
  ∀ d ∈ sites, ∀ naming ∈ d.focus.declares, naming.name.text source = c.focus.text source →
    ¬ d.Reaches naming.holder c

instance (sites : List Cursor) (source : Bytes) (c : Cursor) : Decidable (Free sites source c) :=
  inferInstanceAs (Decidable (∀ _ ∈ _, _))

/-- Whether a node of a program declares the name of a reference. -/
structure Names (sites : List Cursor) (source : Bytes) (c d : Cursor) (naming : Naming) : Prop where
  mem : d ∈ sites
  declares : naming ∈ d.focus.namings
  text : naming.name.text source = c.focus.text source

/-- Whether a reference stands where a scope is larger than it is in the language: in the computed name or the
decorators of what declares its name for itself, or in a function but outside of its body, which declares the
name, or outside of a static block that does so with `var`, in the same function. -/
inductive Misplaced (sites : List Cursor) (source : Bytes) (c : Cursor) : Prop where
  | head {d : Cursor} {naming : Naming} (names : Names sites source c d naming)
      (own : naming.holder = .itself) (inside : d ∈ c.above) (head : InHead d c)
  | body {d function body : Cursor} {naming : Naming} (names : Names sites source c d naming)
      (scope : d.scope? naming.holder = some function) (region : d.region? naming.holder = some body)
      (parent : body.parent? = some function) (isFunction : function.isFunction = true)
      (inside : function ∈ c.above) (outside : body ∉ c.above)
  | static {d block : Cursor} {naming : Naming} (names : Names sites source c d naming)
      (var : naming.holder = .function) (region : d.region? .function = some block)
      (isStatic : block.kind = .classStaticBlock) (inside : d.Encloses .function c)
      (outside : block ∉ c.above)

end Sites

/-! The places above a place stand in a row. -/

namespace Cursor

variable {a b c d : Cursor} {p q : Cursor → Bool}

/-- Of two places above a third one, one is above the other. -/
theorem above_total (first : a ∈ c.above) (second : b ∈ c.above) : a = b ∨ a ∈ b.above ∨ b ∈ a.above := by
  induction c using aboveInduction with
  | top c none =>
      rw [above_top none] at first
      cases first
  | step c d up ih =>
      rw [above_eq up] at first second
      rcases List.mem_cons.mp first with rfl | first'
      · exact (List.mem_cons.mp second).imp Eq.symm .inr
      · rcases List.mem_cons.mp second with rfl | second'
        · exact .inr (.inl first')
        · exact ih first' second'

/-- What is found first among the places above a place is the innermost one. -/
theorem innermost_of_find? (found : c.above.find? p = some a) (mem : b ∈ c.above) (holds : p b = true) :
    b = a ∨ b ∈ a.above := by
  induction c using aboveInduction with
  | top c none =>
      rw [above_top none] at mem
      cases mem
  | step c d up ih =>
      rw [above_eq up] at found mem
      cases here : p d with
      | true =>
          rw [List.find?_cons_of_pos here] at found
          cases found
          exact List.mem_cons.mp mem
      | false =>
          rw [List.find?_cons_of_neg (by rw [here]; exact Bool.false_ne_true)] at found
          rcases List.mem_cons.mp mem with rfl | mem
          · rw [here] at holds
            cases holds
          · exact ih found mem

/-- A place in the innermost `p` above another place, but not in the innermost `q`, has this `p` right above the
`q`, when what is right above the `q` is a `p`. -/
theorem find?_of_parent (region : d.above.find? q = some b) (up : b.parent? = some a) (holds : p a = true)
    (inside : ∀ e ∈ d.above.find? p, e ∈ c.above) (outside : b ∉ c.above) : d.above.find? p = some a := by
  have above : b ∈ d.above := List.mem_of_find?_eq_some region
  have far : a ∈ d.above := above_trans (by rw [above_eq up]; exact List.mem_cons_self) above
  obtain ⟨e, found⟩ := Option.isSome_iff_exists.mp (List.find?_isSome.mpr ⟨a, far, holds⟩)
  have within := inside e found
  rw [found]
  rcases innermost_of_find? found far holds with rfl | further
  · rfl
  · exfalso
    rcases above_total above (List.mem_of_find?_eq_some found) with rfl | below | below
    · exact outside within
    · exact outside (above_trans below within)
    · rw [above_eq up] at below
      rcases List.mem_cons.mp below with rfl | below
      · exact not_mem_above_self _ further
      · exact not_mem_above_self _ (above_trans further below)

end Cursor

/-! The scope in which a node declares is around a place when its node is above the place. -/

namespace Sites

variable {root : Tree} {sites : List Cursor} {source : Bytes} {c d : Cursor} {naming : Naming}

theorem headD_filter_map {α : Type} (p : α → Bool) (f : α → Nat) (row : List α) :
    ((row.filter p).map f).headD 0 = ((row.find? p).map f).getD 0 := by
  rw [← List.head?_filter]
  cases row.filter p <;> rfl

theorem scopeAround_eq (sites : List Cursor) (d : Cursor) :
    scopeAround sites d = ((d.scope? .around).map (number sites)).getD 0 := by
  rw [scope?, ← headD_filter_map, scopeAround, around]
  cases d.above.filter opens <;> rfl

theorem functionAround_eq (sites : List Cursor) (d : Cursor) :
    functionAround sites d = ((d.scope? .function).map (number sites)).getD 0 := by
  rw [scope?, ← headD_filter_map, functionAround]
  rfl

theorem holder_eq (sites : List Cursor) (d : Cursor) (holder : Holder) :
    Sites.holder sites d holder = ((d.scope? holder).map (number sites)).getD 0 := by
  cases holder with
  | around => exact scopeAround_eq sites d
  | itself => rfl
  | function => exact functionAround_eq sites d
  | program => rfl

theorem opens_of_isFunction (function : d.isFunction = true) : d.opens = true := by
  rw [Cursor.opens, of_decide_eq_true function]
  rfl

/-- Different nodes open different scopes. -/
theorem number_inj (arranged : Arranged root sites) (mem : c ∈ sites) (mem' : d ∈ sites)
    (opens : c.opens = true) (same : number sites c = number sites d) : c = d := by
  have address : c.address = d.address := by
    refine (List.idxOf_inj (l := (sites.filter Cursor.opens).map address) ?_).mp (Nat.succ.inj same)
    exact List.mem_map_of_mem (List.mem_filter.mpr ⟨mem, opens⟩)
  exact List.inj_on_of_nodup_map arranged.nodup mem mem' address

theorem holder_mem_around (arranged : Arranged root sites) (mem : d ∈ sites)
    (closedC : ∀ a ∈ c.above, a ∈ sites) (closedD : ∀ a ∈ d.above, a ∈ sites) {holder : Holder}
    (own : holder = .itself → d.opens = true) :
    Sites.holder sites d holder ∈ around sites c ↔ d.Encloses holder c := by
  have sees (e : Cursor) (known : e ∈ sites) (opens : e.opens = true) :
      number sites e ∈ around sites c ↔ e ∈ c.above := by
    rw [around, List.mem_append, List.mem_map]
    constructor
    · rintro (⟨a, kept, same⟩ | zero)
      · obtain ⟨above, opens'⟩ := List.mem_filter.mp kept
        exact number_inj arranged (closedC a above) known opens' same ▸ above
      · exact absurd (List.mem_singleton.mp zero) (Nat.succ_ne_zero _)
    · intro above
      exact .inl ⟨e, List.mem_filter.mpr ⟨above, opens⟩, rfl⟩
  have opened (e : Cursor) (found : d.scope? holder = some e) : e ∈ sites ∧ e.opens = true := by
    cases holder with
    | around => exact ⟨closedD e (List.mem_of_find?_eq_some found), List.find?_some found⟩
    | itself => exact Option.some.inj found ▸ ⟨mem, own rfl⟩
    | function =>
        exact ⟨closedD e (List.mem_of_find?_eq_some found), opens_of_isFunction (List.find?_some found)⟩
    | program => cases found
  rw [holder_eq, Encloses]
  cases found : d.scope? holder with
  | none => simp [around]
  | some e =>
      obtain ⟨known, opens⟩ := opened e found
      simpa using sees e known opens

/-! What the scopes of an analysis add. -/

theorem declares_of_namings {t : Tree} (mem : naming ∈ t.namings) : naming ∈ t.declares := by
  rw [Tree.declares]
  split
  · rename_i resource
    have none : t.namings = [] := by
      rw [Tree.namings, Tree.otherNamings, beq_iff_eq.mp resource]
      rfl
    rw [none] at mem
    cases mem
  · exact mem

/-- The body of a function has the function right above it. -/
theorem exists_function (body : c.isBody = true) : ∃ function, c.parent? = some function ∧
    function.isFunction = true := by
  obtain ⟨function, block, up, found, -⟩ := isBody_iff.mp body
  refine ⟨function, up, decide_eq_true ?_⟩
  by_cases opens : function.focus.kind.opensFunction = true
  · rw [Cursor.opens?, Cursor.kind, if_pos opens]
  · rw [ScopeWalk.functionBody?_of_not (Bool.eq_false_iff.mpr opens)] at found
    cases found

theorem opens_of_block (block : c.kind.opensBlock = true) (outer : ¬ c.isBody = true) : c.opens = true := by
  rw [Cursor.opens, Cursor.opens?, if_pos block, if_neg outer]
  split <;> rfl

/-- A declaration that an analysis knows at a place where it does not reach is that of a misplaced reference. -/
theorem misplaced_of_encloses (names : Names sites source c d naming) (encloses : d.Encloses naming.holder c)
    (unreached : ¬ d.Reaches naming.holder c) : Misplaced sites source c := by
  cases holder : naming.holder with
  | program =>
      rw [holder] at unreached
      exact absurd (by simp [Reaches, region?]) unreached
  | itself =>
      rw [holder] at encloses unreached
      have inside := encloses d rfl
      refine .head names holder inside ?_
      by_contra outside
      exact unreached fun _ found => Option.some.inj found ▸ ⟨inside, fun both => outside both.2⟩
  | around =>
      rw [holder] at encloses unreached
      obtain ⟨block, region, outside⟩ : ∃ block, d.region? .around = some block ∧ block ∉ c.above := by
        simpa [Reaches] using unreached
      have isBody : block.isBody = true := by
        by_contra outer
        have kind : block.kind.opensBlock = true := by
          have found := List.find?_some region
          exact found
        have opens := opens_of_block kind outer
        have above := List.mem_of_find?_eq_some region
        obtain ⟨scope, found⟩ := Option.isSome_iff_exists.mp (List.find?_isSome.mpr ⟨block, above, opens⟩)
        rcases innermost_of_find? found above opens with rfl | further
        · exact outside (encloses block found)
        · exact outside (above_trans further (encloses scope found))
      obtain ⟨function, up, isFunction⟩ := exists_function isBody
      have scope : d.scope? .around = some function :=
        find?_of_parent region up (opens_of_isFunction isFunction) encloses outside
      exact .body names (holder ▸ scope) (holder ▸ region) up isFunction (encloses function scope) outside
  | function =>
      rw [holder] at encloses unreached
      obtain ⟨block, region, outside⟩ : ∃ block, d.region? .function = some block ∧ block ∉ c.above := by
        simpa [Reaches] using unreached
      have keeps : block.keepsVars = true := List.find?_some region
      rw [keepsVars, Bool.or_eq_true, Bool.and_eq_true, beq_iff_eq] at keeps
      rcases keeps with isStatic | ⟨-, isBody⟩
      · exact .static names holder region isStatic encloses outside
      · obtain ⟨function, up, isFunction⟩ := exists_function isBody
        have scope : d.scope? .function = some function :=
          find?_of_parent region up isFunction encloses outside
        exact .body names (holder ▸ scope) (holder ▸ region) up isFunction (encloses function scope) outside

theorem Misplaced.encloses (misplaced : Misplaced sites source c) :
    ∃ d naming, Names sites source c d naming ∧ d.Encloses naming.holder c := by
  cases misplaced with
  | head names own inside _ =>
      exact ⟨_, _, names, fun _ found => by rw [own] at found; exact Option.some.inj found ▸ inside⟩
  | body names scope _ _ _ inside _ =>
      exact ⟨_, _, names, fun _ found => Option.some.inj (scope.symm.trans found) ▸ inside⟩
  | static names var _ _ inside _ => exact ⟨_, _, names, var ▸ inside⟩

/-- An analysis knows the name of a free reference where the reference is misplaced, and nowhere else. -/
theorem encloses_iff_misplaced (free : Free sites source c) :
    (∃ d naming, Names sites source c d naming ∧ d.Encloses naming.holder c) ↔ Misplaced sites source c := by
  constructor
  · rintro ⟨d, naming, names, encloses⟩
    exact misplaced_of_encloses names encloses
      (free d names.mem naming (declares_of_namings names.declares) names.text)
  · exact Misplaced.encloses

/-- A reference is resolved when its name is declared in a scope around it. -/
theorem seen_iff_encloses {skipBefore : Nat} (distinct : root.Distinct)
    (once : ((declarations (ofTree skipBefore root) (ofTree skipBefore root)).map (·.2.range)).Nodup)
    (mem : c ∈ references (ofTree skipBefore root)) :
    (∃ ref, seen (ofTree skipBefore root) source c = some ref) ↔
      ∃ d naming, Names (ofTree skipBefore root) source c d naming ∧ d.Encloses naming.holder c := by
  have arranged := arranged_ofTree skipBefore root
  have closed {e : Cursor} (mem : e ∈ ofTree skipBefore root) : ∀ a ∈ e.above, a ∈ ofTree skipBefore root := by
    intro a above
    rcases above_of_mem_entered mem above with here | none
    · exact here
    · cases none
  have own {d : Cursor} {naming : Naming} (mem : d ∈ ofTree skipBefore root) (declares : naming ∈ d.focus.namings)
      (holder : naming.holder = .itself) : d.opens = true := by
    exact opens_of_itself (kind_of_isBody distinct.blocks (arranged.stands d mem)) declares holder
  have within {d : Cursor} {naming : Naming} (here : d ∈ ofTree skipBefore root)
      (declares : naming ∈ d.focus.namings) :
      Sites.holder (ofTree skipBefore root) d naming.holder ∈ around (ofTree skipBefore root) c ↔
        d.Encloses naming.holder c :=
    holder_mem_around arranged here (closed (mem_of_mem_references mem)) (closed here) (own here declares)
  rw [seen, seenFrom_of_isName (isName_of_mem_referencesFrom mem)]
  simp only [Option.map_eq_some_iff, exists_comm (α := BindingRef), exists_and_left, exists_eq', and_true]
  rw [← Option.isSome_iff_exists, List.find?_isSome]
  simp only [declares_iff once]
  constructor
  · rintro ⟨i, aroundC, d, here, naming, declares, rfl, text⟩
    exact ⟨d, naming, ⟨here, declares, text⟩, (within here declares).mp aroundC⟩
  · rintro ⟨d, naming, names, encloses⟩
    exact ⟨_, (within names.mem names.declares).mpr encloses, d, names.mem, naming, names.declares, rfl, names.text⟩

end Sites

end Rebundle
