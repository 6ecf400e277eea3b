import Rebundle.Proofs.Syntax.Regular
import Rebundle.Syntax.Grammar

/-!
# Rules that keep rows regular

A rule works on the row of children of a construct that is being read. It keeps the row where the construct may have
all that the rule leaves in it, and where what is built is regular. Rules that are put together from such rules keep
the row too, so the instances here follow the ways in which rules are made, and a rule of the grammar is found to
keep its row by going through the rules it is made of.
-/

namespace Rebundle

/-- A truth value that is found by evaluation. -/
class IsTrue (b : Bool) : Prop where
  holds : b = true

instance : IsTrue true := ⟨rfl⟩

@[reducible] def Demand.isAnything : Demand → Bool
  | .anything => true
  | _ => false

@[reducible] def Demand.isPossible : Demand → Bool
  | .nothing => false
  | _ => true

namespace Kind

/-- Kinds that are neither names nor words and that open no scopes. -/
@[reducible] def isOther : Kind → Bool
  | .identifier | .typeIdentifier | .shorthandPropertyIdentifier | .shorthandPropertyIdentifierPattern => false
  | .token _ | .functionDeclaration | .generatorFunctionDeclaration | .functionExpression | .generatorFunction
  | .arrowFunction | .methodDefinition | .classExpression => false
  | .statementBlock | .forStatement | .forInStatement | .switchBody | .catchClause | .classStaticBlock => false
  | _ => true

/-- Kinds of functions and classes that open scopes. -/
@[reducible] def isCallable : Kind → Bool
  | .functionDeclaration | .generatorFunctionDeclaration | .functionExpression | .generatorFunction
  | .arrowFunction | .methodDefinition | .classExpression => true
  | _ => false

/-- Kinds of blocks. -/
@[reducible] def isBlock : Kind → Bool
  | .statementBlock | .forStatement | .forInStatement | .switchBody | .catchClause | .classStaticBlock => true
  | _ => false

/-- Kinds of nodes that may have leaves. -/
class Parent (kind : Kind) : Prop where
  met : ∀ child, (kind.asks none).Met child true

/-- Kinds of nodes that ask for nothing but their names and their parameters. -/
class Open (kind : Kind) : Prop where
  asks : kind.asks none = .anything

/-- Kinds of nodes that ask for nothing. -/
class Free (kind : Kind) : Prop where
  asks : ∀ role, kind.asks role = .anything

variable {kind child : Kind} {isLeaf : Bool}

instance [IsTrue (kind.asks none).isPossible] : kind.Parent where
  met child := by
    have possible : (kind.asks none).isPossible = true := IsTrue.holds
    cases kind <;> first | exact trivial | rfl | cases possible

instance [IsTrue (kind.asks none).isAnything] : kind.Open where
  asks := by
    have anything : (kind.asks none).isAnything = true := IsTrue.holds
    cases asks : kind.asks none <;> rw [asks] at anything <;> first | rfl | cases anything

instance [IsTrue (kind.asks (some .name)).isAnything] [IsTrue (kind.asks (some .parameters)).isAnything] :
    kind.Free where
  asks role := by
    have name : (kind.asks (some .name)).isAnything = true := IsTrue.holds
    have parameters : (kind.asks (some .parameters)).isAnything = true := IsTrue.holds
    cases kind <;> first | rfl | exact (Bool.false_ne_true name).elim | exact (Bool.false_ne_true parameters).elim

instance [free : kind.Free] : kind.Open := ⟨free.asks none⟩

instance [isOpen : kind.Open] : kind.Parent := ⟨fun _ => by rw [isOpen.asks]; trivial⟩

namespace Open

variable [isOpen : kind.Open]

include isOpen

theorem notName : kind.isName = false := by
  have asks := isOpen.asks
  cases kind <;> first | rfl | cases asks

theorem body : kind.asks (some .body) = .anything := by
  have asks := isOpen.asks
  cases kind <;> first | rfl | cases asks

theorem name (met : Demand.name.Met child isLeaf) : (kind.asks (some .name)).Met child isLeaf := by
  have asks := isOpen.asks
  cases kind <;> trivial

theorem parameters : (kind.asks (some .parameters)).Met .formalParameters isLeaf := by
  have asks := isOpen.asks
  cases kind <;> trivial

end Open

theorem notName_of_isOther (other : kind.isOther = true) : kind.isName = false := by
  cases kind <;> first | rfl | cases other

theorem solids_of_isOther (other : kind.isOther = true) : kind.solids = 0 := by
  cases kind <;> first | rfl | cases other

theorem notOpening_of_isOther (other : kind.isOther = true) : kind.isOpening = false := by
  cases kind <;> first | rfl | cases other

theorem of_isCallable (callable : kind.isCallable = true) : kind.isName = false ∧ kind.solids = 1 := by
  cases kind <;> first | exact ⟨rfl, rfl⟩ | cases callable

theorem of_isBlock (block : kind.isBlock = true) : kind.isName = false ∧ kind.solids = 2 := by
  cases kind <;> first | exact ⟨rfl, rfl⟩ | cases block

end Kind

namespace Rule

/-- Whether a construct of a kind may have the row built so far, at least `n` of the row are not empty, and everything
in the row is regular. -/
structure State.Fits (kind : Kind) (n : Nat) (s : State) : Prop where
  wide : ∀ rune ∈ s.rest, 0 < rune.width
  solid : n ≤ s.built.countP Sprout.isSolid
  suits : ∀ sprout ∈ s.built, sprout.Suits kind
  regular : ∀ sprout ∈ s.built, sprout.Regular

/-- Rules that keep the row of a construct. -/
class Keeps (kind : Kind) (rule : Rule) : Prop where
  fits : ∀ {n : Nat} {s t : State}, rule s = some t → s.Fits kind n → t.Fits kind n

/-- Rules behind which the construct read last is what is asked for. -/
class Ends (demand : Demand) (rule : Rule) : Prop where
  met : ∀ {s t : State} {last : Sprout} {before : List Sprout}, rule s = some t → t.built = last :: before →
    demand.Met last.kind last.isLeaf

section

variable {kind : Kind} {demand : Demand} {rule other : Rule} {rest : List Rule} {n : Nat} {s t : State}

instance : Keeps kind skip where
  fits
  | rfl, fits => fits

instance : Keeps kind refuse := ⟨nofun⟩

instance : Keeps kind (all []) := inferInstanceAs (Keeps kind skip)

instance [keeps : Keeps kind rule] [later : Keeps kind (all rest)] : Keeps kind (all (rule :: rest)) where
  fits {_ s t} read fits := by
    rw [all] at read
    dsimp only at read
    split at read
    · rename_i first
      exact later.fits read (keeps.fits first fits)
    · cases read

instance : Keeps kind (first []) := inferInstanceAs (Keeps kind refuse)

instance [keeps : Keeps kind rule] [later : Keeps kind (first rest)] : Keeps kind (first (rule :: rest)) where
  fits {_ s t} read fits := by
    rw [first] at read
    dsimp only at read
    split at read
    · rename_i first
      cases read
      exact keeps.fits first fits
    · exact later.fits read fits

instance {α : Type} {f : α → Rule} {row : List α} [keeps : ∀ a, Keeps kind (f a)] :
    Keeps kind (first (row.map f)) := by
  induction row with
  | nil => exact inferInstanceAs (Keeps kind refuse)
  | cons a row ih => exact inferInstanceAs (Keeps kind (first (f a :: row.map f)))

instance [Keeps kind rule] : Keeps kind (optional rule) := inferInstanceAs (Keeps kind (first [rule, skip]))

theorem fits_manyWithin [keeps : Keeps kind rule] {bound : List Rune} (read : manyWithin bound rule s = some t)
    (fits : s.Fits kind n) : t.Fits kind n := by
  induction bound generalizing s with
  | nil =>
      cases read
      exact fits
  | cons _ bound ih =>
      rw [manyWithin] at read
      dsimp only at read
      split at read
      · rename_i once
        exact ih read (keeps.fits once fits)
      · cases read
        exact fits

instance [Keeps kind rule] : Keeps kind (many rule) := ⟨fits_manyWithin⟩

instance [Keeps kind rule] : Keeps kind (many1 rule) := inferInstanceAs (Keeps kind (all [rule, many rule]))

instance : Keeps kind (unlessAhead rule) where
  fits {_ s t} read fits := by
    rw [unlessAhead] at read
    split at read
    · cases read
    · cases read
      exact fits

instance : Keeps kind (ahead rule) where
  fits read fits := by
    obtain ⟨_, _, rfl⟩ := Option.map_eq_some_iff.mp read
    exact fits

instance {condition : State → Bool} : Keeps kind (guard condition) where
  fits {_ s t} read fits := by
    rw [guard] at read
    split at read
    · cases read
      exact fits
    · cases read

instance {enclosed : Bool} [keeps : Keeps kind rule] : Keeps kind (within enclosed rule) where
  fits read fits := by
    obtain ⟨t, inside, rfl⟩ := Option.map_eq_some_iff.mp read
    obtain ⟨wide, solid, suits, regular⟩ := keeps.fits inside ⟨fits.wide, fits.solid, fits.suits, fits.regular⟩
    exact ⟨wide, solid, suits, regular⟩

instance {condition : Prop} [Decidable condition] [keeps : Keeps kind rule] [keeps' : Keeps kind other] :
    Keeps kind (if condition then rule else other) := by
  split
  · exact keeps
  · exact keeps'

/-! ## Leaves -/

theorem fits_blanks (fits : s.Fits kind n) : (blanks s).Fits kind n :=
  ⟨fun rune mem => fits.wide rune (List.mem_of_mem_drop mem), fits.solid, fits.suits, fits.regular⟩

/-- A leaf of at least one rune is not empty. -/
theorem bytes_take_pos {count : Nat} (wide : ∀ rune ∈ s.rest, 0 < rune.width) (nonempty : s.rest ≠ []) :
    0 < Rune.bytes (s.rest.take (count + 1)) := by
  obtain ⟨rune, rest, cut⟩ := List.exists_cons_of_ne_nil nonempty
  rw [cut]
  exact Nat.lt_of_lt_of_le (wide rune (cut ▸ List.mem_cons_self)) (Nat.le_add_right _ _)

/-- No runes spell a word. -/
theorem measure_word (letters : List Char) :
    (if Rune.spells letters [] && Rune.nameLength [] == letters.length then letters.length else 0) = 0 := by
  cases letters with
  | nil => rfl
  | cons => rfl

theorem measure_sign (letters : List Char) : (if Rune.spells letters [] then letters.length else 0) = 0 := by
  cases letters with
  | nil => rfl
  | cons => rfl

/-- Words that open no scope. -/
class Idle (text : String) : Prop where
  other : text ≠ "function"

instance : Idle "" := ⟨by decide⟩

instance : Idle ";" := ⟨by decide⟩

instance : Idle "\x60" := ⟨by decide⟩

variable [parent : kind.Parent] {leaf : Kind} {measure : List Rune → Nat}

include parent

theorem fits_leafOf {count : Nat} (nonempty : leaf.isName = true ∨ leaf.isOpening = true → s.rest ≠ [])
    (fits : s.Fits kind n) : (leafOf leaf (count + 1) s).Fits kind n where
  wide rune mem := fits.wide rune (List.mem_of_mem_drop mem)
  solid := Nat.le_trans fits.solid (List.Sublist.countP_le (List.sublist_cons_self _ _))
  suits sprout mem := by
    rcases List.mem_cons.mp mem with rfl | before
    · exact parent.met leaf
    · exact fits.suits sprout before
  regular sprout mem := by
    rcases List.mem_cons.mp mem with rfl | before
    · exact .leaf fun asked => bytes_take_pos fits.wide (nonempty asked)
    · exact fits.regular sprout before

/-- A lexeme is a leaf that a construct may have. What must not be empty takes no runes where there are none. -/
theorem fits_lexemeHere (read : lexemeHere leaf measure s = some t) (fits : s.Fits kind n)
    (empty : leaf.isName = true ∨ leaf.isOpening = true → s.rest = [] → measure s.rest = 0) : t.Fits kind n := by
  rw [lexemeHere] at read
  split at read
  · cases read
  · rename_i count taken
    cases read
    refine fits_leafOf (fun asked none => ?_) fits
    rw [empty asked none] at taken
    cases taken

theorem keeps_lexemeHere (empty : leaf.isName = true ∨ leaf.isOpening = true → measure [] = 0) :
    Keeps kind (lexemeHere leaf measure) where
  fits read fits := fits_lexemeHere read fits fun asked none => none ▸ empty asked

instance [other : IsTrue leaf.isOther] : Keeps kind (lexemeHere leaf measure) := by
  refine keeps_lexemeHere fun asked => ?_
  rw [leaf.notName_of_isOther other.holds, leaf.notOpening_of_isOther other.holds] at asked
  rcases asked with asked | asked <;> cases asked

instance {text : String} [idle : Idle text] : Keeps kind (lexemeHere (.token text) measure) := by
  refine keeps_lexemeHere fun asked => ?_
  rcases asked with asked | asked
  · cases asked
  · simp only [Kind.isOpening, Kind.opensFunction, Kind.opensBlock, Bool.or_eq_true, beq_iff_eq, Kind.token.injEq,
      idle.other, Bool.false_eq_true, false_or] at asked
    cases asked

instance : Keeps kind comment where
  fits read fits := Keeps.fits (show lexemeHere .comment Lexeme.comment _ = _ from read) (fits_blanks fits)

theorem fits_trivia (fits : s.Fits kind n) : (trivia s).Fits kind n := by
  rw [trivia]
  split
  · rename_i read
    exact fits_blanks (Keeps.fits read fits)
  · exact fits_blanks fits

theorem keeps_lexeme (empty : leaf.isName = true ∨ leaf.isOpening = true → measure [] = 0) :
    Keeps kind (lexeme leaf measure) where
  fits read fits := (keeps_lexemeHere empty).fits read (fits_trivia fits)

instance [keeps : Keeps kind (lexemeHere leaf measure)] : Keeps kind (lexeme leaf measure) where
  fits read fits := keeps.fits read (fits_trivia fits)

instance {text : String} : Keeps kind (word text) := keeps_lexeme fun _ => measure_word text.toList

instance {text : String} : Keeps kind (sign text) := keeps_lexeme fun _ => measure_sign text.toList

instance {text : String} : Keeps kind (token text) := by
  unfold token
  split
  · infer_instance
  · infer_instance

instance {texts : List String} : Keeps kind (operator texts) where
  fits {_ s t} read fits := by
    rw [operator] at read
    split at read
    · refine fits_lexemeHere read (fits_trivia fits) fun _ none => ?_
      rw [none]
      rfl
    · cases read

end

/-! ## What a construct asks for -/

section

variable {kind inner : Kind} {demand : Demand} {role : Role} {rule other : Rule} {rest : List Rule} {n : Nat}
  {s t : State}

instance : Ends .anything rule := ⟨fun _ _ => trivial⟩

theorem ends_lexeme {leaf : Kind} {measure : List Rune → Nat} (met : demand.Met leaf true) :
    Ends demand (lexeme leaf measure) where
  met {s t last before} read built := by
    rw [lexeme, lexemeHere] at read
    split at read
    · cases read
    · cases read
      cases built
      exact met

instance {leaf : Kind} {measure : List Rune → Nat} : Ends .leaf (lexeme leaf measure) := ends_lexeme rfl

instance : Ends demand (first []) := ⟨nofun⟩

instance [ends : Ends demand rule] [later : Ends demand (first rest)] : Ends demand (first (rule :: rest)) where
  met {s t last before} read built := by
    rw [first] at read
    dsimp only at read
    split at read
    · rename_i first
      cases read
      exact ends.met first built
    · exact later.met read built

instance [ends : Ends demand rule] : Ends demand (all [rule]) where
  met {s t last before} read built := by
    rw [all] at read
    dsimp only at read
    split at read
    · rename_i once
      cases read
      exact ends.met once built
    · cases read

instance [later : Ends demand (all (other :: rest))] : Ends demand (all (rule :: other :: rest)) where
  met {s t last before} read built := by
    rw [all] at read
    dsimp only at read
    split at read
    · exact later.met read built
    · cases read

instance {condition : Prop} [Decidable condition] [ends : Ends demand rule] [ends' : Ends demand other] :
    Ends demand (if condition then rule else other) := by
  split
  · exact ends
  · exact ends'

theorem ends_node (met : demand.Met inner false) : Ends demand (node inner rule) where
  met read built := by
    obtain ⟨t, _, rfl⟩ := Option.map_eq_some_iff.mp read
    cases built
    exact met

/-- The construct read last gets a role in which it is what is asked for. -/
theorem fits_assign (read : assign role s = some t) (fits : s.Fits kind n)
    (asked : ∀ last before, s.built = last :: before → (kind.asks (some role)).Met last.kind last.isLeaf) :
    t.Fits kind n := by
  rw [assign] at read
  cases built : s.built with
  | nil =>
      rw [built] at read
      cases read
  | cons last before =>
      rw [built] at read
      cases read
      have met := asked last before built
      refine ⟨fits.wide, ?_, fun sprout mem => ?_, fun sprout mem => ?_⟩
      · have solid := fits.solid
        rwa [built, List.countP_cons, ← Sprout.isSolid_inRole role last, ← List.countP_cons] at solid
      · rcases List.mem_cons.mp mem with rfl | mem
        · cases last <;> exact met
        · exact fits.suits sprout (built ▸ List.mem_cons_of_mem last mem)
      · rcases List.mem_cons.mp mem with rfl | mem
        · exact (fits.regular last (built ▸ List.mem_cons_self)).inRole role
        · exact fits.regular sprout (built ▸ List.mem_cons_of_mem last mem)

/-- What is read in a role is what a construct asks for in this role. -/
theorem keeps_field [keeps : Keeps kind rule] [ends : Ends demand rule]
    (asked : ∀ child isLeaf, demand.Met child isLeaf → (kind.asks (some role)).Met child isLeaf) :
    Keeps kind (field role rule) where
  fits {_ s t} read fits := by
    rw [field, all, all, all] at read
    dsimp only at read
    split at read
    · rename_i s first
      split at read
      · rename_i t given
        cases read
        exact fits_assign given (keeps.fits first fits) fun last before built => asked _ _ (ends.met first built)
      · cases read
    · cases read

instance [Keeps kind rule] [Ends (kind.asks (some role)) rule] : Keeps kind (field role rule) :=
  keeps_field fun _ _ => id

/-- A construct that asks for nothing lets the construct read last play any role. -/
instance [free : kind.Free] : Keeps kind (assign role) where
  fits read fits := fits_assign read fits fun _ _ _ => by
    rw [free.asks]
    trivial

instance [kind.Free] [Keeps kind rule] : Keeps kind (field role rule) :=
  inferInstanceAs (Keeps kind (all [rule, assign role]))

end

/-! ## Constructs -/

section

variable {kind inner : Kind} {role : Role} {rule : Rule} {m n : Nat} {s t : State}

/-- What is read inside a construct becomes one node behind the row before it. -/
theorem State.Fits.construct [isOpen : kind.Open] (notName : inner.isName = false) (most : inner.solids ≤ m)
    {row : List Sprout} (inside : t.Fits inner m) (solid : n ≤ min m 1 + row.countP Sprout.isSolid)
    (suits : ∀ sprout ∈ row, sprout.Suits kind) (regular : ∀ sprout ∈ row, sprout.Regular) :
    State.Fits kind n { t with built := .branch inner none t.built.reverse :: row } := by
  have enough : m ≤ t.built.reverse.countP Sprout.isSolid := by
    rw [List.countP_reverse]
    exact inside.solid
  refine ⟨inside.wide, ?_, fun sprout mem => ?_, fun sprout mem => ?_⟩
  · rw [List.countP_cons]
    split
    · omega
    · rename_i empty
      rw [Sprout.isSolid_branch] at empty
      omega
  · rcases List.mem_cons.mp mem with rfl | before
    · change (kind.asks none).Met inner false
      rw [isOpen.asks]
      trivial
    · exact suits sprout before
  · rcases List.mem_cons.mp mem with rfl | before
    · exact .branch notName (Nat.le_trans most enough)
        (fun sprout mem => inside.suits sprout (List.mem_reverse.mp mem))
        fun sprout mem => inside.regular sprout (List.mem_reverse.mp mem)
    · exact regular sprout before

theorem keeps_node [kind.Open] (notName : inner.isName = false)
    (fits : ∀ {s t : State}, rule s = some t → s.Fits inner 0 → t.Fits inner inner.solids) :
    Keeps kind (node inner rule) where
  fits {n s t} read before := by
    obtain ⟨t, inside, rfl⟩ := Option.map_eq_some_iff.mp read
    obtain ⟨wide, solid, suits, regular⟩ := fits_trivia before
    have begun : State.Fits inner 0 { trivia s with built := [] } := ⟨wide, Nat.zero_le _, nofun, nofun⟩
    exact (fits inside begun).construct notName (Nat.le_refl _) (by omega) suits regular

instance [kind.Open] [other : IsTrue inner.isOther] [keeps : Keeps inner rule] : Keeps kind (node inner rule) := by
  refine keeps_node (inner.notName_of_isOther other.holds) fun read fits => ?_
  rw [inner.solids_of_isOther other.holds]
  exact keeps.fits read fits

instance [kind.Open] [other : IsTrue inner.isOther] [free : inner.Free] [keeps : Keeps inner rule] :
    Keeps kind (wrap inner rule) where
  fits {n s t} read fits := by
    rw [wrap] at read
    cases built : s.built with
    | nil =>
        rw [built] at read
        cases read
    | cons last before =>
        rw [built] at read
        obtain ⟨t, inside, rfl⟩ := Option.map_eq_some_iff.mp read
        have begun : State.Fits inner ([last].countP Sprout.isSolid) { s with built := [last] } := by
          refine ⟨fits.wide, Nat.le_refl _, fun sprout mem => ?_, fun sprout mem => ?_⟩
          · rw [Sprout.Suits, free.asks]
            trivial
          · exact fits.regular sprout (built ▸ List.mem_singleton.mp mem ▸ List.mem_cons_self)
        refine (keeps.fits inside begun).construct Kind.Open.notName
          (Nat.le_trans (Nat.le_of_eq (inner.solids_of_isOther other.holds)) (Nat.zero_le _)) ?_
          (fun sprout mem => fits.suits sprout (built ▸ List.mem_cons_of_mem last mem))
          fun sprout mem => fits.regular sprout (built ▸ List.mem_cons_of_mem last mem)
        -- the node is empty only where the construct that it begins with was
        have solid := fits.solid
        rw [built, ← List.singleton_append, List.countP_append] at solid
        have single : [last].countP Sprout.isSolid ≤ 1 := List.countP_le_length
        omega

instance [kind.Open] [IsTrue inner.isOther] [inner.Free] [Keeps inner rule] : Keeps kind (wrapAs role inner rule) :=
  inferInstanceAs (Keeps kind (wrap inner (all [assign role, rule])))

instance {kinds : List Kind} : Keeps kind (lastIs kinds) := inferInstanceAs (Keeps kind (guard _))

instance : Keeps kind sameLine := inferInstanceAs (Keeps kind (guard _))

variable [kind.Parent]

instance [Keeps kind rule] : Keeps kind (separated rule) :=
  inferInstanceAs (Keeps kind (all [rule, many (all [",", rule])]))

instance [Keeps kind rule] : Keeps kind (listed rule) :=
  inferInstanceAs (Keeps kind (optional (all [separated rule, optional ","])))

instance [Keeps kind rule] : Keeps kind (sparse rule) :=
  inferInstanceAs (Keeps kind (all [optional rule, many (all [",", optional rule])]))

instance {opening closing : String} [Keeps kind rule] : Keeps kind (between opening rule closing) :=
  inferInstanceAs (Keeps kind (all [opening, within true rule, closing]))

end

/-! ## Rules that read something -/

/-- Rules that keep the row of a construct and add a number of sprouts that are not empty, at least. -/
class Adds (kind : Kind) (count : Nat) (rule : Rule) : Prop where
  fits : ∀ {n : Nat} {s t : State}, rule s = some t → s.Fits kind n → t.Fits kind (n + count)

/-- Texts of tokens that are not empty. -/
class Spelled (text : String) : Prop where
  letters : text.toList ≠ []

section

variable {kind inner leaf : Kind} {role : Role} {rule other : Rule} {rest : List Rule} {measure : List Rune → Nat}
  {count : Nat} {text opening closing : String}

instance (priority := low) [keeps : Keeps kind rule] : Adds kind 0 rule := ⟨keeps.fits⟩

instance {condition : Prop} [Decidable condition] [adds : Adds kind count rule] [adds' : Adds kind count other] :
    Adds kind count (if condition then rule else other) := by
  split
  · exact adds
  · exact adds'

instance : Adds kind count (first []) := ⟨nofun⟩

instance [adds : Adds kind count rule] [later : Adds kind count (first rest)] :
    Adds kind count (first (rule :: rest)) where
  fits {_ s t} read fits := by
    rw [first] at read
    dsimp only at read
    split at read
    · rename_i first
      cases read
      exact adds.fits first fits
    · exact later.fits read fits

instance (priority := low) [keeps : Keeps kind rule] [later : Adds kind count (all rest)] :
    Adds kind count (all (rule :: rest)) where
  fits {_ s t} read fits := by
    rw [all] at read
    dsimp only at read
    split at read
    · rename_i first
      exact later.fits read (keeps.fits first fits)
    · cases read

instance [adds : Adds kind 1 rule] [later : Adds kind count (all rest)] :
    Adds kind (count + 1) (all (rule :: rest)) where
  fits {n s t} read fits := by
    rw [all] at read
    dsimp only at read
    split at read
    · rename_i first
      rw [Nat.add_comm count, ← Nat.add_assoc]
      exact later.fits read (adds.fits first fits)
    · cases read

/-- What is read keeps its bytes in any role. -/
instance [keeps : Keeps kind (field role rule)] [adds : Adds kind count rule] : Adds kind count (field role rule) where
  fits {n s t} read fits := by
    obtain ⟨wide, _, suits, regular⟩ := keeps.fits read fits
    refine ⟨wide, ?_, suits, regular⟩
    rw [field, all, all, all] at read
    dsimp only at read
    split at read
    · rename_i u first
      have solid := (adds.fits first fits).solid
      rw [assign] at read
      cases built : u.built with
      | nil =>
          rw [built] at read
          cases read
      | cons last before =>
          rw [built] at read
          cases read
          rwa [built, List.countP_cons, ← Sprout.isSolid_inRole role last, ← List.countP_cons] at solid
    · cases read

instance [kind.Open] [keeps : Keeps kind (node inner rule)] [adds : Adds inner 1 rule] :
    Adds kind 1 (node inner rule) where
  fits {n s t} read fits := by
    obtain ⟨wide, _, suits, regular⟩ := keeps.fits read fits
    refine ⟨wide, ?_, suits, regular⟩
    obtain ⟨t, inside, rfl⟩ := Option.map_eq_some_iff.mp read
    have outside := fits_trivia fits
    have begun : State.Fits inner 0 { trivia s with built := [] } := ⟨outside.wide, Nat.zero_le _, nofun, nofun⟩
    have solid : Sprout.isSolid (.branch inner none t.built.reverse) = true := by
      rw [Sprout.isSolid_branch, List.countP_reverse]
      exact (adds.fits inside begun).solid
    rw [List.countP_cons_of_pos solid]
    exact Nat.succ_le_succ outside.solid

variable [kind.Parent]

theorem adds_lexeme (empty : measure [] = 0) : Adds kind 1 (lexeme leaf measure) where
  fits {n s t} read fits := by
    have before := fits_trivia fits
    obtain ⟨wide, _, suits, regular⟩ := fits_lexemeHere read before fun _ none => none ▸ empty
    refine ⟨wide, ?_, suits, regular⟩
    rw [lexeme, lexemeHere] at read
    split at read
    · cases read
    · rename_i taken
      cases read
      have nonempty : (trivia s).rest ≠ [] := by
        intro none
        rw [none, empty] at taken
        cases taken
      refine Nat.le_trans (Nat.succ_le_succ before.solid) (Nat.le_of_eq (List.countP_cons_of_pos ?_).symm)
      exact decide_eq_true (bytes_take_pos before.wide nonempty)

instance : Adds kind 1 (word text) := adds_lexeme (measure_word text.toList)

instance : Adds kind 1 (sign text) := adds_lexeme (measure_sign text.toList)

instance [spelled : Spelled text] : Adds kind 1 (token text) := by
  unfold token
  split
  · infer_instance
  · rename_i none
    exact absurd none spelled.letters

instance [Spelled opening] [Keeps kind rule] : Adds kind 1 (between opening rule closing) :=
  inferInstanceAs (Adds kind 1 (all [opening, within true rule, closing]))

end

/-! ## Functions, classes and blocks -/

section

variable {kind inner : Kind} [kind.Open] {rule : Rule}

instance [callable : IsTrue inner.isCallable] [adds : Adds inner 1 rule] : Keeps kind (node inner rule) := by
  obtain ⟨notName, solids⟩ := inner.of_isCallable callable.holds
  refine keeps_node notName fun read fits => ?_
  rw [solids]
  exact adds.fits read fits

instance [block : IsTrue inner.isBlock] [adds : Adds inner 2 rule] : Keeps kind (node inner rule) := by
  obtain ⟨notName, solids⟩ := inner.of_isBlock block.holds
  refine keeps_node notName fun read fits => ?_
  rw [solids]
  exact adds.fits read fits

end

/-! ## The ends of statements -/

section

variable {kind : Kind} [parent : kind.Parent] {dialect : Dialect} {operand signature : Bool} {rule : Rule} {n : Nat}
  {s t : State}

instance : Keeps kind (automaticWith dialect operand signature) := inferInstanceAs (Keeps kind (guard _))

instance : Keeps kind (automatic dialect operand) := inferInstanceAs (Keeps kind (automaticWith dialect operand false))

instance : Keeps kind explicit where
  fits read fits := Keeps.fits (show lexemeHere (.token ";") _ _ = _ from read) (fits_blanks fits)

theorem fits_settleWithin [keeps : Keeps kind rule] {bound : List Rune} (read : settleWithin rule bound s = some t)
    (fits : s.Fits kind n) : t.Fits kind n := by
  induction bound generalizing s with
  | nil => exact keeps.fits read fits
  | cons _ bound ih =>
      rw [settleWithin] at read
      dsimp only at read
      split at read
      · rename_i ended
        cases read
        exact keeps.fits ended fits
      · split at read
        · rename_i passed
          exact ih read (Keeps.fits passed fits)
        · cases read

instance [Keeps kind rule] : Keeps kind (settle rule) := ⟨fits_settleWithin⟩

instance : Keeps kind (semicolon dialect operand) :=
  inferInstanceAs (Keeps kind (settle (first [automatic dialect operand, explicit])))

instance : Keeps kind (signatureEnd dialect) :=
  inferInstanceAs (Keeps kind (settle (first [automaticWith dialect false true, explicit])))

instance : Keeps kind (closingComments dialect) :=
  inferInstanceAs (Keeps kind (optional (within false (settle (automatic dialect true)))))

end

end Rule

end Rebundle
