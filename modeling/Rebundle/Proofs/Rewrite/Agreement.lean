import Rebundle.Proofs.Rewrite.Passes

/-!
# Visits of two runs

Two runs over one program may differ in what they have recorded, counted and reported. As long as they
agree in everything else, a visit does the same in both: it goes on or not, it records the same edit, if
any, and the runs agree afterwards.
-/

namespace Rebundle

open Source Tree

/-- What a visit records. -/
structure Entry where
  start : Nat
  stop : Nat
  parts : List Part
  reason : Text

namespace Document

def enter (doc : Document) : Option Entry → Document
  | none => doc
  | some entry => (doc.record entry.start entry.stop entry.parts entry.reason).2

end Document

/-- Whether an entry writes nothing again but the declarators of one declaration, from the first to the
last. -/
def Entry.Shaped (root : Tree) (entry : Entry) : Prop :=
  ∀ span, .span span ∈ entry.parts → ∃ t ∈ root.nodes, t.kind.isVariableDeclaration = true ∧
    ∃ first last, t.Hull first last ∧ entry.start = first.start ∧ entry.stop = last.stop ∧
      ∃ declarator ∈ t.declarators, span = Span.ofRange declarator.range []

theorem Entry.shaped_text (root : Tree) (start stop : Nat) (t reason : Text) :
    Entry.Shaped root ⟨start, stop, [.text t], reason⟩ := by
  intro span written
  simp at written

namespace Entry

def range (entry : Entry) : Range := ⟨entry.start, entry.stop⟩

/-- What removing a range with its lines records. -/
def lines (source : Bytes) (range : Range) (reason : Text) : Entry :=
  ⟨(extent source range).start, (extent source range).stop, [.text []], reason⟩

/-- What deleting a statement below its owner records. -/
def deletion (source : Bytes) (range : Range) (reason : Text) : Option Label → Entry
  | some owner =>
      if owner.kind.listsStatements then lines source range reason
      else ⟨range.start, range.stop, [.text ";"], reason⟩
  | none => lines source range reason

/-- What deleting a statement below these ancestors records, together with the export around it. -/
def ofStatement (source : Bytes) (range : Range) (ancestors : List Label) (reason : Text) : Entry :=
  match ancestors with
  | parent :: rest =>
      if parent.kind == Kind.exportStatement then deletion source parent.range reason rest.head?
      else deletion source range reason (some parent)
  | [] => deletion source range reason none

theorem shaped_deletion (root : Tree) (source : Bytes) (range : Range) (reason : Text)
    (owner : Option Label) : (deletion source range reason owner).Shaped root := by
  unfold deletion
  split
  · split
    · exact shaped_text root _ _ _ _
    · exact shaped_text root _ _ _ _
  · exact shaped_text root _ _ _ _

theorem shaped_ofStatement (root : Tree) (source : Bytes) (range : Range) (ancestors : List Label)
    (reason : Text) : (ofStatement source range ancestors reason).Shaped root := by
  unfold ofStatement
  split
  · split
    · exact shaped_deletion root _ _ _ _
    · exact shaped_deletion root _ _ _ _
  · exact shaped_deletion root _ _ _ _

end Entry

namespace Rewrite

/-- Two states of a rewriting that differ in their edits, counters and records only. -/
structure Agrees (a b : Rewrite) : Prop where
  source : b.doc.source = a.doc.source
  config : b.config = a.config
  skipBefore : b.skipBefore = a.skipBefore
  scopes : b.scopes = a.scopes
  renames : b.renames = a.renames
  warnings : b.warnings = a.warnings
  usedNames : b.usedNames = a.usedNames

/-- Two steps that record the same, from states that need not agree in their documents. -/
structure Follows (a b a' b' : Rewrite) (entry : Option Entry) : Prop where
  agrees : a'.Agrees b'
  first : a'.doc = a.doc.enter entry
  second : b'.doc = b.doc.enter entry

variable {a b a' b' : Rewrite} {entry : Option Entry}

theorem Agrees.refl (a : Rewrite) : a.Agrees a := ⟨rfl, rfl, rfl, rfl, rfl, rfl, rfl⟩

theorem Agrees.trans {c : Rewrite} (ab : a.Agrees b) (bc : b.Agrees c) : a.Agrees c where
  source := bc.source.trans ab.source
  config := bc.config.trans ab.config
  skipBefore := bc.skipBefore.trans ab.skipBefore
  scopes := bc.scopes.trans ab.scopes
  renames := bc.renames.trans ab.renames
  warnings := bc.warnings.trans ab.warnings
  usedNames := bc.usedNames.trans ab.usedNames

theorem Agrees.text (agrees : a.Agrees b) (t : Tree) : b.text t = a.text t := by
  rw [Rewrite.text, Rewrite.text, Rewrite.source, Rewrite.source, agrees.source]

theorem Agrees.localName (agrees : a.Agrees b) (t : Tree) : b.localName t = a.localName t := by
  rw [Rewrite.localName, Rewrite.localName, agrees.renames, agrees.text]

theorem Agrees.follows (agrees : a.Agrees b) : Follows a b a b none := ⟨agrees, rfl, rfl⟩

namespace Follows

theorem count (follows : Follows a b a' b' entry) (key : Text) (amount : Nat) :
    Follows a b (a'.count key amount) (b'.count key amount) entry :=
  ⟨⟨follows.agrees.source, follows.agrees.config, follows.agrees.skipBefore, follows.agrees.scopes,
    follows.agrees.renames, follows.agrees.warnings, follows.agrees.usedNames⟩,
    follows.first, follows.second⟩

theorem write (follows : Follows a b a' b' entry) (record record' : Log.Record) :
    Follows a b (a'.write record) (b'.write record') entry :=
  ⟨⟨follows.agrees.source, follows.agrees.config, follows.agrees.skipBefore, follows.agrees.scopes,
    follows.agrees.renames, follows.agrees.warnings, follows.agrees.usedNames⟩,
    follows.first, follows.second⟩

theorem replace (follows : Follows a b a' b' none) (range : Range) (parts : List Part) (reason : Text) :
    Follows a b (a'.replace range parts reason) (b'.replace range parts reason)
      (some ⟨range.start, range.stop, parts, reason⟩) where
  agrees := ⟨follows.agrees.source, follows.agrees.config, follows.agrees.skipBefore,
    follows.agrees.scopes, follows.agrees.renames, follows.agrees.warnings, follows.agrees.usedNames⟩
  first := by rw [replace_doc, follows.first]; rfl
  second := by rw [replace_doc, follows.second]; rfl

theorem remove (follows : Follows a b a' b' none) (range : Range) (reason : Text) :
    Follows a b (a'.remove range reason).2 (b'.remove range reason).2
      (some (Entry.lines a.doc.source range reason)) where
  agrees := by
    simp only [Rewrite.remove]
    exact ⟨follows.agrees.source, follows.agrees.config, follows.agrees.skipBefore,
      follows.agrees.scopes, follows.agrees.renames, follows.agrees.warnings, follows.agrees.usedNames⟩
  first := by
    have grown := remove_doc range reason a'
    have same : a'.doc = a.doc := follows.first
    unfold Rewrite.source at grown
    rw [same] at grown
    simp only [Document.enter, Entry.lines]
    exact grown
  second := by
    have grown := remove_doc range reason b'
    have source : b'.doc.source = a.doc.source := by
      rw [follows.agrees.source, follows.first, Document.enter]
    have same : b'.doc = b.doc := follows.second
    unfold Rewrite.source at grown
    rw [source, same] at grown
    simp only [Document.enter, Entry.lines]
    exact grown

theorem removeStatement (follows : Follows a b a' b' none) (range : Range) (ancestors : List Label)
    (reason : Text) :
    Follows a b (a'.removeStatement range ancestors reason) (b'.removeStatement range ancestors reason)
      (some (Entry.ofStatement a.doc.source range ancestors reason)) := by
  cases ancestors with
  | nil => exact follows.remove _ _
  | cons parent rest =>
      by_cases exported : (parent.kind == Kind.exportStatement) = true
      · simp only [Rewrite.removeStatement, Entry.ofStatement, exported, if_true]
        cases rest.head? with
        | none => exact follows.remove _ _
        | some owner =>
            dsimp only [Entry.deletion]
            split
            · exact follows.remove _ _
            · exact follows.replace _ _ _
      · simp only [Rewrite.removeStatement, Entry.ofStatement, Entry.deletion, exported,
          Bool.false_eq_true, if_false]
        split
        · exact follows.remove _ _
        · exact follows.replace _ _ _

end Follows

end Rewrite

/-- Two visits that do the same. -/
structure Alike (root : Tree) (a b : Rewrite) (first second : Bool × Rewrite) (entry : Option Entry) :
    Prop where
  goesOn : second.1 = first.1
  follows : Rewrite.Follows a b first.2 second.2 entry
  shaped : ∀ e ∈ entry, e.Shaped root

variable {root : Tree} {cursor : Cursor} {a b : Rewrite}

theorem Rewrite.Agrees.alike (agrees : a.Agrees b) (goesOn : Bool) :
    Alike root a b (goesOn, a) (goesOn, b) none := ⟨rfl, agrees.follows, by simp⟩

theorem Rewrite.Agrees.source' (agrees : a.Agrees b) : b.source = a.source := agrees.source

namespace Modules

theorem pattern_congr (agrees : a.Agrees b) : pattern b = pattern a := by
  have names : property b = property a := by
    funext specifier
    simp only [property, agrees.text, agrees.localName]
  funext specifiers
  rw [pattern, pattern, names]

theorem follows_freshName (agrees : a.Agrees b) (hint : Text) :
    (b.freshName hint).1 = (a.freshName hint).1 ∧
      Rewrite.Follows a b (a.freshName hint).2 (b.freshName hint).2 none := by
  have fresh : Names.fresh hint b.usedNames = Names.fresh hint a.usedNames := by
    rw [agrees.usedNames]
  refine ⟨fresh, ⟨agrees.source, agrees.config, agrees.skipBefore, agrees.scopes, agrees.renames,
    agrees.warnings, ?_⟩, rfl, rfl⟩
  change Names.fresh hint b.usedNames :: b.usedNames = Names.fresh hint a.usedNames :: a.usedNames
  rw [agrees.usedNames]

theorem follows_statementFor (agrees : a.Agrees b) (request : Text) (imported : Imported) :
    (statementFor request imported b).1 = (statementFor request imported a).1 ∧
      Rewrite.Follows a b (statementFor request imported a).2 (statementFor request imported b).2 none := by
  unfold statementFor
  split
  · exact ⟨rfl, agrees.follows⟩
  · exact ⟨by rw [agrees.localName], agrees.follows⟩
  · exact ⟨by rw [agrees.localName], agrees.follows⟩
  · exact ⟨by rw [pattern_congr agrees], agrees.follows⟩
  · obtain ⟨shared, follows⟩ := follows_freshName agrees "temp"
    refine ⟨?_, follows⟩
    dsimp only
    rw [shared, pattern_congr follows.agrees,
      show (b.freshName "temp").2.localName = (a.freshName "temp").2.localName from
        funext follows.agrees.localName]

theorem alike_visit (agrees : a.Agrees b) : ∃ entry,
    Alike root a b (pass.visit cursor a) (pass.visit cursor b) entry := by
  simp only [pass]
  split
  · unfold rewriteImport
    dsimp only
    split
    · exact ⟨none, agrees.alike true⟩
    · split
      · exact ⟨_, rfl, (agrees.follows.removeStatement _ _ _).count _ _, by
          simpa using Entry.shaped_ofStatement root _ _ _ _⟩
      · rename_i source _ _
        obtain ⟨text, follows⟩ := follows_statementFor agrees ("require(" ++ a.text source ++ ")")
          (Imported.ofStatement cursor.focus)
        rw [agrees.text, text]
        exact ⟨_, rfl, ((follows.write _ _).replace _ _ _).count _ _, by
          simpa using Entry.shaped_text root _ _ _ _⟩
  · unfold rewriteMember
    dsimp only
    split
    · rw [agrees.source', agrees.text]
      split
      · split
        · exact ⟨_, rfl, ((agrees.follows.write _ _).replace _ _ _).count _ _, by
            simpa using Entry.shaped_text root _ _ _ _⟩
        · exact ⟨none, agrees.alike true⟩
      · exact ⟨none, agrees.alike true⟩
    · exact ⟨none, agrees.alike true⟩

end Modules

namespace Renaming

theorem alike_visit (agrees : a.Agrees b) : ∃ entry,
    Alike root a b (pass.visit cursor a) (pass.visit cursor b) entry := by
  change ∃ entry, Alike root a b (visit cursor a) (visit cursor b) entry
  unfold visit
  rw [agrees.renames, agrees.text]
  split
  · exact ⟨none, agrees.alike true⟩
  · split
    · exact ⟨none, agrees.alike true⟩
    · exact ⟨_, rfl, (agrees.follows.replace _ _ _).count _ _, by
        simpa using Entry.shaped_text root _ _ _ _⟩

end Renaming

namespace Removal

theorem doomedName_congr (agrees : a.Agrees b) : doomedName? b = doomedName? a := by
  funext declarator
  simp only [doomedName?, agrees.text, agrees.config]

theorem shaped_keptParts (stands : cursor.whole = root)
    (declares : cursor.kind.isVariableDeclaration = true) {kept : List Tree} {first last : Tree}
    (among : ∀ t ∈ kept, t ∈ cursor.focus.declarators) (hull : cursor.focus.Hull first last)
    (reason : Text) : Entry.Shaped root ⟨first.start, last.stop, keptParts kept, reason⟩ := by
  intro span written
  obtain ⟨declarator, known, same⟩ := mem_keptParts written
  exact ⟨cursor.focus, stands ▸ cursor.focus_mem_whole, declares, first, last, hull, rfl, rfl, declarator,
    among declarator known, same⟩

theorem alike_removeDeclarators (agrees : a.Agrees b) (stands : cursor.whole = root)
    (declares : cursor.kind.isVariableDeclaration = true) : ∃ entry,
    Alike root a b (removeDeclarators cursor a) (removeDeclarators cursor b) entry := by
  have written (names : List Text) {a' b' : Rewrite} (follows : Rewrite.Follows a b a' b' none) :
      Rewrite.Follows a b
        (names.foldl (fun rewrite name =>
          rewrite.write (Log.info ("removing variable declaration " ++ name))) a')
        (names.foldl (fun rewrite name =>
          rewrite.write (Log.info ("removing variable declaration " ++ name))) b') none := by
    induction names generalizing a' b' with
    | nil => exact follows
    | cons name rest ih => exact ih (follows.write _ _)
  unfold removeDeclarators
  rw [doomedName_congr agrees]
  dsimp only
  split
  · exact ⟨none, agrees.alike true⟩
  · split
    · rename_i first last _ head tail
      refine ⟨_, rfl, ((written _ agrees.follows).count _ _).replace _ _ _, ?_⟩
      have among : ∀ t ∈ cursor.focus.declarators.filter fun t => (doomedName? a t).isNone,
          t ∈ cursor.focus.declarators := fun t mem => (List.mem_filter.mp mem).1
      simp only [Option.mem_def, Option.some.injEq, forall_eq']
      exact shaped_keptParts stands declares among ⟨head, tail⟩ _
    · exact ⟨_, rfl, ((written _ agrees.follows).count _ _).removeStatement _ _ _, by
        simpa using Entry.shaped_ofStatement root _ _ _ _⟩

theorem alike_removeCall (agrees : a.Agrees b) : ∃ entry,
    Alike root a b (removeCall cursor a) (removeCall cursor b) entry := by
  have replaced {a' b' : Rewrite} (follows : Rewrite.Follows a b a' b' none) : ∃ entry,
      Alike root a b (removeCall.replaceCall cursor a') (removeCall.replaceCall cursor b') entry :=
    ⟨_, rfl, (follows.replace _ _ _).count _ _, by simpa using Entry.shaped_text root _ _ _ _⟩
  unfold removeCall
  rw [agrees.source', agrees.config]
  dsimp only
  split
  · exact ⟨none, agrees.alike true⟩
  · split
    · split
      · exact ⟨_, rfl, ((agrees.follows.write _ _).removeStatement _ _ _).count _ _, by
          simpa using Entry.shaped_ofStatement root _ _ _ _⟩
      · exact replaced (agrees.follows.write _ _)
    · exact replaced (agrees.follows.write _ _)

/-- Removing a function leaves both runs as they are, or it deletes the declaration in both and goes no
further. -/
theorem removeFunction_cases (root : Tree) (agrees : a.Agrees b) :
    (removeFunction cursor a = (true, a) ∧ removeFunction cursor b = (true, b)) ∨
      (removeFunction cursor a).1 = false ∧
        Alike root a b (removeFunction cursor a) (removeFunction cursor b)
          (some (Entry.ofStatement a.doc.source cursor.range cursor.ancestors "remove function")) := by
  unfold removeFunction
  rw [agrees.config]
  split
  · exact .inl ⟨rfl, rfl⟩
  · rw [agrees.text]
    dsimp only
    split
    · refine .inr ⟨rfl, rfl, ((agrees.follows.write _ _).removeStatement _ _ _).count _ _, ?_⟩
      simp only [Option.mem_def, Option.some.injEq, forall_eq']
      exact Entry.shaped_ofStatement root _ _ _ _
    · exact .inl ⟨rfl, rfl⟩

theorem alike_removeFunction (agrees : a.Agrees b) : ∃ entry,
    Alike root a b (removeFunction cursor a) (removeFunction cursor b) entry := by
  rcases removeFunction_cases root agrees with ⟨first, second⟩ | ⟨_, alike⟩
  · rw [first, second]
    exact ⟨none, agrees.alike true⟩
  · exact ⟨_, alike⟩

theorem alike_visit (agrees : a.Agrees b) (stands : cursor.whole = root) : ∃ entry,
    Alike root a b (pass.visit cursor a) (pass.visit cursor b) entry := by
  change ∃ entry, Alike root a b (visit cursor a) (visit cursor b) entry
  unfold visit
  split
  · exact alike_removeCall agrees
  · split
    · rename_i declares
      exact alike_removeDeclarators agrees stands declares
    · exact alike_removeFunction agrees

end Removal

namespace Body

theorem alike_visit (agrees : a.Agrees b) : ∃ entry,
    Alike root a b (pass.visit cursor a) (pass.visit cursor b) entry := by
  change ∃ entry, Alike root a b (visit cursor a) (visit cursor b) entry
  unfold visit
  split
  · exact ⟨none, agrees.alike true⟩
  · rw [agrees.text, agrees.config]
    dsimp only
    split
    · simp only [Rewrite.source, Rewrite.write_doc, agrees.source]
      exact ⟨_, rfl, ((agrees.follows.write _ _).replace _ _ _).count _ _, by
        simpa using Entry.shaped_text root _ _ _ _⟩
    · exact ⟨none, agrees.alike true⟩

/-- At the declaration of a function the body is left alone, or it is replaced by a text. The visits go
on. -/
theorem visit_function (kind : cursor.kind.isFunctionDeclaration = true) (rewrite : Rewrite) :
    ∃ next, pass.visit cursor rewrite = (true, next) ∧ rewrite.Agrees next ∧
      (next = rewrite ∨ ∃ name body text, cursor.child? .name = some name ∧
        cursor.child? .body = some body ∧
          next.doc = (rewrite.doc.record body.start body.stop [.text text] "replace body").2) := by
  change ∃ next, visit cursor rewrite = _ ∧ _
  unfold visit
  split
  · exact ⟨rewrite, rfl, .refl rewrite, .inl rfl⟩
  · rename_i name function label found
    obtain ⟨same, named⟩ : function = cursor.focus ∧ cursor.child? .name = some name := by
      unfold target? at found
      dsimp only at found
      split at found
      · cases found
      · rename_i declarator _
        rw [Cursor.kind, declarator] at kind
        cases kind
      · rename_i method _
        rw [Cursor.kind, method] at kind
        cases kind
      · rename_i has _ _
        cases found
        exact ⟨rfl, has⟩
    subst same
    dsimp only
    split
    · rename_i value body _ has
      exact ⟨_, rfl, ⟨rfl, rfl, rfl, rfl, rfl, rfl, rfl⟩, .inr ⟨name, body, _, named, has, rfl⟩⟩
    · exact ⟨rewrite, rfl, .refl rewrite, .inl rfl⟩

end Body

namespace RewritePass

/-- Every visit does the same in two runs that agree. -/
theorem alike_visit {pass : RewritePass} (known : pass ∈ standard) (agrees : a.Agrees b)
    (stands : cursor.whole = root) : ∃ entry,
    Alike root a b (pass.visit cursor a) (pass.visit cursor b) entry := by
  rcases mem_standard.mp known with rfl | rfl | rfl | rfl | rfl
  · exact Modules.alike_visit agrees
  · exact Renaming.alike_visit agrees
  · exact Removal.alike_visit agrees stands
  · exact Body.alike_visit agrees
  · exact ⟨none, agrees.alike true⟩

end RewritePass

end Rebundle
