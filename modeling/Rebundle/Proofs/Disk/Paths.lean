import Rebundle.Disk

/-!
# Places of paths

A path that was read from a text has one of three roots and plain names, so its own text is read back as
the same path. The place of a file in a directory is then the place of the directory with one name more.
-/

namespace Rebundle

namespace FilePath

/-- A name that stands for itself in the text of a path. -/
structure PlainName (name : Text) : Prop where
  full : name ≠ []
  dot : name ≠ "."
  slash : ('/' : CodePoint) ∉ name

instance (name : Text) : Decidable (PlainName name) :=
  decidable_of_iff (name ≠ [] ∧ name ≠ "." ∧ ('/' : CodePoint) ∉ name)
    ⟨fun ⟨full, dot, slash⟩ => ⟨full, dot, slash⟩, fun named => ⟨named.full, named.dot, named.slash⟩⟩

/-- A path with one of the roots that are read, and names between which its text can be cut. -/
structure Plain (path : FilePath) : Prop where
  root : path.root ∈ ([[], "/", "//"] : List Text)
  names : ∀ name ∈ path.names, PlainName name

instance (path : FilePath) : Decidable path.Plain :=
  decidable_of_iff (path.root ∈ ([[], "/", "//"] : List Text) ∧ ∀ name ∈ path.names, PlainName name)
    ⟨fun ⟨root, names⟩ => ⟨root, names⟩, fun plain => ⟨plain.root, plain.names⟩⟩

theorem slash_not_mem_piecesFrom {t piece : Text} (clear : ('/' : CodePoint) ∉ piece) :
    ∀ name ∈ piecesFrom piece t, ('/' : CodePoint) ∉ name := by
  induction t generalizing piece with
  | nil => simpa [piecesFrom] using clear
  | cons c t ih =>
      rw [piecesFrom]
      split
      · simpa [clear] using ih (List.not_mem_nil)
      · rename_i differ
        exact ih (by simpa [clear] using Ne.symm differ)

/-- Every path that is read from a text is plain. -/
theorem plain_ofText (t : Text) : (ofText t).Plain where
  root := by
    change rootOf t ∈ _
    unfold rootOf
    split <;> simp
  names name mem := by
    obtain ⟨piece, kept⟩ := List.mem_filter.mp mem
    simp only [Bool.and_eq_true, Bool.not_eq_true', bne_iff_ne, List.isEmpty_eq_false_iff] at kept
    exact ⟨kept.1, kept.2, slash_not_mem_piecesFrom List.not_mem_nil name piece⟩

/-- A name is one piece, and what follows it is cut on its own. -/
theorem piecesFrom_append {name : Text} (clear : ('/' : CodePoint) ∉ name) (piece rest : Text) :
    piecesFrom piece (name ++ rest) = piecesFrom (name.reverse ++ piece) rest := by
  induction name generalizing piece with
  | nil => rfl
  | cons c name ih =>
      rw [List.mem_cons, not_or] at clear
      rw [List.cons_append, piecesFrom, if_neg (Ne.symm clear.1), ih clear.2]
      simp

theorem piecesFrom_join {names : List Text} (plain : ∀ name ∈ names, PlainName name)
    (some : names ≠ []) : piecesFrom [] (Text.join "/" names) = names := by
  induction names with
  | nil => exact absurd rfl some
  | cons name rest ih =>
      have clear := (plain name List.mem_cons_self).slash
      cases rest with
      | nil =>
          have cut := piecesFrom_append clear [] []
          simpa [piecesFrom] using cut
      | cons next rest =>
          have cut := piecesFrom_append clear []
            (Text.ofString "/" ++ Text.join "/" (next :: rest))
          have later := ih (fun name mem => plain name (List.mem_cons_of_mem _ mem))
            (List.cons_ne_nil _ _)
          change piecesFrom [] (name ++ Text.ofString "/" ++ Text.join "/" (next :: rest)) = _
          rw [List.append_assoc, cut]
          change piecesFrom _ (('/' : CodePoint) :: Text.join "/" (next :: rest)) = _
          rw [piecesFrom, if_pos rfl, later]
          simp

theorem piecesFrom_slashes (count : Nat) (t : Text) :
    piecesFrom [] (List.replicate count ('/' : CodePoint) ++ t) =
      List.replicate count [] ++ piecesFrom [] t := by
  induction count with
  | zero => rfl
  | succ count ih => simp [List.replicate_succ, piecesFrom, ih]

theorem namesOf_slashes (count : Nat) (t : Text) :
    namesOf (List.replicate count ('/' : CodePoint) ++ t) = namesOf t := by
  rw [namesOf, piecesFrom_slashes, List.filter_append,
    List.filter_eq_nil_iff.mpr (by simp +contextual [List.mem_replicate]), List.nil_append]
  rfl

theorem namesOf_join {names : List Text} (plain : ∀ name ∈ names, PlainName name) :
    namesOf (Text.join "/" names) = names := by
  cases names with
  | nil => rfl
  | cons name rest =>
      rw [namesOf, piecesFrom_join plain (List.cons_ne_nil _ _), List.filter_eq_self]
      intro name mem
      simpa using ⟨(plain name mem).full, (plain name mem).dot⟩

theorem join_ne_nil {names : List Text} (plain : ∀ name ∈ names, PlainName name) (some : names ≠ []) :
    Text.join "/" names ≠ [] := by
  obtain ⟨name, rest, rfl⟩ := List.exists_cons_of_ne_nil some
  have full := (plain name List.mem_cons_self).full
  cases rest <;> simp [Text.join, full]

/-- A row of plain names opens with no slash. -/
theorem head?_join {names : List Text} (plain : ∀ name ∈ names, PlainName name) :
    (Text.join "/" names).head? ≠ some ('/' : CodePoint) := by
  cases names with
  | nil => simp
  | cons name rest =>
      obtain ⟨full, -, clear⟩ := plain name List.mem_cons_self
      cases name with
      | nil => exact absurd rfl full
      | cons c name =>
          have differ : c ≠ '/' := fun same => clear (same ▸ List.mem_cons_self)
          cases rest <;> simpa [Text.join] using differ

theorem rootOf_slashes (count : Nat) {t : Text} (clear : t.head? ≠ some ('/' : CodePoint)) :
    rootOf (List.replicate count ('/' : CodePoint) ++ t) =
      match count with
      | 0 => []
      | 2 => "//"
      | _ => "/" := by
  have none : t.takeWhile (· = ('/' : CodePoint)) = [] := by
    cases t with
    | nil => rfl
    | cons c t => simpa [List.takeWhile_cons] using clear
  have size : ((List.replicate count ('/' : CodePoint) ++ t).takeWhile
      (· = ('/' : CodePoint))).length = count := by
    rw [List.takeWhile_append_of_pos (by simp +contextual [List.mem_replicate]), none, List.append_nil,
      List.length_replicate]
  exact congrArg (fun n : Nat => match n with | 0 => ([] : Text) | 2 => "//" | _ => "/") size

/-- The text of a plain path is read back as the path. -/
theorem ofText_text {path : FilePath} (plain : path.Plain) : ofText path.text = path := by
  obtain ⟨root, names⟩ := path
  obtain ⟨rooted, named⟩ := plain
  have slashes (count : Nat) :
      ofText (List.replicate count ('/' : CodePoint) ++ Text.join "/" names) =
        ⟨match count with
          | 0 => []
          | 2 => "//"
          | _ => "/", names⟩ := by
    rw [ofText, rootOf_slashes count (head?_join named), namesOf_slashes, namesOf_join named]
  simp only [List.mem_cons, List.not_mem_nil, or_false] at rooted
  rcases rooted with rfl | rfl | rfl
  · cases names with
    | nil => rfl
    | cons name rest => exact slashes 0
  · exact slashes 1
  · exact slashes 2

theorem Plain.parent {path : FilePath} (plain : path.Plain) : path.parent.Plain :=
  ⟨plain.root, fun name mem => plain.names name (List.dropLast_subset _ mem)⟩

theorem child_eq (directory : FilePath) {name : Text} (plain : PlainName name) :
    directory.child name = { directory with names := directory.names ++ [name] } := by
  have single : FilePath.Plain ⟨[], [name]⟩ := ⟨by simp, by simpa using plain⟩
  have read : ofText name = ⟨[], [name]⟩ := ofText_text single
  rw [child, read]
  rfl

theorem Plain.child {directory : FilePath} (plain : directory.Plain) {name : Text}
    (named : PlainName name) : (directory.child name).Plain := by
  rw [child_eq directory named]
  refine ⟨plain.root, fun other mem => ?_⟩
  rcases List.mem_append.mp mem with mem | mem
  · exact plain.names other mem
  · exact List.mem_singleton.mp mem ▸ named

end FilePath

namespace Place

/-- The place of a file in a directory. -/
theorem ofText_child {directory : FilePath} (plain : directory.Plain) {name : Text}
    (named : FilePath.PlainName name) (level : name ≠ "..") :
    ofText (directory.child name).text = ofText directory.text ++ [name] := by
  rw [ofText, ofText, FilePath.ofText_text plain, FilePath.ofText_text (plain.child named),
    FilePath.child_eq directory named]
  dsimp only
  split <;> simp [step, level]

end Place

end Rebundle
