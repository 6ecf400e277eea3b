import Mathlib.Data.List.Basic
import Rebundle.Proofs.Disk.Paths
import Rebundle.Proofs.Table

/-!
# Contents of files

What the operations of a disk do to the content of the file at one place. Making directories changes no
content, a finished file is the content of its own place, and removing a tree takes away what lies below.
-/

namespace Rebundle

namespace Disk

variable {disk : Disk} {place other : Place}

/-- The content of the file at a place, if a file stands there. -/
def content? (place : Place) (disk : Disk) : Option Bytes :=
  match disk.node? place with
  | some (.file content) => some content
  | _ => none

theorem content?_of_directory (stands : disk.node? place = some .directory) :
    disk.content? place = none := by
  rw [content?, stands]

theorem content?_root (disk : Disk) : disk.content? [] = none := rfl

theorem node?_put_self (inner : place ≠ []) (node : Node) (disk : Disk) :
    (disk.put place node).node? place = some node := by
  rw [node?, if_neg (by simpa using inner)]
  exact Table.get?_put_self place node disk

theorem node?_put_of_ne (differ : other ≠ place) (node : Node) (disk : Disk) :
    (disk.put place node).node? other = disk.node? other := by
  unfold node?
  split
  · rfl
  · exact Table.get?_put_of_ne differ node disk

theorem content?_put_of_ne (differ : other ≠ place) (node : Node) (disk : Disk) :
    (disk.put place node).content? other = disk.content? other := by
  rw [content?, content?, node?_put_of_ne differ]

/-- A place where nothing stands lies below the working directory. -/
theorem inner_of_missing (missing : disk.node? place = none) : place ≠ [] := by
  rintro rfl
  cases missing

/-- Nothing happened to a disk but that some of these directories were made where nothing stood. -/
def Made (levels : List Text) (disk after : Disk) : Prop :=
  ∀ place, after.node? place = disk.node? place ∨
    disk.node? place = none ∧ after.node? place = some .directory ∧ ∃ level ∈ levels, Place.ofText level = place

namespace Made

variable {levels : List Text} {disk after : Disk}

theorem refl (levels : List Text) (disk : Disk) : Made levels disk disk := fun _ => .inl rfl

theorem cons (level : Text) (made : Made levels disk after) : Made (level :: levels) disk after := fun place =>
  (made place).imp_right fun ⟨vacant, directory, inner, mem, leads⟩ =>
    ⟨vacant, directory, inner, List.mem_cons_of_mem _ mem, leads⟩

/-- A directory was made before the others. -/
theorem put {level : Text} (missing : disk.node? (Place.ofText level) = none)
    (made : Made levels (disk.put (Place.ofText level) .directory) after) : Made (level :: levels) disk after := by
  intro place
  by_cases here : place = Place.ofText level
  · subst here
    have stands := node?_put_self (inner_of_missing missing) .directory disk
    rcases made (Place.ofText level) with kept | ⟨vacant, -⟩
    · exact .inr ⟨missing, kept.trans stands, level, List.mem_cons_self, rfl⟩
    · cases stands.symm.trans vacant
  · have step := made.cons level place
    rwa [node?_put_of_ne here] at step

theorem directory {place : Place} (made : Made levels disk after) (stands : disk.node? place = some .directory) :
    after.node? place = some .directory := by
  rcases made place with same | ⟨vacant, -⟩
  · exact same.trans stands
  · cases stands.symm.trans vacant

/-- Files neither come nor go nor change. -/
theorem content? (made : Made levels disk after) (place : Place) : after.content? place = disk.content? place := by
  rw [Disk.content?, Disk.content?]
  rcases made place with same | ⟨none, directory, _⟩
  · rw [same]
  · rw [none, directory]

end Made

theorem made_makeLevels (levels : List Text) (disk : Disk) : Made levels disk (makeLevels levels disk).2 := by
  induction levels generalizing disk with
  | nil => exact .refl _ disk
  | cons level rest ih =>
      unfold makeLevels
      split
      · exact (ih disk).cons level
      · rename_i missing
        exact .put missing (ih _)
      · split <;> exact .refl _ disk

theorem content?_makeLevels (levels : List Text) (disk : Disk) (place : Place) :
    (makeLevels levels disk).2.content? place = disk.content? place :=
  (made_makeLevels levels disk).content? place

theorem content?_makeDirectories (path : Text) (disk : Disk) (place : Place) :
    (disk.makeDirectories path).2.content? place = disk.content? place :=
  content?_makeLevels (levels path) disk place

/-- Directories stay while others are made. -/
theorem directory_makeLevels {levels : List Text} (stands : disk.node? place = some .directory) :
    (makeLevels levels disk).2.node? place = some .directory :=
  (made_makeLevels levels disk).directory stands

/-- Levels that could be made are directories. -/
theorem makeLevels_directory {levels : List Text} (made : (makeLevels levels disk).1 = .ok ())
    {level : Text} (mem : level ∈ levels) :
    (makeLevels levels disk).2.node? (Place.ofText level) = some .directory := by
  induction levels generalizing disk with
  | nil => cases mem
  | cons first rest ih =>
      unfold makeLevels at made ⊢
      split
      · rename_i stands
        simp only [stands] at made
        rcases List.mem_cons.mp mem with rfl | mem
        · exact directory_makeLevels stands
        · exact ih made mem
      · rename_i missing
        simp only [missing] at made
        rcases List.mem_cons.mp mem with rfl | mem
        · exact directory_makeLevels (node?_put_self (inner_of_missing missing) _ disk)
        · exact ih made mem
      · rename_i stands
        simp only [stands] at made
        split at made <;> cases made

/-- A beginning of a path up to a slash is one of its levels. -/
theorem mem_levelsFrom_append {front behind : Text} (full : front ≠ [])
    (name : front.getLast? ≠ some ('/' : CodePoint)) (ends : ∀ c ∈ behind.head?, c = ('/' : CodePoint))
    (walked : Text) : walked.reverse ++ front ∈ levelsFrom walked (front ++ behind) := by
  induction front generalizing walked with
  | nil => exact absurd rfl full
  | cons c rest ih =>
      cases rest with
      | nil =>
          have differ : c ≠ '/' := by simpa using name
          cases behind with
          | nil => simp [levelsFrom, differ]
          | cons d behind =>
              obtain rfl : d = '/' := ends d rfl
              simp [levelsFrom, differ]
      | cons d rest =>
          have later := ih (List.cons_ne_nil _ _) (by simpa using name) (c :: walked)
          rw [List.reverse_cons, List.append_assoc, List.singleton_append] at later
          rw [List.cons_append, List.cons_append, levelsFrom]
          split
          · exact List.mem_cons_of_mem _ later
          · exact later

/-- A path that ends with a name is the last of its own levels. -/
theorem mem_levels {path : Text} (full : path ≠ []) (name : endsInSlash path = false) :
    path ∈ levels path := by
  have last := @mem_levelsFrom_append path [] full (by simpa [endsInSlash] using name) (by simp) []
  rwa [List.append_nil] at last

theorem getLast?_join {names : List Text} (plain : ∀ name ∈ names, FilePath.PlainName name) :
    (Text.join "/" names).getLast? ≠ some ('/' : CodePoint) := by
  induction names with
  | nil => simp
  | cons name rest ih =>
      obtain ⟨-, -, clear⟩ := plain name List.mem_cons_self
      cases rest with
      | nil => exact fun ends => clear (List.mem_of_getLast? ends)
      | cons next rest =>
          have later := ih fun name mem => plain name (List.mem_cons_of_mem _ mem)
          have full := FilePath.join_ne_nil (fun name mem => plain name (List.mem_cons_of_mem _ mem))
            (List.cons_ne_nil next rest)
          change (name ++ Text.ofString "/" ++ Text.join "/" (next :: rest)).getLast? ≠ _
          rwa [List.getLast?_append_of_ne_nil _ full]

theorem content?_ensureDirectory (path : FilePath) (disk : Disk) (place : Place) :
    (disk.ensureDirectory path).2.content? place = disk.content? place := by
  rw [ensureDirectory]
  split
  · rfl
  · exact content?_makeDirectories path.text disk place

/-- No file stands where a directory could be made. -/
theorem content?_ensured {path : FilePath} (plain : path.Plain)
    (rooted : ∀ root ∈ (["/", "//"] : List Text), Place.ofText path.text = [root] →
      disk.content? (Place.ofText path.text) = none)
    (made : (disk.ensureDirectory path).1 = .ok ()) :
    (disk.ensureDirectory path).2.content? (Place.ofText path.text) = none := by
  by_cases bare : path.names = []
  · rw [content?_ensureDirectory]
    have place : Place.ofText path.text =
        (if path.root.isEmpty then [] else [path.root]).foldl Place.step [] := by
      rw [Place.ofText, FilePath.ofText_text plain, bare]
    rcases List.mem_cons.mp plain.root with none | other
    · rw [place, none]
      exact content?_root disk
    · have full : path.root ≠ [] := by
        rintro none
        rw [none] at other
        revert other
        decide
      have level : path.root ≠ ".." := by
        intro same
        rw [same] at other
        revert other
        decide
      exact rooted path.root other (by simp [place, full, Place.step, level])
  · have named : path.text = path.root ++ Text.join "/" path.names := by
      simp [FilePath.text, bare]
    have full := FilePath.join_ne_nil plain.names bare
    have level : path.text ∈ levels path.text := by
      refine mem_levels (by simp [named, full]) ?_
      rw [endsInSlash, named, List.getLast?_append_of_ne_nil _ full]
      simpa using getLast?_join plain.names
    rw [ensureDirectory] at made ⊢
    split at made
    · cases made
    · rename_i free
      rw [if_neg free]
      exact content?_of_directory (makeLevels_directory made level)

/-- A file is settled at its place, or the disk stays as it is. -/
theorem settle_cases (path : Text) (content : Bytes) (disk : Disk) :
    (∃ fault, disk.settle path content = (.error fault, disk)) ∨
      Place.ofText path ≠ [] ∧
        disk.settle path content = (.ok (), disk.put (Place.ofText path) (.file content)) := by
  unfold settle
  repeat'
    split
    · exact .inl ⟨_, rfl⟩
  rename_i open?
  refine .inr ⟨?_, rfl⟩
  intro top
  rw [top] at open?
  exact open? rfl

theorem content?_settle_of_ne {path : Text} (differ : place ≠ Place.ofText path) (content : Bytes)
    (disk : Disk) : (disk.settle path content).2.content? place = disk.content? place := by
  rcases settle_cases path content disk with ⟨fault, same⟩ | ⟨-, same⟩
  · rw [same]
  · rw [same]
    exact content?_put_of_ne differ _ disk

theorem content?_put_file (inner : place ≠ []) (content : Bytes) (disk : Disk) :
    (disk.put place (.file content)).content? place = some content := by
  rw [content?, node?_put_self inner]

/-- What is left where a tree was removed, whether or not its own directory could be. -/
theorem removeTree_snd (path : FilePath) (disk : Disk) :
    (disk.removeTree path).2 = disk.filter fun entry => !(Place.ofText path.text).isPrefixOf entry.1 := by
  unfold removeTree
  dsimp only
  split <;> rfl

/-- A tree that was removed lies below the working directory, and its path ends with a name that leads down. -/
theorem removeTree_ok {path : FilePath} (removed : (disk.removeTree path).1 = .ok ()) :
    Place.ofText path.text ≠ [] ∧ lastName path.text ≠ ".." ∧ lastName path.text ≠ [] := by
  unfold removeTree refusal? at removed
  dsimp only at removed
  split at removed
  · cases removed
  · rename_i none
    repeat'
      split at none
    all_goals cases none
    rename_i down full inner
    exact ⟨by simpa using inner, down, by simpa using full⟩

/-- The last name of a plain path, which may have none. -/
theorem lastName_text {path : FilePath} (plain : path.Plain) :
    lastName path.text = path.names.getLast?.getD (if path.root.isEmpty then "." else []) := by
  obtain ⟨root, names⟩ := path
  obtain ⟨rooted, all⟩ := plain
  by_cases bare : names = []
  · subst bare
    simp only [List.mem_cons, List.not_mem_nil, or_false] at rooted
    rcases rooted with rfl | rfl | rfl <;> decide
  · have last : names.reverse.find? (fun name => !name.isEmpty) = names.getLast? := by
      rw [← List.head?_reverse]
      cases back : names.reverse with
      | nil => exact absurd (List.reverse_eq_nil_iff.mp back) bare
      | cons name rest =>
          have mem : name ∈ names := List.mem_reverse.mp (back ▸ List.mem_cons_self)
          simp [(all name mem).full]
    have slashes (count : Nat) : lastName (List.replicate count ('/' : CodePoint) ++ Text.join "/" names) =
        names.getLast?.getD [] := by
      rw [lastName, FilePath.piecesFrom_slashes, FilePath.piecesFrom_join all bare, List.reverse_append,
        List.find?_append, last, List.getLast?_eq_some_getLast bare]
      rfl
    have otherwise (none : Text) : names.getLast?.getD none = names.getLast?.getD [] := by
      rw [List.getLast?_eq_some_getLast bare]
      rfl
    rw [otherwise, FilePath.text]
    simp only [bare, List.isEmpty_iff, Bool.and_eq_true, and_false, if_false]
    simp only [List.mem_cons, List.not_mem_nil, or_false] at rooted
    rcases rooted with rfl | rfl | rfl
    · exact slashes 0
    · exact slashes 1
    · exact slashes 2

/-- A tree that was removed has a name of its own. -/
theorem named_of_removeTree {path : FilePath} (plain : path.Plain) (removed : (disk.removeTree path).1 = .ok ()) :
    ∃ name, path.names = path.parent.names ++ [name] ∧ FilePath.PlainName name ∧ name ≠ ".." := by
  obtain ⟨inner, down, full⟩ := removeTree_ok removed
  rw [lastName_text plain] at down full
  obtain ⟨root, names⟩ := path
  rcases names.eq_nil_or_concat with rfl | ⟨front, name, rfl⟩
  · by_cases relative : root = []
    · subst relative
      exact absurd (by decide) inner
    · simp [relative] at full
  · rw [List.concat_eq_append] at down plain ⊢
    exact ⟨name, by simp [FilePath.parent], plain.names name (by simp), by simpa using down⟩

theorem content?_removeTree (path : FilePath) (disk : Disk) (place : Place) :
    (disk.removeTree path).2.content? place =
      if (Place.ofText path.text).isPrefixOf place then none else disk.content? place := by
  rw [removeTree_snd]
  by_cases top : place = []
  · subst top
    split <;> rfl
  · have found := Table.get?_filter (fun key => !(Place.ofText path.text).isPrefixOf key) place disk
    have node (table : Disk) : node? place table = Table.get? place table := by
      rw [node?, if_neg (by simpa using top)]
    rw [content?, content?, node, node]
    change (match Table.get? place (disk.filter fun entry =>
      !(Place.ofText path.text).isPrefixOf entry.1) with
      | some (.file content) => some content
      | _ => none) = _
    rw [found]
    cases (Place.ofText path.text).isPrefixOf place <;> rfl

/-- Nothing stands where a tree could be removed. -/
theorem node?_removeTree {path : FilePath} (removed : (disk.removeTree path).1 = .ok ())
    (inside : Place.ofText path.text <+: place) : (disk.removeTree path).2.node? place = none := by
  have top := (removeTree_ok removed).1
  have below : place ≠ [] := by
    rintro rfl
    exact top (List.prefix_nil.mp inside)
  have found := Table.get?_filter (fun key => !(Place.ofText path.text).isPrefixOf key) place disk
  rw [List.isPrefixOf_iff_prefix.mpr inside] at found
  rw [removeTree_snd, node?, if_neg (by simpa using below)]
  exact found

end Disk

end Rebundle
