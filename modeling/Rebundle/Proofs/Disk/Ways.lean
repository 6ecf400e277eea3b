import Mathlib.Data.List.Infix
import Rebundle.Proofs.Disk.Content

/-!
# Ways

The way along a path leads through the places of all paths that it begins with. A file is written with
the missing directories on its way, and what stands elsewhere is left alone. A file is found unless another
one stands above it.
-/

namespace Rebundle

namespace FilePath

/-- Whether the way along a path leads into a directory: some beginning of the path leads to the directory
or to what is below it. -/
def Enters (path directory : FilePath) : Prop :=
  ∃ names, names <+: path.names ∧
    Place.ofText directory.text <+: Place.ofText (FilePath.text ⟨path.root, names⟩)

instance (path directory : FilePath) : Decidable (path.Enters directory) :=
  decidable_of_iff (∃ names ∈ path.names.inits,
      Place.ofText directory.text <+: Place.ofText (FilePath.text ⟨path.root, names⟩))
    (by simp [Enters])

theorem enters_of_prefix {path directory : FilePath}
    (inside : Place.ofText directory.text <+: Place.ofText path.text) : path.Enters directory :=
  ⟨path.names, List.prefix_rfl, inside⟩

theorem Plain.front {path : FilePath} (plain : path.Plain) {names : List Text} (front : names <+: path.names) :
    (FilePath.mk path.root names).Plain :=
  ⟨plain.root, fun name mem => plain.names name (front.mem mem)⟩

end FilePath

namespace Place

open FilePath (PlainName)

theorem foldl_step {place : Place} {names : List Text} (down : (".." : Text) ∉ names) :
    names.foldl step place = place ++ names := by
  induction names generalizing place with
  | nil => simp
  | cons name rest ih =>
      rw [List.mem_cons, not_or] at down
      rw [List.foldl_cons, ih down.2, step, if_neg (Ne.symm down.1)]
      simp

/-- Where no name leads up, the place of a path is its names, behind the root if there is one. -/
theorem ofText_text {path : FilePath} (plain : path.Plain) (down : (".." : Text) ∉ path.names) :
    ofText path.text = (if path.root.isEmpty then [] else [path.root]) ++ path.names := by
  have root : path.root ≠ ".." := by
    intro same
    have known := plain.root
    rw [same] at known
    revert known
    decide
  rw [ofText, FilePath.ofText_text plain]
  split
  · rw [foldl_step down, List.nil_append]
  · rw [foldl_step (by simp [down, Ne.symm root]), List.nil_append, List.singleton_append]

end Place

/-- Where no name leads up, a way leads into a directory just when it ends there. -/
theorem FilePath.enters_iff {path directory : FilePath} (plain : path.Plain)
    (down : (".." : Text) ∉ path.names) :
    path.Enters directory ↔ Place.ofText directory.text <+: Place.ofText path.text := by
  refine ⟨?_, enters_of_prefix⟩
  rintro ⟨names, front, inside⟩
  refine inside.trans ?_
  rw [Place.ofText_text (plain.front front) fun mem => down (front.mem mem), Place.ofText_text plain down]
  exact (List.prefix_append_right_inj _).mpr front

namespace Disk

open FilePath

/-- A level of a path is a beginning of it up to a slash or to the end. -/
theorem cut_of_mem_levelsFrom {t walked level : Text} (mem : level ∈ levelsFrom walked t) :
    ∃ front behind, t = front ++ behind ∧ level = walked.reverse ++ front ∧
      (∀ c ∈ behind.head?, c = ('/' : CodePoint)) ∧ ∃ c ∈ front, c ≠ ('/' : CodePoint) := by
  induction t generalizing walked with
  | nil => cases mem
  | cons c rest ih =>
      have later (found : level ∈ levelsFrom (c :: walked) rest) : ∃ front behind, c :: rest = front ++ behind ∧
          level = walked.reverse ++ front ∧ (∀ c ∈ behind.head?, c = ('/' : CodePoint)) ∧
            ∃ c ∈ front, c ≠ ('/' : CodePoint) := by
        obtain ⟨front, behind, rfl, rfl, ends, d, known, other⟩ := ih found
        exact ⟨c :: front, behind, rfl, by simp, ends, d, List.mem_cons_of_mem _ known, other⟩
      cases rest with
      | nil =>
          rw [levelsFrom] at mem
          split at mem
          · rename_i stops
            rcases List.mem_cons.mp mem with rfl | found
            · exact ⟨[c], [], rfl, by simp, by simp, c, List.mem_singleton_self c, by simpa using stops⟩
            · exact later found
          · exact later mem
      | cons next rest =>
          rw [levelsFrom] at mem
          split at mem
          · rename_i stops
            rw [Bool.and_eq_true, decide_eq_true_eq, decide_eq_true_eq] at stops
            rcases List.mem_cons.mp mem with rfl | found
            · exact ⟨[c], next :: rest, rfl, by simp, by simpa using stops.2, c, List.mem_singleton_self c,
                stops.1⟩
            · exact later found
          · exact later mem

theorem piecesFrom_slash (piece front behind : Text) :
    piecesFrom piece (front ++ ('/' : CodePoint) :: behind) = piecesFrom piece front ++ piecesFrom [] behind := by
  induction front generalizing piece with
  | nil => simp [piecesFrom]
  | cons c front ih =>
      rw [List.cons_append, piecesFrom, piecesFrom]
      split
      · rw [ih, List.cons_append]
      · exact ih _

/-- A level of a path leads where the path leads up to some of its names. -/
theorem ofText_level {t level : Text} (mem : level ∈ levels t) :
    ∃ names, names <+: (FilePath.ofText t).names ∧
      FilePath.ofText level = ⟨(FilePath.ofText t).root, names⟩ := by
  obtain ⟨front, behind, rfl, same, ends, c, known, other⟩ := cut_of_mem_levelsFrom mem
  rw [List.reverse_nil, List.nil_append] at same
  subst same
  have root : rootOf (level ++ behind) = rootOf level := by
    have same : (level ++ behind).takeWhile (· = ('/' : CodePoint)) = level.takeWhile (· = ('/' : CodePoint)) := by
      rw [List.takeWhile_append, if_neg]
      intro all
      have slashes : c ∈ level.takeWhile (· = ('/' : CodePoint)) :=
        ((List.takeWhile_prefix _).eq_of_length all).symm ▸ known
      exact other (by simpa using List.all_eq_true.mp List.all_takeWhile c slashes)
    unfold rootOf
    rw [same]
  refine ⟨namesOf level, ?_, ?_⟩
  · change namesOf level <+: namesOf (level ++ behind)
    cases behind with
    | nil => rw [List.append_nil]
    | cons d behind =>
        have slash : d = '/' := ends d rfl
        rw [slash, namesOf, namesOf, piecesFrom_slash, List.filter_append]
        exact List.prefix_append _ _
  · change FilePath.mk (rootOf level) (namesOf level) = ⟨rootOf (level ++ behind), namesOf level⟩
    rw [root]

theorem lead_append {front name : Text} (clear : ('/' : CodePoint) ∉ name)
    (seam : ∀ c ∈ front.getLast?, c = ('/' : CodePoint)) :
    ((front ++ name).reverse.dropWhile (· != ('/' : CodePoint))).reverse = front := by
  rw [List.reverse_append, List.dropWhile_append_of_pos]
  · have stays : front.reverse.dropWhile (· != ('/' : CodePoint)) = front.reverse := by
      rw [← List.head?_reverse] at seam
      cases back : front.reverse with
      | nil => rfl
      | cons c rest =>
          rw [back] at seam
          rw [List.dropWhile_cons_of_neg (by simp [seam c rfl])]
    rw [stays, List.reverse_reverse]
  · intro c mem
    have known : c ∈ name := List.mem_reverse.mp mem
    simpa using fun same : c = ('/' : CodePoint) => clear (same ▸ known)

theorem join_concat {names : List Text} (some : names ≠ []) (name : Text) :
    Text.join "/" (names ++ [name]) = Text.join "/" names ++ ("/" ++ name) := by
  induction names with
  | nil => exact absurd rfl some
  | cons first rest ih =>
      cases rest with
      | nil => simp [Text.join]
      | cons next rest =>
          have later := ih (List.cons_ne_nil _ _)
          change first ++ Text.ofString "/" ++ Text.join "/" (next :: rest ++ [name]) =
            first ++ Text.ofString "/" ++ Text.join "/" (next :: rest) ++ _
          rw [later, List.append_assoc _ (Text.join "/" (next :: rest))]

/-- The directory in which a path lies is that of the names before the last one. -/
theorem directoryOf_text {path : FilePath} (plain : path.Plain) : directoryOf path.text = path.parent.text := by
  obtain ⟨root, names⟩ := path
  obtain ⟨rooted, all⟩ := plain
  by_cases bare : names = []
  · subst bare
    simp only [List.mem_cons, List.not_mem_nil, or_false] at rooted
    rcases rooted with rfl | rfl | rfl <;> decide
  · obtain ⟨init, name, rfl⟩ : ∃ init name, names = init ++ [name] :=
      ⟨_, _, (List.dropLast_append_getLast bare).symm⟩
    have clear : ('/' : CodePoint) ∉ name := (all name (by simp)).slash
    have parent : FilePath.parent ⟨root, init ++ [name]⟩ = ⟨root, init⟩ := by simp [FilePath.parent]
    have text : FilePath.text ⟨root, init ++ [name]⟩ = root ++ Text.join "/" (init ++ [name]) := by
      simp [FilePath.text]
    rw [parent, text, directoryOf]
    by_cases single : init = []
    · subst single
      have slashes : ∀ c ∈ root.getLast?, c = ('/' : CodePoint) := by
        simp only [List.mem_cons, List.not_mem_nil, or_false] at rooted
        rcases rooted with rfl | rfl | rfl <;> decide
      simp only [List.nil_append, Text.join, lead_append clear slashes]
      simp only [List.mem_cons, List.not_mem_nil, or_false] at rooted
      rcases rooted with rfl | rfl | rfl <;> decide
    · have ends : (Text.join "/" init).getLast? ≠ some ('/' : CodePoint) :=
        getLast?_join fun name mem => all name (List.mem_append_left _ mem)
      have full := join_ne_nil (fun name mem => all name (List.mem_append_left _ mem)) single
      have lead : ((root ++ Text.join "/" (init ++ [name])).reverse.dropWhile
          (· != ('/' : CodePoint))).reverse = root ++ Text.join "/" init ++ Text.ofString "/" := by
        rw [join_concat single, ← List.append_assoc, ← List.append_assoc]
        exact lead_append clear (by simp [Text.ofString])
      have bare : ((root ++ Text.join "/" init ++ Text.ofString "/").reverse.dropWhile
          (· == ('/' : CodePoint))).reverse = root ++ Text.join "/" init := by
        have last : (root ++ Text.join "/" init).reverse.head? ≠ some ('/' : CodePoint) := by
          rwa [List.head?_reverse, List.getLast?_append_of_ne_nil _ full]
        rw [List.reverse_append, List.dropWhile_append_of_pos (by simp [Text.ofString])]
        cases back : (root ++ Text.join "/" init).reverse with
        | nil => exact absurd (List.reverse_eq_nil_iff.mp back) (by simp [full])
        | cons c rest =>
            rw [back] at last
            rw [List.dropWhile_cons_of_neg (by simpa using last), ← back, List.reverse_reverse]
      simp only [lead, bare]
      simp [FilePath.text, full, single]

/-- The directories on the way to a file stand at places of the way. -/
theorem enters_of_mem_levels {path directory : FilePath} (plain : path.Plain)
    {level : Text} (mem : level ∈ levels (directoryOf path.text))
    (inside : Place.ofText directory.text <+: Place.ofText level) : path.Enters directory := by
  rw [directoryOf_text plain] at mem
  obtain ⟨names, front, read⟩ := ofText_level mem
  rw [FilePath.ofText_text plain.parent] at front read
  have along : names <+: path.names := front.trans (List.dropLast_prefix _)
  refine ⟨names, along, ?_⟩
  have same : Place.ofText level = Place.ofText (FilePath.text ⟨path.root, names⟩) := by
    rw [Place.ofText, Place.ofText, read, FilePath.ofText_text (plain.front along)]
    rfl
  rwa [same] at inside

theorem node?_makeLevels_of_ne {levels : List Text} {place : Place}
    (other : ∀ level ∈ levels, place ≠ Place.ofText level) (disk : Disk) :
    (makeLevels levels disk).2.node? place = disk.node? place := by
  induction levels generalizing disk with
  | nil => rfl
  | cons level rest ih =>
      have later := ih fun level mem => other level (List.mem_cons_of_mem _ mem)
      unfold makeLevels
      split
      · exact later disk
      · rw [later, node?_put_of_ne (other level List.mem_cons_self)]
      · split <;> rfl

/-- The directories for a file do not come to lie in a directory that its way does not lead into. -/
theorem node?_makeDirectories {path directory : FilePath} (plain : path.Plain)
    (apart : ¬ path.Enters directory) {place : Place} (inside : Place.ofText directory.text <+: place)
    (disk : Disk) : (disk.makeDirectories (directoryOf path.text)).2.node? place = disk.node? place :=
  node?_makeLevels_of_ne (fun _ mem same => apart (enters_of_mem_levels plain mem (same ▸ inside))) disk

variable {disk other : Disk}

theorem isFile_eq (place : Place) (disk : Disk) : disk.isFile place = (disk.content? place).isSome := by
  rw [isFile, content?]
  cases disk.node? place with
  | none => rfl
  | some node => cases node <;> rfl

/-- What is read is the content of the file at the place of the path. -/
theorem content?_of_read {path : Text} {content : Bytes} (found : disk.read path = .ok content) :
    disk.content? (Place.ofText path) = some content := by
  rw [read] at found
  split at found
  · rename_i file
    cases found
    unfold find at file
    dsimp only at file
    repeat'
      split at file
    all_goals cases file
    rename_i stands
    rw [content?, stands]
  · cases found
  · cases found

/-- Where a file stands, reading it depends on the files at and above its place only. -/
theorem read_congr {path : Text} (file : disk.isFile (Place.ofText path) = true)
    (same : ∀ place, place <+: Place.ofText path → disk.content? place = other.content? place) :
    disk.read path = other.read path := by
  have files {place : Place} (above : place <+: Place.ofText path) : disk.isFile place = other.isFile place := by
    rw [isFile_eq, isFile_eq, same place above]
  have blocked : disk.blocked (Place.ofText path) = other.blocked (Place.ofText path) := by
    unfold Disk.blocked
    exact congrArg (List.any _) (funext fun depth => files (List.take_prefix depth _))
  have content := same _ List.prefix_rfl
  have found : ∀ {disk : Disk}, disk.isFile (Place.ofText path) = true → ∃ content,
      disk.node? (Place.ofText path) = some (.file content) ∧
        disk.content? (Place.ofText path) = some content := by
    intro disk file
    unfold isFile at file
    split at file
    · rename_i content stands
      exact ⟨content, stands, by rw [content?, stands]⟩
    · cases file
  obtain ⟨bytes, stands, holds⟩ := found file
  obtain ⟨bytes', stands', holds'⟩ := found (files List.prefix_rfl ▸ file)
  rw [holds, holds', Option.some_inj] at content
  rw [read, read, find, find, blocked, files List.prefix_rfl, stands, stands', content]

/-! The directories on the way to a file that was written stand above it, so it can be read again. -/

/-- The path of the first names of a path is one of its levels. -/
theorem mem_levels_front {path : FilePath} (plain : path.Plain) {names : List Text} (some : names ≠ [])
    (front : names <+: path.names) : FilePath.text ⟨path.root, names⟩ ∈ levels path.text := by
  obtain ⟨behind, rest⟩ := front
  have all := plain.names
  rw [← rest] at all
  have ahead : ∀ name ∈ names, PlainName name := fun name mem => all name (List.mem_append_left _ mem)
  have full := join_ne_nil ahead some
  have ends := getLast?_join ahead
  have joined : ∃ more : Text, Text.join "/" (names ++ behind) = Text.join "/" names ++ more ∧
      ∀ c ∈ more.head?, c = ('/' : CodePoint) := by
    clear rest all
    induction behind using List.reverseRecOn with
    | nil => exact ⟨[], by simp, by simp⟩
    | append_singleton behind name ih =>
        obtain ⟨more, same, slash⟩ := ih
        refine ⟨more ++ ("/" ++ name), ?_, ?_⟩
        · rw [← List.append_assoc, join_concat (by simp [some]), same, List.append_assoc]
        · intro c mem
          cases more with
          | nil =>
              cases mem
              rfl
          | cons d more => exact slash c mem
  obtain ⟨more, same, slash⟩ := joined
  have text : path.text = path.root ++ Text.join "/" names ++ more := by
    rw [FilePath.text, ← rest, List.append_assoc, ← same, if_neg (by simp [some])]
  have own : FilePath.text ⟨path.root, names⟩ = path.root ++ Text.join "/" names := by simp [FilePath.text, some]
  rw [text, own, levels]
  exact mem_levelsFrom_append (by simp [full]) (by rwa [List.getLast?_append_of_ne_nil _ full]) slash []

/-- A way leads through every place above its end. -/
theorem exists_foldl_step {place : Place} {names : List Text} (above : place <+: names.foldl Place.step []) :
    ∃ front, front <+: names ∧ front.foldl Place.step [] = place := by
  induction names using List.reverseRecOn with
  | nil => exact ⟨[], List.prefix_rfl, (List.prefix_nil.mp above).symm⟩
  | append_singleton names name ih =>
      have earlier (above : place <+: names.foldl Place.step []) :
          ∃ front, front <+: names ++ [name] ∧ front.foldl Place.step [] = place := by
        obtain ⟨front, lead, same⟩ := ih above
        exact ⟨front, lead.trans (List.prefix_append _ _), same⟩
      rw [List.foldl_append, List.foldl_cons, List.foldl_nil, Place.step] at above
      split at above
      · exact earlier (above.trans (List.dropLast_prefix _))
      · rename_i down
        rcases List.prefix_concat_iff.mp above with same | above
        · refine ⟨names ++ [name], List.prefix_rfl, ?_⟩
          rw [List.foldl_append, List.foldl_cons, List.foldl_nil, Place.step, if_neg down, same]
        · exact earlier above

/-- No file stands where the first names of a path lead, once directories could be made to the path. -/
theorem content?_front {path : FilePath} (plain : path.Plain)
    (made : (disk.makeDirectories (directoryOf path.text)).1 = .ok ()) {names : List Text}
    (front : names <+: path.names) (full : names ≠ [])
    (differ : Place.ofText (FilePath.text ⟨path.root, names⟩) ≠ Place.ofText path.text) :
    (disk.makeDirectories (directoryOf path.text)).2.content? (Place.ofText (FilePath.text ⟨path.root, names⟩)) =
      none := by
  have before : names <+: path.parent.names := by
    rw [FilePath.parent]
    obtain ⟨rest, whole⟩ := front
    rcases rest.eq_nil_or_concat with rfl | ⟨init, last, rfl⟩
    · rw [List.append_nil] at whole
      subst whole
      exact absurd rfl differ
    · rw [← whole, List.concat_eq_append, ← List.append_assoc, List.dropLast_concat]
      exact List.prefix_append _ _
  have level : FilePath.text ⟨path.root, names⟩ ∈ levels (directoryOf path.text) := by
    rw [directoryOf_text plain]
    exact mem_levels_front plain.parent full before
  exact content?_of_directory (makeLevels_directory made level)

theorem ofText_front {path : FilePath} (plain : path.Plain) {names : List Text} (front : names <+: path.names) :
    Place.ofText (FilePath.text ⟨path.root, names⟩) =
      (if path.root.isEmpty then names else path.root :: names).foldl Place.step [] := by
  rw [Place.ofText, ofText_text (plain.front front)]

/-- No file stands above a place to which directories could be made. -/
theorem content?_above {path : FilePath} (plain : path.Plain)
    (made : (disk.makeDirectories (directoryOf path.text)).1 = .ok ()) {place : Place}
    (rooted : ∀ root ∈ (["/", "//"] : List Text), place = [root] → disk.content? place = none)
    (above : place <+: Place.ofText path.text) (differ : place ≠ Place.ofText path.text) :
    (disk.makeDirectories (directoryOf path.text)).2.content? place = none := by
  have whole : Place.ofText path.text = _ := ofText_front plain List.prefix_rfl
  rw [whole] at above
  obtain ⟨front, lead, same⟩ := exists_foldl_step above
  have way (names : List Text) (front : names <+: path.names) (full : names ≠ [])
      (same : Place.ofText (FilePath.text ⟨path.root, names⟩) = place) :
      (disk.makeDirectories (directoryOf path.text)).2.content? place = none := by
    subst same
    exact content?_front plain made front full differ
  cases front with
  | nil =>
      cases same
      exact content?_root _
  | cons name rest =>
      split at lead
      · rename_i relative
        refine way _ lead (List.cons_ne_nil _ _) ?_
        rw [ofText_front plain lead, if_pos relative, same]
      · rename_i absolute
        obtain ⟨rfl, front⟩ := List.cons_prefix_cons.mp lead
        by_cases none : rest = []
        · have known := plain.root
          have level : path.root ≠ ".." := by
            intro up
            rw [up] at known
            revert known
            decide
          subst none
          rw [List.foldl_cons, List.foldl_nil, Place.step, if_neg level, List.nil_append] at same
          rw [content?_makeDirectories]
          rcases List.mem_cons.mp known with relative | known
          · rw [relative] at absolute
            exact absurd rfl absolute
          · exact rooted _ known same.symm
        · refine way rest front none ?_
          rw [ofText_front plain front, if_neg absolute, same]

/-- A file is read where no other one stands above it. -/
theorem read_of_content {path : Text} {content : Bytes} (holds : disk.content? (Place.ofText path) = some content)
    (full : path ≠ []) (ends : endsInSlash path = false)
    (clear : ∀ place, place <+: Place.ofText path → place ≠ Place.ofText path → disk.content? place = none) :
    disk.read path = .ok content := by
  have free : disk.blocked (Place.ofText path) = false := by
    rw [blocked, List.any_eq_false]
    intro depth mem
    rw [isFile_eq, clear _ (List.take_prefix depth _)]
    · simp
    · intro same
      have size := congrArg List.length same
      rw [List.length_take] at size
      have := List.mem_range.mp mem
      omega
  have stands : disk.node? (Place.ofText path) = some (.file content) := by
    unfold content? at holds
    split at holds
    · rename_i stands
      rw [stands, Option.some_inj.mp holds]
    · cases holds
  rw [read, find]
  simp [full, free, ends, stands]

end Disk

end Rebundle
