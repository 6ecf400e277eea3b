import Rebundle.Datum.Writer
import Rebundle.Proofs.Package.Loading
import Rebundle.Proofs.Package.Rereading
import Rebundle.Proofs.Update.Completion

/-!
# A state that is saved is loaded again

Whatever way a state came about, from a mapping, from a file or with another version, its names are not empty, unless
the mapping had a name that counts as given and is shown by no text. So the file of a state without surrogates tells
them from those that stand in for missing ones, and it is read as the same state. Whether a path can be written does
not depend on the content, nor on what the file held before.
-/

namespace Rebundle

/-- A file that could be settled with some content can be settled with any. -/
theorem Disk.settle_of_ok {path : Text} {content : Bytes} {disk : Disk}
    (settled : (disk.settle path content).1 = .ok ()) (other : Bytes) :
    disk.settle path other = (.ok (), disk.put (Place.ofText path) (.file other)) := by
  unfold settle at settled ⊢
  repeat'
    split at settled
    · cases settled
  rename_i full level ends open?
  rw [if_neg full, if_neg level, if_neg ends, if_neg open?]

/-- Where nothing is refused, a file that could be written with some content can be written with any. -/
theorem Storage.writeWhole_of_ok {path : Text} {content : Bytes} {world : World}
    (written : Prod.fst (writeWhole path (.ok content) world) = .ok ()) (other : Bytes) :
    ∃ after, writeWhole path (.ok other) world = (.ok (), after) := by
  rcases outcome : writeWhole path (.ok content) world with ⟨result, after⟩
  rw [outcome] at written
  cases written
  obtain ⟨_, between, made, settles⟩ := Run.bind_ok outcome
  obtain ⟨settled, -⟩ := Run.onDisk_ok (show Run.onDisk (Disk.settle path content) between = _ from settles)
  rw [Host.writeWhole_of_made made]
  change ∃ after, Run.onDisk (Disk.settle path other) between = _
  rw [Run.onDisk_apply, Disk.settle_of_ok settled]
  exact ⟨_, rfl⟩

/-- A file that was written can be read, when no file stands in the place of a root. -/
theorem Storage.read_of_writeWhole {path : FilePath} (plain : path.Plain) {world after : World}
    (rooted : world.disk.Rooted) {bytes : Bytes} (done : writeWhole path.text (.ok bytes) world = (.ok (), after)) :
    after.disk.read path.text = .ok bytes := by
  obtain ⟨_, same, inner, disk⟩ := writeWhole_ok done
  cases same
  obtain ⟨made, full, ends⟩ := writeWhole_way done
  rw [disk]
  refine Disk.read_of_content (Disk.content?_put_file inner bytes _) full ends fun place above differ => ?_
  rw [Disk.content?_put_of_ne differ]
  refine Disk.content?_above plain made ?_ above differ
  rintro root mem rfl
  exact rooted root mem

/-- A mapping with values of some kind: what it has for a key, which values count as given, and the texts that show
values. -/
structure Mapping (α : Type) where
  get? : Text → Option α
  isGiven : α → Bool
  shown : α → Text

namespace Mapping

variable {α : Type}

/-- The members of an object as a mapping. -/
def ofMembers (members : List (Text × Json)) : Mapping Json where
  get? key := Table.get? key members
  isGiven := Json.isGiven
  shown := Json.plainText

/-- The text of a value that is given, otherwise the text that stands in for it. -/
def textOf (key otherwise : Text) (mapping : Mapping α) : Text :=
  match mapping.get? key with
  | some value => if mapping.isGiven value then mapping.shown value else otherwise
  | none => otherwise

/-- The state that a mapping describes. -/
def state (mapping : Mapping α) : PackageState where
  packageName := mapping.textOf "packageName" PackageState.standard.packageName
  version := mapping.textOf "version" []
  binName := mapping.textOf "bin_name" PackageState.standard.binName

theorem state_ofMembers (members : List (Text × Json)) :
    (ofMembers members).state = PackageState.ofMembers members := by
  have text (key otherwise : Text) :
      (ofMembers members).textOf key otherwise = PackageState.textOf key otherwise members := by
    simp only [textOf, PackageState.textOf, ofMembers]
    cases Table.get? key members <;> rfl
  simp only [state, PackageState.ofMembers, text]

/-- A mapping whose value for a key is shown by some text if it counts as given. -/
def Tells (mapping : Mapping α) (key : Text) : Prop :=
  ∀ value, mapping.get? key = some value → mapping.isGiven value = true → mapping.shown value ≠ []

theorem tells_ofMembers (members : List (Text × Json)) (key : Text) : (ofMembers members).Tells key :=
  fun _ _ given => Json.plainText_ne_nil given

theorem textOf_ne_nil {key otherwise : Text} {mapping : Mapping α} (tells : mapping.Tells key)
    (known : otherwise ≠ []) : mapping.textOf key otherwise ≠ [] := by
  unfold textOf
  split
  · rename_i value found
    split
    · rename_i given
      exact tells value found given
    · exact known
  · exact known

end Mapping

namespace PackageState

/-- The states that come about from the standard one, from mappings that tell both names, from files and with other
versions. -/
inductive Reached : PackageState → Prop where
  | standard : Reached standard
  | mapping {α : Type} {mapping : Mapping α} (packageName : mapping.Tells "packageName")
      (binName : mapping.Tells "bin_name") : Reached mapping.state
  | loaded {path : FilePath} {world : World} {state : PackageState}
      (found : Prod.fst (load path world) = .ok state) : Reached state
  | version {state : PackageState} (reached : Reached state) (version : Text) : Reached { state with version }

theorem Reached.ofMembers (members : List (Text × Json)) : Reached (PackageState.ofMembers members) :=
  Mapping.state_ofMembers members ▸ .mapping (Mapping.tells_ofMembers members _) (Mapping.tells_ofMembers members _)

/-- The names of a state are not empty, whatever way it came about. -/
theorem Reached.named {state : PackageState} (reached : Reached state) : state.Named := by
  induction reached with
  | standard => exact ⟨by decide, by decide⟩
  | mapping packageName binName =>
      exact ⟨Mapping.textOf_ne_nil packageName (by decide), Mapping.textOf_ne_nil binName (by decide)⟩
  | loaded found => exact named_of_load found
  | version _ _ named => exact ⟨named.packageName, named.binName⟩

/-- A state whose texts have no surrogates. -/
structure Plain (state : PackageState) : Prop where
  packageName : state.packageName.Plain
  version : state.version.Plain
  binName : state.binName.Plain

variable {state : PackageState} {path : FilePath} {world after : World}

/-- A state without surrogates can be written. -/
theorem Plain.encodes (plain : state.Plain) : ∃ bytes, Storage.jsonBytes state.toJson = .ok bytes := by
  have chars := written_chars plain.packageName plain.version plain.binName
  obtain ⟨bytes, encoded⟩ := Utf8.encodes_of_plain fun d mem => (chars d mem).1
  refine ⟨bytes, Storage.encodePieces_of_flatten ?_⟩
  rw [List.flatten_append, List.flatten_singleton]
  exact encoded

/-- From the file of a saved state the state is loaded with standard names in the place of empty ones. -/
theorem load_saved_filled (plain : state.Plain) (clear : path.Plain) (rooted : world.disk.Rooted)
    (saved : save path state world = (.ok (), after)) : Prod.fst (load path after) = .ok state.filled := by
  obtain ⟨_, between, written, wrote⟩ := Run.bind_ok saved
  obtain ⟨bytes, made⟩ := plain.encodes
  have whole := Storage.writeJson_ok written
  rw [made] at whole
  have read := Storage.read_of_writeWhole clear rooted whole
  rw [← (Run.write_ok wrote).disk] at read
  obtain ⟨text, value, decoded, parsed, means⟩ :=
    decodes_of_jsonBytes plain.packageName plain.version plain.binName made
  rw [fst_load, Storage.contentAt_of_read read, Storage.contentOf_of_parsed decoded (parsed _), ← means path]
  rfl

/-- Where nothing is refused, a state without surrogates is saved to any path to which something can be written. -/
theorem save_of_writable (plain : state.Plain) (free : world.host.Free)
    (writable : ∃ content, Prod.fst (Storage.writeBytes path.text content world) = .ok ()) :
    ∃ after, save path state world = (.ok (), after) := by
  obtain ⟨content, written⟩ := writable
  obtain ⟨bytes, made⟩ := plain.encodes
  rw [Storage.writeBytes_eq free] at written
  obtain ⟨between, wrote⟩ := Storage.writeWhole_of_ok written bytes
  refine ⟨{ between with log := between.log ++ [Log.info ("state file updated: " ++ path.text)] }, ?_⟩
  rw [save, Run.bind_apply, Storage.writeJson_eq free, made, wrote]
  rfl

/-- A state without surrogates whose names were told is loaded again from the path to which it was saved, whatever
stood there. It can be saved to any path to which something can be written, where the host refuses nothing. -/
theorem load_of_save (reached : Reached state) (plain : state.Plain) (clear : path.Plain)
    (rooted : world.disk.Rooted) :
    (∀ after, save path state world = (.ok (), after) → Prod.fst (load path after) = .ok state) ∧
      (world.host.Free → (∃ content, Prod.fst (Storage.writeBytes path.text content world) = .ok ()) →
        ∃ after, save path state world = (.ok (), after)) := by
  refine ⟨fun after saved => ?_, save_of_writable plain⟩
  rw [load_saved_filled plain clear rooted saved, reached.named.filled]

/-- A state with names that are escaped when it is written, one of them from a number. -/
def escaped : PackageState :=
  { ofMembers [("packageName", .string "a \"q\"\n\\é"), ("bin_name", .number (.whole 7))] with version := "2.0" }

/-- The path of a state file. -/
def somewhere : FilePath := ⟨[], ["config.json"]⟩

/-- A world with a state file that cannot be decoded. -/
def undecoded : World := .ofDisk [(["config.json"], .file [0xFF])]

theorem rooted_undecoded : undecoded.disk.Rooted := by
  unfold Disk.Rooted
  decide

theorem writable_undecoded : ∃ content, Prod.fst (Storage.writeBytes somewhere.text content undecoded) = .ok () := by
  refine ⟨[], ?_⟩
  rw [Storage.writeBytes_eq Host.free_standard]
  rfl

theorem load_of_save_escaped : ∃ after, save somewhere escaped undecoded = (.ok (), after) ∧
    Prod.fst (load somewhere after) = .ok escaped := by
  obtain ⟨restored, saves⟩ := @load_of_save escaped somewhere undecoded (.version (.ofMembers _) _)
    ⟨by decide, by decide, by decide⟩ (by decide) rooted_undecoded
  obtain ⟨after, saved⟩ := saves Host.free_standard writable_undecoded
  exact ⟨after, saved, restored after saved⟩

/-- A mapping whose values count as given and are shown by no text. -/
def silent : Mapping Unit := ⟨fun _ => some (), fun _ => true, fun _ => []⟩

/-- A state whose version was set to nothing. -/
def versionless : HeldState := (HeldState.ofState standard).withVersion .null

/-- Whether a state was saved, and the standard state is loaded from its file. -/
def standsIn : Except Failure Unit × World → Bool
  | (.ok (), after) => match Prod.fst (load somewhere after) with
      | .ok state => state == standard
      | .error _ => false
  | (.error _, _) => false

/-- The names of a silent mapping are read back as the standard ones, and a version that is nothing as an empty one. -/
theorem unrestored :
    (∃ after, save somewhere silent.state undecoded = (.ok (), after) ∧
      Prod.fst (load somewhere after) = .ok standard ∧ silent.state ≠ standard) ∧
    ∃ after, versionless.save somewhere undecoded = (.ok (), after) ∧
      Prod.fst (load somewhere after) = .ok standard ∧ versionless ≠ HeldState.ofState standard := by
  refine ⟨?_, ?_⟩
  · have plain : silent.state.Plain := ⟨by decide, by decide, by decide⟩
    obtain ⟨after, saved⟩ := save_of_writable plain Host.free_standard writable_undecoded
    exact ⟨after, saved, load_saved_filled plain (by decide) rooted_undecoded saved, by decide⟩
  · have stands : standsIn (versionless.save somewhere undecoded) = true := by decide +kernel
    rcases outcome : versionless.save somewhere undecoded with ⟨_ | _, after⟩ <;>
      simp only [outcome, standsIn] at stands
    · cases stands
    · cases loaded : Prod.fst (load somewhere after) with
      | error failure =>
          rw [loaded] at stands
          cases stands
      | ok state =>
          rw [loaded] at stands
          obtain rfl : state = standard := eq_of_beq stands
          exact ⟨after, rfl, loaded, fun same => nomatch congrArg HeldState.version same⟩

end PackageState

end Rebundle
