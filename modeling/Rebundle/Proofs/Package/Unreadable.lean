import Rebundle.Proofs.Package.Loading

/-!
# Files that hold no state

Whatever stands at the path of a state, one of four things happens: there is nothing to read, the bytes
are unreadable, the text is no object, or the members of the object are taken. Only bytes that cannot be
decoded and JSON beyond the limits of the host keep a state from being loaded.
-/

namespace Rebundle

namespace PackageState

variable {path : FilePath} {world : World} {bytes : Bytes} {text : Text} {members : List (Text × Json)}

/-- Bytes that are read as an object with these members. -/
def Holds (limits : Json.Limits) (bytes : Bytes) (members : List (Text × Json)) : Prop :=
  ∃ text, Utf8.decodeMarked bytes = .ok text ∧ Json.parse limits (Text.unifyLineEnds text) = .ok (.object members)

/-- The state that the disk remembers at a path: what an object in the file describes, and the standard
state where no file holds an object. -/
inductive Remembered (limits : Json.Limits) (path : FilePath) (disk : Disk) : PackageState → Prop where
  | described {bytes : Bytes} {members : List (Text × Json)} (read : disk.read path.text = .ok bytes)
      (holds : Holds limits bytes members) : Remembered limits path disk (ofMembers members)
  | standard (nowhere : ∀ bytes members, disk.read path.text = .ok bytes → ¬Holds limits bytes members) :
      Remembered limits path disk standard

theorem load_of_unread {fault : SystemFault} (unread : world.disk.read path.text = .error fault) :
    Prod.fst (load path world) = .ok standard := by
  rw [fst_load, Storage.contentAt, unread]
  cases world.disk.isFile (Place.ofText path.text) <;> rfl

theorem load_of_unreadable {failure : Failure} (read : world.disk.read path.text = .ok bytes)
    (unreadable : Storage.Unreadable world.host.limits bytes failure) :
    Prod.fst (load path world) = .error failure := by
  rw [fst_load, Storage.contentAt_of_read read, Storage.contentOf_error_iff.mpr unreadable]
  rfl

theorem load_of_holds (read : world.disk.read path.text = .ok bytes)
    (holds : Holds world.host.limits bytes members) : Prod.fst (load path world) = .ok (ofMembers members) := by
  obtain ⟨text, decoded, parsed⟩ := holds
  rw [fst_load, Storage.contentAt_of_read read, Storage.contentOf_of_parsed decoded parsed]
  rfl

/-- Text that is no JSON, and values that are no objects, stand for no state. -/
theorem load_of_nothing (read : world.disk.read path.text = .ok bytes)
    (readable : ∀ failure, ¬Storage.Unreadable world.host.limits bytes failure)
    (nothing : ∀ members, ¬Holds world.host.limits bytes members) : Prod.fst (load path world) = .ok standard := by
  rw [fst_load, Storage.contentAt_of_read read]
  cases decoded : Utf8.decodeMarked bytes with
  | error fault => exact absurd (.undecodable decoded) (readable _)
  | ok text =>
      rw [Storage.contentOf_of_decoded decoded]
      rcases parsed : Json.parse world.host.limits (Text.unifyLineEnds text) with (fault | beyond) | value
      · rfl
      · exact absurd (.excessive decoded parsed) (readable _)
      · cases value with
        | object members => exact absurd ⟨text, decoded, parsed⟩ (nothing members)
        | null | bool | number | string | array => rfl

/-- Loading gives the state that the disk remembers, or fails at bytes that are unreadable. -/
theorem load_cases (path : FilePath) (world : World) :
    (∃ state, Prod.fst (load path world) = .ok state ∧ Remembered world.host.limits path world.disk state) ∨
      ∃ bytes failure, world.disk.read path.text = .ok bytes ∧
        Storage.Unreadable world.host.limits bytes failure ∧ Prod.fst (load path world) = .error failure := by
  cases read : world.disk.read path.text with
  | error fault =>
      refine .inl ⟨_, load_of_unread read, .standard fun bytes members found => ?_⟩
      rw [read] at found
      cases found
  | ok bytes =>
      by_cases unreadable : ∃ failure, Storage.Unreadable world.host.limits bytes failure
      · obtain ⟨failure, unreadable⟩ := unreadable
        exact .inr ⟨bytes, failure, rfl, unreadable, load_of_unreadable read unreadable⟩
      · by_cases object : ∃ members, Holds world.host.limits bytes members
        · obtain ⟨members, holds⟩ := object
          exact .inl ⟨_, load_of_holds read holds, .described read holds⟩
        · have nothing : ∀ members, ¬Holds world.host.limits bytes members := not_exists.mp object
          have readable : ∀ failure, ¬Storage.Unreadable world.host.limits bytes failure := not_exists.mp unreadable
          refine .inl ⟨_, load_of_nothing read readable nothing, .standard fun other members found => ?_⟩
          cases read.symm.trans found
          exact nothing members

theorem load_error_iff {failure : Failure} : Prod.fst (load path world) = .error failure ↔
    ∃ bytes, world.disk.read path.text = .ok bytes ∧ Storage.Unreadable world.host.limits bytes failure := by
  constructor
  · intro failed
    rcases load_cases path world with ⟨state, loaded, _⟩ | ⟨bytes, failure', read, unreadable, failed'⟩
    · cases loaded.symm.trans failed
    · cases failed'.symm.trans failed
      exact ⟨bytes, read, unreadable⟩
  · rintro ⟨bytes, read, unreadable⟩
    exact load_of_unreadable read unreadable

theorem remembered_of_load {state : PackageState} (loaded : Prod.fst (load path world) = .ok state) :
    Remembered world.host.limits path world.disk state := by
  rcases load_cases path world with ⟨_, found, remembered⟩ | ⟨_, _, _, _, failed⟩
  · cases found.symm.trans loaded
    exact remembered
  · cases failed.symm.trans loaded

/-- A state is loaded from every path whose file, if there is one, can be decoded and read within the limits of the
host. It is what an object in the file describes and the standard state otherwise, and its names are not empty. Bytes
that cannot be decoded and JSON beyond the limits are the only failures, and nothing but the records changes. -/
theorem load_remembered (path : FilePath) (world : World) :
    ((∃ state, Prod.fst (load path world) = .ok state) ↔
      ∀ bytes, world.disk.read path.text = .ok bytes → ∃ text, Utf8.decodeMarked bytes = .ok text ∧
        ∀ beyond, Json.parse world.host.limits (Text.unifyLineEnds text) ≠ .error (.excess beyond)) ∧
    (∀ failure, Prod.fst (load path world) = .error failure ↔
      ∃ bytes, world.disk.read path.text = .ok bytes ∧ Storage.Unreadable world.host.limits bytes failure) ∧
    (∀ state, Prod.fst (load path world) = .ok state →
      Remembered world.host.limits path world.disk state ∧ state.Named) ∧
    World.Still world (load path world).2 := by
  refine ⟨⟨?_, fun reads => ?_⟩, fun _ => load_error_iff,
    fun _ loaded => ⟨remembered_of_load loaded, named_of_load loaded⟩, ?_⟩
  · rintro ⟨state, loaded⟩ bytes read
    have readable {failure : Failure} (unreadable : Storage.Unreadable world.host.limits bytes failure) : False := by
      cases loaded.symm.trans (load_of_unreadable read unreadable)
    cases decoded : Utf8.decodeMarked bytes with
    | ok text => exact ⟨text, rfl, fun beyond exceeds => readable (.excessive decoded exceeds)⟩
    | error fault => exact (readable (.undecodable decoded)).elim
  · cases result : Prod.fst (load path world) with
    | ok state => exact ⟨state, rfl⟩
    | error failure =>
        obtain ⟨bytes, read, unreadable⟩ := load_error_iff.mp result
        obtain ⟨text, decoded, within⟩ := reads bytes read
        cases unreadable with
        | undecodable undecoded => cases undecoded.symm.trans decoded
        | excessive decoded' exceeds =>
            cases decoded.symm.trans decoded'
            exact absurd exceeds (within _)
  · obtain ⟨after, outcome, still⟩ := gives_load path world
    rw [outcome]
    exact still

-- One byte that begins no character.
example : Storage.contentOf Host.standard.limits [0xFF] = .error (.decoding ⟨0, [0xFF], .invalidStart⟩) := rfl

end PackageState

end Rebundle
