import Rebundle.Proofs.Update.Inversion

/-!
# Loading a state

What is loaded from the file of a state depends on the files at and above its place and on the limits of the host
only. Loading adds records and leaves all else alone.
-/

namespace Rebundle

/-- A run that leaves a world alone but for its records, and gives this result. -/
def Run.Gives (world : World) (run : Run α) (result : Except Failure α) : Prop :=
  ∃ after, run world = (result, after) ∧ World.Still world after

namespace Run.Gives

variable {α β ε : Type} {world : World}

theorem pure (value : α) : Gives world (Pure.pure value : Run α) (.ok value) := ⟨_, rfl, .refl _⟩

theorem throw (failure : Failure) : Gives world (throw failure : Run α) (.error failure) := ⟨_, rfl, .refl _⟩

theorem write (record : Log.Record) : Gives world (Run.write record) (.ok ()) := ⟨_, rfl, rfl, rfl, rfl⟩

theorem ofExcept (result : Except ε α) (failure : ε → Failure) :
    Gives world (Run.ofExcept result failure) (result.mapError failure) := by
  cases result <;> exact ⟨_, rfl, .refl _⟩

theorem ofLogged (logged : Logged (Except Failure α)) : Gives world (Run.ofLogged logged) logged.value := by
  obtain ⟨_ | _, log⟩ := logged <;> exact ⟨_, rfl, rfl, rfl, rfl⟩

theorem bind {run : Run α} {next : α → Run β} {result : Except Failure α} {last : α → Except Failure β}
    (first : Gives world run result)
    (rest : ∀ value between, World.Still world between → Gives between (next value) (last value)) :
    Gives world (run >>= next) (result >>= last) := by
  obtain ⟨between, outcome, still⟩ := first
  cases result with
  | error failure => exact ⟨between, by rw [bind_apply, outcome]; rfl, still⟩
  | ok value =>
      obtain ⟨after, outcome', still'⟩ := rest value between still
      exact ⟨after, by rw [bind_apply, outcome]; exact outcome', still.trans still'⟩

theorem look {next : World → Run α} {result : Except Failure α} (rest : Gives world (next world) result) :
    Gives world (get >>= next) result := rest

theorem still {run : Run α} {result : Except Failure α} (gives : Gives world run result) {value : α}
    {after : World} (done : run world = (.ok value, after)) : World.Still world after := by
  obtain ⟨_, outcome, still⟩ := gives
  cases outcome.symm.trans done
  exact still

end Run.Gives

namespace Storage

variable {limits : Json.Limits} {bytes : Bytes} {text : Text} {path : FilePath} {disk : Disk}

/-- What keeps bytes from having JSON content, be it invalid: they cannot be decoded, or reading them goes beyond the
limits. -/
inductive Unreadable (limits : Json.Limits) (bytes : Bytes) : Failure → Prop where
  | undecodable {fault : Utf8.DecodeFault} (undecoded : Utf8.decodeMarked bytes = .error fault) :
      Unreadable limits bytes (.decoding fault)
  | excessive {text : Text} {beyond : Json.Excess} (decoded : Utf8.decodeMarked bytes = .ok text)
      (exceeds : Json.parse limits (Text.unifyLineEnds text) = .error (.excess beyond)) :
      Unreadable limits bytes (.excess beyond)

/-- The JSON content of bytes. -/
def contentOf (limits : Json.Limits) (bytes : Bytes) : Except Failure JsonContent := do
  let text ← (Utf8.decodeMarked bytes).mapError .decoding
  match Json.parse limits (Text.unifyLineEnds text) with
  | .ok v => return .value v
  | .error (.fault _) => return .invalid
  | .error (.excess beyond) => throw (.excess beyond)

theorem contentOf_of_undecoded {fault : Utf8.DecodeFault} (undecoded : Utf8.decodeMarked bytes = .error fault) :
    contentOf limits bytes = .error (.decoding fault) := by
  rw [contentOf, undecoded]
  rfl

theorem contentOf_of_decoded (decoded : Utf8.decodeMarked bytes = .ok text) :
    contentOf limits bytes = match Json.parse limits (Text.unifyLineEnds text) with
      | .ok v => .ok (.value v)
      | .error (.fault _) => .ok .invalid
      | .error (.excess beyond) => .error (.excess beyond) := by
  rw [contentOf, decoded]
  rfl

theorem contentOf_of_parsed {value : Json} (decoded : Utf8.decodeMarked bytes = .ok text)
    (parsed : Json.parse limits (Text.unifyLineEnds text) = .ok value) :
    contentOf limits bytes = .ok (.value value) := by
  rw [contentOf_of_decoded decoded, parsed]

/-- Bytes have some content unless they are unreadable. -/
theorem contentOf_error_iff {failure : Failure} :
    contentOf limits bytes = .error failure ↔ Unreadable limits bytes failure := by
  constructor
  · intro failed
    cases decoded : Utf8.decodeMarked bytes with
    | error fault =>
        rw [contentOf_of_undecoded decoded] at failed
        cases failed
        exact .undecodable decoded
    | ok text =>
        rw [contentOf_of_decoded decoded] at failed
        rcases parsed : Json.parse limits (Text.unifyLineEnds text) with (_ | beyond) | _ <;> rw [parsed] at failed <;>
          cases failed
        exact .excessive decoded parsed
  · rintro (undecoded | ⟨decoded, exceeds⟩)
    · exact contentOf_of_undecoded undecoded
    · rw [contentOf_of_decoded decoded, exceeds]

/-- The JSON content at a path. What the disk refuses to give counts as invalid. -/
def contentAt (limits : Json.Limits) (path : FilePath) (disk : Disk) : Except Failure JsonContent :=
  if disk.isFile (Place.ofText path.text) then
    match disk.read path.text with
    | .ok bytes => contentOf limits bytes
    | .error _ => .ok .invalid
  else .ok .missing

theorem contentAt_of_read (read : disk.read path.text = .ok bytes) :
    contentAt limits path disk = contentOf limits bytes := by
  have stands : disk.isFile (Place.ofText path.text) = true := by
    rw [Disk.isFile_eq, Disk.content?_of_read read]
    rfl
  rw [contentAt, if_pos stands, read]

theorem gives_noJson (path : FilePath) (why : Text) (world : World) :
    Run.Gives world (noJson path why) (.ok .invalid) :=
  .bind (.write _) fun _ _ _ => .pure _

/-- JSON is read from a file where one stands. -/
theorem gives_readJson (path : FilePath) (world : World) :
    Run.Gives world (readJson path) (contentAt world.host.limits path world.disk) := by
  refine .look ?_
  unfold contentAt
  cases world.disk.isFile (Place.ofText path.text) with
  | false => exact .bind (.write _) fun _ _ _ => .pure _
  | true =>
      cases world.disk.read path.text with
      | error fault => exact gives_noJson path _ world
      | ok bytes =>
          refine .bind (.ofExcept _ _) fun text between _ => ?_
          rcases Json.parse world.host.limits (Text.unifyLineEnds text) with (fault | beyond) | v
          · exact gives_noJson path _ between
          · exact .throw _
          · exact .pure _

end Storage

namespace PackageState

theorem gives_load (path : FilePath) (world : World) :
    Run.Gives world (load path)
      (Storage.contentAt world.host.limits path world.disk >>= fun content => .ok (ofContent path content).value) :=
  .bind (Storage.gives_readJson path world) fun _ _ _ => .ofLogged _

theorem fst_load (path : FilePath) (world : World) : Prod.fst (load path world) =
    (Storage.contentAt world.host.limits path world.disk).map fun content => (ofContent path content).value := by
  obtain ⟨after, outcome, -⟩ := gives_load path world
  rw [outcome]
  cases Storage.contentAt world.host.limits path world.disk <;> rfl

/-- The same state is loaded within the same limits from all disks with the same files at and above the place of its
file. -/
theorem load_congr {path : FilePath} {world other : World} (limits : world.host.limits = other.host.limits)
    (same : ∀ place, place <+: Place.ofText path.text → world.disk.content? place = other.disk.content? place) :
    Prod.fst (load path world) = Prod.fst (load path other) := by
  have file : world.disk.isFile (Place.ofText path.text) = other.disk.isFile (Place.ofText path.text) := by
    rw [Disk.isFile_eq, Disk.isFile_eq, same _ List.prefix_rfl]
  rw [fst_load, fst_load, Storage.contentAt, Storage.contentAt, ← file, limits]
  split
  · rename_i stands
    rw [Disk.read_congr stands same]
  · rfl

end PackageState

end Rebundle
