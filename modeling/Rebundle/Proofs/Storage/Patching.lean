import Rebundle.Proofs.Document.Untouched
import Rebundle.Proofs.Rewrite.Prefixed
import Rebundle.Proofs.Storage.Refusing

/-!
# Patched files

What is written to a file is the rendered program, byte for byte, whatever bytes were read: reading and writing
cancel out. Nothing is written when patching fails.
-/

namespace Rebundle

namespace Patcher

variable {patcher : Patcher}

/-- A file that is patched holds the rendering of the program in the input, which is the input with unified line ends
and the bootstrap. Every run of the program that no edit touches stands in it between the renderings of what is in
front of the run and behind it. No other file changes, and when patching fails no file changes at all: at most some of
the directories that lead to the output are new. It fails only when the system refuses one of the files, the host
refuses what it is asked for, or the text that was read cannot be patched. -/
theorem patchFile_faithful (lays : patcher.parser.Lays)
    (known : ∀ pass ∈ patcher.passes, pass ∈ RewritePass.standard)
    (config : PatchConfig) (input output : Text) (world : World) :
    match patcher.patchFile input output config world with
    | (.ok _, after) => ∃ bytes prepared rendered,
        world.disk.content? (Place.ofText input) = some bytes ∧
        (patcher.prepare (Text.unifyLineEnds (Utf8.decodeEscaped bytes)) (some input)).value = .ok prepared ∧
        let doc := (patcher.rewrite config prepared).value.doc
        doc.source = patcher.bootstrap.prefixed (Utf8.unifyLineEnds bytes) ∧
        doc.render = .ok rendered ∧
        after.disk.content? (Place.ofText output) = some rendered ∧
        (∀ place, place ≠ Place.ofText output → after.disk.content? place = world.disk.content? place) ∧
        ∀ start stop, doc.Untouched start stop →
          ∃ front back, Source.window doc.source doc.edits 0 start = .ok front ∧
            Source.window doc.source doc.edits stop doc.source.length = .ok back ∧
            rendered = front ++ Source.slice doc.source start stop ++ back
    | (.error failure, after) =>
        (∀ place, after.disk.content? place = world.disk.content? place) ∧
          Disk.Made (Disk.levels (Disk.directoryOf output)) world.disk after.disk ∧
          ((∃ fault, failure = .system fault) ∨ world.host.Refuses failure ∨
            ∃ bytes, world.disk.read input = .ok bytes ∧
              (patcher.patch config (Text.unifyLineEnds (Utf8.decodeEscaped bytes)) (some input)).value =
                .error failure) := by
  rcases outcome : patcher.patchFile input output config world with ⟨_ | patch, after⟩
  · obtain ⟨made, why⟩ := patchFile_error outcome
    refine ⟨made.content?, made, why.imp_right (.imp_right ?_)⟩
    rintro ⟨bytes, read, -, failed⟩
    exact ⟨bytes, read, failed⟩
  · obtain ⟨bytes, code, holds, value, encoded, stored⟩ := patchFile_ok outcome
    obtain ⟨prepared, rendered, read, written, same⟩ := patch_ok value
    rw [same, Utf8.encodeEscaped_decodeEscaped] at encoded
    obtain rfl : code = rendered := (Except.ok.inj encoded).symm
    have source : (patcher.rewrite config prepared).value.doc.source = prepared.source := source_rewrite known
    obtain ⟨sorted, proper⟩ := rewrite_ordered lays known config read
    refine ⟨bytes, prepared, code, holds, read, source.trans (prepare_source read), written, stored.holds,
      stored.elsewhere, fun start stop untouched => ?_⟩
    exact Document.render_around sorted proper untouched written

/-- A file is patched when it can be read, its text can be patched, and its output can be written. -/
theorem patchFile_of_ok {config : PatchConfig} {input output : Text} {world : World} {bytes : Bytes} {patch : Patch}
    (read : world.disk.read input = .ok bytes)
    (granted : world.host.refusal? (.patch (Text.unifyLineEnds (Utf8.decodeEscaped bytes))) world.disk = none)
    (made : (patcher.patch config (Text.unifyLineEnds (Utf8.decodeEscaped bytes)) (some input)).value = .ok patch)
    (writes : ∀ content between, between.host = world.host → between.disk = world.disk →
      Prod.fst (Storage.writeBytes output content between) = .ok ()) :
    ∃ after, patcher.patchFile input output config world = (.ok patch, after) := by
  have found (log : Log) : Storage.readText input { world with log } = (.ok _, { world with log }) :=
    Storage.readText_of_read read
  obtain ⟨_, rendered, _, _, code⟩ := patch_ok made
  have asked (log : Log) := @Storage.ask_of_granted { world with log } _ granted
  have written : Storage.writeText output patch.code = Storage.writeBytes output rendered :=
    Storage.writeText_of_encoded (code ▸ Utf8.encodeEscaped_decodeEscaped rendered) output
  simp only [patchFile, Run.bind_apply, Run.write_apply, found, asked, Run.ofLogged_apply, made, written]
  generalize here : World.mk _ _ _ _ _ _ = between
  have stored := writes rendered between (by rw [← here]) (by rw [← here])
  rcases outcome : Storage.writeBytes output rendered between with ⟨_ | _, after⟩ <;> rw [outcome] at stored
  · cases stored
  · exact ⟨_, rfl⟩

/-- A statement with a byte that cannot be decoded, and a line end that is unified. -/
def undecodable : Disk := [(["in.js"], .file [0x22, 0xFF, 0x22, 0x3B, 0x0D, 0x0A])]

/-- Whether a text is read as a program in which the standard patcher has nothing to edit. -/
def plainly (source : Text) (path : Option Text) : Bool :=
  match (standard.prepare source path).value with
  | .ok prepared => (standard.rewrite PatchConfig.empty prepared).value.doc.edits.isEmpty
  | .error _ => false

/-- The byte is in the patched file, behind the bootstrap, and the input is as it was. -/
theorem patchFile_faithful_undecodable :
    standard.parser.Lays ∧ (∀ pass ∈ standard.passes, pass ∈ RewritePass.standard) ∧ ∃ patch after,
      standard.patchFile "in.js" "out/out.js" PatchConfig.empty (World.ofDisk undecodable) = (.ok patch, after) ∧
        after.disk.content? ["out", "out.js"] =
          some (Utf8.asciiBytes Bootstrap.standard.snippet ++ [0x22, 0xFF, 0x22, 0x3B, 0x0A]) ∧
        after.disk.content? ["in.js"] = some [0x22, 0xFF, 0x22, 0x3B, 0x0D, 0x0A] := by
  have known : ∀ pass ∈ standard.passes, pass ∈ RewritePass.standard := fun _ mem => mem
  have plain : plainly (Text.unifyLineEnds (Utf8.decodeEscaped [0x22, 0xFF, 0x22, 0x3B, 0x0D, 0x0A]))
      (some "in.js") = true := by
    decide +kernel
  have writes (content : Bytes) (between : World) (host : between.host = (World.ofDisk undecodable).host)
      (disk : between.disk = (World.ofDisk undecodable).disk) :
      Prod.fst (Storage.writeBytes "out/out.js" content between) = .ok () := by
    obtain ⟨_, _, _, _, _, _⟩ := between
    cases host
    cases disk
    rw [Storage.writeBytes_eq Host.free_standard]
    rfl
  have granted (act : Act) : (World.ofDisk undecodable).host.refusal? act (World.ofDisk undecodable).disk = none := rfl
  have read : (World.ofDisk undecodable).disk.read "in.js" = .ok [0x22, 0xFF, 0x22, 0x3B, 0x0D, 0x0A] := by decide
  refine ⟨Parser.lays_standard, known, ?_⟩
  -- the run is not computed when the theorem is applied to it
  generalize World.ofDisk undecodable = world at writes granted read ⊢
  rw [plainly] at plain
  split at plain
  · rename_i prepared prepares
    rw [List.isEmpty_iff] at plain
    obtain ⟨patch, made⟩ : ∃ patch, (standard.patch PatchConfig.empty (Text.unifyLineEnds (Utf8.decodeEscaped
        [0x22, 0xFF, 0x22, 0x3B, 0x0D, 0x0A])) (some "in.js")).value = .ok patch := by
      rw [patch_of_prepare prepares, finish, Document.render_untouched plain]
      exact ⟨_, rfl⟩
    obtain ⟨after, ran⟩ := patchFile_of_ok read (granted _) made writes
    have faithful := patchFile_faithful Parser.lays_standard known PatchConfig.empty "in.js" "out/out.js" world
    rw [ran] at faithful
    obtain ⟨bytes, same, rendered, holds, prepares', source, written, stored, others, _⟩ := faithful
    have given : world.disk.content? ["in.js"] = some [0x22, 0xFF, 0x22, 0x3B, 0x0D, 0x0A] :=
      Disk.content?_of_read read
    obtain rfl := Option.some.inj (given.symm.trans holds)
    cases prepares.symm.trans prepares'
    rw [Document.render_untouched plain, source] at written
    obtain rfl := Except.ok.inj written
    exact ⟨patch, after, ran, stored, (others _ (by decide)).trans given⟩
  · cases plain

end Patcher

end Rebundle
