import Rebundle.CommandLine.Command
import Rebundle.Proofs.Rewrite.Failing
import Rebundle.Proofs.Storage.Refusing
import Rebundle.Proofs.Update.Ending

/-!
# What comes through a command

A command ends with a code when it succeeds and when the program or the system refuses something. Only text is able to
come through: the bytes of a configuration file that are no text or JSON beyond the limits of the host, the name of a
binary that cannot be written, and a text of a configuration that cannot be written when it is put into the code. The
stages of an update hold back all failures, so of an update only the configuration file is left. A host may have
reasons of its own to refuse a file or a source, and they come through unless they are those of the system. Whatever a
command ends with, it has not touched its output unless it ends with code 0.
-/

namespace Rebundle

/-! A command that was read knows its dialect. -/

/-- A patch in a dialect that there is. -/
def Command.Known : Command → Prop
  | .patch _ _ _ dialect _ _ => Dialect.ofName? dialect ≠ none
  | .extract _ _ _ _ | .update _ _ => True

namespace CommandLine

variable {accepts : Text → Text → Bool} {texts : List Text} {command : Command}

theorem bind_ok {α β : Type} {first : Except Exit α} {next : α → Except Exit β} {value : β}
    (done : (first >>= next) = .ok value) : ∃ found, first = .ok found ∧ next found = .ok value := by
  cases first with
  | error exit => cases done
  | ok found => exact ⟨found, rfl, done⟩

theorem collect_accepted {given found : Given} {items : List Item} (done : collect accepts given items = .ok found)
    (accepted : ∀ setting ∈ given.settings, accepts setting.1 setting.2 = true) :
    ∀ setting ∈ found.settings, accepts setting.1 setting.2 = true := by
  fun_induction collect accepts given items with
  | case1 given =>
      cases done
      exact accepted
  | case2 given t rest ih => exact ih done accepted
  | case3 => cases done
  | case4 given switch rest other ih => exact ih done accepted
  | case5 given switch value rest valid ih =>
      refine ih done fun setting mem => ?_
      rcases List.mem_append.mp mem with old | new
      · exact accepted setting old
      · cases List.mem_singleton.mp new
        exact valid
  | case6 => cases done
  | case7 => cases done
  | case8 => cases done
  | case9 => cases done

/-- The settings of a command have values that it accepts. -/
theorem accepted_of_read {switches : List Switch} {operands : Nat} {given : Given} {name : String} {value : Text}
    (done : read switches operands accepts texts = .ok given) (set : given.setting? name = some value) :
    accepts name value = true := by
  have mem : ((name : Text), value) ∈ given.settings := by
    obtain ⟨before, behind, settings, _⟩ := List.lookup_eq_some_iff.mp set
    exact List.mem_reverse.mp (settings ▸ List.mem_append_right before List.mem_cons_self)
  obtain ⟨words, _, done⟩ := bind_ok done
  obtain ⟨found, collected, done⟩ := bind_ok done
  have same : found = given := by
    split at done
    · cases done
    · cases done
      rfl
  exact collect_accepted collected (fun _ none => nomatch none) _ (same ▸ mem)

theorem known_of_readPatch (done : readPatch texts = .ok command) : command.Known := by
  obtain ⟨given, found, done⟩ := bind_ok done
  split at done
  · cases done
    change Dialect.ofName? ((given.setting? "--dialect").getD _) ≠ none
    cases set : given.setting? "--dialect" with
    | none => decide
    | some value => exact Option.isSome_iff_ne_none.mp (accepted_of_read found set)
  · cases done

theorem known_of_readNamed {name : Text} (done : readNamed name texts = .ok command) : command.Known := by
  unfold readNamed at done
  split at done
  · obtain ⟨given, _, done⟩ := bind_ok done
    split at done <;> cases done
    trivial
  · split at done
    · exact known_of_readPatch done
    · split at done
      · obtain ⟨given, _, done⟩ := bind_ok done
        cases done
        trivial
      · cases done

theorem known_of_readFrom {verbose strange : Bool} {words : List (Word × Text)} {invocation : Invocation}
    (done : readFrom verbose strange words = .ok invocation) : invocation.command.Known := by
  fun_induction readFrom verbose strange words with
  | case1 => cases done
  | case2 verbose strange name _ rest =>
      obtain ⟨command, named, done⟩ := bind_ok done
      cases strange <;> cases done
      exact known_of_readNamed named
  | case3 => cases done
  | case4 _ _ _ _ _ _ _ ih => exact ih done
  | case5 => cases done
  | case6 _ _ _ _ _ _ _ ih => exact ih done
  | case7 _ _ _ _ ih => exact ih done
  | case8 => cases done
  | case9 => cases done

/-- What is read from a command line is a command with a dialect that there is. -/
theorem known_of_parse {invocation : Invocation} (done : parse texts = .ok invocation) : invocation.command.Known := by
  obtain ⟨words, _, done⟩ := bind_ok done
  exact known_of_readFrom done

end CommandLine

namespace PatchConfig

variable {config? : Option FilePath} {world after : World} {failure : Failure}

/-- Looking for a configuration is idle. -/
theorem idles_resolve (config? : Option FilePath) : Run.Idles (resolve config?) := by
  cases config? with
  | none => exact .pure _
  | some path =>
      exact .look fun world => .bind (.ofExcept _ _) fun _ => .bind (.ofExcept _ _) fun _ =>
        .bind (.ofExcept _ _) fun _ => .ofLogged _

/-- A configuration file that is unreadable is no configuration, and is not refused either. -/
theorem resolve_of_unreadable {path : FilePath} {bytes : Bytes} (read : world.disk.read path.text = .ok bytes)
    (unreadable : Storage.Unreadable world.host.limits bytes failure) :
    resolve (some path) world = (.error failure, world) := by
  change ((Run.ofExcept (world.disk.read path.text) _ : Run Bytes) >>= _) world = _
  rw [read]
  change ((Run.ofExcept (Utf8.decodeMarked bytes) _ : Run Text) >>= _) world = _
  cases unreadable with
  | undecodable undecoded =>
      rw [undecoded]
      rfl
  | excessive decoded exceeds =>
      rw [decoded]
      change ((Run.ofExcept (Json.parse world.host.limits (Text.unifyLineEnds _)) _ : Run Json) >>= _) world = _
      rw [exceeds]
      rfl

/-- A configuration that is not found is refused, unless its file is unreadable. -/
theorem resolve_error (failed : resolve config? world = (.error failure, after)) :
    (∃ fault, failure = .config fault) ∨
      ∃ path bytes, config? = some path ∧ world.disk.read path.text = .ok bytes ∧
        Storage.Unreadable world.host.limits bytes failure := by
  cases config? with
  | none => cases failed
  | some path =>
      rcases Run.bind_error
        (show ((Run.ofExcept (world.disk.read path.text) _ : Run Bytes) >>= _) world = _ from failed)
        with refused | ⟨bytes, _, read, failed⟩
      · obtain ⟨⟨_, _, rfl⟩, _⟩ := Run.ofExcept_error refused
        exact .inl ⟨_, rfl⟩
      obtain ⟨read, _⟩ := Run.ofExcept_ok read
      rcases Run.bind_error failed with refused | ⟨text, _, decoded, failed⟩
      · obtain ⟨⟨fault, undecodable, rfl⟩, _⟩ := Run.ofExcept_error refused
        exact .inr ⟨path, bytes, rfl, read, .undecodable undecodable⟩
      obtain ⟨decoded, _⟩ := Run.ofExcept_ok decoded
      rcases Run.bind_error failed with refused | ⟨value, _, _, failed⟩
      · obtain ⟨⟨_ | beyond, unparsed, rfl⟩, _⟩ := Run.ofExcept_error refused
        · exact .inl ⟨_, rfl⟩
        · exact .inr ⟨path, bytes, rfl, read, .excessive decoded unparsed⟩
      obtain ⟨refused, _⟩ := Run.ofLogged_error failed
      change (ofJson value).value.mapError .config = .error failure at refused
      cases given : (ofJson value).value <;> rw [given] at refused <;> cases refused
      exact .inl ⟨_, rfl⟩

end PatchConfig

/-- The program's own failures and those of the system end a command with a message. -/
def Failure.Reported (failure : Failure) : Prop :=
  failure.isOwn = true ∨ (∃ fault, failure = .system fault) ∨ ∃ message, failure = .foreign .system message

namespace Command

/-- The configuration file that a command is given. -/
def config? : Command → Option FilePath
  | .extract _ _ _ _ => none
  | .patch _ _ config? _ _ _ | .update config? _ => config?

/-- The file that a command makes of another one. -/
def output? : Command → Option FilePath
  | .extract _ output _ _ | .patch _ output _ _ _ _ => some output
  | .update _ _ => none

/-- The failures that come through a command. -/
inductive Escapes (world : World) : Command → Failure → Prop
  /-- The name of the binary cannot be written. -/
  | name {input output : FilePath} {binaryName platform : Text} {fault : Utf8.EncodeFault}
      (unencodable : Utf8.encode binaryName = .error fault) :
      Escapes world (.extract input output binaryName platform) (.encoding fault)
  /-- The configuration file holds no text, or JSON beyond the limits of the host. -/
  | config {command : Command} {path : FilePath} {bytes : Bytes} {failure : Failure}
      (given : command.config? = some path) (read : world.disk.read path.text = .ok bytes)
      (unreadable : Storage.Unreadable world.host.limits bytes failure) : Escapes world command failure
  /-- A text of the configuration cannot be written when it is put into the code. -/
  | text {input output : FilePath} {config? : Option FilePath} {dialect : Text} {threshold : Number}
      {showsStats : Bool} {config : PatchConfig} {bytes : Bytes} {fault : Utf8.EncodeFault}
      (given : Prod.fst (PatchConfig.resolve config? world) = .ok config) (unwritable : ¬config.Writable)
      (read : world.disk.read input.text = .ok bytes)
      (granted : world.host.refusal? (.patch (Text.unifyLineEnds (Utf8.decodeEscaped bytes))) world.disk = none)
      (failed : (({ Patcher.standard with dialect, threshold, parser := world.host.parser } : Patcher).patch config
        (Text.unifyLineEnds (Utf8.decodeEscaped bytes)) (some input.text)).value = .error (.encoding fault)) :
      Escapes world (.patch input output config? dialect threshold showsStats) (.encoding fault)

variable {command : Command} {network : Remote} {world after : World} {failure : Failure}

theorem Escapes.unreported (escapes : Escapes world command failure) : ¬failure.Reported := by
  cases escapes with
  | name | text => rintro (own | ⟨_, system⟩ | ⟨_, system⟩) <;> contradiction
  | config _ _ unreadable =>
      cases unreadable <;> rintro (own | ⟨_, system⟩ | ⟨_, system⟩) <;> contradiction

theorem headerFor_error {binaryName platform : Text} {fault : Utf8.EncodeFault} :
    Markers.headerFor binaryName platform = .error fault ↔ Utf8.encode binaryName = .error fault := by
  unfold Markers.headerFor
  cases Utf8.encode binaryName with
  | error => exact Iff.rfl
  | ok bytes => exact iff_of_false nofun nofun

/-- What comes through does so whatever the remote answers, and leaves the disk alone. -/
theorem execute_of_escapes (network : Remote) (escapes : Escapes world command failure) :
    ∃ after, command.execute network world = (.error failure, after) ∧ after.disk = world.disk := by
  cases escapes with
  | name unencodable =>
      refine ⟨world, ?_, rfl⟩
      rw [execute, headerFor_error.mpr unencodable]
      rfl
  | @config command path bytes failure given read unreadable =>
      have unloaded := PatchConfig.resolve_of_unreadable read unreadable
      refine ⟨world, ?_, rfl⟩
      cases command with
      | extract => cases given
      | patch =>
          cases given
          rw [execute, Run.bind_apply, unloaded]
      | update =>
          cases given
          rw [execute, Run.bind_apply, unloaded]
  | @text input output config? dialect threshold _ config _ _ given _ read granted failed =>
      have idle := PatchConfig.idles_resolve config? world
      rcases outcome : PatchConfig.resolve config? world with ⟨result, between⟩
      rw [outcome] at given idle
      cases given
      rw [← idle.disk] at read granted
      rw [← idle.host] at granted failed
      obtain ⟨after, ran, same⟩ := Patcher.patchFile_of_error read granted failed output.text
      refine ⟨after, ?_, same.trans idle.disk⟩
      rw [execute, Run.bind_apply, outcome]
      dsimp only
      rw [Run.bind_apply, Run.get_apply]
      dsimp only
      rw [Run.bind_apply, ran]

/-- A failure with a message, or one of the host. Before it no file has changed if the command makes one file of
another one. -/
def Refused (world after : World) (command : Command) (failure : Failure) : Prop :=
  (failure.Reported ∨ world.host.Refuses failure) ∧ ∀ output ∈ command.output?,
    Disk.Made (Disk.levels (Disk.directoryOf output.text)) world.disk after.disk

theorem extract_error {input output : FilePath} {binaryName platform : Text}
    (failed : (extract input output binaryName platform).execute network world = (.error failure, after)) :
    Escapes world (.extract input output binaryName platform) failure ∨
      Refused world after (.extract input output binaryName platform) failure := by
  rcases Run.bind_error failed with refused | ⟨header, _, headed, failed⟩
  · obtain ⟨⟨fault, unencodable, rfl⟩, _⟩ := Run.ofExcept_error refused
    exact .inl (.name (headerFor_error.mp unencodable))
  obtain ⟨_, still⟩ := Run.ofExcept_ok headed
  rcases Run.bind_error failed with refused | ⟨_, _, _, failed⟩
  · obtain ⟨made, why⟩ := Extraction.ofFile_error refused
    rw [still.host] at why
    refine .inr ⟨why.imp_left fun system => .inr (.inl system), fun _ same => ?_⟩
    cases same
    exact still.disk ▸ made
  · exact absurd failed Run.report_error

/-- A configuration that is not found ends a command before anything is done. -/
theorem unconfigured (failed : PatchConfig.resolve command.config? world = (.error failure, after)) :
    Escapes world command failure ∨ Refused world after command failure := by
  have idle := PatchConfig.idles_resolve command.config? world
  rw [failed] at idle
  rcases PatchConfig.resolve_error failed with ⟨_, rfl⟩ | ⟨path, bytes, given, read, unreadable⟩
  · exact .inr ⟨.inl (.inl rfl), fun _ _ => idle.disk ▸ .refl _ _⟩
  · exact .inl (.config given read unreadable)

theorem patch_error {input output : FilePath} {config? : Option FilePath} {dialect : Text} {threshold : Number}
    {showsStats : Bool} (known : Dialect.ofName? dialect ≠ none)
    (failed : (patch input output config? dialect threshold showsStats).execute network world =
      (.error failure, after)) :
    Escapes world (.patch input output config? dialect threshold showsStats) failure ∨
      Refused world after (.patch input output config? dialect threshold showsStats) failure := by
  rcases Run.bind_error failed with refused | ⟨config, between, found, failed⟩
  · exact unconfigured refused
  have idle := PatchConfig.idles_resolve config? world
  rw [found] at idle
  rw [Run.bind_apply, Run.get_apply] at failed
  dsimp only at failed
  rcases Run.bind_error failed with refused | ⟨_, _, _, ⟨⟩⟩
  obtain ⟨made, why⟩ := Patcher.patchFile_error refused
  rw [idle.host] at why
  have spared : ∀ other ∈ some output,
      Disk.Made (Disk.levels (Disk.directoryOf other.text)) world.disk after.disk := by
    rintro _ ⟨⟩
    exact idle.disk ▸ made
  rcases why with system | refuses | ⟨bytes, read, granted, failed⟩
  · exact .inr ⟨.inl (.inr (.inl system)), spared⟩
  · exact .inr ⟨.inr refuses, spared⟩
  · let patcher : Patcher := { Patcher.standard with dialect, threshold, parser := world.host.parser }
    have standard : ∀ pass ∈ patcher.passes, pass ∈ RewritePass.standard := fun _ mem => mem
    have known : Dialect.ofName? patcher.dialect ≠ none := known
    rcases Patcher.patch_error known config _ _ _ failed with ⟨_, rfl⟩ | ⟨fault, rfl⟩
    · exact .inr ⟨.inl (.inl rfl), spared⟩
    · -- the text of a file can always be written again, so it is the configuration that cannot
      have unified := Utf8.encodeEscaped_unifyLineEnds (Utf8.encodeEscaped_decodeEscaped bytes)
      have unwritable :=
        Patcher.unwritable_of_patch standard known config _ (Utf8.encodes_iff.mp ⟨_, unified⟩) failed
      rw [idle.disk] at read granted
      exact .inl (.text (by rw [found]) unwritable read granted failed)

theorem update_error {config? : Option FilePath} {options : UpdateOptions}
    (failed : (update config? options).execute network world = (.error failure, after)) :
    Escapes world (.update config? options) failure ∨ Refused world after (.update config? options) failure := by
  rcases Run.bind_error failed with refused | ⟨config, between, found, failed⟩
  · exact unconfigured refused
  let start := Update.start { options with config } network
  have ended : ((Prod.fst (Prod.fst (Registry.standard.update start between))).map fun _ => ([] : Text),
      Prod.snd (Registry.standard.update start between)) = (.error failure, after) := failed
  rcases ran : Registry.standard.update start between with ⟨⟨_ | _, _⟩, _⟩ <;> rw [ran] at ended <;> cases ended
  obtain ⟨name, cause, rfl⟩ := Registry.update_error ran
  exact .inr ⟨.inl (.inl rfl), fun _ none => nomatch none⟩

/-- A command fails as something comes through, or it is refused. -/
theorem execute_error (known : command.Known) (failed : command.execute network world = (.error failure, after)) :
    Escapes world command failure ∨ Refused world after command failure := by
  cases command with
  | extract => exact extract_error failed
  | patch => exact patch_error known failed
  | update => exact update_error failed

/-- A command succeeds with code 0. -/
theorem run_of_ok {printed : Text} (done : command.execute network world = (.ok printed, after)) :
    command.run network world = (.ok (0, printed), after) := by
  rw [run, Run.bind_apply, Run.attempt, done]
  rfl

/-- A failure with a message gives code 1. -/
theorem run_of_reported (reported : failure.Reported)
    (failed : command.execute network world = (.error failure, after)) :
    ∃ record, command.run network world = (.ok (1, []), { after with log := after.log ++ [record] }) := by
  rw [run, Run.bind_apply, Run.attempt, failed]
  rcases reported with own | ⟨fault, rfl⟩ | ⟨message, rfl⟩
  · cases failure <;> cases own <;> exact ⟨_, rfl⟩
  · exact ⟨_, rfl⟩
  · exact ⟨_, rfl⟩

theorem run_of_unreported (unreported : ¬failure.Reported)
    (failed : command.execute network world = (.error failure, after)) :
    command.run network world = (.error failure, after) := by
  rw [run, Run.bind_apply, Run.attempt, failed]
  cases failure with
  | config | timeout | source | fetch | checksum | stage => exact absurd (.inl rfl) unreported
  | system fault => exact absurd (.inr (.inl ⟨fault, rfl⟩)) unreported
  | foreign kind message =>
      cases kind with
      | system => exact absurd (.inr (.inr ⟨message, rfl⟩)) unreported
      | value | runtime | key | other => rfl
  | unknownDialect | address | range | decoding | encoding | excess | datum => rfl

/-- A command that is read from a command line ends with code 0 when it succeeds, and with code 1 when something fails
that has a message. With code 1 no file has changed if the command makes one file of another one: at most some of the
directories that lead to its output are new. What escapes comes through, always and whatever the remote answers, and
leaves the disk alone. Nothing else does but what the host refuses a file or a source with, and not without a reason of
its own; then too no file has changed. -/
theorem run_ends {texts : List Text} {invocation : CommandLine.Invocation}
    (parsed : CommandLine.parse texts = .ok invocation) (network : Remote) (world : World) :
    match invocation.command.run network world with
    | (.ok (code, printed), after) =>
        (∀ failure, ¬Escapes world invocation.command failure) ∧
          (code = 0 ∧ Prod.fst (invocation.command.execute network world) = .ok printed ∨
            code = 1 ∧ printed = [] ∧
              (∃ failure, Prod.fst (invocation.command.execute network world) = .error failure ∧
                failure.Reported) ∧
              ∀ output ∈ invocation.command.output?,
                (∀ place, after.disk.content? place = world.disk.content? place) ∧
                  Disk.Made (Disk.levels (Disk.directoryOf output.text)) world.disk after.disk)
    | (.error failure, after) =>
        Escapes world invocation.command failure ∧ after.disk = world.disk ∨
          (world.host.Refuses failure ∧ ¬failure.Reported) ∧
            ∀ output ∈ invocation.command.output?,
              (∀ place, after.disk.content? place = world.disk.content? place) ∧
                Disk.Made (Disk.levels (Disk.directoryOf output.text)) world.disk after.disk := by
  have known := CommandLine.known_of_parse parsed
  generalize invocation.command = command at known ⊢
  rcases outcome : command.execute network world with ⟨failure | printed, after⟩
  · rcases execute_error known outcome with escapes | ⟨why, spared⟩
    · obtain ⟨_, failed, same⟩ := execute_of_escapes network escapes
      cases outcome.symm.trans failed
      rw [run_of_unreported escapes.unreported outcome]
      exact .inl ⟨escapes, same⟩
    by_cases reported : failure.Reported
    · obtain ⟨record, ran⟩ := run_of_reported reported outcome
      rw [ran]
      refine ⟨fun other escapes => ?_, .inr ⟨rfl, rfl, ⟨failure, rfl, reported⟩, fun output mem => ?_⟩⟩
      · obtain ⟨_, failed, _⟩ := execute_of_escapes network escapes
        cases outcome.symm.trans failed
        exact escapes.unreported reported
      · exact ⟨(spared output mem).content?, spared output mem⟩
    · rw [run_of_unreported reported outcome]
      exact .inr ⟨⟨why.resolve_left reported, reported⟩, fun output mem =>
        ⟨(spared output mem).content?, spared output mem⟩⟩
  · rw [run_of_ok outcome]
    refine ⟨fun failure escapes => ?_, .inl ⟨rfl, rfl⟩⟩
    obtain ⟨_, failed, _⟩ := execute_of_escapes network escapes
    cases outcome.symm.trans failed

/-- A remote that refuses every question. -/
def refusing : Remote where
  bytes url _ := ⟨.error (.fetch "refused" (some url)), [], []⟩
  text url _ := ⟨.error (.fetch "refused" (some url)), [], []⟩

/-- A source, and a configuration file with a byte that is no text. -/
def unreadable : Disk := [(["in.js"], .file (Utf8.asciiBytes "x();\n")), (["patch.json"], .file [0xFF])]

/-- What is wrong with the configuration file comes through the command that is to patch with it. -/
theorem run_ends_undecodable :
    ∃ invocation fault after,
      CommandLine.parse ["patch", "in.js", "out.js", "--config", "patch.json"] = .ok invocation ∧
        Utf8.decodeMarked [0xFF] = .error fault ∧
        invocation.command.run refusing (World.ofDisk unreadable) = (.error (.decoding fault), after) ∧
        after.disk = unreadable := by
  let command := patch (FilePath.ofText "in.js") (FilePath.ofText "out.js") (some (FilePath.ofText "patch.json"))
    Patcher.standard.dialect Patcher.standardThreshold false
  have parsed : CommandLine.parse ["patch", "in.js", "out.js", "--config", "patch.json"] = .ok ⟨false, command⟩ :=
    rfl
  obtain ⟨fault, undecodable⟩ : ∃ fault, Utf8.decodeMarked [0xFF] = .error fault := ⟨_, rfl⟩
  have unread : Storage.Unreadable Host.standard.limits [0xFF] (.decoding fault) := .undecodable undecodable
  have read : (World.ofDisk unreadable).disk.read (FilePath.ofText "patch.json").text = .ok [0xFF] := by decide
  have ends := run_ends parsed refusing (World.ofDisk unreadable)
  rcases outcome : command.run refusing (World.ofDisk unreadable) with ⟨failure | ⟨code, printed⟩, after⟩ <;>
    rw [outcome] at ends
  · obtain ⟨escapes, same⟩ | ⟨⟨refuses, _⟩, _⟩ := ends
    · refine ⟨_, fault, after, parsed, undecodable, ?_, same⟩
      cases escapes with
      | config given read' unread' =>
          cases given
          cases read.symm.trans read'
          cases unread' with
          | undecodable undecodable' =>
              cases undecodable.symm.trans undecodable'
              exact outcome
          | excessive decoded => cases undecodable.symm.trans decoded
      | text given =>
          rw [PatchConfig.resolve_of_unreadable read unread] at given
          cases given
    · exact absurd refuses (Host.free_standard.not_refuses _)
  · exact absurd (.config rfl read unread) (ends.1 _)

end Command

end Rebundle
