import Rebundle.Proofs.Document.Pieces
import Rebundle.Proofs.Rewrite.Alphabet

/-!
# How patches fail

A source that cannot be read or written is refused as a source. But the interpreter line is written before
anything is refused, and what the passes put in is written after it: a text there that cannot be written
fails as it is. Texts of the source that the passes repeat can be written, so of the texts put in only those
of the configuration can fail.
-/

namespace Rebundle

theorem Piece.assembles_iff {source : Bytes} {pieces : List Piece} :
    (∃ bytes, Piece.assemble source pieces = .ok bytes) ↔
      ∀ edit t, Piece.text edit t ∈ pieces → t.Writable := by
  induction pieces with
  | nil => exact iff_of_true ⟨[], rfl⟩ fun _ _ none => absurd none List.not_mem_nil
  | cons piece rest ih =>
      have first : (∃ bytes, piece.bytes source = .ok bytes) ↔
          ∀ edit t, Piece.text edit t = piece → t.Writable := by
        cases piece with
        | copied start stop => exact iff_of_true ⟨_, rfl⟩ fun _ _ same => Piece.noConfusion same
        | text edit t =>
            refine Utf8.encodes_iff.trans ⟨?_, fun all => all edit t rfl⟩
            rintro writable _ _ ⟨⟩
            exact writable
      have cons : (∃ bytes, Piece.assemble source (piece :: rest) = .ok bytes) ↔
          (∃ bytes, piece.bytes source = .ok bytes) ∧ ∃ bytes, Piece.assemble source rest = .ok bytes := by
        rw [Piece.assemble]
        cases piece.bytes source with
        | error fault => simp [Bind.bind, Except.bind]
        | ok front =>
            cases Piece.assemble source rest with
            | error fault => simp [Bind.bind, Except.bind]
            | ok back => simp [Bind.bind, Except.bind, Pure.pure, Except.pure]
      rw [cons, first, ih]
      simp only [List.mem_cons]
      constructor
      · rintro ⟨here, later⟩ edit t (same | mem)
        · exact here edit t same
        · exact later edit t mem
      · intro all
        exact ⟨fun edit t same => all edit t (.inl same), fun edit t mem => all edit t (.inr mem)⟩

/-- A document is rendered just when the texts in its rendering can be written. -/
theorem Document.renders_iff {doc : Document} :
    (∃ bytes, doc.render = .ok bytes) ↔ ∀ edit t, Piece.text edit t ∈ doc.pane.pieces → t.Writable := by
  rw [Document.render_eq_assemble]
  exact Piece.assembles_iff

theorem Document.text_of_piece {doc : Document} {edit : Edit} {t : Text}
    (mem : Piece.text edit t ∈ doc.pane.pieces) : edit ∈ doc.edits ∧ .text t ∈ edit.parts := by
  obtain ⟨pane, opens, copied | ⟨other, among, s, part, same⟩⟩ := Pane.mem_pieces mem
  · have cut : ∀ {stop cursor : Int} {edits : List Edit},
        Piece.text edit t ∉ Source.cut (fun _ => []) stop cursor edits := by
      intro stop cursor edits mem
      induction edits generalizing cursor with
      | nil => cases List.mem_singleton.mp mem
      | cons other rest ih => exact (List.mem_cons.mp mem).elim (fun same => nomatch same) ih
    exact absurd copied cut
  · cases same
    exact ⟨opens.edits_sublist.mem (pane.edited_sublist.mem among), part⟩

namespace Bootstrap

/-- Nothing of a source but what follows its interpreter line is missing in the line. -/
theorem mem_interpreterLine {source : Text} {c : CodePoint}
    (mem : c ∈ source.take (interpreterLine source).length) : c ∈ interpreterLine source := by
  unfold interpreterLine at mem ⊢
  split
  · rename_i marked
    rw [if_pos marked, List.length_append] at mem
    have cut := List.takeWhile_append_dropWhile (p := (· != CodePoint.ofChar '\n')) (l := source)
    have stops := List.head?_dropWhile_not (· != CodePoint.ofChar '\n') source
    generalize source.takeWhile (· != CodePoint.ofChar '\n') = line at mem cut
    generalize source.dropWhile (· != CodePoint.ofChar '\n') = body at cut stops
    rw [← cut, List.take_length_add_append] at mem
    cases body with
    | nil => exact List.mem_append_left _ (by simpa using mem)
    | cons first body =>
        have feed : first = CodePoint.ofChar '\n' := by simpa using stops
        rw [feed] at mem
        exact mem
  · rename_i plain
    rw [if_neg plain] at mem
    exact nomatch mem

/-- A source can be written just when its interpreter line and what follows it can. -/
theorem writable_iff {source : Text} :
    source.Writable ↔
      (interpreterLine source).Writable ∧ Text.Writable (source.drop (interpreterLine source).length) := by
  refine ⟨fun writable => ⟨within_interpreterLine Text.alphabet_writable writable,
    Text.Within.sublist writable (List.drop_sublist _ _)⟩, fun ⟨first, later⟩ c mem => ?_⟩
  rw [← List.take_append_drop (interpreterLine source).length source] at mem
  exact (List.mem_append.mp mem).elim (fun front => first c (mem_interpreterLine front)) (later c)

end Bootstrap

/-- The texts of a configuration that are put into the code can be written. -/
structure PatchConfig.Writable (config : PatchConfig) : Prop where
  names : ∀ entry ∈ config.renameIdentifiers, entry.2.Writable
  bodies : ∀ entry ∈ config.replaceFunctionBody, entry.2.Writable

namespace Patcher

variable {patcher : Patcher} {config : PatchConfig} {source : Text} {path : Option Text} {prepared : Prepared}
  {failure : Failure}

/-- Encoding fails on the interpreter line as it is, and refuses the source for what follows. -/
theorem encode_cases (patcher : Patcher) (source : Text) (path : Option Text) :
    (¬(Bootstrap.interpreterLine source).Writable ∧
      ∃ fault, patcher.encode source path = .error (.encoding fault)) ∨
    ((Bootstrap.interpreterLine source).Writable ∧ ¬source.Writable ∧
      ∃ fault, patcher.encode source path = .error (.source (.unencodable fault) path)) ∨
    (source.Writable ∧ ∃ encoded, patcher.encode source path = .ok encoded) := by
  have snippet := Text.alphabet_writable.admits patcher.bootstrap.common_snippet
  have front : Text.Writable (Bootstrap.interpreterLine source ++ patcher.bootstrap.snippet) ↔
      (Bootstrap.interpreterLine source).Writable :=
    ⟨fun writable => Text.Within.sublist writable (List.sublist_append_left _ _),
      fun line => Text.Within.append line snippet⟩
  have whole : Text.Writable (Bootstrap.interpreterLine source ++ patcher.bootstrap.snippet ++
      source.drop (Bootstrap.interpreterLine source).length) ↔ source.Writable := by
    refine Iff.trans List.forall_mem_append (Iff.trans ?_ Bootstrap.writable_iff.symm)
    exact and_congr_left' front
  have line : source.Writable → (Bootstrap.interpreterLine source).Writable := fun writable =>
    (Bootstrap.writable_iff.mp writable).1
  simp only [encode, Bootstrap.prepend, Bootstrap.cutInterpreter_eq]
  cases first : Utf8.encodeEscaped (Bootstrap.interpreterLine source ++ patcher.bootstrap.snippet) with
  | error fault =>
      refine .inl ⟨fun writable => ?_, fault, rfl⟩
      obtain ⟨bytes, made⟩ := Utf8.encodes_iff.mpr (front.mpr writable)
      cases first.symm.trans made
  | ok bytes =>
      have first := front.mp (Utf8.encodes_iff.mp ⟨bytes, first⟩)
      simp only [Bind.bind, Except.bind, mapError_ok, Pure.pure, Except.pure]
      cases second : Utf8.encodeEscaped (Bootstrap.interpreterLine source ++ patcher.bootstrap.snippet ++
          source.drop (Bootstrap.interpreterLine source).length) with
      | error fault =>
          refine .inr (.inl ⟨first, fun writable => ?_, fault, rfl⟩)
          obtain ⟨encoded, made⟩ := Utf8.encodes_iff.mpr (whole.mpr writable)
          cases second.symm.trans made
      | ok encoded => exact .inr (.inr ⟨whole.mp (Utf8.encodes_iff.mp ⟨encoded, second⟩), _, rfl⟩)

/-- A source of a known dialect is prepared unless it cannot be encoded or its parser gives it up. -/
theorem prepare_cases (dialect : Dialect.ofName? patcher.dialect ≠ none) {encoded : Bytes × Nat}
    (made : patcher.encode source path = .ok encoded) :
    (∃ prepared, (patcher.prepare source path).value = .ok prepared) ∨
      ∃ fault, (patcher.prepare source path).value = .error (.source (.unusable fault) path) := by
  rw [prepare, made]
  cases known : Dialect.ofName? patcher.dialect with
  | none => exact absurd known dialect
  | some dialect =>
      dsimp only
      cases patcher.parser dialect encoded.1 with
      | error why => exact .inr ⟨.unread dialect why, rfl⟩
      | ok root =>
          simp only [Bind.bind]
          cases (root.judge encoded.1.length encoded.2 patcher.threshold).value with
          | error fault => exact .inr ⟨fault, rfl⟩
          | ok root => exact .inl ⟨_, rfl⟩

/-- A patch in a known dialect fails before its source is encoded, or refuses the source, or it is made of the
program in the source. -/
theorem patch_cases (dialect : Dialect.ofName? patcher.dialect ≠ none) (config : PatchConfig) (source : Text)
    (path : Option Text) :
    (¬(Bootstrap.interpreterLine source).Writable ∧
      ∃ fault, (patcher.patch config source path).value = .error (.encoding fault)) ∨
    (Bootstrap.interpreterLine source).Writable ∧
      ((∃ fault, (patcher.patch config source path).value = .error (.source fault path)) ∧
          (∀ prepared, (patcher.prepare source path).value ≠ .ok prepared) ∨
        ∃ prepared, (patcher.prepare source path).value = .ok prepared) := by
  have failing {failure : Failure} (refused : (patcher.prepare source path).value = .error failure) :
      (patcher.patch config source path).value = .error failure ∧
        ∀ prepared, (patcher.prepare source path).value ≠ .ok prepared := by
    refine ⟨?_, fun prepared read => nomatch refused.symm.trans read⟩
    simp only [patch, Bind.bind, refused]
    rfl
  have unread {failure : Failure} (made : patcher.encode source path = .error failure) :
      (patcher.prepare source path).value = .error failure := by
    rw [prepare, made]
    rfl
  rcases encode_cases patcher source path with
    ⟨line, fault, made⟩ | ⟨line, _, fault, made⟩ | ⟨writable, _, made⟩
  · exact .inl ⟨line, fault, (failing (unread made)).1⟩
  · exact .inr ⟨line, .inl ⟨⟨_, (failing (unread made)).1⟩, (failing (unread made)).2⟩⟩
  · refine .inr ⟨(Bootstrap.writable_iff.mp writable).1, ?_⟩
    rcases prepare_cases dialect made with read | ⟨fault, refused⟩
    · exact .inr read
    · exact .inl ⟨⟨_, (failing refused).1⟩, (failing refused).2⟩

/-- Only a text that cannot be written keeps a rewritten program from being a patch. -/
theorem finish_cases (prepared : Prepared) (rewrite : Rewrite) :
    (∀ edit t, Piece.text edit t ∈ rewrite.doc.pane.pieces → t.Writable) ∧
      (∃ patch, (finish prepared rewrite).value = .ok patch) ∨
    (∃ edit t, Piece.text edit t ∈ rewrite.doc.pane.pieces ∧ ¬t.Writable) ∧
      ∃ fault, (finish prepared rewrite).value = .error (.encoding fault) := by
  have exactly := @Document.renders_iff rewrite.doc
  rw [finish]
  cases rendered : rewrite.doc.render with
  | ok bytes => exact .inl ⟨exactly.mp ⟨bytes, rendered⟩, _, rfl⟩
  | error fault =>
      refine .inr ⟨?_, fault, rfl⟩
      by_contra none
      obtain ⟨bytes, made⟩ := exactly.mpr fun edit t mem => by_contra fun unwritable =>
        none ⟨edit, t, mem, unwritable⟩
      cases rendered.symm.trans made

section

variable (known : ∀ pass ∈ patcher.passes, pass ∈ RewritePass.standard)

include known

/-- What the passes put in can be written when the texts of the configuration can. -/
theorem writable_pieces (writable : config.Writable) (prepared : Prepared) (edit : Edit) (t : Text)
    (mem : Piece.text edit t ∈ (patcher.rewrite config prepared).value.doc.pane.pieces) : t.Writable := by
  obtain ⟨among, part⟩ := Document.text_of_piece mem
  refine (within_rewrite known Text.alphabet_writable ?_ writable.names ?_).texts edit among t part
  · exact fun node => Utf8.writable_decodeEscaped (node.range.slice prepared.source)
  · exact fun entry known => Json.literal_writable.mpr (writable.bodies entry known)

end

section

variable (dialect : Dialect.ofName? patcher.dialect ≠ none) (config : PatchConfig) (path : Option Text)

include dialect

theorem patch_error (source : Text) (failure : Failure)
    (made : (patcher.patch config source path).value = .error failure) :
    (∃ fault, failure = .source fault path) ∨ ∃ fault, failure = .encoding fault := by
  rcases patch_cases dialect config source path with
    ⟨_, _, failed⟩ | ⟨_, ⟨⟨_, refused⟩, _⟩ | ⟨prepared, read⟩⟩
  · exact .inr ⟨_, Except.error.inj (made.symm.trans failed)⟩
  · exact .inl ⟨_, Except.error.inj (made.symm.trans refused)⟩
  · rw [patch_of_prepare read] at made
    rcases finish_cases prepared (patcher.rewrite config prepared).value with ⟨_, _, done⟩ | ⟨_, _, failed⟩
    · exact nomatch made.symm.trans done
    · exact .inr ⟨_, Except.error.inj (made.symm.trans failed)⟩

/-- A patch fails on a text just when the interpreter line or a text in the rendering cannot be written. -/
theorem patch_encoding_iff (source : Text) :
    (∃ fault, (patcher.patch config source path).value = .error (.encoding fault)) ↔
      ¬(Bootstrap.interpreterLine source).Writable ∨
        ∃ prepared, (patcher.prepare source path).value = .ok prepared ∧
          ∃ edit t, .text edit t ∈ (patcher.rewrite config prepared).value.doc.pane.pieces ∧ ¬t.Writable := by
  rcases patch_cases dialect config source path with
    ⟨line, failed⟩ | ⟨line, ⟨⟨_, refused⟩, unread⟩ | ⟨prepared, read⟩⟩
  · exact iff_of_true failed (.inl line)
  · refine iff_of_false (fun ⟨_, failed⟩ => nomatch refused.symm.trans failed) ?_
    rintro (unwritable | ⟨prepared, read, _⟩)
    · exact unwritable line
    · exact unread prepared read
  · rw [patch_of_prepare read]
    rcases finish_cases prepared (patcher.rewrite config prepared).value with ⟨all, _, done⟩ | ⟨some, failed⟩
    · refine iff_of_false (fun ⟨_, failed⟩ => nomatch done.symm.trans failed) ?_
      rintro (unwritable | ⟨other, same, edit, t, mem, unwritable⟩)
      · exact unwritable line
      · cases read.symm.trans same
        exact unwritable (all edit t mem)
    · exact iff_of_true failed (.inr ⟨prepared, read, some⟩)

end

section

variable (known : ∀ pass ∈ patcher.passes, pass ∈ RewritePass.standard)
  (dialect : Dialect.ofName? patcher.dialect ≠ none) (config : PatchConfig) (path : Option Text)

include known dialect

/-- When a source can be written, only a text of the configuration makes its patch fail as it is. -/
theorem unwritable_of_patch {source : Text} (writable : source.Writable) {fault : Utf8.EncodeFault}
    (made : (patcher.patch config source path).value = .error (.encoding fault)) : ¬config.Writable := by
  intro texts
  rcases (patch_encoding_iff dialect config path source).mp ⟨fault, made⟩ with
    line | ⟨prepared, _, edit, t, mem, unwritable⟩
  · exact line (Bootstrap.writable_iff.mp writable).1
  · exact unwritable (writable_pieces known texts prepared edit t mem)

theorem patchBytes_error (bytes : Bytes) (failure : Failure)
    (made : (patcher.patchBytes config bytes path).value = .error failure) :
    (∃ fault, failure = .source fault path) ∨ (∃ fault, failure = .encoding fault) ∧ ¬config.Writable := by
  rw [patchBytes] at made
  cases decoded : Utf8.decode bytes with
  | error fault =>
      rw [decoded] at made
      exact .inl ⟨_, (Except.error.inj made).symm⟩
  | ok source =>
      rw [decoded] at made
      have writable : source.Writable := (Utf8.plain_of_decode decoded).1.writable
      refine (patch_error dialect config path source failure made).imp_right ?_
      rintro ⟨fault, rfl⟩
      exact ⟨⟨fault, rfl⟩, unwritable_of_patch known dialect config path writable made⟩

/-- A patch in a known dialect fails in two ways. Either its source is refused, or a text fails that cannot be
written: the interpreter line of the source, or a text in the rendering, which is one of the configuration then.
A source given in bytes has no such line. All edits lie in the source when the nodes of the program do. -/
theorem patch_failure (lays : patcher.parser.Lays) :
    (∀ source failure, (patcher.patch config source path).value = .error failure →
      (∃ fault, failure = .source fault path) ∨ ∃ fault, failure = .encoding fault) ∧
    (∀ source, (∃ fault, (patcher.patch config source path).value = .error (.encoding fault)) ↔
      ¬(Bootstrap.interpreterLine source).Writable ∨
        ∃ prepared, (patcher.prepare source path).value = .ok prepared ∧
          ∃ edit t, .text edit t ∈ (patcher.rewrite config prepared).value.doc.pane.pieces ∧ ¬t.Writable) ∧
    (config.Writable → ∀ prepared edit t,
      .text edit t ∈ (patcher.rewrite config prepared).value.doc.pane.pieces → t.Writable) ∧
    (∀ bytes failure, (patcher.patchBytes config bytes path).value = .error failure →
      (∃ fault, failure = .source fault path) ∨ (∃ fault, failure = .encoding fault) ∧ ¬config.Writable) ∧
    ∀ source prepared, (patcher.prepare source path).value = .ok prepared →
      (∀ t ∈ prepared.root.nodes, t.stop ≤ prepared.source.length) →
        ∀ edit ∈ (patcher.rewrite config prepared).value.doc.edits,
          edit.start ≤ edit.stop ∧ edit.stop ≤ prepared.source.length :=
  ⟨patch_error dialect config path, patch_encoding_iff dialect config path, writable_pieces known,
    patchBytes_error known dialect config path,
    fun _ _ read inside _ mem => rewrite_inside lays known config read inside mem⟩

end

/-- The standard patcher fails on an interpreter line with a lone surrogate. -/
theorem patch_failure_surrogate :
    (∀ pass ∈ standard.passes, pass ∈ RewritePass.standard) ∧ Dialect.ofName? standard.dialect ≠ none ∧
      ∃ fault, (standard.patch PatchConfig.empty ("#!" ++ [CodePoint.ofNat 0xD800]) none).value =
        .error (.encoding fault) := by
  have known : ∀ pass ∈ standard.passes, pass ∈ RewritePass.standard := fun _ mem => mem
  have dialect : Dialect.ofName? standard.dialect ≠ none := by decide
  obtain ⟨_, exactly, _⟩ := patch_failure known dialect PatchConfig.empty none Parser.lays_standard
  exact ⟨known, dialect, (exactly _).mpr (.inl (by decide))⟩

end Patcher

end Rebundle
