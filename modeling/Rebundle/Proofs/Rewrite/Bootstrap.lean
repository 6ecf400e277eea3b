import Rebundle.Proofs.Document.Recording
import Rebundle.Proofs.Rewrite.Ground
import Rebundle.Proofs.Rewrite.Patched
import Rebundle.Proofs.Scope.Places
import Rebundle.Proofs.Text.Encoding

/-!
# The bootstrap in a patched program

A patched program begins with its interpreter line, if it has one, and the bootstrap, as long as the
reader keeps them apart from what follows: then no edit touches them and no scope knows a place in
them.
-/

namespace Rebundle

open Source Tree

namespace Source

/-- Where all edits begin behind an offset, the source in front of it is written as it is. -/
theorem splice_front {source : Bytes} {f : Edit → Except Utf8.EncodeFault Bytes} {offset : Nat}
    {edits : List Edit} {bytes : Bytes} (inside : offset ≤ source.length)
    (behind : ∀ edit ∈ edits, offset ≤ edit.start)
    (made : splice source f source.length 0 edits = .ok bytes) :
    ∃ rest, bytes = source.take offset ++ rest := by
  have front {stop : Nat} (late : offset ≤ stop) :
      source.take stop = source.take offset ++ (source.take stop).drop offset := by
    have cut := (List.take_append_drop offset (source.take stop)).symm
    rwa [List.take_take, Nat.min_eq_left late] at cut
  have sliced (stop : Nat) : slice source 0 stop = source.take stop := by
    have whole := List.length_take (i := min stop source.length) (l := source)
    simp only [slice, resolve]
    rw [if_pos (by omega), if_pos (by omega)]
    simp only [Int.toNat_natCast, Int.toNat_zero, Nat.zero_min, List.drop_zero, Nat.sub_zero]
    rcases Nat.le_total stop source.length with short | long
    · rw [Nat.min_eq_left short]
    · rw [Nat.min_eq_right long, List.take_of_length_le (Nat.le_refl _), List.take_of_length_le long]
  cases edits with
  | nil =>
      cases made
      rw [sliced]
      exact ⟨_, front inside⟩
  | cons edit rest =>
      rw [splice] at made
      cases text : f edit with
      | error fault =>
          rw [text] at made
          cases made
      | ok text' =>
          rw [text] at made
          cases more : splice source f source.length edit.stop rest with
          | error fault =>
              rw [more] at made
              cases made
          | ok behind' =>
              rw [more] at made
              cases made
              rw [sliced, front (behind edit List.mem_cons_self), List.append_assoc,
                List.append_assoc]
              exact ⟨_, rfl⟩

end Source

namespace Document

variable {doc : Document}

theorem render_front {offset : Nat} (inside : offset ≤ doc.source.length)
    (behind : ∀ edit ∈ doc.edits, offset ≤ edit.start) {bytes : Bytes}
    (made : doc.render = .ok bytes) : ∃ rest, bytes = doc.source.take offset ++ rest := by
  rw [render, window_eq] at made
  refine splice_front inside (fun edit mem => behind edit ?_) made
  exact (fromOffset_sublist _ _).mem ((chosen_sublist _ _ _).mem mem)

theorem render_untouched (untouched : doc.edits = []) : doc.render = .ok doc.source := by
  rw [render, untouched, window_eq]
  simp [fromOffset, chosen, splice, slice, resolve]

end Document

namespace Bootstrap

/-- The first line of a source that begins with `#!`, closed by a line feed whether the source has one
there or not. Other sources have no such line. -/
def interpreterLine (source : Text) : Text :=
  if ("#!" : Text).isPrefixOf source then source.takeWhile (· != ('\n' : CodePoint)) ++ "\n" else []

theorem cutInterpreter_eq (source : Text) :
    cutInterpreter source = (interpreterLine source, source.drop (interpreterLine source).length) := by
  have feed : (Text.ofString "\n") = [CodePoint.ofChar '\n'] := rfl
  rw [cutInterpreter, interpreterLine, Text.after?]
  by_cases marked : ("#!" : Text).isPrefixOf source = true
  · rw [if_pos marked, if_pos marked, feed]
    have cut := List.takeWhile_append_dropWhile (p := (· != CodePoint.ofChar '\n')) (l := source)
    cases behind : source.dropWhile (· != CodePoint.ofChar '\n') with
    | nil =>
        rw [behind, List.append_nil] at cut
        dsimp only
        rw [cut, List.drop_of_length_le (by simp)]
    | cons first body =>
        have same : first = CodePoint.ofChar '\n' := by
          have stops := List.head?_dropWhile_not (· != CodePoint.ofChar '\n') source
          rw [behind] at stops
          simpa using stops
        rw [behind, same] at cut
        simp only [same]
        generalize source.takeWhile (· != CodePoint.ofChar '\n') = line at cut
        rw [← cut]
        simp
  · rw [if_neg marked, if_neg marked]
    rfl

theorem snippet_feed (settings : Bootstrap) : ∃ front, settings.snippet = front ++ "\n" := by
  have closing : (Text.ofString "\x7d)();\n") = Text.ofString "\x7d)();" ++ Text.ofString "\n" := rfl
  rw [snippet, closing, ← List.append_assoc]
  exact ⟨_, rfl⟩

end Bootstrap

namespace Tree

theorem judge_ok {length start : Nat} {threshold : Number} {root t : Tree}
    (made : (root.judge length start threshold).value = .ok t) : t = root ∧ root.kind ≠ .error := by
  simp only [judge, Bind.bind, Pure.pure, beq_iff_eq] at made
  split at made
  · cases made
  · rename_i usable
    split at made
    · exact ⟨(Except.ok.inj made).symm, usable⟩
    · split at made
      · cases made
      · exact ⟨(Except.ok.inj made).symm, usable⟩

theorem kind_ofSource_ne_error (dialect : Dialect) (source : Bytes) : (ofSource dialect source).kind ≠ .error :=
  Kind.noConfusion

/-- A tree without errors is accepted. -/
theorem judge_clean {root : Tree} (length start : Nat) (threshold : Number) (kind : root.kind ≠ .error)
    (clean : root.hasError = false) : (root.judge length start threshold).value = .ok root := by
  simp [judge, kind, clean, Pure.pure]

end Tree

namespace Patcher

variable {patcher : Patcher} {source : Text} {path : Option Text} {prepared : Prepared}

/-- A program that is prepared is the tree of its encoded source, as the parser gives it. -/
theorem prepare_ok (read : (patcher.prepare source path).value = .ok prepared) :
    patcher.encode source path = .ok (prepared.source, prepared.start) ∧ prepared.root.kind ≠ .error ∧
      ∃ dialect, patcher.parser dialect prepared.source = .ok prepared.root := by
  rw [prepare] at read
  cases encoded : patcher.encode source path with
  | error failure =>
      rw [encoded] at read
      cases read
  | ok both =>
      rw [encoded] at read
      dsimp only at read
      cases known : Dialect.ofName? patcher.dialect with
      | none =>
          rw [known] at read
          cases read
      | some dialect =>
          rw [known] at read
          dsimp only at read
          cases parsed : patcher.parser dialect both.1 with
          | error why =>
              rw [parsed] at read
              cases read
          | ok root =>
              rw [parsed] at read
              simp only [Bind.bind] at read
              cases judged : (root.judge both.1.length both.2 patcher.threshold).value with
              | error fault =>
                  rw [judged] at read
                  cases read
              | ok root =>
                  rw [judged] at read
                  cases read
                  obtain ⟨rfl, usable⟩ := Tree.judge_ok judged
                  exact ⟨rfl, usable, dialect, parsed⟩

/-- A prepared program is laid out when the parser lays trees out. -/
theorem prepare_program (lays : patcher.parser.Lays) (read : (patcher.prepare source path).value = .ok prepared) :
    prepared.root.kind = .program ∧ prepared.root.LaidBelow := by
  obtain ⟨_, usable, _, parsed⟩ := prepare_ok read
  exact ⟨lays.program parsed usable, lays.laid parsed usable⟩

/-- A source that can be encoded and is read without errors is prepared. -/
theorem prepare_clean {bytes : Bytes} {start : Nat} {dialect : Dialect} {root : Tree}
    (encoded : patcher.encode source path = .ok (bytes, start))
    (known : Dialect.ofName? patcher.dialect = some dialect) (parsed : patcher.parser dialect bytes = .ok root)
    (kind : root.kind ≠ .error) (clean : root.hasError = false) :
    (patcher.prepare source path).value = .ok ⟨bytes, start, root⟩ := by
  simp only [prepare, encoded, known, parsed, Bind.bind, Pure.pure]
  rw [Tree.judge_clean _ _ _ kind clean]

theorem mapError_ok {ε ε' α : Type} (f : ε → ε') (a : α) :
    (Except.ok a : Except ε α).mapError f = .ok a := rfl

/-- The encoded source: the interpreter line, the snippet, and the rest of the source. -/
theorem encode_ok {bytes : Bytes} {start : Nat}
    (made : patcher.encode source path = .ok (bytes, start)) :
    ∃ head snippet body,
      Utf8.encodeEscaped (Bootstrap.interpreterLine source) = .ok head ∧
      Utf8.encodeEscaped patcher.bootstrap.snippet = .ok snippet ∧
      Utf8.encodeEscaped (source.drop (Bootstrap.interpreterLine source).length) = .ok body ∧
      bytes = head ++ snippet ++ body ∧ start = (head ++ snippet).length := by
  simp only [encode, Bootstrap.prepend, Bootstrap.cutInterpreter_eq] at made
  cases front : Utf8.encodeEscaped (Bootstrap.interpreterLine source ++ patcher.bootstrap.snippet) with
  | error fault =>
      rw [front] at made
      cases made
  | ok front' =>
      rw [front] at made
      simp only [Bind.bind, Except.bind, Pure.pure, Except.pure, mapError_ok] at made
      cases whole : Utf8.encodeEscaped (Bootstrap.interpreterLine source ++
          patcher.bootstrap.snippet ++
            source.drop (Bootstrap.interpreterLine source).length) with
      | error fault =>
          rw [whole] at made
          cases made
      | ok whole' =>
          rw [whole] at made
          cases made
          obtain ⟨both, body, first, third, rfl⟩ := Utf8.encodeEscaped_append whole
          obtain ⟨head, snippet, one, two, rfl⟩ := Utf8.encodeEscaped_append first
          rw [first] at front
          cases front
          exact ⟨head, snippet, body, one, two, third, rfl, rfl⟩

/-- A source in plain ASCII is encoded behind its bootstrap. -/
theorem encode_ascii
    (front : Utf8.Ascii (Bootstrap.interpreterLine source ++ patcher.bootstrap.snippet))
    (body : Utf8.Ascii (source.drop (Bootstrap.interpreterLine source).length)) :
    patcher.encode source path =
      .ok (Utf8.asciiBytes (Bootstrap.interpreterLine source ++ patcher.bootstrap.snippet ++
          source.drop (Bootstrap.interpreterLine source).length),
        (Bootstrap.interpreterLine source ++ patcher.bootstrap.snippet).length) := by
  have whole : Utf8.Ascii (Bootstrap.interpreterLine source ++ patcher.bootstrap.snippet ++
      source.drop (Bootstrap.interpreterLine source).length) := by
    intro c mem
    exact (List.mem_append.mp mem).elim (front c) (body c)
  simp only [encode, Bootstrap.prepend, Bootstrap.cutInterpreter_eq, Bind.bind, Except.bind,
    mapError_ok, Pure.pure, Except.pure, Utf8.encodeEscaped_ascii front,
    Utf8.encodeEscaped_ascii whole, Utf8.asciiBytes, List.length_map]

/-- Behind the snippet there begins a line. -/
theorem snippet_bytes_feed {settings : Bootstrap} {snippet : Bytes}
    (made : Utf8.encodeEscaped settings.snippet = .ok snippet) :
    ∃ front, snippet = front ++ [0x0A] := by
  obtain ⟨front, same⟩ := settings.snippet_feed
  rw [same] at made
  obtain ⟨bytes, last, _, feed, rfl⟩ := Utf8.encodeEscaped_append made
  have one : Utf8.encodeEscaped (Text.ofString "\n") = .ok [0x0A] := rfl
  rw [one] at feed
  cases feed
  exact ⟨bytes, rfl⟩

/-- Where the reader keeps the bootstrap apart from the rest, there is a seam behind it. -/
theorem seam_of_prepare (lays : patcher.parser.Lays) (read : (patcher.prepare source path).value = .ok prepared)
    (apart : ∀ t ∈ prepared.root.nodes, t.kind ≠ .program → t.kind ≠ .error →
      t.stop ≤ prepared.start ∨ prepared.start ≤ t.start) :
    Seam prepared.source prepared.root prepared.start := by
  obtain ⟨program, laid⟩ := prepare_program lays read
  obtain ⟨head, snippet, body, _, second, _, bytes, start⟩ := encode_ok (prepare_ok read).1
  obtain ⟨front, closed⟩ := snippet_bytes_feed second
  constructor
  case program => exact program
  case laid => exact laid
  case inside =>
    rw [bytes, start]
    simp
  case feed =>
    right
    rw [bytes, start, closed]
    simp
  case apart => exact apart

/-- The edits of a rewriting lie where the passes may record them. -/
theorem grounded_rewrite (known : ∀ pass ∈ patcher.passes, pass ∈ RewritePass.standard) (config : PatchConfig)
    {allowed : Range → Prop} (ground : Ground prepared.source prepared.root prepared.start allowed) :
    (patcher.rewrite config prepared).value.Grounded prepared.source prepared.start allowed :=
  RewritePass.grounded_run ground (fun pass mem => known pass (List.mem_filter.mp mem).1)
    ⟨rfl, rfl, List.Pairwise.nil, fun _ none => nomatch none⟩

/-- Edits stand in the order of their beginnings, and none ends before it begins. -/
theorem rewrite_ordered (lays : patcher.parser.Lays)
    (known : ∀ pass ∈ patcher.passes, pass ∈ RewritePass.standard)
    (config : PatchConfig) (read : (patcher.prepare source path).value = .ok prepared) :
    ((patcher.rewrite config prepared).value.doc.edits.Pairwise fun a b => a.start ≤ b.start) ∧
      ∀ edit ∈ (patcher.rewrite config prepared).value.doc.edits, edit.start ≤ edit.stop := by
  obtain ⟨program, laid⟩ := prepare_program lays read
  have grounded := grounded_rewrite known config (.of_laid program laid prepared.start)
  exact ⟨grounded.sorted, grounded.edits⟩

/-- Edits of a program whose nodes lie in its source lie there, too. -/
theorem rewrite_inside (lays : patcher.parser.Lays) (known : ∀ pass ∈ patcher.passes, pass ∈ RewritePass.standard)
    (config : PatchConfig) (read : (patcher.prepare source path).value = .ok prepared)
    (inside : ∀ t ∈ prepared.root.nodes, t.stop ≤ prepared.source.length) {edit : Edit}
    (mem : edit ∈ (patcher.rewrite config prepared).value.doc.edits) :
    edit.start ≤ edit.stop ∧ edit.stop ≤ prepared.source.length := by
  obtain ⟨program, laid⟩ := prepare_program lays read
  exact (grounded_rewrite known config (.of_fits program laid inside prepared.start)).edits edit mem

/-- A patched program begins with its interpreter line and the bootstrap, byte for byte. No edit and no
place of a scope lies in them, and without edits the rest is that of the source. -/
theorem patch_bootstrap (lays : patcher.parser.Lays)
    (known : ∀ pass ∈ patcher.passes, pass ∈ RewritePass.standard)
    (config : PatchConfig) (read : (patcher.prepare source path).value = .ok prepared)
    (apart : ∀ t ∈ prepared.root.nodes, t.kind ≠ .program → t.kind ≠ .error →
      t.stop ≤ prepared.start ∨ prepared.start ≤ t.start) :
    ∃ head snippet body,
      Utf8.encodeEscaped (Bootstrap.interpreterLine source) = .ok head ∧
      Utf8.encodeEscaped patcher.bootstrap.snippet = .ok snippet ∧
      Utf8.encodeEscaped (source.drop (Bootstrap.interpreterLine source).length) = .ok body ∧
      prepared.source = head ++ snippet ++ body ∧ prepared.start = (head ++ snippet).length ∧
      (∀ edit ∈ (patcher.rewrite config prepared).value.doc.edits, prepared.start ≤ edit.start) ∧
      (ScopeTable.ofTree prepared.source prepared.start prepared.root).value.Places
        (fun place => prepared.start ≤ place.start) ∧
      (∀ patch, (patcher.patch config source path).value = .ok patch →
        ∃ rest, Utf8.encodeEscaped patch.code = .ok (head ++ snippet ++ rest)) ∧
      ((patcher.rewrite config prepared).value.doc.edits = [] →
        ∃ patch, (patcher.patch config source path).value = .ok patch ∧
          Utf8.encodeEscaped patch.code = .ok (head ++ snippet ++ body)) := by
  have seam := seam_of_prepare lays read apart
  obtain ⟨head, snippet, body, first, second, third, bytes, start⟩ := encode_ok (prepare_ok read).1
  have behind := grounded_rewrite known config (.of_seam seam)
  have code := finish_code prepared (patcher.rewrite config prepared).value
  rw [← patch_of_prepare read] at code
  refine ⟨head, snippet, body, first, second, third, bytes, start, behind.edits, ?_, ?_, ?_⟩
  · apply ScopeTable.places_ofTree
    intro t mem late program error node inner
    exact seam.below mem late program error inner
  · intro patch made
    rw [made] at code
    cases rendered : (patcher.rewrite config prepared).value.doc.render with
    | error fault =>
        rw [rendered] at code
        cases code
    | ok text =>
        rw [rendered] at code
        have same : patch.code = Utf8.decodeEscaped text := Except.ok.inj code
        obtain ⟨rest, rfl⟩ := Document.render_front (by rw [behind.unchanged]; exact seam.inside)
          behind.edits rendered
        refine ⟨rest, ?_⟩
        rw [same, Utf8.encodeEscaped_decodeEscaped, behind.unchanged, bytes, start, List.take_left]
  · intro none
    rw [Document.render_untouched none, behind.unchanged] at code
    cases made : (patcher.patch config source path).value with
    | error failure =>
        rw [made] at code
        cases code
    | ok patch =>
        rw [made] at code
        have same : patch.code = Utf8.decodeEscaped prepared.source := Except.ok.inj code
        exact ⟨patch, rfl, by rw [same, Utf8.encodeEscaped_decodeEscaped, bytes]⟩

/-- The standard patcher with a bootstrap that asks for no file and sets a variable without a name. -/
def terse : Patcher := { standard with bootstrap := ⟨[], [], []⟩ }

/-- An interpreter line, and a call behind it. -/
def marked : Text := "#!n\nf()"

/-- The program `marked` behind the bootstrap of `terse`. -/
def bootstrapped : Prepared :=
  let front := Bootstrap.interpreterLine marked ++ terse.bootstrap.snippet
  let bytes := Utf8.asciiBytes (front ++ marked.drop (Bootstrap.interpreterLine marked).length)
  ⟨bytes, front.length, Tree.ofSource .javascript bytes⟩

/-- The call is removed from the program, and the interpreter line and the bootstrap stay. -/
theorem patch_bootstrap_marked :
    let config := { PatchConfig.empty with removeFunctionCalls := ["f"] }
    (terse.prepare marked none).value = .ok bootstrapped ∧
      (∀ t ∈ bootstrapped.root.nodes, t.kind ≠ .program → t.kind ≠ .error →
        t.stop ≤ bootstrapped.start ∨ bootstrapped.start ≤ t.start) ∧
      ∃ head snippet, head ++ snippet = bootstrapped.source.take bootstrapped.start ∧
        ∀ patch, (terse.patch config marked none).value = .ok patch →
          ∃ rest, Utf8.encodeEscaped patch.code = .ok (head ++ snippet ++ rest) := by
  have clean : bootstrapped.root.hasError = false ∧
      ∀ t ∈ bootstrapped.root.nodes, t.kind ≠ .program → t.kind ≠ .error →
        t.stop ≤ bootstrapped.start ∨ bootstrapped.start ≤ t.start := by
    decide +kernel
  have front : Utf8.Ascii (Bootstrap.interpreterLine marked ++ terse.bootstrap.snippet) := by
    decide +kernel
  have body : Utf8.Ascii (marked.drop (Bootstrap.interpreterLine marked).length) := by
    decide +kernel
  have parsed : terse.parser .javascript bootstrapped.source = .ok bootstrapped.root := by
    unfold bootstrapped
    rfl
  have read : (terse.prepare marked none).value = .ok bootstrapped :=
    prepare_clean (encode_ascii front body) rfl parsed (Tree.kind_ofSource_ne_error _ _) clean.1
  obtain ⟨head, snippet, body, _, _, _, bytes, start, _, _, kept, _⟩ :=
    patch_bootstrap Parser.lays_standard (fun _ mem => mem) { PatchConfig.empty with removeFunctionCalls := ["f"] } read
      clean.2
  refine ⟨read, clean.2, head, snippet, ?_, kept⟩
  rw [bytes, start, List.take_left]

end Patcher

end Rebundle
