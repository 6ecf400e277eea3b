import Rebundle.Package
import Rebundle.Proofs.Json.Literal
import Rebundle.Proofs.Storage.Whole
import Rebundle.Proofs.Text.LineEnds

/-!
# States are read back

The file of a state is one object of texts. As long as these have no surrogates its bytes are decoded to
the text that was written, which has no carriage return, and the object in it describes the state.
-/

namespace Rebundle

namespace Utf8

/-- A text without surrogates that opens with an ASCII character is read back behind no mark. -/
theorem decodeMarked_encodeEscaped {c : CodePoint} {t : Text} (small : c.val < 0x80)
    (plain : Text.Plain (c :: t)) {bytes : Bytes} (made : encodeEscaped (c :: t) = .ok bytes) :
    decodeMarked bytes = .ok (c :: t) := by
  have read := decode_encodeEscaped plain made
  obtain ⟨front, back, first, _, rfl⟩ := encodeEscaped_append (s := [c]) made
  have low : encodePoint c = [c.val.toUInt8] := by rw [encodePoint, if_pos small]
  rw [(spells_point (plain c List.mem_cons_self)).encode, low] at first
  cases first
  have differ : c.val.toUInt8 ≠ 0xEF := by
    intro same
    have value := congrArg UInt8.toNat same
    simp at value
    omega
  simp only [decodeMarked, List.singleton_append, List.isPrefixOf, Bool.and_eq_true, beq_iff_eq,
    differ, Ne.symm differ, false_and, if_false]
  exact read

end Utf8

namespace Json

theorem letterEscape_plain {e c : CodePoint} (means : letterEscape? e = some c) :
    e.isSurrogate = false ∧ e ≠ '\r' := by
  unfold letterEscape? at means
  split at means
  · rename_i same
    simp only [Bool.or_eq_true, decide_eq_true_eq] at same
    rcases same with (rfl | rfl) | rfl <;> decide
  repeat'
    split at means
    · rename_i same
      subst same
      decide
  cases means

theorem hexValue_plain {c : CodePoint} {n : Nat} (means : hexValue? c = some n) :
    c.isSurrogate = false ∧ c ≠ '\r' := by
  have small : c.val < 0x80 ∧ 0x30 ≤ c.val := by
    by_cases digit : 0x30 ≤ c.val ∧ c.val ≤ 0x39
    · omega
    · by_cases lower : 0x61 ≤ c.val ∧ c.val ≤ 0x66
      · omega
      · by_cases upper : 0x41 ≤ c.val ∧ c.val ≤ 0x46
        · omega
        · simp [hexValue?, digit, lower, upper] at means
  constructor
  · simp only [CodePoint.isSurrogate, Bool.and_eq_false_iff, decide_eq_false_iff_not]
    omega
  · rintro rfl
    exact absurd small (by decide)

/-- Writing a character adds neither surrogates nor carriage returns. -/
theorem Escaped.keeps_plain {c : CodePoint} {written : Text} (escaped : Escaped c written) :
    ∀ d ∈ written, (c.isSurrogate = false → d.isSurrogate = false) ∧ d ≠ '\r' := by
  cases escaped with
  | letter e _ means =>
      intro d mem
      simp only [List.mem_cons, List.not_mem_nil, or_false] at mem
      rcases mem with rfl | rfl
      · exact ⟨fun _ => by decide, by decide⟩
      · exact ⟨fun _ => (letterEscape_plain means).1, (letterEscape_plain means).2⟩
  | number digits _ means _ =>
      intro d mem
      simp only [List.mem_cons] at mem
      rcases mem with rfl | rfl | mem
      · exact ⟨fun _ => by decide, by decide⟩
      · exact ⟨fun _ => by decide, by decide⟩
      · obtain ⟨n, found⟩ : ∃ n, hexValue? d = some n := by
          unfold hexQuad? at means
          split at means
          · simp only [Option.bind_eq_bind, Option.bind_eq_some_iff] at means
            obtain ⟨_, first, _, second, _, third, _, fourth, _⟩ := means
            simp only [List.mem_cons, List.not_mem_nil, or_false] at mem
            rcases mem with rfl | rfl | rfl | rfl
            · exact ⟨_, first⟩
            · exact ⟨_, second⟩
            · exact ⟨_, third⟩
            · exact ⟨_, fourth⟩
          · cases means
        exact ⟨fun _ => (hexValue_plain found).1, (hexValue_plain found).2⟩
  | plain _ _ visible =>
      intro d mem
      rw [List.mem_singleton.mp mem]
      refine ⟨id, ?_⟩
      rintro rfl
      exact absurd visible (by decide)

theorem literal_plain (t : Text) :
    ∀ d ∈ literal t, (t.Plain → d.isSurrogate = false) ∧ d ≠ '\r' := by
  have quote : ∀ d ∈ Text.ofString "\"", d.isSurrogate = false ∧ d ≠ '\r' := by decide
  intro d mem
  rcases List.mem_append.mp mem with mem | mem
  · rcases List.mem_append.mp mem with mem | mem
    · exact ⟨fun _ => (quote d mem).1, (quote d mem).2⟩
    · obtain ⟨c, known, written⟩ := List.mem_flatMap.mp mem
      obtain ⟨plain, clear⟩ := (escaped_escapedPoint c).keeps_plain d written
      exact ⟨fun all => plain (all c known), clear⟩
  · exact ⟨fun _ => (quote d mem).1, (quote d mem).2⟩

end Json

namespace Storage

/-- Pieces are written as the one text that they make up. -/
theorem encodePieces_eq {row : List Text} {bytes : Bytes} (made : encodePieces row = .ok bytes) :
    Utf8.encodeEscaped row.flatten = .ok bytes := by
  induction row generalizing bytes with
  | nil =>
      cases made
      rfl
  | cons piece rest ih =>
      rw [encodePieces] at made
      cases first : Utf8.encodeEscaped piece with
      | error fault =>
          rw [first] at made
          cases made
      | ok front =>
          rw [first] at made
          cases second : encodePieces rest with
          | error failure =>
              rw [second] at made
              cases made
          | ok back =>
              rw [second] at made
              cases made
              have front' := Utf8.spells_of_encodeEscapedFrom first
              have back' := Utf8.spells_of_encodeEscapedFrom (ih second)
              exact (front'.append back').encode

end Storage

namespace Binary64

theorem positional_ne_nil (digits : List Char) (exponent : Int) : positional digits exponent ≠ [] := by
  unfold positional
  split
  · simp
  · dsimp only
    split <;> simp

theorem text_ne_nil (x : Binary64) : x.text ≠ [] := by
  cases x with
  | nan => decide
  | infinity negative => cases negative <;> decide
  | finite negative mantissa exponent =>
      rw [text, ne_eq, List.map_eq_nil_iff]
      split
      · exact List.cons_ne_nil _ _
      · split
        · exact List.cons_ne_nil _ _
        · dsimp only
          split
          · exact positional_ne_nil _ _
          · simp [scientific]

end Binary64

namespace Json

/-- A value that counts as given is shown by some text. -/
theorem plainText_ne_nil {v : Json} (given : v.isGiven = true) : v.plainText ≠ [] := by
  cases v with
  | null => cases given
  | bool b =>
      cases b with
      | false => cases given
      | true => decide
  | number n =>
      cases n with
      | whole n =>
          cases n with
          | ofNat n =>
              change (Nat.toDigits 10 n).map CodePoint.ofChar ≠ []
              simp [Nat.toDigits_ne_nil]
          | negSucc n => exact List.append_ne_nil_of_left_ne_nil (by decide) _
      | real x => exact x.text_ne_nil
  | string t => simpa [isGiven, plainText] using given
  | array items => exact List.append_ne_nil_of_right_ne_nil _ (by decide)
  | object members => exact List.append_ne_nil_of_right_ne_nil _ (by decide)

end Json

namespace PackageState

/-- Whether the content of a file is read as a state, whatever the limits of the reader. -/
def Decodes (content : Bytes) (state : PackageState) : Prop :=
  ∃ text value, Utf8.decodeMarked content = .ok text ∧
    (∀ limits, Json.parse limits (Text.unifyLineEnds text) = .ok value) ∧
    ∀ path, (ofContent path (.value value)).value = state

/-- A state whose names can be told from those that stand in for missing ones. -/
structure Named (state : PackageState) : Prop where
  packageName : state.packageName ≠ []
  binName : state.binName ≠ []

/-- The state with the standard names in the place of empty ones. -/
def filled (state : PackageState) : PackageState :=
  { state with
    packageName := if state.packageName.isEmpty then standard.packageName else state.packageName
    binName := if state.binName.isEmpty then standard.binName else state.binName }

/-- A state with names is filled. -/
theorem Named.filled {state : PackageState} (named : state.Named) : state.filled = state := by
  obtain ⟨packageName, version, binName⟩ := state
  obtain ⟨name, bin⟩ := named
  simp only [PackageState.filled, List.isEmpty_iff, if_neg name, if_neg bin]

theorem textOf_string (key otherwise t : Text) (members : List (Text × Json))
    (found : Table.get? key members = some (.string t)) :
    textOf key otherwise members = if t.isEmpty then otherwise else t := by
  rw [textOf, found]
  cases t <;> rfl

theorem ofMembers_members (state : PackageState) : ofMembers state.members = state.filled := by
  have packageName := textOf_string "packageName" standard.packageName state.packageName state.members rfl
  have version := textOf_string "version" [] state.version state.members rfl
  have binName := textOf_string "bin_name" standard.binName state.binName state.members rfl
  have same : (if state.version.isEmpty then [] else state.version) = state.version := by
    cases state.version <;> rfl
  rw [ofMembers, packageName, version, binName, same, filled]

/-- What is written for a state without surrogates has neither surrogates nor carriage returns. -/
theorem written_chars {state : PackageState} (packageName : state.packageName.Plain) (version : state.version.Plain)
    (binName : state.binName.Plain) : ∀ d ∈ (Json.prettyPieces state.toJson).flatten ++ Text.ofString "\n",
      d.isSurrogate = false ∧ d ≠ '\r' := by
  have fixed : ∀ piece ∈ (["\x7b", Json.newline 1, ": ", "," ++ Json.newline 1, Json.newline 0,
      "\x7d", Json.literal "packageName", Json.literal "version", Json.literal "bin_name", "\n"] :
        List Text), ∀ d ∈ piece, d.isSurrogate = false ∧ d ≠ '\r' := by decide
  have given {t : Text} (plain : t.Plain) : ∀ d ∈ Json.literal t, d.isSurrogate = false ∧ d ≠ '\r' :=
    fun d mem => ⟨(Json.literal_plain t d mem).1 plain, (Json.literal_plain t d mem).2⟩
  simp only [List.forall_mem_cons] at fixed
  obtain ⟨opening, line, colon, comma, last, closing, first, second, third, feed, none⟩ := fixed
  have pieces : ∀ piece ∈ (["\x7b", Json.newline 1, Json.literal "packageName", ": ",
      Json.literal state.packageName, "," ++ Json.newline 1, Json.literal "version", ": ",
      Json.literal state.version, "," ++ Json.newline 1, Json.literal "bin_name", ": ",
      Json.literal state.binName, Json.newline 0, "\x7d"] : List Text),
      ∀ d ∈ piece, d.isSurrogate = false ∧ d ≠ '\r' := by
    simp only [List.forall_mem_cons]
    exact ⟨opening, line, first, colon, given packageName, comma, second, colon, given version,
      comma, third, colon, given binName, last, closing, none⟩
  intro d mem
  rcases List.mem_append.mp mem with mem | mem
  · obtain ⟨piece, known, mem⟩ := List.mem_flatten.mp mem
    exact pieces piece known d mem
  · exact feed d mem

/-- The file of a state is read as the state with names, unless a surrogate was written into it. -/
theorem decodes_of_jsonBytes {state : PackageState} (packageName : state.packageName.Plain)
    (version : state.version.Plain) (binName : state.binName.Plain) {bytes : Bytes}
    (made : Storage.jsonBytes state.toJson = .ok bytes) : Decodes bytes state.filled := by
  have encoded := Storage.encodePieces_eq made
  rw [List.flatten_append, List.flatten_singleton] at encoded
  have parsed (limits : Json.Limits) : Json.parse limits ((Json.prettyPieces state.toJson).flatten ++ "\n") =
      .ok state.toJson :=
    Json.parse_texts limits "packageName" state.packageName [("version", state.version), ("bin_name", state.binName)]
  have chars := written_chars packageName version binName
  have opens : ∃ t, (Json.prettyPieces state.toJson).flatten ++ Text.ofString "\n" =
      ('\x7b' : CodePoint) :: t := ⟨_, rfl⟩
  obtain ⟨t, opens⟩ := opens
  rw [opens] at encoded parsed chars
  refine ⟨_, state.toJson, Utf8.decodeMarked_encodeEscaped (by decide) (fun d mem => (chars d mem).1) encoded,
    fun limits => ?_, fun path => ofMembers_members state⟩
  rw [Text.unifyLineEnds_eq fun d mem => (chars d mem).2]
  exact parsed limits

theorem textOf_ne_nil (key : Text) {otherwise : Text} (known : otherwise ≠ [])
    (members : List (Text × Json)) : textOf key otherwise members ≠ [] := by
  unfold textOf
  split
  · split
    · rename_i given
      exact Json.plainText_ne_nil given
    · exact known
  · exact known

/-- Every state that is read has names: missing ones are filled in. -/
theorem named_ofContent (path : FilePath) (content : Storage.JsonContent) :
    (ofContent path content).value.Named := by
  have standard : PackageState.standard.Named := ⟨by decide, by decide⟩
  unfold ofContent
  split
  · exact ⟨textOf_ne_nil _ standard.packageName _, textOf_ne_nil _ standard.binName _⟩
  · exact standard
  · exact standard
  · exact standard
  · exact standard

end PackageState

end Rebundle
