import Rebundle.Proofs.Json.Bytes
import Rebundle.Proofs.Package.State

/-!
# States with undecodable names

The file of a state is ASCII but for the texts in it. Undecodable bytes of a name were kept as surrogates
and are written as they were; where they make up characters with each other the name is read as another
one, and where they do not the file cannot be read.
-/

namespace Rebundle

namespace Utf8

/-- Behind an ASCII byte at the front there is no mark. -/
theorem decodeMarked_of_ascii {b : UInt8} (small : b < 0x80) (rest : Bytes) :
    decodeMarked (b :: rest) = decode (b :: rest) := by
  have differ : b ≠ 0xEF := by
    rintro rfl
    exact absurd small (by decide)
  simp [decodeMarked, List.isPrefixOf, differ, Ne.symm differ]

theorem encodeEscaped_ne_nil {c : CodePoint} {rest : Text} : encodeEscaped (c :: rest) ≠ .ok [] := by
  intro made
  obtain ⟨front, back, first, _, none⟩ := encodeEscaped_append (s := [c]) made
  obtain ⟨rfl, -⟩ := List.append_eq_nil_iff.mp none.symm
  rw [encodeEscaped, encodeEscapedFrom] at first
  split at first
  · cases first
  · split at first
    · cases first
    · simp only [encodeEscapedFrom, Except.map, Except.ok.injEq, List.append_nil] at first
      exact encodePoint_ne_nil c first

/-- A name stays a name. -/
theorem reread_ne_nil {t : Text} (full : t ≠ []) : reread t ≠ [] := by
  rw [reread]
  split
  · rename_i bytes made
    intro none
    have back := encodeEscaped_decodeEscaped bytes
    rw [none] at back
    cases back
    obtain ⟨c, rest, rfl⟩ := List.exists_cons_of_ne_nil full
    exact encodeEscaped_ne_nil made
  · exact full

end Utf8

namespace Storage

/-- A text that can be written can be written piece by piece. -/
theorem encodePieces_of_flatten {row : List Text} {bytes : Bytes}
    (made : Utf8.encodeEscaped row.flatten = .ok bytes) : encodePieces row = .ok bytes := by
  induction row generalizing bytes with
  | nil =>
      cases made
      rfl
  | cons piece rest ih =>
      rw [List.flatten_cons] at made
      obtain ⟨front, back, first, second, rfl⟩ := Utf8.encodeEscaped_append made
      rw [encodePieces, first, ih second]
      rfl

end Storage

namespace PackageState

open Utf8

/-- The state that the file of a state describes. -/
def reread (state : PackageState) : PackageState :=
  ⟨Utf8.reread state.packageName, Utf8.reread state.version, Utf8.reread state.binName⟩

/-- The text in the file of a state. -/
def written (state : PackageState) : Text :=
  (Json.prettyPieces state.toJson ++ ([("\n" : Text)] : List Text)).flatten

theorem written_eq (state : PackageState) : state.written =
    ("\x7b" ++ Json.newline 1 ++ Json.literal "packageName" ++ ": ") ++ (Json.literal state.packageName ++
      (("," ++ Json.newline 1 ++ Json.literal "version" ++ ": ") ++ (Json.literal state.version ++
        (("," ++ Json.newline 1 ++ Json.literal "bin_name" ++ ": ") ++ (Json.literal state.binName ++
          (Json.newline 0 ++ "\x7d" ++ "\n")))))) := by
  simp [written, Json.prettyPieces, toJson, members, Json.pieces, Json.memberPieces, Json.scalarText]

/-- The file of a state is read as the text of the state that it describes. -/
theorem decodeEscaped_written {state : PackageState} {bytes : Bytes} (made : encodeEscaped state.written = .ok bytes) :
    decodeEscaped bytes = state.reread.written := by
  have ascii {t s : Text} {bytes : Bytes} (low : Ascii t) (made : encodeEscaped (t ++ s) = .ok bytes) :
      ∃ back, encodeEscaped s = .ok back ∧ decodeEscaped bytes = t ++ decodeEscaped back := by
    obtain ⟨front, back, first, second, rfl⟩ := encodeEscaped_append made
    rw [encodeEscaped_ascii low] at first
    cases first
    exact ⟨back, second, decodeEscaped_ascii_append low back⟩
  have literal {t s : Text} {bytes : Bytes} (made : encodeEscaped (Json.literal t ++ s) = .ok bytes) :
      ∃ back, encodeEscaped s = .ok back ∧
        decodeEscaped bytes = Json.literal (Utf8.reread t) ++ decodeEscaped back := by
    obtain ⟨front, back, first, second, rfl⟩ := encodeEscaped_append made
    exact ⟨back, second, Json.decodeEscaped_literal first back⟩
  rw [written_eq] at made
  obtain ⟨_, made, opening⟩ := ascii (by decide) made
  obtain ⟨_, made, packageName⟩ := literal made
  obtain ⟨_, made, second⟩ := ascii (by decide) made
  obtain ⟨_, made, version⟩ := literal made
  obtain ⟨_, made, third⟩ := ascii (by decide) made
  obtain ⟨_, made, binName⟩ := literal made
  rw [← List.append_nil (Json.newline 0 ++ _ ++ _)] at made
  obtain ⟨_, made, closing⟩ := ascii (by decide) made
  cases made
  have none : decodeEscaped [] = [] := rfl
  rw [opening, packageName, second, version, third, binName, closing, none, List.append_nil, written_eq]
  rfl

theorem written_cons (state : PackageState) : ∃ rest, state.written = ('\x7b' : CodePoint) :: rest := by
  rw [written_eq]
  exact ⟨_, rfl⟩

/-- The file of a state is read strictly unless there are surrogates left in what is read. -/
theorem decodeMarked_written {state : PackageState} {bytes : Bytes} (made : encodeEscaped state.written = .ok bytes) :
    decodeMarked bytes = decode bytes := by
  obtain ⟨rest, opens⟩ := written_cons state
  rw [opens] at made
  obtain ⟨front, back, first, _, rfl⟩ := encodeEscaped_append (s := [_]) made
  cases first
  exact decodeMarked_of_ascii (by decide) _

theorem plain_of_written {state : PackageState} (plain : state.written.Plain) :
    state.packageName.Plain ∧ state.version.Plain ∧ state.binName.Plain := by
  have inner {t : Text} (plain : (Json.literal t).Plain) : t.Plain := by
    intro c mem
    rcases Nat.lt_or_ge c.val 0x80 with small | high
    · simp only [CodePoint.isSurrogate, Bool.and_eq_false_iff, decide_eq_false_iff_not]
      omega
    · refine plain c (List.mem_append_left _ (List.mem_append_right _ (List.mem_flatMap.mpr ⟨c, mem, ?_⟩)))
      rw [Json.escapedPoint_high high]
      exact List.mem_singleton_self c
  rw [written_eq] at plain
  have part {s t : Text} (plain : (s ++ t).Plain) : s.Plain ∧ t.Plain := List.forall_mem_append.mp plain
  obtain ⟨packageName, rest⟩ := part (part plain).2
  obtain ⟨version, rest⟩ := part (part rest).2
  exact ⟨inner packageName, inner version, inner (part (part rest).2).1⟩

/-- A state file that can be read strictly describes the state that is read again from its texts. -/
theorem decodes_reread {state : PackageState} (named : state.Named) {bytes : Bytes}
    (made : Storage.jsonBytes state.toJson = .ok bytes)
    {text : Text} (read : decodeMarked bytes = .ok text) : Decodes bytes state.reread := by
  have encoded := Storage.encodePieces_eq made
  rw [decodeMarked_written encoded] at read
  obtain ⟨plain, same⟩ := plain_of_decode read
  rw [decodeEscaped_written encoded] at same
  rw [← same] at plain
  obtain ⟨packageName, version, binName⟩ := plain_of_written plain
  have again := encodeEscaped_decodeEscaped bytes
  rw [decodeEscaped_written encoded] at again
  have renamed : state.reread.Named := ⟨reread_ne_nil named.packageName, reread_ne_nil named.binName⟩
  have decodes := decodes_of_jsonBytes packageName version binName (Storage.encodePieces_of_flatten again)
  rwa [renamed.filled] at decodes

end PackageState

end Rebundle
