import Rebundle.Proofs.Rewrite.Failing
import Rebundle.Proofs.Text.LineEnds

/-!
# The bootstrap in bytes

What is put in front of the text of a file is put in front of its bytes: the text is cut behind the line feed of
its first line, and a line feed is always a byte of its own. So bytes that cannot be decoded stay where they are.
-/

namespace Rebundle

namespace Utf8

/-- A text begins with an ASCII text just when its bytes do. -/
theorem isPrefixOf_asciiBytes {ascii t : Text} (plain : Ascii ascii) {bytes : Bytes}
    (made : encodeEscaped t = .ok bytes) : (asciiBytes ascii).isPrefixOf bytes = ascii.isPrefixOf t := by
  induction ascii generalizing t bytes with
  | nil => rfl
  | cons a ascii ih =>
      have small : a.val < 0x80 := plain a List.mem_cons_self
      have later := fun {t} {bytes} => @ih t (fun c mem => plain c (List.mem_cons_of_mem _ mem)) bytes
      cases t with
      | nil =>
          cases made
          rfl
      | cons c rest =>
          obtain ⟨front, back, first, second, rfl⟩ := encodeEscaped_append (s := [c]) made
          change (a.val.toUInt8 :: asciiBytes ascii).isPrefixOf (front ++ back) = (a == c && ascii.isPrefixOf rest)
          rcases encodeEscaped_single first with ⟨low, rfl⟩ | ⟨high, full, highs⟩
          · have same : (a.val.toUInt8 == c.val.toUInt8) = (a == c) := by
              rw [Bool.eq_iff_iff, beq_iff_eq, beq_iff_eq]
              exact byte_eq_iff small low
            rw [List.singleton_append, List.isPrefixOf, later second, same]
          · have point : (a == c) = false := by
              rw [beq_eq_false_iff_ne]
              rintro rfl
              omega
            cases front with
            | nil => exact absurd rfl full
            | cons b front =>
                have byte : (a.val.toUInt8 == b) = false := by
                  rw [beq_eq_false_iff_ne]
                  rintro rfl
                  have value := UInt8.le_iff_toNat_le.mp (highs _ List.mem_cons_self)
                  simp at value
                  omega
                rw [List.cons_append, List.isPrefixOf, byte, point]
                rfl

/-- The first line of a text is written as the first line of its bytes, and so is what follows it. -/
theorem spells_line {t : Text} {bytes : Bytes} (made : encodeEscaped t = .ok bytes) :
    Spells (t.takeWhile (· != ('\n' : CodePoint))) (bytes.takeWhile (· != 0x0A)) ∧
      Spells ((t.dropWhile (· != ('\n' : CodePoint))).drop 1) ((bytes.dropWhile (· != 0x0A)).drop 1) := by
  induction t generalizing bytes with
  | nil =>
      cases made
      exact ⟨Spells.nil, Spells.nil⟩
  | cons c rest ih =>
      obtain ⟨front, back, first, second, rfl⟩ := encodeEscaped_append (s := [c]) made
      have point := spells_of_encodeEscapedFrom first
      obtain ⟨line, behind⟩ := ih second
      by_cases feed : c = '\n'
      · subst feed
        cases first
        exact ⟨Spells.nil, spells_of_encodeEscapedFrom second⟩
      · have others : ∀ b ∈ front, (b != 0x0A) = true := by
          intro b mem
          rw [bne_iff_ne]
          rintro rfl
          rcases encodeEscaped_single first with ⟨small, rfl⟩ | ⟨_, _, highs⟩
          · exact feed ((byte_eq_iff (d := '\n') small (by decide)).mp (List.mem_singleton.mp mem).symm)
          · exact absurd (highs _ mem) (by decide)
        have other : (c != CodePoint.ofChar '\n') = true := by simpa using feed
        rw [List.takeWhile_append_of_pos others, List.dropWhile_append_of_pos others,
          List.takeWhile_cons, List.dropWhile_cons, if_pos other, if_pos other]
        exact ⟨point.append line, behind⟩

end Utf8

namespace Bootstrap

theorem drop_line {α : Type} (p : α → Bool) (l : List α) (last : α) :
    l.drop (l.takeWhile p ++ [last]).length = (l.dropWhile p).drop 1 := by
  have cut := List.takeWhile_append_dropWhile (p := p) (l := l)
  generalize l.takeWhile p = front at cut ⊢
  generalize l.dropWhile p = back at cut ⊢
  rw [← cut, List.length_append, List.drop_length_add_append]
  rfl

/-- The first line of bytes that begin with `#!`, closed by a line feed. -/
def lineBytes (source : Bytes) : Bytes :=
  if (Utf8.asciiBytes "#!").isPrefixOf source then source.takeWhile (· != 0x0A) ++ [0x0A] else []

/-- Bytes with the bootstrap in front of them, but behind the line that names an interpreter. -/
def prefixed (settings : Bootstrap) (source : Bytes) : Bytes :=
  lineBytes source ++ Utf8.asciiBytes settings.snippet ++ source.drop (lineBytes source).length

/-- The interpreter line of a text is written as that of its bytes, and so is what follows it. -/
theorem encodeEscaped_interpreterLine {source : Text} {bytes : Bytes} (made : Utf8.encodeEscaped source = .ok bytes) :
    Utf8.encodeEscaped (interpreterLine source) = .ok (lineBytes bytes) ∧
      Utf8.encodeEscaped (source.drop (interpreterLine source).length) =
        .ok (bytes.drop (lineBytes bytes).length) := by
  have marked := Utf8.isPrefixOf_asciiBytes (show Utf8.Ascii "#!" by decide) made
  rw [interpreterLine, lineBytes, marked]
  split
  · obtain ⟨line, behind⟩ := Utf8.spells_line made
    have feed : Utf8.Spells "\n" [0x0A] := Utf8.spells_point rfl
    refine ⟨(line.append feed).encode, ?_⟩
    change Utf8.encodeEscaped (source.drop (source.takeWhile _ ++ [_]).length) = _
    rw [drop_line, drop_line]
    exact behind.encode
  · exact ⟨rfl, made⟩

end Bootstrap

/-- The program in the text of a file begins with the bootstrap, byte for byte. -/
theorem Patcher.prepare_source {patcher : Patcher} {path : Option Text} {bytes : Bytes} {prepared : Prepared}
    (read : (patcher.prepare (Text.unifyLineEnds (Utf8.decodeEscaped bytes)) path).value = .ok prepared) :
    prepared.source = patcher.bootstrap.prefixed (Utf8.unifyLineEnds bytes) := by
  have unified := Utf8.encodeEscaped_unifyLineEnds (Utf8.encodeEscaped_decodeEscaped bytes)
  obtain ⟨line, behind⟩ := Bootstrap.encodeEscaped_interpreterLine unified
  have snippet := Utf8.encodeEscaped_ascii fun c mem => (patcher.bootstrap.common_snippet c mem).1
  obtain ⟨head, middle, body, first, second, third, source, _⟩ := encode_ok (prepare_ok read).1
  rw [line] at first
  rw [snippet] at second
  rw [behind] at third
  cases first
  cases second
  cases third
  exact source

end Rebundle
