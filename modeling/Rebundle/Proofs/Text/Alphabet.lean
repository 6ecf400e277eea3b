import Rebundle.Proofs.Json.Bytes

/-!
# Texts over an alphabet

Which code points a text has is decided by the texts that it is put together from. Of the alphabets of texts that is
the one that matters most whose code points can be written: those that are no surrogates, and those that stand for a
byte.
-/

namespace Rebundle

namespace Text

/-- Whether a text has only code points that are allowed. -/
def Within (allowed : CodePoint → Prop) (t : Text) : Prop := ∀ c ∈ t, allowed c

instance (allowed : CodePoint → Prop) [DecidablePred allowed] (t : Text) : Decidable (t.Within allowed) :=
  inferInstanceAs (Decidable (∀ c ∈ t, allowed c))

theorem within_append {allowed : CodePoint → Prop} {s t : Text} :
    Within allowed (s ++ t) ↔ s.Within allowed ∧ t.Within allowed := List.forall_mem_append

/-- Whether a text is plain ASCII without a carriage return. -/
def Common (t : Text) : Prop := ∀ c ∈ t, c.val < 0x80 ∧ c ≠ '\r'

instance (t : Text) : Decidable t.Common := inferInstanceAs (Decidable (∀ c ∈ t, c.val < 0x80 ∧ c ≠ '\r'))

theorem common_append {s t : Text} : Common (s ++ t) ↔ s.Common ∧ t.Common := List.forall_mem_append

/-- Whether every common text has only code points that are allowed. -/
def Alphabet (allowed : CodePoint → Prop) : Prop := ∀ c : CodePoint, c.val < 0x80 → c ≠ '\r' → allowed c

section

variable {allowed : CodePoint → Prop} {s t separator : Text} {texts : List Text}

theorem Alphabet.admits (alphabet : Alphabet allowed) (common : t.Common) : t.Within allowed :=
  fun c mem => alphabet c (common c mem).1 (common c mem).2

namespace Within

theorem nil : Within allowed [] := fun _ mem => nomatch mem

theorem append (first : s.Within allowed) (second : t.Within allowed) : Within allowed (s ++ t) :=
  within_append.mpr ⟨first, second⟩

theorem not_mem {c : CodePoint} (within : t.Within allowed) (other : ¬ allowed c) : c ∉ t :=
  fun mem => other (within c mem)

theorem sublist (within : t.Within allowed) (among : s.Sublist t) : s.Within allowed :=
  fun c mem => within c (among.mem mem)

theorem join (between : separator.Within allowed) (all : ∀ t ∈ texts, t.Within allowed) :
    (Text.join separator texts).Within allowed := by
  induction texts with
  | nil => exact nil
  | cons t rest ih =>
      have first := all t List.mem_cons_self
      have later := ih fun s mem => all s (List.mem_cons_of_mem _ mem)
      cases rest with
      | nil => exact first
      | cons next rest => exact (first.append between).append later

end Within

end

/-! Numbers are written with common digits. -/

theorem common_digitChar (n : Nat) : (Nat.digitChar n).toNat < 0x80 ∧ (Nat.digitChar n).toNat ≠ 13 := by
  rcases Nat.lt_or_ge n 16 with small | big
  · have digits : ∀ n < 16, (Nat.digitChar n).toNat < 0x80 ∧ (Nat.digitChar n).toNat ≠ 13 := by decide
    exact digits n small
  · have star : Nat.digitChar n = '*' := by
      unfold Nat.digitChar
      iterate 16 rw [if_neg (by omega)]
    rw [star]
    decide

theorem common_toDigits (base n : Nat) :
    Common ((Nat.toDigits base n).map CodePoint.ofChar) := by
  have all (fuel : Nat) : ∀ (n : Nat) (digits : List Char), (∀ c ∈ digits, c.toNat < 0x80 ∧ c.toNat ≠ 13) →
      ∀ c ∈ Nat.toDigitsCore base fuel n digits, c.toNat < 0x80 ∧ c.toNat ≠ 13 := by
    induction fuel with
    | zero => exact fun _ _ known => known
    | succ fuel ih =>
        intro n digits known
        have more : ∀ c ∈ (n % base).digitChar :: digits, c.toNat < 0x80 ∧ c.toNat ≠ 13 := by
          intro c mem
          rcases List.mem_cons.mp mem with rfl | mem
          · exact common_digitChar _
          · exact known c mem
        rw [Nat.toDigitsCore]
        split
        · exact more
        · exact ih _ _ more
  intro c mem
  obtain ⟨digit, known, rfl⟩ := List.mem_map.mp mem
  obtain ⟨small, other⟩ := all (n + 1) n [] (fun _ mem => nomatch mem) digit known
  exact ⟨small, fun same => other (congrArg CodePoint.val same)⟩

theorem common_ofNat (n : Nat) : (ofNat n).Common := common_toDigits 10 n

theorem common_hex (width n : Nat) : (hex width n).Common := by
  intro c mem
  rcases List.mem_append.mp mem with mem | mem
  · rw [List.eq_of_mem_replicate mem]
    decide
  · exact common_toDigits 16 n c mem

end Text

namespace CodePoint

/-- Whether a code point can be written: it is no surrogate, or it stands for a byte. -/
def isWritable (c : CodePoint) : Bool := !c.isSurrogate || c.isByteEscape

end CodePoint

namespace Text

/-- Whether a text can be written. -/
def Writable (t : Text) : Prop := ∀ c ∈ t, c.isWritable = true

instance (t : Text) : Decidable t.Writable := inferInstanceAs (Decidable (∀ c ∈ t, c.isWritable = true))

theorem alphabet_writable : Alphabet (·.isWritable = true) := by
  intro c small _
  have plain : c.isSurrogate = false := by
    simp [CodePoint.isSurrogate]
    omega
  rw [CodePoint.isWritable, plain]
  rfl

theorem Plain.writable {t : Text} (plain : t.Plain) : t.Writable := by
  intro c mem
  rw [CodePoint.isWritable, plain c mem]
  rfl

end Text

namespace Utf8

/-- The texts that are written without a fault. -/
theorem encodes_iff {t : Text} : (∃ bytes, encodeEscaped t = .ok bytes) ↔ t.Writable := by
  have single (c : CodePoint) : (∃ bytes, encodeEscaped [c] = .ok bytes) ↔ c.isWritable = true := by
    rw [encodeEscaped, encodeEscapedFrom, CodePoint.isWritable]
    split
    · rename_i escape
      simp [escape, encodeEscapedFrom, Except.map]
    · rename_i other
      split
      · rename_i surrogate
        simp [other, surrogate]
      · rename_i plain
        simp [plain, encodeEscapedFrom, Except.map]
  induction t with
  | nil => exact iff_of_true ⟨[], rfl⟩ fun _ none => absurd none List.not_mem_nil
  | cons c rest ih =>
      rw [Text.Writable, List.forall_mem_cons, ← single]
      constructor
      · rintro ⟨bytes, made⟩
        obtain ⟨front, back, first, second, _⟩ := encodeEscaped_append (s := [c]) made
        exact ⟨⟨front, first⟩, ih.mp ⟨back, second⟩⟩
      · rintro ⟨⟨front, first⟩, later⟩
        obtain ⟨back, second⟩ := ih.mpr later
        have whole := (spells_of_encodeEscapedFrom first).append (spells_of_encodeEscapedFrom second)
        exact ⟨front ++ back, whole.encode⟩

theorem writable_decodeEscaped (bytes : Bytes) : (decodeEscaped bytes).Writable :=
  encodes_iff.mp ⟨bytes, encodeEscaped_decodeEscaped bytes⟩

end Utf8

namespace Json

variable {allowed : CodePoint → Prop} {t : Text}

/-- A literal has the code points of its text, and common ones. -/
theorem literal_within (alphabet : Text.Alphabet allowed) (within : t.Within allowed) :
    (literal t).Within allowed := by
  have quote : Text.Within allowed "\"" := alphabet.admits (by decide)
  refine (quote.append fun d mem => ?_).append quote
  obtain ⟨c, known, written⟩ := List.mem_flatMap.mp mem
  rcases Nat.lt_or_ge c.val 0x80 with small | high
  · have common : ∀ n < 0x80, Text.Common (escapedPoint (CodePoint.ofNat n)) := by decide +kernel
    have self : CodePoint.ofNat c.val = c := by simp [CodePoint.ofNat, c.val_lt]
    have own := common c.val small
    rw [self] at own
    exact alphabet.admits own d written
  · rw [escapedPoint_high high] at written
    exact List.mem_singleton.mp written ▸ within c known

/-- A literal can be written just when its text can. -/
theorem literal_writable : (literal t).Writable ↔ t.Writable := by
  refine ⟨fun writable => ?_, literal_within Text.alphabet_writable⟩
  obtain ⟨bytes, made⟩ := Utf8.encodes_iff.mpr writable
  obtain ⟨_, _, opened, _, _⟩ := Utf8.encodeEscaped_append made
  obtain ⟨_, _, _, inner, _⟩ := Utf8.encodeEscaped_append opened
  exact Utf8.encodes_iff.mp (encodes_of_flatMap inner)

theorem common_unitEscape (n : Nat) : (unitEscape n).Common := by
  intro c mem
  rcases List.mem_append.mp mem with mem | mem
  · have lead : Text.Common "\\u" := by decide
    exact lead c mem
  · exact Text.common_hex 4 n c mem

theorem common_letterEscaped {c : CodePoint} {escape : Text} (found : letterEscaped? c = some escape) :
    escape.Common := by
  unfold letterEscaped? at found
  repeat'
    split at found
    · cases found
      decide
  cases found

/-- A literal in plain ASCII is common. -/
theorem common_asciiLiteral (t : Text) : (asciiLiteral t).Common := by
  have quote : Text.Common "\"" := by decide
  have point (c : CodePoint) : (asciiPoint c).Common := by
    unfold asciiPoint
    split
    · exact common_letterEscaped ‹_›
    · split
      · rename_i printable
        simp only [Bool.and_eq_true, decide_eq_true_eq] at printable
        intro d mem
        rw [List.mem_singleton.mp mem]
        refine ⟨by omega, ?_⟩
        rintro rfl
        exact absurd printable (by decide)
      · split
        · exact common_unitEscape _
        · exact Text.common_append.mpr ⟨common_unitEscape _, common_unitEscape _⟩
  intro d mem
  rcases List.mem_append.mp mem with mem | mem
  · rcases List.mem_append.mp mem with mem | mem
    · exact quote d mem
    · obtain ⟨c, _, written⟩ := List.mem_flatMap.mp mem
      exact point c d written
  · exact quote d mem

end Json

end Rebundle
