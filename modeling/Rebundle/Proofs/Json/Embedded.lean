import Rebundle.Bootstrap
import Rebundle.Proofs.Json.Literal
import Rebundle.Proofs.Rewrite.Alphabet
import Rebundle.Rewrite.Body

/-!
# Literals in program text

Two kinds of program text have texts of the user in them, each as a double-quoted literal: the block that
stands for a function's body, and the credential snippet. A program reads such a literal up to the first quote
that no backslash escapes and takes every escape for what it means. Read so, each of the two has the literals
that were put into it, no more and no fewer, and each literal means its text.
-/

namespace Rebundle

namespace CodePoint

/-- The UTF-16 units of a code point: itself, or two surrogates. -/
def units (c : CodePoint) : List Nat :=
  if c.val < 0x10000 then [c.val]
  else [0xD800 + (c.val - 0x10000) / 0x400, 0xDC00 + (c.val - 0x10000) % 0x400]

theorem units_below {c : CodePoint} (low : c.val < 0x10000) : c.units = [c.val] := if_pos low

theorem lt_of_mem_units {c : CodePoint} {unit : Nat} (mem : unit ∈ c.units) : unit < 0x10000 := by
  have bound := c.val_lt
  unfold units at mem
  split at mem
  · rename_i low
    rw [List.mem_singleton.mp mem]
    exact low
  · simp only [List.mem_cons, List.not_mem_nil, or_false] at mem
    omega

end CodePoint

namespace Text

def units (t : Text) : List Nat := t.flatMap CodePoint.units

/-- The text with every code point that takes two UTF-16 units split into its surrogates. -/
def split (t : Text) : Text := t.flatMap fun c => c.units.map CodePoint.ofNat

theorem units_map_ofNat {units : List Nat} (small : ∀ unit ∈ units, unit < 0x10000) :
    Text.units (units.map CodePoint.ofNat) = units := by
  induction units with
  | nil => rfl
  | cons unit rest ih =>
      have low := small unit List.mem_cons_self
      have value : (CodePoint.ofNat unit).val = unit := CodePoint.val_ofNat (by omega)
      have others := ih fun other mem => small other (List.mem_cons_of_mem _ mem)
      rw [Text.units] at others ⊢
      rw [List.map_cons, List.flatMap_cons, others, CodePoint.units_below (by omega), value]
      rfl

/-- A split text has the units of the text. -/
theorem units_split (t : Text) : t.split.units = t.units := by
  induction t with
  | nil => rfl
  | cons c rest ih =>
      have first := units_map_ofNat fun _ mem => CodePoint.lt_of_mem_units (c := c) mem
      simp only [split, units] at ih first ⊢
      rw [List.flatMap_cons, List.flatMap_append, first, ih, List.flatMap_cons]

end Text

namespace Json

/-- Where a reader of literals stands; inside of a literal it has `read` some characters of it already. -/
inductive Place where
  | outside
  | inside (read : Text)
  | escape (read : Text)
  | number (read digits : Text)

/-- The texts that the double-quoted literals of a program text mean, from a place on. There are none when a
literal is never closed, has a bare control character or has an escape without a meaning. -/
def literalsFrom : Place → Text → Option (List Text)
  | .outside, [] => some []
  | _, [] => none
  | .outside, c :: rest => literalsFrom (if c = '"' then .inside [] else .outside) rest
  | .inside read, c :: rest =>
      if c = '"' then (literalsFrom .outside rest).map (read :: ·)
      else if c = '\\' then literalsFrom (.escape read) rest
      else if c.val < 0x20 then none
      else literalsFrom (.inside (read ++ [c])) rest
  | .escape read, c :: rest =>
      if c = 'u' then literalsFrom (.number read []) rest
      else (letterEscape? c).bind fun meant => literalsFrom (.inside (read ++ [meant])) rest
  | .number read digits, c :: rest =>
      if digits.length < 3 then literalsFrom (.number read (digits ++ [c])) rest
      else (hexQuad? (digits ++ [c])).bind fun n => literalsFrom (.inside (read ++ [CodePoint.ofNat n])) rest

def literals (t : Text) : Option (List Text) := literalsFrom .outside t

/-- What may stand between two quotes: each quote and backslash stands behind a backslash, no backslash
stands alone at the end, and no character is below the blank. -/
inductive Sealed : Text → Prop where
  | nil : Sealed []
  | plain {c : CodePoint} {rest : Text} (noQuote : c ≠ '"') (noBackslash : c ≠ '\\') (visible : 0x20 ≤ c.val)
      (behind : Sealed rest) : Sealed (c :: rest)
  | escaped {e : CodePoint} {rest : Text} (visible : 0x20 ≤ e.val) (behind : Sealed rest) :
      Sealed ('\\' :: e :: rest)

namespace Sealed

variable {s t : Text}

theorem append (first : Sealed s) (second : Sealed t) : Sealed (s ++ t) := by
  induction first with
  | nil => exact second
  | plain noQuote noBackslash visible _ ih => exact .plain noQuote noBackslash visible ih
  | escaped visible _ ih => exact .escaped visible ih

theorem flatMap {f : CodePoint → Text} (each : ∀ c, Sealed (f c)) (t : Text) : Sealed (t.flatMap f) := by
  induction t with
  | nil => exact .nil
  | cons c rest ih => exact (each c).append ih

theorem visible (closed : Sealed t) : t.Within (0x20 ≤ ·.val) := by
  induction closed with
  | nil => exact .nil
  | plain _ _ visible _ ih => exact List.forall_mem_cons.mpr ⟨visible, ih⟩
  | escaped visible _ ih => exact List.forall_mem_cons.mpr ⟨by decide, List.forall_mem_cons.mpr ⟨visible, ih⟩⟩

end Sealed

theorem letterEscape?_control : ∀ n < 0x20, letterEscape? (CodePoint.ofNat n) = none := by decide

theorem sealed_letter {c e : CodePoint} (means : letterEscape? e = some c) : Sealed ['\\', e] := by
  refine .escaped (Nat.not_lt.mp fun control => ?_) .nil
  have none := letterEscape?_control e.val control
  rw [eq_ofNat_of_val rfl, means] at none
  cases none

/-- A hexadecimal digit is a letter or a decimal digit. -/
theorem sealed_hexDigit {c : CodePoint} {value : Nat} (means : hexValue? c = some value) : Sealed [c] := by
  refine .plain ?_ ?_ ?_ .nil
  · rintro rfl
    cases means
  · rintro rfl
    cases means
  · unfold hexValue? at means
    grind

theorem sealed_number {digits : Text} {n : Nat} (means : hexQuad? digits = some n) :
    Sealed ('\\' :: 'u' :: digits) := by
  unfold hexQuad? at means
  split at means
  · rename_i a b c d
    simp only [Option.bind_eq_bind, Option.bind_eq_some_iff] at means
    obtain ⟨_, first, _, second, _, third, _, fourth, _⟩ := means
    exact .escaped (by decide) <| (sealed_hexDigit first).append <| (sealed_hexDigit second).append <|
      (sealed_hexDigit third).append (sealed_hexDigit fourth)
  · cases means

/-- A written character leaves a literal sealed. -/
theorem Escaped.sealed {c : CodePoint} {written : Text} (escaped : Escaped c written) : Sealed written := by
  cases escaped with
  | letter e _ means => exact sealed_letter means
  | number digits _ means _ => exact sealed_number means
  | plain noQuote noBackslash visible => exact .plain noQuote noBackslash visible .nil

/-! What a reader inside of a literal takes a written text for, whatever it has read and whatever follows. -/

/-- Whether a text inside of a literal means these characters. -/
def Means (written points : Text) : Prop :=
  ∀ read rest, literalsFrom (.inside read) (written ++ rest) = literalsFrom (.inside (read ++ points)) rest

namespace Means

variable {s t points others : Text}

theorem nil : Means [] [] := fun read rest => by rw [List.append_nil, List.nil_append]

theorem append (first : Means s points) (second : Means t others) : Means (s ++ t) (points ++ others) := by
  intro read rest
  rw [List.append_assoc, first, second, List.append_assoc]

theorem flatMap {f g : CodePoint → Text} (each : ∀ c, Means (f c) (g c)) (t : Text) :
    Means (t.flatMap f) (t.flatMap g) := by
  induction t with
  | nil => exact nil
  | cons c rest ih => exact (each c).append ih

theorem letter {c e : CodePoint} (noNumber : e ≠ 'u') (means : letterEscape? e = some c) :
    Means ['\\', e] [c] := by
  intro read rest
  have quote : ('\\' : CodePoint) ≠ '"' := by decide
  simp only [List.cons_append, List.nil_append, literalsFrom, if_neg quote, if_pos, if_neg noNumber, means,
    Option.bind_some]

theorem number {digits : Text} {n : Nat} (means : hexQuad? digits = some n) :
    Means ('\\' :: 'u' :: digits) [CodePoint.ofNat n] := by
  intro read rest
  have quote : ('\\' : CodePoint) ≠ '"' := by decide
  match digits, means with
  | [a, b, c, d], means =>
      simp only [List.cons_append, List.nil_append, literalsFrom, if_neg quote, if_pos, List.length_cons,
        List.length_nil, means, Option.bind_some]
      rfl

theorem plain {c : CodePoint} (noQuote : c ≠ '"') (noBackslash : c ≠ '\\') (visible : 0x20 ≤ c.val) :
    Means [c] [c] := by
  intro read rest
  simp only [List.cons_append, List.nil_append, literalsFrom, if_neg noQuote, if_neg noBackslash,
    if_neg (Nat.not_lt.mpr visible)]

theorem escaped {c : CodePoint} {written : Text} (escaped : Escaped c written) : Means written [c] := by
  cases escaped with
  | letter e noNumber means => exact letter noNumber means
  | number digits _ means _ => exact eq_ofNat_of_val (c := c) rfl ▸ number means
  | plain noQuote noBackslash visible => exact plain noQuote noBackslash visible

end Means

/-- In plain ASCII a character is written as in any other text, or by the numbers of its units. -/
theorem asciiPoint_cases (c : CodePoint) :
    (asciiPoint c = escapedPoint c ∧ c.units = [c.val]) ∨ asciiPoint c = c.units.flatMap unitEscape := by
  unfold asciiPoint escapedPoint
  cases known : letterEscaped? c with
  | some escape =>
      refine .inl ⟨rfl, CodePoint.units_below (Nat.not_le.mp fun high => ?_)⟩
      rw [letterEscaped?_high (by omega)] at known
      cases known
  | none =>
      dsimp only
      split
      · rename_i printable
        simp only [Bool.and_eq_true, decide_eq_true_eq] at printable
        exact .inl ⟨(if_neg (by omega)).symm, CodePoint.units_below (by omega)⟩
      · split
        · rename_i low
          rw [CodePoint.units_below low]
          exact .inr (List.append_nil _).symm
        · rename_i high
          rw [CodePoint.units, if_neg high]
          exact .inr (congrArg _ (List.append_nil _).symm)

section

variable {units : List Nat} (small : ∀ unit ∈ units, unit < 0x10000)

include small

theorem sealed_units : Sealed (units.flatMap unitEscape) := by
  induction units with
  | nil => exact .nil
  | cons unit rest ih =>
      obtain ⟨_, means⟩ := hexQuad?_hex (small unit List.mem_cons_self)
      exact (sealed_number means).append (ih fun other mem => small other (List.mem_cons_of_mem _ mem))

/-- Escaped units mean their surrogates one by one. -/
theorem means_units : Means (units.flatMap unitEscape) (units.map CodePoint.ofNat) := by
  induction units with
  | nil => exact .nil
  | cons unit rest ih =>
      obtain ⟨_, means⟩ := hexQuad?_hex (small unit List.mem_cons_self)
      exact (Means.number means).append (ih fun other mem => small other (List.mem_cons_of_mem _ mem))

end

theorem sealed_asciiPoint (c : CodePoint) : Sealed (asciiPoint c) := by
  rcases asciiPoint_cases c with ⟨same, _⟩ | split
  · exact same ▸ (escaped_escapedPoint c).sealed
  · exact split ▸ sealed_units fun _ => CodePoint.lt_of_mem_units

theorem means_asciiPoint (c : CodePoint) : Means (asciiPoint c) (c.units.map CodePoint.ofNat) := by
  rcases asciiPoint_cases c with ⟨same, whole⟩ | split
  · rw [same, whole, List.map_singleton, eq_ofNat_of_val rfl]
    exact .escaped (escaped_escapedPoint c)
  · exact split ▸ means_units fun _ => CodePoint.lt_of_mem_units

/-! A program text is put together from texts without a quote and from literals. -/

section

variable {t body points : Text} (rest : Text)

theorem literalsFrom_unquoted (unquoted : ('"' : CodePoint) ∉ t) :
    literalsFrom .outside (t ++ rest) = literalsFrom .outside rest := by
  induction t with
  | nil => rfl
  | cons c t ih =>
      have differs : c ≠ '"' := fun same => unquoted (same ▸ List.mem_cons_self)
      have later := ih fun mem => unquoted (List.mem_cons_of_mem _ mem)
      rw [List.cons_append, literalsFrom, if_neg differs, later]

theorem literalsFrom_quoted (means : Means body points) :
    literalsFrom .outside ("\"" ++ body ++ "\"" ++ rest) = (literalsFrom .outside rest).map (points :: ·) := by
  have opened : literalsFrom .outside ("\"" ++ body ++ "\"" ++ rest) =
      literalsFrom (.inside []) (body ++ ("\"" ++ rest)) := by
    rw [List.append_assoc, List.append_assoc]
    rfl
  rw [opened, means, List.nil_append]
  rfl

theorem literalsFrom_literal (t : Text) :
    literalsFrom .outside (literal t ++ rest) = (literalsFrom .outside rest).map (t :: ·) := by
  have means := Means.flatMap (fun c => .escaped (escaped_escapedPoint c)) t
  rw [List.flatMap_singleton'] at means
  exact literalsFrom_quoted rest means

theorem literalsFrom_asciiLiteral (t : Text) :
    literalsFrom .outside (asciiLiteral t ++ rest) = (literalsFrom .outside rest).map (t.split :: ·) :=
  literalsFrom_quoted rest (Means.flatMap means_asciiPoint t)

theorem literalsFrom_join (texts : List Text) :
    literalsFrom .outside (Text.join "," (texts.map asciiLiteral) ++ rest) =
      (literalsFrom .outside rest).map (texts.map Text.split ++ ·) := by
  induction texts with
  | nil => exact (congrFun Option.map_id _).symm
  | cons t texts ih =>
      cases texts with
      | nil => exact literalsFrom_asciiLiteral rest t
      | cons next texts =>
          have comma := literalsFrom_unquoted (t := ",")
            (Text.join "," ((next :: texts).map asciiLiteral) ++ rest) (by decide)
          have step : Text.join "," ((t :: next :: texts).map asciiLiteral) ++ rest =
              asciiLiteral t ++ ("," ++ (Text.join "," ((next :: texts).map asciiLiteral) ++ rest)) := by
            simp only [List.map_cons, Text.join, List.append_assoc]
          rw [step, literalsFrom_asciiLiteral, comma, ih, Option.map_map]
          rfl

end

end Json

open Json

namespace Body

/-- The only literal of a block is the returned one, and it means the value. -/
theorem literals_returnBlock {value indent : Text} (blank : ∀ c ∈ indent, c = ' ' ∨ c = '\t') :
    literals (returnBlock value indent) = some [value] := by
  have unquoted : ('"' : CodePoint) ∉ indent := by
    intro mem
    rcases blank _ mem with same | same
    · exact absurd same (by decide)
    · exact absurd same (by decide)
  simp only [literals, returnBlock, List.append_assoc]
  rw [literalsFrom_unquoted _ (by decide), literalsFrom_unquoted _ unquoted, literalsFrom_unquoted _ (by decide),
    literalsFrom_literal, literalsFrom_unquoted _ (by decide), literalsFrom_unquoted _ unquoted]
  rfl

end Body

namespace Bootstrap

/-- The literals of the snippet are the settings in their order, the environment variable twice. -/
theorem literals_snippet (settings : Bootstrap) :
    literals settings.snippet = some ((settings.credentialPath ++
      [settings.environmentVariable, settings.environmentVariable, settings.placeholder]).map Text.split) := by
  simp only [literals, snippet, List.append_assoc]
  have done : literalsFrom .outside "\x7d)();\n" = some [] := rfl
  simp (disch := decide) only [literalsFrom_unquoted, literalsFrom_join, literalsFrom_asciiLiteral, done,
    Option.map_some, List.map_append, List.map_cons, List.map_nil]

theorem visible_asciiLiteral (t : Text) : (asciiLiteral t).Within (0x20 ≤ ·.val) := by
  have quote : Text.Within (0x20 ≤ ·.val) "\"" := by decide
  exact (quote.append (Sealed.flatMap sealed_asciiPoint t).visible).append quote

/-- The snippet is one line. -/
theorem snippet_line (settings : Bootstrap) :
    ∃ front : Text, settings.snippet = front ++ "\n" ∧ ('\n' : CodePoint) ∉ front := by
  have cut : ("\x7d)();\n" : Text) = "\x7d)();" ++ "\n" := rfl
  have comma : Text.Within (0x20 ≤ ·.val) "," := by decide
  have segments : (Text.join "," (settings.credentialPath.map asciiLiteral)).Within (0x20 ≤ ·.val) := by
    refine comma.join fun t mem => ?_
    obtain ⟨segment, _, rfl⟩ := List.mem_map.mp mem
    exact visible_asciiLiteral segment
  obtain ⟨front, made, visible⟩ :
      ∃ front : Text, settings.snippet = front ++ "\n" ∧ front.Within (0x20 ≤ ·.val) := by
    rw [snippet, cut, ← List.append_assoc]
    refine ⟨_, rfl, ?_⟩
    simp only [Text.within_append, visible_asciiLiteral, segments, and_true]
    decide
  exact ⟨front, made, visible.not_mem (by decide)⟩

end Bootstrap

/-- Texts do not break out of their literals. A block that returns a value is laid out around one literal, which
is sealed and means the value; and a snippet is one line of plain ASCII whose literals mean its settings. -/
theorem embedded_literals :
    (∀ value indent : Text, (∀ c ∈ indent, c = ' ' ∨ c = '\t') → ∃ body : Text,
      Body.returnBlock value indent =
          "\x7b\n" ++ indent ++ "  return " ++ ("\"" ++ body ++ "\"") ++ ";\n" ++ indent ++ "\x7d" ∧
        Sealed body ∧ literals ("\"" ++ body ++ "\"") = some [value] ∧
        literals (Body.returnBlock value indent) = some [value]) ∧
      ∀ settings : Bootstrap,
        (∀ c ∈ settings.snippet, c.val < 0x80) ∧
          (∃ front : Text, settings.snippet = front ++ "\n" ∧ ('\n' : CodePoint) ∉ front) ∧
          ∃ read, literals settings.snippet = some read ∧
            read.map Text.units = (settings.credentialPath ++
              [settings.environmentVariable, settings.environmentVariable, settings.placeholder]).map Text.units := by
  refine ⟨fun value indent blank => ⟨value.flatMap escapedPoint, rfl, ?_, ?_, Body.literals_returnBlock blank⟩,
    fun settings => ⟨fun c mem => (settings.common_snippet c mem).1, settings.snippet_line, _,
      settings.literals_snippet, ?_⟩⟩
  · exact Sealed.flatMap (fun c => (escaped_escapedPoint c).sealed) value
  · have read := literalsFrom_literal [] value
    rw [List.append_nil] at read
    exact read
  · rw [List.map_map]
    exact List.map_congr_left fun t _ => Text.units_split t

theorem embedded_literals_escaped :
    (∀ c ∈ ("\t " : Text), c = ' ' ∨ c = '\t') ∧
      literals (Body.returnBlock "\";\\\n" "\t ") = some [Text.ofString "\";\\\n"] := by
  have blank : ∀ c ∈ ("\t " : Text), c = ' ' ∨ c = '\t' := by decide
  obtain ⟨_, _, _, _, read⟩ := embedded_literals.1 "\";\\\n" "\t " blank
  exact ⟨blank, read⟩

end Rebundle
