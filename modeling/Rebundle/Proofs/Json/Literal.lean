import Rebundle.Json.Reader
import Rebundle.Json.Writer

/-!
# Objects of texts are read back

A character of a literal is written as itself, behind a backslash with a letter, or by its number. The
reader takes each of these for the character, so it reads a literal back up to its closing quote, and
with the literals it reads back an object whose members are texts.
-/

namespace Rebundle.Json

/-- The ways in which a character is written. -/
inductive Escaped (c : CodePoint) : Text → Prop where
  | letter (e : CodePoint) (noNumber : e ≠ 'u') (means : letterEscape? e = some c) :
      Escaped c ['\\', e]
  | number (digits : Text) (four : digits.length = 4) (means : hexQuad? digits = some c.val)
      (control : c.val ≤ 0x1F) : Escaped c ('\\' :: 'u' :: digits)
  | plain (noQuote : c ≠ '"') (noBackslash : c ≠ '\\') (visible : 0x1F < c.val) : Escaped c [c]

/-- The last hexadecimal digit stands behind the digits of the sixteenth part. -/
theorem hex_succ {width : Nat} (some : 0 < width) (n : Nat) :
    Text.hex (width + 1) n = Text.hex width (n / 16) ++ [CodePoint.ofChar (Nat.digitChar (n % 16))] := by
  simp only [Text.hex]
  rcases Nat.lt_or_ge n 16 with small | big
  · rw [Nat.toDigits_of_lt_base small, Nat.div_eq_of_lt small, Nat.mod_eq_of_lt small,
      Nat.toDigits_of_lt_base (by decide)]
    obtain ⟨width, rfl⟩ : ∃ m, width = m + 1 := ⟨width - 1, by omega⟩
    rw [List.map_singleton, List.length_singleton, Nat.add_sub_cancel, List.replicate_succ']
    rfl
  · rw [Nat.toDigits_of_base_le (by decide) big]
    simp only [List.map_append, List.length_append, List.length_map, List.map_cons, List.map_nil,
      List.length_cons, List.length_nil, Nat.zero_add, Nat.add_sub_add_right, List.append_assoc]

theorem hexValue?_digitChar : ∀ d < 16, hexValue? (CodePoint.ofChar (Nat.digitChar d)) = some d := by decide

/-- The four digits of a number below `0x10000` have its value. -/
theorem hexQuad?_hex {n : Nat} (small : n < 0x10000) :
    (Text.hex 4 n).length = 4 ∧ hexQuad? (Text.hex 4 n) = some n := by
  have first : Text.hex 1 (n / 16 / 16 / 16) = [CodePoint.ofChar (Nat.digitChar (n / 16 / 16 / 16))] := by
    rw [Text.hex, Nat.toDigits_of_lt_base (by omega)]
    rfl
  rw [hex_succ (by decide), hex_succ (by decide), hex_succ (by decide), first]
  refine ⟨rfl, ?_⟩
  have digit (m : Nat) := hexValue?_digitChar (m % 16) (Nat.mod_lt m (by decide))
  have value : ((n / 16 / 16 / 16 * 16 + n / 16 / 16 % 16) * 16 + n / 16 % 16) * 16 + n % 16 = n := by omega
  simp only [List.cons_append, List.nil_append, hexQuad?, digit, hexValue?_digitChar (n / 16 / 16 / 16) (by omega),
    Option.bind_eq_bind, Option.bind_some, value]

theorem eq_ofNat_of_val {c : CodePoint} {n : Nat} (value : c.val = n) : CodePoint.ofNat n = c := by
  subst value
  simp [CodePoint.ofNat, c.val_lt]

/-- A character with a letter is written behind a backslash as a letter that means the character. -/
theorem escaped_of_letter {c : CodePoint} {written : Text} (found : letterEscaped? c = some written) :
    Escaped c written := by
  rw [letterEscaped?] at found
  split at found
  · rename_i same
    cases found
    subst same
    exact .letter '"' (by decide) (by decide)
  split at found
  · rename_i same
    cases found
    subst same
    exact .letter '\\' (by decide) (by decide)
  split at found
  · rename_i same
    cases found
    subst same
    exact .letter 'n' (by decide) (by decide)
  split at found
  · rename_i same
    cases found
    subst same
    exact .letter 'r' (by decide) (by decide)
  split at found
  · rename_i same
    cases found
    subst same
    exact .letter 't' (by decide) (by decide)
  split at found
  · rename_i value
    cases found
    rw [← eq_ofNat_of_val value]
    exact .letter 'b' (by decide) (by decide)
  split at found
  · rename_i value
    cases found
    rw [← eq_ofNat_of_val value]
    exact .letter 'f' (by decide) (by decide)
  · cases found

theorem escaped_escapedPoint (c : CodePoint) : Escaped c (escapedPoint c) := by
  rw [escapedPoint]
  split
  · rename_i escape found
    exact escaped_of_letter found
  · rename_i absent
    split
    · rename_i control
      obtain ⟨four, means⟩ := hexQuad?_hex (n := c.val) (by omega)
      exact .number (Text.hex 4 c.val) four means control
    · rename_i visible
      refine .plain ?_ ?_ (by omega)
      · rintro rfl
        cases absent
      · rintro rfl
        revert absent
        decide

/-- One written character is read as the character that it means. -/
theorem characters_escaped {c : CodePoint} {written : Text} (escaped : Escaped c written)
    (opening fuel : Nat) {rest : Text} (more : rest ≠ []) :
    characters opening (fuel + 1) (written ++ rest) =
      (characters opening fuel rest).map fun (others, left) => (c :: others, left) := by
  cases escaped with
  | letter e noNumber means =>
      have quote : ('\\' : CodePoint) ≠ '"' := by decide
      simp only [List.cons_append, List.nil_append, characters, if_neg quote, if_pos, if_neg noNumber,
        means]
  | number digits four means control =>
      have quote : ('\\' : CodePoint) ≠ '"' := by decide
      have long : ¬ (digits ++ rest).length ≤ 4 := by
        have := List.length_pos_iff.mpr more
        rw [List.length_append]
        omega
      have alone : ¬ (0xD800 ≤ c.val) := by omega
      have read : numberEscape (digits ++ rest) = .ok (c, rest) := by
        have front : (digits ++ rest).take 4 = digits := by rw [← four, List.take_left]
        have back : (digits ++ rest).drop 4 = rest := by rw [← four, List.drop_left]
        simp only [numberEscape, if_neg long, front, back, means]
        rw [eq_ofNat_of_val rfl]
        split
        · simp [alone]
        · rfl
      simp only [List.cons_append, characters, if_neg quote, if_pos, read]
  | plain noQuote noBackslash visible =>
      have noControl : ¬ c.val ≤ 0x1F := by omega
      simp only [List.cons_append, List.nil_append, characters, if_neg noQuote, if_neg noBackslash,
        if_neg noControl]

/-- A literal is read back up to its closing quote. -/
theorem characters_literal (t rest : Text) (opening : Nat) {fuel : Nat} (enough : t.length < fuel) :
    characters opening fuel (t.flatMap escapedPoint ++ ('"' : CodePoint) :: rest) =
      .ok (t, rest) := by
  induction t generalizing fuel with
  | nil =>
      obtain ⟨fuel, rfl⟩ : ∃ n, fuel = n + 1 := ⟨fuel - 1, by simp at enough; omega⟩
      simp [characters]
  | cons c t ih =>
      obtain ⟨fuel, rfl⟩ : ∃ n, fuel = n + 1 := ⟨fuel - 1, by simp at enough; omega⟩
      rw [List.flatMap_cons, List.append_assoc,
        characters_escaped (escaped_escapedPoint c) opening fuel (by simp), ih (by simpa using enough)]
      rfl

theorem length_le_flatMap_escapedPoint (t : Text) : t.length ≤ (t.flatMap escapedPoint).length := by
  induction t with
  | nil => exact Nat.le_refl _
  | cons c t ih =>
      have some : 0 < (escapedPoint c).length := by
        have escaped := escaped_escapedPoint c
        generalize escapedPoint c = written at escaped
        cases escaped <;> simp
      simp only [List.flatMap_cons, List.length_append, List.length_cons]
      omega

/-- A text behind its opening quote. -/
def closed (t : Text) : Text := t.flatMap escapedPoint ++ [('"' : CodePoint)]

theorem literal_eq (t : Text) : literal t = ('"' : CodePoint) :: closed t := rfl

theorem characters_closed (t rest : Text) (opening fuel : Nat)
    (enough : (closed t).length ≤ fuel) :
    characters opening fuel (closed t ++ rest) = .ok (t, rest) := by
  have short := length_le_flatMap_escapedPoint t
  simp only [closed, List.length_append, List.length_singleton] at enough
  rw [closed, List.append_assoc]
  exact characters_literal t rest opening (by omega)

variable {limits : Limits}

/-- A literal is a value. -/
theorem value_literal (fuel levels : Nat) (t rest : Text) :
    value limits (fuel + 1) levels (literal t ++ rest) = .ok (.string t, rest) := by
  have read := characters_closed t rest (literal t ++ rest).length (literal t ++ rest).length
    (by rw [literal_eq]; simp; omega)
  rw [literal_eq, List.cons_append] at read ⊢
  cases levels <;> simp only [value, if_true, read, Step.andThen]

theorem skipSpace_blanks (level : Nat) (rest : Text) :
    skipSpace (newline level ++ rest) = skipSpace rest := by
  have blanks (n : Nat) : skipSpace (List.replicate n (' ' : CodePoint) ++ rest) = skipSpace rest := by
    induction n with
    | zero => rfl
    | succ n ih => exact ih
  exact blanks (2 * level)

theorem skipSpace_literal (t rest : Text) : skipSpace (literal t ++ rest) = literal t ++ rest := rfl

/-- What stands behind the first literal of an object of texts: a colon, its text, the other members
and the closing brace. -/
def behindKey (level : Nat) (first : Text) (others : List (Text × Text)) : Text :=
  ": " ++ (literal first ++
    ((memberPieces literal level (others.map fun entry => (entry.1, Json.string entry.2))).flatten ++
      (newline (level - 1) ++ "\x7d")))

theorem memberPieces_cons (level : Nat) (key item : Text) (others : List (Text × Text)) (rest : Text) :
    (memberPieces literal level (((key, item) :: others).map fun entry =>
        (entry.1, Json.string entry.2))).flatten ++ rest =
      "," ++ (newline level ++ (literal key ++ (": " ++ (literal item ++
        ((memberPieces literal level (others.map fun entry =>
          (entry.1, Json.string entry.2))).flatten ++ rest))))) := by
  simp [memberPieces, pieces, scalarText, List.append_assoc]

/-- One member with a text is read; what follows its text decides how the reading goes on. -/
theorem members_literal (fuel levels : Nat) (table : Table Text Json) (key item rest : Text) :
    members limits (fuel + 2) levels table (literal key ++ (": " ++ (literal item ++ rest))) =
      match skipSpace rest with
      | [] => halt .expectedComma []
      | c :: tail =>
          if c = '\x7d' then .ok (table.put key (.string item), tail)
          else if c = ',' then members limits (fuel + 1) levels (table.put key (.string item)) (skipSpace tail)
          else halt .expectedComma (c :: tail) := by
  have read := characters_closed key (": " ++ (literal item ++ rest))
    (literal key ++ (": " ++ (literal item ++ rest))).length
    (literal key ++ (": " ++ (literal item ++ rest))).length (by
      rw [literal_eq]
      simp only [List.length_append, List.length_cons]
      omega)
  have colon : skipSpace (": " ++ (literal item ++ rest)) =
      (':' : CodePoint) :: (' ' : CodePoint) :: (literal item ++ rest) := rfl
  have blank : skipSpace ((' ' : CodePoint) :: (literal item ++ rest)) = literal item ++ rest := rfl
  rw [literal_eq key, List.cons_append] at read ⊢
  rw [members]
  cases behind : skipSpace rest with
  | nil => simp only [if_true, read, Step.andThen, colon, blank, value_literal, behind]
  | cons c tail => simp only [if_true, read, Step.andThen, colon, blank, value_literal, behind]

/-- The members of an object of texts, from a first key on. -/
theorem members_texts (level : Nat) (others : List (Text × Text)) (key first rest : Text)
    (table : Table Text Json) (fuel levels : Nat) (enough : others.length < fuel) :
    members limits (fuel + 1) levels table (literal key ++ (behindKey level first others ++ rest)) =
      .ok ((((key, first) :: others).foldl
        (fun table entry => table.put entry.1 (.string entry.2)) table), rest) := by
  obtain ⟨fuel, rfl⟩ : ∃ n, fuel = n + 1 := ⟨fuel - 1, by omega⟩
  induction others generalizing key first table fuel with
  | nil =>
      simp only [behindKey, List.map_nil, memberPieces, List.flatten_nil, List.nil_append,
        List.append_assoc]
      rw [members_literal, skipSpace_blanks]
      rfl
  | cons entry others ih =>
      obtain ⟨next, item⟩ := entry
      obtain ⟨fuel, rfl⟩ : ∃ n, fuel = n + 1 := ⟨fuel - 1, by simp at enough; omega⟩
      have behind := ih next item (table.put key (.string first)) fuel (by simpa using enough)
      rw [behindKey, memberPieces_cons]
      simp only [List.append_assoc]
      rw [members_literal]
      have comma (rest : Text) : skipSpace ("," ++ rest) = (',' : CodePoint) :: rest := rfl
      have differ : (',' : CodePoint) ≠ '\x7d' := by decide
      simp only [comma, if_neg differ, if_true, skipSpace_blanks, skipSpace_literal]
      simp only [behindKey, List.append_assoc] at behind
      exact behind

theorem length_le_memberPieces (level : Nat) (entries : List (Text × Text)) :
    entries.length ≤ (memberPieces literal level (entries.map fun entry =>
      (entry.1, Json.string entry.2))).flatten.length := by
  induction entries with
  | nil => exact Nat.zero_le _
  | cons entry entries ih =>
      have comma : (Text.ofString ",").length = 1 := rfl
      have more := memberPieces_cons level entry.1 entry.2 entries []
      simp only [List.append_nil] at more
      rw [more]
      simp only [List.length_append, List.length_cons, comma]
      omega

/-- The document of an object of texts, with a line feed at its end. -/
theorem parse_texts (limits : Limits) (key first : Text) (others : List (Text × Text)) :
    parse limits ((prettyPieces (.object (((key, first) :: others).map fun entry =>
        (entry.1, .string entry.2)))).flatten ++ "\n") =
      .ok (.object (((key, first) :: others).foldl
        (fun table entry => Table.put entry.1 (.string entry.2) table) [])) := by
  have laid : (prettyPieces (.object (((key, first) :: others).map fun entry =>
      (entry.1, Json.string entry.2)))).flatten ++ "\n" =
        ('\x7b' : CodePoint) :: (newline 1 ++ (literal key ++ (behindKey 1 first others ++ "\n"))) := by
    simp [prettyPieces, pieces, scalarText, behindKey, List.append_assoc]
    rfl
  rw [laid]
  generalize document' : (('\x7b' : CodePoint) ::
    (newline 1 ++ (literal key ++ (behindKey 1 first others ++ "\n")))) = t
  have long : others.length < t.length := by
    have := length_le_memberPieces 1 others
    rw [← document']
    simp only [behindKey, List.length_append, List.length_cons]
    omega
  obtain ⟨inner, levels⟩ : ∃ inner, limits.levels = inner + 1 :=
    ⟨limits.levels - 1, by have := limits.flat; omega⟩
  have read := @members_texts limits 1 others key first "\n" [] (2 * t.length) inner (by omega)
  have opens : skipSpace t = t := by
    rw [← document']
    rfl
  have name : skipSpace (newline 1 ++ (literal key ++ (behindKey 1 first others ++ "\n"))) =
      ('"' : CodePoint) :: (closed key ++ (behindKey 1 first others ++ "\n")) := by
    rw [skipSpace_blanks]
    rfl
  have object : value limits (2 * t.length + 2) limits.levels t = .ok (.object (((key, first) :: others).foldl
      (fun table entry => Table.put entry.1 (.string entry.2) table) []), "\n") := by
    have noQuote : ('\x7b' : CodePoint) ≠ '"' := by decide
    have noBrace : ('"' : CodePoint) ≠ '\x7d' := by decide
    rw [literal_eq, List.cons_append] at read
    generalize 2 * t.length = fuel at read
    rw [← document', levels, value]
    simp only [if_neg noQuote, if_true, name, if_neg noBrace, read]
    rfl
  have parsed : document limits t = .ok (.object (((key, first) :: others).foldl
      (fun table entry => Table.put entry.1 (.string entry.2) table) [])) := by
    have noMark : ¬ ('\x7b' : CodePoint).val = 0xFEFF := by decide
    have feed : skipSpace "\n" = [] := rfl
    rw [← document', document, if_neg noMark, document', opens, object]
    simp only [feed]
  rw [parse, parsed]
  rfl

end Rebundle.Json
