import Rebundle.Proofs.Rewrite.Fresh
import Rebundle.Proofs.Text.Decoding

/-!
# Words of a source

The names in use are read from the bytes of a source, not from its tree. A node whose bytes look like a
name is among them when the bytes next to it do not go on with the name. So names that are fresh when these are
in use stand nowhere in the source.
-/

namespace Rebundle

namespace Names

variable {run word after : Bytes}

theorem mem_runsFrom_open (goes : ∀ b ∈ word, continues b = true)
    (ends : ∀ b ∈ after.head?, continues b = false) :
    run.reverse ++ word ∈ runsFrom (some run) (word ++ after) := by
  induction word generalizing run with
  | nil =>
      cases after with
      | nil => simp [runsFrom]
      | cons b rest =>
          have other : continues b = false := ends b rfl
          simp [runsFrom, other]
  | cons b rest ih =>
      obtain ⟨here, later⟩ := List.forall_mem_cons.mp goes
      have longer : (b :: run).reverse ++ rest ∈ runsFrom (some (b :: run)) (rest ++ after) := ih later
      rw [List.reverse_cons, List.append_assoc, List.singleton_append] at longer
      rw [List.cons_append, runsFrom, if_pos here]
      exact longer

/-- A name between bytes that do not belong to it is a run of its own. -/
theorem mem_runsFrom {first : UInt8} (begins : starts first = true) (goes : ∀ b ∈ word, continues b = true)
    (ends : ∀ b ∈ after.head?, continues b = false) (before : Bytes)
    (apart : ∀ b ∈ before.getLast?, continues b = false) :
    first :: word ∈ runsFrom none (before ++ first :: word ++ after) := by
  -- A run that is open when the name comes ends at the byte before it.
  have from_ (open? : Option Bytes) (closed : open? = none ∨ before ≠ []) :
      first :: word ∈ runsFrom open? (before ++ first :: word ++ after) := by
    induction before generalizing open? with
    | nil =>
        obtain rfl := closed.resolve_right (· rfl)
        rw [List.nil_append, List.cons_append, runsFrom, if_pos begins]
        exact @mem_runsFrom_open [first] word after goes ends
    | cons b rest ih =>
        have later : ∀ c ∈ rest.getLast?, continues c = false := by
          cases rest with
          | nil => nofun
          | cons c rest => rwa [List.getLast?_cons_cons] at apart
        have filled (goesOn : continues b = true) : rest ≠ [] := by
          rintro rfl
          rw [apart b rfl] at goesOn
          cases goesOn
        rw [List.cons_append, List.cons_append]
        cases open? with
        | none =>
            rw [runsFrom]
            split
            · rename_i starting
              exact ih later _ (.inr (filled (by rw [continues, starting, Bool.true_or])))
            · exact ih later none (.inl rfl)
        | some run =>
            rw [runsFrom]
            split
            · rename_i goesOn
              exact ih later _ (.inr (filled goesOn))
            · exact List.mem_cons_of_mem _ (ih later none (.inl rfl))
  exact from_ none (.inl rfl)

/-- A text of ASCII characters that make up one name. -/
structure IsName (t : Text) : Prop where
  ascii : Utf8.Ascii t
  begins : ∀ c ∈ t.head?, starts c.val.toUInt8 = true
  goes : ∀ c ∈ t, continues c.val.toUInt8 = true
  full : t ≠ []

theorem isName_candidate (i : Nat) : IsName (candidate (base "temp") i) := by
  have lead : IsName (base "temp") := ⟨by decide, by decide, by decide, by decide⟩
  have digits (n : Nat) : ∀ c ∈ Text.ofNat n, c.val < 0x80 ∧ continues c.val.toUInt8 = true := by
    intro c mem
    obtain ⟨digit, known, rfl⟩ := List.mem_map.mp mem
    have range := Nat.isDigit_of_mem_toDigits (by decide) (by decide) known
    have all : ∀ m < 58, 48 ≤ m → m < 0x80 ∧ continues m.toUInt8 = true := by decide
    rw [Char.isDigit, Bool.and_eq_true, decide_eq_true_eq, decide_eq_true_eq] at range
    exact all digit.toNat (Nat.lt_succ_of_le (UInt32.le_iff_toNat_le.mp range.2)) (UInt32.le_iff_toNat_le.mp range.1)
  unfold candidate
  split
  · exact lead
  · refine ⟨List.forall_mem_append.mpr ⟨lead.ascii, fun c mem => (digits _ c mem).1⟩, ?_,
      List.forall_mem_append.mpr ⟨lead.goes, fun c mem => (digits _ c mem).2⟩, ?_⟩
    · rw [List.head?_append_of_ne_nil _ lead.full]
      exact lead.begins
    · exact List.append_ne_nil_of_left_ne_nil lead.full _

end Names

/-- Whether the bytes of a source next to a node do not go on with a name. -/
structure Tree.IsWord (source : Bytes) (t : Tree) : Prop where
  before : ∀ b ∈ (source.take t.range.start).getLast?, Names.continues b = false
  after : ∀ b ∈ (source.drop t.range.stop).head?, Names.continues b = false

/-- The text of a word is in use, when it is a name. -/
theorem Tree.IsWord.mem_collect {source : Bytes} {t : Tree} (isWord : t.IsWord source)
    (isName : Names.IsName (t.text source)) : t.text source ∈ Names.collect source := by
  have bytes : t.range.slice source = Utf8.asciiBytes (t.text source) := by
    refine Utf8.decodeEscaped_injective ?_
    have read := Utf8.decodeEscaped_ascii_append isName.ascii []
    rw [List.append_nil] at read
    rw [read]
    exact (List.append_nil _).symm
  have again : (Utf8.asciiBytes (t.text source)).map (fun b => CodePoint.ofNat b.toNat) = t.text source := by
    rw [Utf8.asciiBytes, List.map_map]
    refine (List.map_congr_left fun c mem => ?_).trans (List.map_id _)
    have small := isName.ascii c mem
    have value : c.val.toUInt8.toNat = c.val := by simp; omega
    simp [value, CodePoint.ofNat, c.val_lt]
  obtain ⟨c, rest, made⟩ := List.exists_cons_of_ne_nil isName.full
  have parts : source = source.take t.range.start ++ Utf8.asciiBytes (t.text source) ++
      source.drop t.range.stop := by
    have inside : t.range.start ≤ t.range.stop := by
      by_contra empty
      have none : t.range.slice source = [] := by
        rw [Range.slice, Nat.sub_eq_zero_of_le (by omega), List.take_zero]
      rw [bytes, made] at none
      cases none
    have rejoined := List.take_append_drop (t.range.stop - t.range.start) (source.drop t.range.start)
    rw [List.drop_drop, Nat.add_sub_cancel' inside] at rejoined
    rw [← bytes, Range.slice, List.append_assoc, rejoined, List.take_append_drop]
  refine List.mem_eraseDups.mpr (List.mem_map.mpr ⟨_, ?_, again⟩)
  have begins := isName.begins
  have goes := isName.goes
  rw [made] at parts begins goes ⊢
  rw [parts]
  exact Names.mem_runsFrom (begins c rfl) (List.forall_mem_map.mpr (List.forall_mem_cons.mp goes).2) isWord.after _
    isWord.before

/-! Fresh names are no words of the source. -/

namespace Names

/-- The text of some ASCII bytes. -/
def spelling (run : Bytes) : Text := run.map fun b => CodePoint.ofNat b.toNat

/-- Whether bytes of names stand somewhere in a source, and the bytes next to them are no bytes of names. -/
structure IsRun (source run : Bytes) : Prop where
  goes : ∀ b ∈ run, continues b = true
  stands : ∃ before after, source = before ++ run ++ after ∧ (∀ b ∈ before.getLast?, continues b = false) ∧
    ∀ b ∈ after.head?, continues b = false

/-- Whether a candidate is the first one that is not in use. -/
structure FirstFree (hint : Text) (used : List Text) (i : Nat) : Prop where
  free : candidate (base hint) i ∉ used
  before : ∀ j < i, candidate (base hint) j ∈ used

variable {source : Bytes} {hint : Text} {used : List Text} {i : Nat}

/-- A run is in use when it begins like a name. -/
theorem IsRun.mem_collect {first : UInt8} {rest : Bytes} (isRun : IsRun source (first :: rest))
    (begins : starts first = true) : spelling (first :: rest) ∈ collect source := by
  obtain ⟨before, after, rfl, apart, ends⟩ := isRun.stands
  have goes := (List.forall_mem_cons.mp isRun.goes).2
  exact List.mem_eraseDups.mpr (List.mem_map_of_mem (mem_runsFrom begins goes ends before apart))

/-- A candidate begins with a low line, whatever the hint. -/
theorem head?_candidate (hint : Text) (i : Nat) :
    (candidate (base hint) i).head? = some ('_' : CodePoint) := by
  unfold candidate
  split <;> rfl

theorem eq_of_ofNat_eq {b : UInt8} (same : CodePoint.ofNat b.toNat = ('_' : CodePoint)) : b = 0x5F := by
  have value := congrArg CodePoint.val same
  rw [CodePoint.val_ofNat (by have := b.toNat_lt; omega)] at value
  exact UInt8.toNat_inj.mp value

/-- A candidate that is not in use is no run of the source: as it begins like a name, it would be collected. -/
theorem spelling_ne {run : Bytes} (isRun : IsRun source run) (free : candidate (base hint) i ∉ collect source) :
    spelling run ≠ candidate (base hint) i := by
  intro same
  have head := head?_candidate hint i
  rw [← same] at head
  cases run with
  | nil => cases head
  | cons first rest =>
      have low : first = 0x5F := eq_of_ofNat_eq (Option.some.inj head)
      exact free (same ▸ isRun.mem_collect (by rw [low]; decide))

theorem FirstFree.congr {used' : List Text} (first : FirstFree hint used i)
    (same : ∀ name, name ∈ used ↔ name ∈ used') : FirstFree hint used' i :=
  ⟨fun mem => first.free ((same _).mpr mem), fun j lower => (same _).mp (first.before j lower)⟩

/-- The candidates in front of the first free one are different names in use. -/
theorem FirstFree.le_length (first : FirstFree hint used i) : i ≤ used.length := by
  have distinct : ((List.range i).map (candidate (base hint))).Nodup :=
    List.Nodup.map (candidate_injective (base hint)) List.nodup_range
  have among : (List.range i).map (candidate (base hint)) ⊆ used := by
    intro name mem
    obtain ⟨j, lower, rfl⟩ := List.mem_map.mp mem
    exact first.before j (List.mem_range.mp lower)
  have fits := (List.subperm_of_subset distinct among).length_le
  rwa [List.length_map, List.length_range] at fits

end Names

namespace Rewrite

/-- Fresh names for some hints, taken one after the other. -/
def freshNames : (hints : List Text) → Rewrite → List Text × Rewrite
  | [], rewrite => ([], rewrite)
  | hint :: rest, rewrite =>
      let (name, rewrite) := rewrite.freshName hint
      let (names, rewrite) := freshNames rest rewrite
      (name :: names, rewrite)

theorem length_freshNames (hints : List Text) (rewrite : Rewrite) :
    (freshNames hints rewrite).1.length = hints.length := by
  induction hints generalizing rewrite with
  | nil => rfl
  | cons hint rest ih => exact congrArg Nat.succ (ih _)

/-- Every fresh name is the first candidate that is neither in use at the beginning nor taken before. -/
theorem freshNames_first {hints : List Text} (rewrite : Rewrite) {k : Nat} {hint : Text}
    (asked : hints[k]? = some hint) :
    ∃ i, (freshNames hints rewrite).1[k]? = some (Names.candidate (Names.base hint) i) ∧
      Names.FirstFree hint (rewrite.usedNames ++ (freshNames hints rewrite).1.take k) i := by
  induction hints generalizing rewrite k with
  | nil => cases asked
  | cons next rest ih =>
      cases k with
      | zero =>
          cases asked
          obtain ⟨i, fresh, free, before⟩ := Names.exists_fresh hint rewrite.usedNames
          refine ⟨i, congrArg some fresh, ?_⟩
          rw [List.take_zero, List.append_nil]
          exact ⟨free, before⟩
      | succ k =>
          obtain ⟨i, found, first⟩ := @ih (rewrite.freshName next).2 k asked
          refine ⟨i, found, first.congr fun name => ?_⟩
          -- the name that is taken first moves from the names in use to the names taken
          simp only [freshNames, freshName, List.take_succ_cons, List.mem_append, List.mem_cons]
          tauto

/-- Fresh names for any hints, when the names of a source are in use, are different from each other and from all
runs of name bytes in the source. Each is the first candidate for its hint that is not in use, and there are no
more candidates in front of it than names in use. -/
theorem freshNames_collect (source : Bytes) (hints : List Text) (rewrite : Rewrite) :
    let names := (freshNames hints { rewrite with usedNames := Names.collect source }).1
    names.length = hints.length ∧ names.Nodup ∧
    (∀ run, Names.IsRun source run → Names.spelling run ∉ names) ∧
    ∀ k hint, hints[k]? = some hint → ∃ i ≤ (Names.collect source).length + k,
      names[k]? = some (Names.candidate (Names.base hint) i) ∧
        Names.FirstFree hint (Names.collect source ++ names.take k) i := by
  intro names
  have length : names.length = hints.length := length_freshNames hints _
  have first (k : Nat) (inside : k < names.length) : ∃ hint i, hints[k]? = some hint ∧
      names[k]? = some (Names.candidate (Names.base hint) i) ∧
      Names.FirstFree hint (Names.collect source ++ names.take k) i := by
    obtain ⟨hint, asked⟩ : ∃ hint, hints[k]? = some hint := ⟨_, List.getElem?_eq_getElem (length ▸ inside)⟩
    obtain ⟨i, found, first⟩ := freshNames_first { rewrite with usedNames := Names.collect source } asked
    exact ⟨hint, i, asked, found, first⟩
  refine ⟨length, ?_, ?_, ?_⟩
  · rw [List.Nodup, List.pairwise_iff_getElem]
    intro j k within inside earlier same
    obtain ⟨hint, i, _, found, first⟩ := first k inside
    have taken : names[k] = Names.candidate (Names.base hint) i :=
      Option.some.inj ((List.getElem?_eq_getElem inside).symm.trans found)
    refine first.free (List.mem_append_right _ (taken ▸ same ▸ ?_))
    exact List.mem_take_iff_getElem.mpr ⟨j, Nat.lt_min.mpr ⟨earlier, within⟩, rfl⟩
  · intro run isRun mem
    obtain ⟨k, inside, same⟩ := List.getElem_of_mem mem
    obtain ⟨hint, i, _, found, first⟩ := first k inside
    rw [List.getElem?_eq_getElem inside, same] at found
    exact Names.spelling_ne isRun (fun used => first.free (List.mem_append_left _ used)) (Option.some.inj found)
  · intro k hint asked
    obtain ⟨i, found, first⟩ := freshNames_first { rewrite with usedNames := Names.collect source } asked
    refine ⟨i, first.le_length.trans ?_, found, first⟩
    rw [List.length_append]
    exact Nat.add_le_add_left (List.length_take_le k _) _

end Rewrite

end Rebundle
