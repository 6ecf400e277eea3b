import Rebundle.Proofs.Document.Gaps
import Rebundle.Proofs.Rewrite.Region
import Rebundle.Proofs.Scope.Held
import Rebundle.Proofs.Script.Rows
import Rebundle.Proofs.Syntax.Reached
import Rebundle.Proofs.Text.Encoding

/-!
# Rendered scripts

A pane that writes new names over the names of a program, and nothing else, writes the script of the program
with these names: its bytes are the parts of the script, one behind the other.
-/

namespace Rebundle

open Cursor

theorem Utf8.toOption_encodeEscaped_append (s t : Text) : (encodeEscaped (s ++ t)).toOption =
    (encodeEscaped s).toOption.bind fun front => (encodeEscaped t).toOption.map (front ++ ·) := by
  cases whole : encodeEscaped (s ++ t) with
  | ok bytes =>
      obtain ⟨front, back, first, second, rfl⟩ := encodeEscaped_append whole
      rw [first, second]
      rfl
  | error fault =>
      cases first : encodeEscaped s with
      | error fault => rfl
      | ok front =>
          cases second : encodeEscaped t with
          | error fault => rfl
          | ok back =>
              have both := ((spells_of_encodeEscapedFrom first).append (spells_of_encodeEscapedFrom second)).encode
              rw [whole] at both
              cases both

/-- One row of bytes behind another, when both can be written. -/
def behind? (front back : Option Bytes) : Option Bytes := front.bind fun first => back.map (first ++ ·)

theorem behind?_assoc (a b c : Option Bytes) : behind? (behind? a b) c = behind? a (behind? b c) := by
  cases a <;> cases b <;> cases c <;> simp [behind?]

@[simp] theorem behind?_nil (a : Option Bytes) : behind? a (some []) = a := by
  cases a <;> simp [behind?]

@[simp] theorem nil_behind? (a : Option Bytes) : behind? (some []) a = a := by
  cases a <;> simp [behind?]

namespace Script

/-- The bytes of a row of parts, unless a text of them cannot be encoded. -/
def bytesOf? (source : Bytes) : List Part → Option Bytes
  | [] => some []
  | .text t :: rest => behind? (Utf8.encodeEscaped t).toOption (bytesOf? source rest)
  | .span span :: rest => behind? (some (Source.slice source span.start span.stop)) (bytesOf? source rest)

/-- The bytes of a script. -/
def bytes? (source : Bytes) (s : Script) : Option Bytes := bytesOf? source s.parts

variable {source : Bytes} {new? : Range → Option Text}

theorem bytesOf?_append (front back : List Part) :
    bytesOf? source (front ++ back) = behind? (bytesOf? source front) (bytesOf? source back) := by
  induction front with
  | nil => rw [List.nil_append, bytesOf?, nil_behind?]
  | cons part rest ih => cases part <;> rw [List.cons_append, bytesOf?, bytesOf?, ih, behind?_assoc]

theorem bytesOf?_text (t : Text) : bytesOf? source [.text t] = (Utf8.encodeEscaped t).toOption :=
  behind?_nil _

theorem bytesOf?_copied (start stop : Nat) :
    bytesOf? source (copied start stop).parts = some (Source.slice source start stop) := by
  rw [copied, parts, bytesOf?, bytesOf?, behind?_nil]

/-- A text can be written in parts. -/
theorem bytesOf?_text_append (s t : Text) (rest : List Part) :
    bytesOf? source (.text (s ++ t) :: rest) = bytesOf? source (.text s :: .text t :: rest) := by
  rw [bytesOf?, bytesOf?, bytesOf?, Utf8.toOption_encodeEscaped_append, ← behind?_assoc]
  rfl

theorem partsAll_append (front back : List Script) : partsAll (front ++ back) = partsAll front ++ partsAll back := by
  induction front with
  | nil => rfl
  | cons s rest ih => rw [List.cons_append, partsAll, partsAll, ih, List.append_assoc]

/-- A row of nodes with what stands between them, when each node is written in some way. -/
def rowOf (own : Tree → List Script) (start stop : Nat) : List Tree → List Script
  | [] => [copied start stop]
  | t :: rest => copied start t.start :: (own t ++ rowOf own t.stop stop rest)

theorem row_eq_rowOf (start stop : Nat) (ts : List Tree) :
    row source new? start stop ts = rowOf (fun t => [ofTree source new? t]) start stop ts := by
  induction ts generalizing start with
  | nil => rfl
  | cons t rest ih => rw [row, rowOf, ih, List.singleton_append]

theorem specifierRow_eq_rowOf (start stop : Nat) (ts : List Tree) : specifierRow source new? start stop ts =
    rowOf (fun t => ofSpecified source t (ofTree source new? t) (newName? new? t)) start stop ts := by
  induction ts generalizing start with
  | nil => rfl
  | cons t rest ih => rw [specifierRow, rowOf, ih]

/-- The parts of a shorthand property with a new name. -/
theorem parts_ofName_shorthand {label : Label} (shorthand : label.kind = .shorthandPropertyIdentifier ∨
      label.kind = .shorthandPropertyIdentifierPattern) (new : Text) :
    (ofName source label (some new)).parts = [.text (label.range.text source), .text ": ", .text new] := by
  obtain ⟨kind, role, range, missing⟩ := label
  rcases shorthand with rfl | rfl <;> rfl

theorem parts_ofName_plain {label : Label} (first : label.kind ≠ .shorthandPropertyIdentifier)
    (second : label.kind ≠ .shorthandPropertyIdentifierPattern) (new : Text) :
    (ofName source label (some new)).parts = [.text new] := by
  simp only [ofName]
  rfl

/-- A default stands where it stood, whatever its property becomes. -/
theorem parts_defaultedRow (label : Label) (ts : List Tree) : (defaultedRow source new? label ts).parts =
    partsAll (row source new? label.range.start label.range.stop ts) := by
  cases ts with
  | nil => rfl
  | cons t rest =>
      rw [defaultedRow, row]
      cases found : defaultedName? new? t with
      | none => rfl
      | some new =>
          obtain ⟨⟨kind, role, range, missing⟩, children⟩ := t
          unfold defaultedName? at found
          split at found
          · rename_i facts
            obtain ⟨rfl, rfl⟩ := facts
            change new? range = _ at found
            rw [ofTree]
            change _ = partsAll (_ :: ofName source _ (new? range) :: _)
            rw [found]
            simp [ofDefaulted, ofName, keyed, leaf, copied, parts, partsAll, Tree.range, Tree.label]
          · cases found

end Script

namespace Pane

open Script

/-- What a pane writes between two offsets, unless a text of it cannot be encoded. -/
def between? (pane : Pane) (source : Bytes) (start stop : Nat) : Option Bytes :=
  (Piece.assemble source (pane.stretch start stop)).toOption

variable {source : Bytes} {pane : Pane}

theorem Sound.between?_split (sound : pane.Sound source.length) {start middle stop : Nat}
    (clear : pane.Clear middle) (first : start ≤ middle) (second : middle ≤ stop) (fits : stop ≤ source.length) :
    pane.between? source start stop =
      behind? (pane.between? source start middle) (pane.between? source middle stop) := by
  simp only [between?]
  rw [sound.assemble_stretch clear (by omega) (by omega) (by omega) (by omega)]
  cases Piece.assemble source (pane.stretch start middle) with
  | error fault => rfl
  | ok front => cases Piece.assemble source (pane.stretch middle stop) <;> rfl

/-- Where no edit stands, the source is copied. -/
theorem between?_of_none {start stop : Nat} (none : ∀ edit ∈ pane.edited, edit.within start stop = false) :
    pane.between? source start stop = some (Source.slice source start stop) := by
  rw [between?, stretch, List.filter_eq_nil_iff.mpr fun edit mem => by rw [none edit mem]; exact Bool.false_ne_true]
  simp only [Source.cut, Piece.assemble, Piece.bytes, Bind.bind, Except.bind, Pure.pure, Except.pure, List.append_nil]
  rfl

/-- Between the ends of an edit that writes one text this text is written, when every edit covers something. -/
theorem Sound.between?_edit (sound : pane.Sound source.length)
    (filled : ∀ edit ∈ pane.edited, edit.start < edit.stop) {edit : Edit} (mem : edit ∈ pane.edited) {t : Text}
    (parts : edit.parts = [.text t]) :
    pane.between? source edit.start edit.stop = (Utf8.encodeEscaped t).toOption := by
  have only : pane.edited.filter (fun other => other.within edit.start edit.stop) = [edit] := by
    have same : ∀ other ∈ pane.edited.filter (fun other => other.within edit.start edit.stop), other = edit := by
      intro other among
      obtain ⟨known, inside⟩ := List.mem_filter.mp among
      have inside := Edit.within_iff.mp inside
      have covers := filled other known
      rcases sound.edited_apart known mem with same | apart
      · exact same
      · omega
    have once : (pane.edited.filter fun other => other.within edit.start edit.stop).Nodup := by
      refine List.Pairwise.imp_of_mem ?_ (sound.edited_ordered.filter _)
      rintro a b memA - apart rfl
      have := filled a (List.mem_of_mem_filter memA)
      omega
    have here : edit ∈ pane.edited.filter fun other => other.within edit.start edit.stop :=
      List.mem_filter.mpr ⟨mem, Edit.within_iff.mpr ⟨Int.le_refl _, Int.le_refl _⟩⟩
    exact List.perm_singleton.mp ((List.perm_ext_iff_of_nodup once (List.nodup_singleton _)).mpr fun other =>
      ⟨fun among => List.mem_singleton.mpr (same other among), fun equal => List.mem_singleton.mp equal ▸ here⟩)
  have blank (offset : Nat) : Source.slice source offset offset = [] := by
    rw [Source.slice, Nat.sub_self, List.take_zero]
  rw [between?, stretch, only, Source.cut, Source.cut, replaced, Edit.pieces, parts]
  simp only [List.flatMap_cons, List.flatMap_nil, List.append_nil, List.singleton_append, Piece.assemble, Piece.bytes,
    Bind.bind, Except.bind, Pure.pure, Except.pure, blank, List.nil_append]
  cases Utf8.encodeEscaped t <;> simp

end Pane

theorem Kind.isRewritten_of_isName {k : Kind} (isName : k.isName = true) : k.isRewritten = true := by
  rw [isRewritten.eq_def]
  split <;> simp [isName]

/-- A name is exported as it is when its parent is an export specifier without an alias. -/
theorem Renaming.isBareExport_iff {c : Cursor} : isBareExport c = true ↔
    ∃ d, c.parent? = some d ∧ d.kind = .exportSpecifier ∧
      ∀ t ∈ d.focus.children, t.label.role ≠ some .alias := by
  obtain ⟨t, path⟩ := c
  cases path with
  | nil => simp [isBareExport, parentKind?, parent?]
  | cons crumb above =>
      simp only [isBareExport, parentKind?, parent?, Cursor.child?, Tree.child?]
      simp [Cursor.kind, Tree.kind, Tree.label]

namespace Tree

theorem LaidBetween.widen {start stop start' stop' : Nat} {ts : List Tree} (laid : LaidBetween start stop ts)
    (begins : start' ≤ start) (ends : stop ≤ stop') : LaidBetween start' stop' ts := by
  induction ts generalizing start start' with
  | nil =>
      rw [LaidBetween] at laid ⊢
      omega
  | cons t rest ih =>
      rw [LaidBetween] at laid ⊢
      exact ⟨Nat.le_trans begins laid.1, laid.2.1, ih laid.2.2 (Nat.le_refl _)⟩

end Tree

namespace Pane

open Script

/-- Whether a pane writes the new names of a program over the names that get one, and nothing else. -/
structure Renames (source : Bytes) (root : Tree) (new? : Range → Option Text) (pane : Pane) : Prop where
  sound : pane.Sound source.length
  only : ∀ edit ∈ pane.edited, ∃ c : Cursor, c.whole = root ∧ (newName? new? c.focus).isSome = true ∧
    edit.range = c.range
  each : ∀ c : Cursor, c.whole = root → ∀ new, newName? new? c.focus = some new →
    ∃ edit ∈ pane.edited, edit.range = c.range ∧
      edit.parts = [.text (Renaming.written c (c.focus.text source) new)]

namespace Renames

variable {source : Bytes} {root : Tree} {new? : Range → Option Text} {pane : Pane} {edit : Edit} {c : Cursor}
  (renames : pane.Renames source root new?) (wf : root.WellFormed source) (plain : root.Plain)

include renames wf

theorem filled (mem : edit ∈ pane.edited) : edit.start < edit.stop := by
  obtain ⟨e, rfl, named, range⟩ := renames.only edit mem
  obtain ⟨new, named⟩ := Option.isSome_iff_exists.mp named
  have solid := wf.solid_of_rewritten e.focus_mem_whole (Kind.isRewritten_of_isName (isName_of_newName? named))
  have covers : e.range.start < e.range.stop := solid.start_lt_stop
  rw [← range] at covers
  exact covers

/-- What is written for a name is its new name. -/
theorem between?_name (stands : c.whole = root) {new : Text} (named : newName? new? c.focus = some new) :
    pane.between? source c.focus.start c.focus.stop =
      bytesOf? source [.text (Renaming.written c (c.focus.text source) new)] := by
  obtain ⟨edit, mem, range, parts⟩ := renames.each c stands new named
  have written := renames.sound.between?_edit (fun edit mem => renames.filled wf mem) mem parts
  have start : edit.start = c.focus.start := congrArg Range.start range
  have stop : edit.stop = c.focus.stop := congrArg Range.stop range
  rw [start, stop] at written
  rw [written, bytesOf?_text]

/-- What is written for a name that gets a new one is its script, unless the name is exported as it is. -/
theorem between?_renamed (stands : c.whole = root) {new : Text} (named : newName? new? c.focus = some new)
    (inner : Renaming.isBareExport c = false) : pane.between? source c.focus.start c.focus.stop =
      bytesOf? source (ofTree source new? c.focus).parts := by
  have isName := isName_of_newName? named
  have range : new? c.focus.range = some new := by rw [← named, newName?, if_pos isName]
  rw [renames.between?_name wf stands named, ofTree_of_isName isName, range, Renaming.written]
  split
  · rename_i kind
    rw [parts_ofName_shorthand (.inl kind), bytesOf?_text_append, bytesOf?_text_append]
    rfl
  · rename_i kind
    rw [parts_ofName_shorthand (.inr kind), bytesOf?_text_append, bytesOf?_text_append]
    rfl
  · rename_i first second
    rw [parts_ofName_plain first second, inner]
    rfl

/-- What is written for a row of nodes is put together from what is written for each of them. -/
theorem between?_row (own : Tree → List Script) {start stop : Nat} {ts : List Tree}
    (laid : Tree.LaidBetween start stop ts) (fits : stop ≤ source.length)
    (clear : ∀ t ∈ ts, pane.Clear t.start ∧ pane.Clear t.stop)
    (inside : ∀ edit ∈ pane.edited, edit.within start stop = true →
      ∃ t ∈ ts, edit.within t.start t.stop = true)
    (each : ∀ t ∈ ts, pane.between? source t.start t.stop = bytesOf? source (partsAll (own t))) :
    pane.between? source start stop = bytesOf? source (partsAll (rowOf own start stop ts)) := by
  induction ts generalizing start with
  | nil =>
      rw [between?_of_none, rowOf, partsAll, partsAll, List.append_nil, bytesOf?_copied]
      intro edit mem
      rw [Bool.eq_false_iff]
      intro within
      obtain ⟨t, none, _⟩ := inside edit mem within
      cases none
  | cons t rest ih =>
      rw [Tree.LaidBetween] at laid
      obtain ⟨begins, laidT, laidRest⟩ := laid
      have proper := laidT.start_le_stop
      have ends := laidRest.le
      have here := clear t List.mem_cons_self
      have filled : ∀ edit ∈ pane.edited, edit.start < edit.stop := fun edit mem => renames.filled wf mem
      have front : pane.between? source start t.start = some (Source.slice source start t.start) := by
        apply between?_of_none
        intro edit mem
        rw [Bool.eq_false_iff]
        intro within
        have before := Edit.within_iff.mp within
        obtain ⟨other, among, covers⟩ := inside edit mem (Edit.within_iff.mpr (by omega))
        have covered := Edit.within_iff.mp covers
        have := filled edit mem
        rcases List.mem_cons.mp among with rfl | later
        · omega
        · have := (laidRest.mem later).2
          omega
      have back := ih laidRest (fun other mem => clear other (List.mem_cons_of_mem _ mem)) (by
        intro edit mem within
        have behind := Edit.within_iff.mp within
        obtain ⟨other, among, covers⟩ := inside edit mem (Edit.within_iff.mpr (by omega))
        rcases List.mem_cons.mp among with rfl | later
        · have covered := Edit.within_iff.mp covers
          have := filled edit mem
          omega
        · exact ⟨other, later, covers⟩) fun other mem => each other (List.mem_cons_of_mem _ mem)
      rw [renames.sound.between?_split here.1 begins (by omega) fits,
        renames.sound.between?_split here.2 proper ends fits, front, each t List.mem_cons_self, back, rowOf, partsAll,
        partsAll_append, bytesOf?_append, bytesOf?_append, bytesOf?_copied]

include plain

/-- An edit stands over a node, inside one of its children, or apart from it. -/
theorem cases (mem : edit ∈ pane.edited) (stands : c.whole = root) :
    (edit.range = c.range ∧ (newName? new? c.focus).isSome = true) ∨
      (∃ t ∈ c.focus.children, t.start ≤ edit.start ∧ edit.stop ≤ t.stop) ∨
        edit.stop ≤ c.focus.start ∨ c.focus.stop ≤ edit.start := by
  obtain ⟨e, whole, named, range⟩ := renames.only edit mem
  have start : edit.start = e.focus.start := congrArg Range.start range
  have stop : edit.stop = e.focus.stop := congrArg Range.stop range
  rw [start, stop]
  rcases comparable wf.laid whole stands with rfl | above | above | apart
  · exact .inl ⟨range, named⟩
  · obtain ⟨new, named⟩ := Option.isSome_iff_exists.mp named
    have leaf := plain.leaves e.focus (whole ▸ e.focus_mem_whole) (isName_of_newName? named)
    obtain ⟨_, child, below, _⟩ := mem_nodes_of_mem_above above
    rw [List.isEmpty_iff.mp leaf] at below
    cases below
  · obtain ⟨_, child, below, inside⟩ := mem_nodes_of_mem_above above
    have laid := (wf.laid.node (stands ▸ c.focus_mem_whole)).1
    exact .inr (.inl ⟨child, below, ((laid.child below).1.node inside).2⟩)
  · exact .inr (.inr apart)

/-- The ends of a node are clear. -/
theorem clear (stands : c.whole = root) : pane.Clear c.focus.start ∧ pane.Clear c.focus.stop := by
  have laid := (wf.laid.node (stands ▸ c.focus_mem_whole)).1
  have proper := laid.start_le_stop
  have either : ∀ edit ∈ pane.edited, edit.start < edit.stop ∧
      ((c.focus.start ≤ edit.start ∧ edit.stop ≤ c.focus.stop) ∨
        edit.stop ≤ c.focus.start ∨ c.focus.stop ≤ edit.start) := by
    intro edit mem
    refine ⟨renames.filled wf mem, ?_⟩
    rcases renames.cases wf plain mem stands with ⟨same, _⟩ | ⟨child, below, inside⟩ | apart
    · have start : edit.start = c.focus.start := congrArg Range.start same
      have stop : edit.stop = c.focus.stop := congrArg Range.stop same
      omega
    · have := laid.child below
      omega
    · exact .inr apart
  constructor
  · intro edit mem
    have := either edit mem
    omega
  · intro edit mem
    have := either edit mem
    omega

/-- An edit inside a node that it does not stand over lies in a child. -/
theorem exists_child (stands : c.whole = root) (keeps : newName? new? c.focus = none) (mem : edit ∈ pane.edited)
    (within : edit.within c.focus.start c.focus.stop = true) :
    ∃ t ∈ c.focus.children, edit.within t.start t.stop = true := by
  have inside := Edit.within_iff.mp within
  have filled := renames.filled wf mem
  rcases renames.cases wf plain mem stands with ⟨_, named⟩ | ⟨child, below, inside⟩ | apart
  · rw [keeps] at named
    cases named
  · exact ⟨child, below, Edit.within_iff.mpr (by omega)⟩
  · omega

/-- What is written for a node without a new name, whose children are written as `own` has them. -/
theorem between?_node (stands : c.whole = root) (keeps : newName? new? c.focus = none) (own : Tree → List Script)
    (each : ∀ t ∈ c.focus.children, pane.between? source t.start t.stop = bytesOf? source (partsAll (own t))) :
    pane.between? source c.focus.start c.focus.stop =
      bytesOf? source (partsAll (rowOf own c.focus.start c.focus.stop c.focus.children)) := by
  have mem : c.focus ∈ root.nodes := stands ▸ c.focus_mem_whole
  refine renames.between?_row wf own (wf.laid.node mem).1.children (wf.node_fits mem) ?_
    (fun edit known within => renames.exists_child wf plain stands keeps known within) each
  intro t child
  obtain ⟨d, up, rfl⟩ := Cursor.exists_child child
  exact renames.clear wf plain ((whole_parent up).symm.trans stands)

/-- What is written for a child of an export specifier without an alias. -/
theorem between?_specified (stands : c.whole = root) (bare : Renaming.isBareExport c = true)
    (keeps : newName? new? c.focus = none → pane.between? source c.focus.start c.focus.stop =
      bytesOf? source (ofTree source new? c.focus).parts) :
    pane.between? source c.focus.start c.focus.stop = bytesOf? source
      (partsAll (ofSpecified source c.focus (ofTree source new? c.focus) (newName? new? c.focus))) := by
  cases named : newName? new? c.focus with
  | none =>
      rw [keeps named, ofSpecified, partsAll, partsAll, List.append_nil]
  | some new =>
      obtain ⟨d, up, kind, _⟩ := Renaming.isBareExport_iff.mp bare
      have mem : d.focus ∈ root.nodes := (whole_parent up).trans stands ▸ d.focus_mem_whole
      have identifier := ((plain.specifiers d.focus mem kind).2 c.focus (parent_spec up).1
        (isName_of_newName? named)).1
      rw [renames.between?_name wf stands named, Renaming.written, show c.kind = _ from identifier, bare,
        ofSpecified]
      change bytesOf? source [.text (new ++ " as " ++ c.focus.text source)] = _
      rw [bytesOf?_text_append, bytesOf?_text_append]
      rfl

/-- A name that keeps its own is written as it is. -/
theorem between?_kept (stands : c.whole = root) (isName : c.focus.kind.isName = true)
    (keeps : newName? new? c.focus = none) : pane.between? source c.focus.start c.focus.stop =
      bytesOf? source (ofTree source new? c.focus).parts := by
  have leaf := List.isEmpty_iff.mp (plain.leaves c.focus (stands ▸ c.focus_mem_whole) isName)
  have range : new? c.focus.range = none := (if_pos isName).symm.trans keeps
  rw [renames.between?_node wf plain stands keeps (fun _ => []) (by simp [leaf]), ofTree_of_isName isName, range,
    leaf]
  rfl

/-- What is written for a node is its script. Only a name that is exported as it is becomes more than its script. -/
theorem between?_ofTree (t : Tree) : ∀ c : Cursor, c.whole = root → c.focus = t →
    (Renaming.isBareExport c = true → newName? new? t = none) →
    pane.between? source t.start t.stop = bytesOf? source (ofTree source new? t).parts := by
  induction t using Tree.childrenInduction with
  | step t ih =>
      rintro c stands rfl unexported
      cases named : newName? new? c.focus with
      | some new =>
          refine renames.between?_renamed wf stands named (Bool.eq_false_iff.mpr fun bare => ?_)
          rw [unexported bare] at named
          cases named
      | none =>
          have child {t : Tree} (below : t ∈ c.focus.children) :
              ∃ d : Cursor, d.parent? = some c ∧ d.focus = t ∧ d.whole = root := by
            obtain ⟨d, up, focus⟩ := Cursor.exists_child below
            exact ⟨d, up, focus, (whole_parent up).symm.trans stands⟩
          -- what is written for the children, unless they are exported as they are
          have plainly (aliased : c.kind = .exportSpecifier →
                ∃ t ∈ c.focus.children, t.label.role = some .alias) :
              ∀ t ∈ c.focus.children, pane.between? source t.start t.stop =
                bytesOf? source (partsAll [ofTree source new? t]) := by
            intro t below
            obtain ⟨d, up, focus, standsD⟩ := child below
            rw [partsAll, partsAll, List.append_nil]
            refine ih t below d standsD focus fun bare => ?_
            obtain ⟨c', up', kind, without⟩ := Renaming.isBareExport_iff.mp bare
            cases up.symm.trans up'
            obtain ⟨other, among, role⟩ := aliased kind
            exact absurd role (without other among)
          obtain ⟨⟨label, children⟩, path⟩ := c
          by_cases isName : label.kind.isName = true
          · exact renames.between?_kept wf plain stands isName named
          · rw [Script.ofTree, if_neg isName]
            split
            · rename_i specifier
              change _ = bytesOf? source (partsAll
                (specifierRow source new? label.range.start label.range.stop children))
              rw [specifierRow_eq_rowOf]
              refine renames.between?_node wf plain stands named _ fun t below => ?_
              obtain ⟨d, up, rfl, standsD⟩ := child below
              refine renames.between?_specified wf plain standsD
                (Renaming.isBareExport_iff.mpr ⟨_, up, specifier.1, specifier.2⟩) fun keeps => ?_
              exact ih d.focus below d standsD rfl fun _ => keeps
            · rename_i other
              have rows := renames.between?_node wf plain stands named _ (plainly fun kind => by
                simpa [Cursor.kind, Tree.kind, Tree.label, Tree.children] using not_and.mp other kind)
              rw [← row_eq_rowOf] at rows
              split
              · rw [parts_defaultedRow]
                exact rows
              · exact rows

/-- What is written for a program is its script. -/
theorem bytes_ofProgram (start : pane.start = 0) (stop : pane.stop = source.length) :
    (Piece.assemble source pane.pieces).toOption = (ofProgram source new? root).bytes? source := by
  have top (t : Tree) (below : t ∈ root.children) : ∃ d : Cursor, d.parent? = some (Cursor.ofTree root) ∧
      d.focus = t ∧ d.whole = root := by
    obtain ⟨d, up, focus⟩ := Cursor.exists_child (c := Cursor.ofTree root) below
    exact ⟨d, up, focus, (whole_parent up).symm⟩
  have fits := wf.fits
  have laid := wf.laid.children.widen (Nat.zero_le _) fits
  have written := renames.between?_row wf (fun t => [Script.ofTree source new? t]) laid (Nat.le_refl _)
    (fun t below => by
      obtain ⟨d, up, rfl, stands⟩ := top t below
      exact renames.clear wf plain stands)
    (fun edit mem _ => by
      obtain ⟨e, stands, named, range⟩ := renames.only edit mem
      obtain ⟨new, named⟩ := Option.isSome_iff_exists.mp named
      have isName := isName_of_newName? named
      rcases eq_or_top_mem_above e with same | above
      · rw [same, stands] at isName
        change root.kind.isName = true at isName
        rw [wf.program] at isName
        cases isName
      · rw [stands] at above
        obtain ⟨_, child, below, inside⟩ := mem_nodes_of_mem_above above
        have within := ((wf.laid.child below).1.node inside).2
        have start : edit.start = e.focus.start := congrArg Range.start range
        have stop : edit.stop = e.focus.stop := congrArg Range.stop range
        exact ⟨child, below, Edit.within_iff.mpr (by omega)⟩)
    (fun t below => by
      obtain ⟨d, up, focus, stands⟩ := top t below
      rw [partsAll, partsAll, List.append_nil]
      refine renames.between?_ofTree wf plain t d stands focus fun bare => ?_
      obtain ⟨c, up', kind, _⟩ := Renaming.isBareExport_iff.mp bare
      cases up.symm.trans up'
      exact absurd (kind.symm.trans wf.program) (by simp))
  rw [← renames.sound.stretch_self, start, stop]
  rw [← row_eq_rowOf] at written
  exact written

end Renames

end Pane

end Rebundle
