import Rebundle.Document.Ledger
import Rebundle.Proofs.Document.Order

/-!
# Ledgers in step with documents

The place that halving finds in a row of keys is the one where a document puts an edit. Whatever is called on a ledger,
and however many calls are refused, both rows stay in step: a ledger is always the edits of a document with their keys.
-/

namespace Rebundle

namespace Key

variable {passes : Key → Bool} {front back : List Key} {low high : Nat}

/-- Halving finds the place where the keys that pass end, when they stand in front of all others. -/
theorem seek_eq (pass : ∀ key ∈ front, passes key = true) (fail : ∀ key ∈ back, passes key = false)
    (before : low ≤ front.length) (behind : front.length ≤ high) (fits : high ≤ (front ++ back).length) :
    seek passes (front ++ back) low high = front.length := by
  generalize size : high - low = n
  induction n using Nat.strongRecOn generalizing low high with
  | _ n ih =>
      rw [seek]
      split
      · have inside : (low + high) / 2 < (front ++ back).length := by omega
        simp only [List.getElem?_eq_getElem inside]
        by_cases early : (low + high) / 2 < front.length
        · rw [List.getElem_append_left early, if_pos (pass _ (List.getElem_mem early))]
          exact ih _ (by omega) early behind fits rfl
        · rw [List.getElem_append_right (Nat.le_of_not_lt early), fail _ (List.getElem_mem _),
            if_neg Bool.false_ne_true]
          exact ih _ (by omega) before (Nat.le_of_not_lt early) (by omega) rfl
      · omega

theorem placeBehind_eq {key : Key} (pass : ∀ other ∈ front, ¬ key < other)
    (fail : ∀ other ∈ back, key < other) :
    placeBehind key (front ++ back) = front.length :=
  seek_eq (fun other mem => by simp [pass other mem]) (fun other mem => by simp [fail other mem])
    (Nat.zero_le _) (by simp) (Nat.le_refl _)

theorem placeBefore_eq {key : Key} (pass : ∀ other ∈ front, other < key)
    (fail : ∀ other ∈ back, ¬ other < key) :
    placeBefore key (front ++ back) = front.length :=
  seek_eq (fun other mem => by simp [pass other mem]) (fun other mem => by simp [fail other mem])
    (Nat.zero_le _) (by simp) (Nat.le_refl _)

end Key

namespace Edit

theorem key_lt_iff {a b : Edit} : a.key < b.key ↔ a.precedes b = true := by
  rw [precedes_iff, key, key, Prod.Lex.toLex_lt_toLex, Prod.Lex.toLex_lt_toLex]
  simp only
  omega

/-- In order, an edit is put behind the edits that it does not precede. -/
theorem exists_insert (edit : Edit) {edits : List Edit}
    (sorted : edits.Pairwise fun a b => a.precedes b = true) :
    ∃ front back, edits = front ++ back ∧ edit.insert edits = front ++ edit :: back ∧
      (∀ other ∈ front, ¬ edit.precedes other = true) ∧ ∀ other ∈ back, edit.precedes other = true := by
  induction edits with
  | nil => exact ⟨[], [], rfl, rfl, by simp, by simp⟩
  | cons other rest ih =>
      obtain ⟨first, sortedRest⟩ := List.pairwise_cons.mp sorted
      rw [insert]
      split
      · rename_i ahead
        refine ⟨[], other :: rest, rfl, rfl, by simp, ?_⟩
        intro behind mem
        rcases List.mem_cons.mp mem with rfl | mem
        · exact ahead
        · exact precedes_trans ahead (first behind mem)
      · rename_i later
        obtain ⟨front, back, split, placed, passed, ahead⟩ := ih sortedRest
        refine ⟨other :: front, back, by rw [split]; rfl, by rw [placed]; rfl, ?_, ahead⟩
        exact List.forall_mem_cons.mpr ⟨later, passed⟩

end Edit

namespace Ledger

section

variable {start stop : Int} {parts : List Part} {reason : Text} (ledger : Ledger)

theorem replace_of_refused (refused : (start < 0 || stop < start || ledger.source.length < stop) = true) :
    replace start stop parts reason ledger = .error ⟨start, stop, ledger.source.length⟩ ledger := by
  change (ite _ (throw _) _ : EStateM RangeFault Ledger Edit) ledger = _
  rw [if_pos refused]
  rfl

theorem replace_of_fits (fits : ¬ (start < 0 || stop < start || ledger.source.length < stop) = true) :
    let edit : Edit := ⟨start.toNat, stop.toNat, parts, ledger.recorded, reason⟩
    let place := edit.key.placeBehind ledger.keys
    replace start stop parts reason ledger = .ok edit
      ⟨ledger.source, putAt place edit ledger.edits, putAt place edit.key ledger.keys, ledger.recorded + 1⟩ := by
  change (ite _ (throw _) _ : EStateM RangeFault Ledger Edit) ledger = _
  rw [if_neg fits]
  rfl

end

end Ledger

namespace Document

/-- The ledger of a document: its edits and their keys. -/
def ledger (doc : Document) : Ledger := ⟨doc.source, doc.edits, doc.edits.map Edit.key, doc.recorded⟩

variable {doc : Document}

/-- Recording puts an edit and its key at one place, which halving the keys finds. -/
theorem Kept.putAt (kept : doc.Kept) (edit : Edit) :
    let place := edit.key.placeBehind (doc.edits.map Edit.key)
    Ledger.putAt place edit doc.edits = edit.insert doc.edits ∧
      Ledger.putAt place edit.key (doc.edits.map Edit.key) = (edit.insert doc.edits).map Edit.key := by
  obtain ⟨front, back, split, placed, passed, ahead⟩ := edit.exists_insert kept.sorted
  have place : edit.key.placeBehind (doc.edits.map Edit.key) = front.length := by
    rw [split, List.map_append, Key.placeBehind_eq, List.length_map]
    · exact List.forall_mem_map.mpr fun other mem => mt Edit.key_lt_iff.mp (passed other mem)
    · exact List.forall_mem_map.mpr fun other mem => Edit.key_lt_iff.mpr (ahead other mem)
  rw [place, placed, split]
  simp [Ledger.putAt]

theorem Kept.replace_ledger (kept : doc.Kept) (start stop : Int) (parts : List Part) (reason : Text) :
    Ledger.replace start stop parts reason doc.ledger = match doc.replace start stop parts reason with
      | .ok (edit, next) => .ok edit next.ledger
      | .error fault => .error fault doc.ledger := by
  rw [Document.replace]
  by_cases refused : (start < 0 || stop < start || doc.source.length < stop) = true
  · rw [doc.ledger.replace_of_refused refused, if_pos refused]
    rfl
  · rw [doc.ledger.replace_of_fits refused, if_neg refused]
    obtain ⟨edits, keys⟩ := kept.putAt ⟨start.toNat, stop.toNat, parts, doc.recorded, reason⟩
    exact congrArg₂ (fun edits keys => EStateM.Result.ok _ (⟨doc.source, edits, keys, _⟩ : Ledger)) edits keys

/-- A ledger answers every call as its document does, and stays the ledger of the document. -/
theorem Kept.call_ledger (kept : doc.Kept) (call : Call) :
    call.onLedger doc.ledger = match call.onDocument doc with
      | .ok (edit, next) => .ok edit next.ledger
      | .error fault => .error fault doc.ledger := by
  cases call with
  | replace start stop parts reason => exact kept.replace_ledger start stop parts reason
  | insert offset parts reason => exact kept.replace_ledger offset offset parts reason
  | replaceNode start stop parts reason => exact kept.replace_ledger start stop parts reason
  | remove start stop wholeLine reason => exact kept.replace_ledger _ _ [.text []] reason

/-- What a call records when it is not refused: an edit with the range that it asks for and the next number. -/
structure Records (call : Call) (doc : Document) (edit : Edit) (next : Document) : Prop where
  fits : call.Fits doc.source
  range : ((edit.start : Int), (edit.stop : Int)) = call.range doc.source
  seq : edit.seq = doc.recorded
  kept : next.Kept
  source : next.source = doc.source
  recorded : next.recorded = doc.recorded + 1

/-- A call is refused exactly when its range does not lie inside the source. -/
theorem Kept.call_cases (kept : doc.Kept) (call : Call) :
    (∃ edit next, call.onDocument doc = .ok (edit, next) ∧ Records call doc edit next) ∨
      ∃ fault, call.onDocument doc = .error fault ∧ ¬ call.Fits doc.source := by
  obtain ⟨parts, reason, same⟩ : ∃ parts reason, call.onDocument doc =
      doc.replace (call.range doc.source).1 (call.range doc.source).2 parts reason := by
    cases call with
    | replace start stop parts reason => exact ⟨parts, reason, rfl⟩
    | insert offset parts reason => exact ⟨parts, reason, rfl⟩
    | replaceNode start stop parts reason => exact ⟨parts, reason, rfl⟩
    | remove start stop wholeLine reason => exact ⟨[.text []], reason, rfl⟩
  rw [same]
  by_cases fits : call.Fits doc.source
  · obtain ⟨first, second, third⟩ := fits
    refine .inl ⟨_, _, replace_eq_ok parts reason first second third, ⟨first, second, third⟩, ?_, rfl,
      kept.record (by omega) (by omega), rfl, rfl⟩
    exact Prod.ext (Int.toNat_of_nonneg first) (Int.toNat_of_nonneg (first.trans second))
  · refine .inr ?_
    cases made : doc.replace (call.range doc.source).1 (call.range doc.source).2 parts reason with
    | ok result =>
        obtain ⟨first, second, third, _⟩ := replace_ok made
        exact absurd ⟨first, second, third⟩ fits
    | error fault => exact ⟨fault, rfl, fits⟩

end Document

/-- What holds of a ledger of a source in which a number of edits has been made. -/
structure Ledger.Sound (source : Bytes) (made : Nat) (ledger : Ledger) : Prop where
  unchanged : ledger.source = source
  increasing : ledger.keys.Pairwise (· < ·)
  inStep : ∀ i : Nat, ledger.keys[i]? = ledger.edits[i]?.map Edit.key
  numbered : (ledger.edits.map (·.seq)).Perm (List.range made)
  next : ledger.recorded = made
  inside : ∀ edit ∈ ledger.edits, edit.start ≤ edit.stop ∧ edit.stop ≤ source.length

namespace Document

/-- What holds of a document of a source behind some answers. -/
structure Served (source : Bytes) (answers : List (Except RangeFault Edit)) (doc : Document) : Prop where
  kept : doc.Kept
  source : doc.source = source
  recorded : doc.recorded = answers.countP Except.isOk

variable {source : Bytes} {answers : List (Except RangeFault Edit)} {doc : Document}

theorem Served.sound (served : doc.Served source answers) :
    doc.ledger.Sound source (answers.countP Except.isOk) where
  unchanged := served.source
  increasing := List.pairwise_map.mpr (served.kept.sorted.imp Edit.key_lt_iff.mpr)
  inStep _ := List.getElem?_map
  numbered := served.recorded ▸ served.kept.numbered
  next := served.recorded
  inside := served.source ▸ served.kept.inside

theorem Served.step (served : doc.Served source answers) (call : Call) :
    (step (answers, doc) call).2.Served source (step (answers, doc) call).1 ∧
      Ledger.step (answers, doc.ledger) call = ((step (answers, doc) call).1, (step (answers, doc) call).2.ledger) := by
  rw [Ledger.step, Document.step, served.kept.call_ledger call]
  rcases served.kept.call_cases call with ⟨edit, next, made, records⟩ | ⟨fault, refused, _⟩
  · rw [made]
    refine ⟨⟨records.kept, records.source.trans served.source, ?_⟩, rfl⟩
    rw [records.recorded, served.recorded, List.countP_append]
    rfl
  · rw [refused]
    refine ⟨⟨served.kept, served.source, ?_⟩, rfl⟩
    rw [served.recorded, List.countP_append]
    rfl

/-- A ledger that serves the calls of a document is the ledger of the document. -/
theorem serve_ledger (source : Bytes) (calls : List Call) :
    (serve source calls).2.Served source (serve source calls).1 ∧
      Ledger.serve source calls = ((serve source calls).1, (serve source calls).2.ledger) := by
  have run {answers : List (Except RangeFault Edit)} {doc : Document} (served : doc.Served source answers) :
      (calls.foldl Document.step (answers, doc)).2.Served source (calls.foldl Document.step (answers, doc)).1 ∧
        calls.foldl Ledger.step (answers, doc.ledger) =
          ((calls.foldl Document.step (answers, doc)).1, (calls.foldl Document.step (answers, doc)).2.ledger) := by
    induction calls generalizing answers doc with
    | nil => exact ⟨served, rfl⟩
    | cons call rest ih =>
        obtain ⟨next, same⟩ := served.step call
        rw [List.foldl_cons, List.foldl_cons, same]
        exact ih next
  exact run ⟨Kept.ofSource source, rfl, rfl⟩

end Document

/-- Whatever is called, the ledger is sound, and it is the one of the document on which the same is called. One
more call is refused exactly where its range does not lie inside the source, and then nothing changes. -/
theorem Ledger.serve_sound (source : Bytes) (calls : List Call) :
    let answers := (serve source calls).1
    let ledger := (serve source calls).2
    ledger.Sound source (answers.countP Except.isOk) ∧
      (answers = (Document.serve source calls).1 ∧ ledger.edits = (Document.serve source calls).2.edits ∧
        ledger.recorded = (Document.serve source calls).2.recorded) ∧
      ∀ call : Call, match call.onLedger ledger with
        | .ok edit _ => call.Fits source ∧ ((edit.start : Int), (edit.stop : Int)) = call.range source ∧
            edit.seq = answers.countP Except.isOk
        | .error _ next => ¬ call.Fits source ∧ next = ledger := by
  obtain ⟨served, same⟩ := Document.serve_ledger source calls
  rw [same]
  refine ⟨served.sound, ⟨rfl, rfl, rfl⟩, fun call => ?_⟩
  rw [served.kept.call_ledger call]
  rcases served.kept.call_cases call with ⟨edit, next, made, records⟩ | ⟨fault, refused, outside⟩
  · rw [made]
    exact ⟨served.source ▸ records.fits, served.source ▸ records.range, records.seq.trans served.recorded⟩
  · rw [refused]
    exact ⟨served.source ▸ outside, rfl⟩

end Rebundle
