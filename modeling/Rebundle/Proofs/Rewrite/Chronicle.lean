import Mathlib.Data.Multiset.AddSub
import Rebundle.Proofs.Rewrite.Noted
import Rebundle.Proofs.Syntax.Reached

/-!
# The chronicle of a walk

A walk of the passes is a fold over the places that it reaches. Its document holds the edits that were
recorded at these places, numbered in their order: what is recorded above a place comes before what is
recorded at it. Where the walk does not go below, a text was written over the node.
-/

namespace Rebundle

open Cursor

namespace Document

/-- Records entries one after the other. -/
def enterAll (doc : Document) (entries : List Entry) : Document :=
  entries.foldl (fun doc e => doc.enter (some e)) doc

theorem enterAll_append (doc : Document) (front back : List Entry) :
    doc.enterAll (front ++ back) = (doc.enterAll front).enterAll back :=
  List.foldl_append

theorem enterAll_toList (doc : Document) (entry : Option Entry) :
    doc.enterAll entry.toList = doc.enter entry := by
  cases entry <;> rfl

/-- What was recorded can be told from the documents before and after. -/
theorem enter_injective (doc : Document) {a b : Option Entry} (same : doc.enter a = doc.enter b) :
    a = b := by
  have counted := congrArg Document.recorded same
  cases a with
  | none =>
      cases b with
      | none => rfl
      | some b => simp [enter, record] at counted
  | some a =>
      cases b with
      | none => simp [enter, record] at counted
      | some b =>
          have row := congrArg Document.edits same
          simp only [enter, record] at row
          have perm := (Edit.insert_perm _ _).symm.trans (row ▸ Edit.insert_perm _ _)
          have equal := (Multiset.cons_inj_left (doc.edits : Multiset Edit)).mp
            (Multiset.coe_eq_coe.mpr perm)
          simp only [Edit.mk.injEq, true_and] at equal
          obtain ⟨start, stop, parts, reason⟩ := equal
          exact congrArg some (by cases a; cases b; simp_all)

end Document

namespace RewritePass

/-- Whether a visit of a node records an entry, whatever was recorded before. -/
def Owes (source : Bytes) (config : PatchConfig) (cursor : Cursor) (pass : RewritePass) (e : Entry) : Prop :=
  ∀ rewrite : Rewrite, rewrite.Serves source config →
    (pass.visit cursor rewrite).2.doc = rewrite.doc.enter (some e)

/-- Whether a walk goes on below a place. -/
def below (passes : List RewritePass) (rewrite : Rewrite) (cursor : Cursor) : Bool :=
  ((visitor passes).enter cursor rewrite).1

end RewritePass

/-- What the visits of a node record, in order. Where they end, one of the entries is a text over the node;
where they go on, every pass has recorded what it owes. -/
structure Account (source : Bytes) (config : PatchConfig) (passes : List RewritePass) (cursor : Cursor)
    (before : Rewrite) (result : Bool × Rewrite) (entries : List Entry) : Prop where
  doc : result.2.doc = before.doc.enterAll entries
  noted : ∀ e ∈ entries, Noted source config cursor e
  ends : result.1 = false → ∃ e ∈ entries, Blot source cursor e
  owed : result.1 = true → ∀ pass ∈ passes, ∀ e, pass.Owes source config cursor e → e ∈ entries

section

variable {source : Bytes} {config : PatchConfig} {cursor : Cursor} {rewrite : Rewrite}

theorem Document.enterAll_source (doc : Document) (entries : List Entry) :
    (doc.enterAll entries).source = doc.source := by
  induction entries generalizing doc with
  | nil => rfl
  | cons e rest ih => exact ih _

namespace RewritePass

theorem serves_visit {pass : RewritePass} (known : pass ∈ standard) (serves : rewrite.Serves source config)
    (concerned : pass.concerns cursor.kind = true) :
    (pass.visit cursor rewrite).2.Serves source config where
  source := by
    obtain ⟨entry, visited⟩ := visited known serves concerned
    rw [visited.doc, ← Document.enterAll_toList, Document.enterAll_source]
    exact serves.source
  config := (keeps_visit known cursor rewrite).config.trans serves.config

/-- The visits of a node by a row of passes. -/
theorem account {passes : List RewritePass}
    (known : ∀ pass ∈ passes, pass ∈ standard ∧ pass.concerns cursor.kind = true)
    (serves : rewrite.Serves source config) :
    ∃ entries, Account source config passes cursor rewrite (visitAll cursor rewrite passes) entries := by
  induction passes generalizing rewrite with
  | nil => exact ⟨[], rfl, by simp, by simp [visitAll], by simp⟩
  | cons pass rest ih =>
      obtain ⟨one, concerned⟩ := known pass List.mem_cons_self
      obtain ⟨entry, visited⟩ := visited one serves concerned
      have serves' := serves_visit one serves concerned
      rw [visitAll]
      cases made : pass.visit cursor rewrite with
      | mk goesOn next =>
          rw [made] at visited serves'
          cases goesOn with
          | false =>
              refine ⟨entry.toList, ?_, by simpa using visited.noted, fun _ => ?_, by simp⟩
              · rw [Document.enterAll_toList]
                exact visited.doc
              · simpa using visited.ends rfl
          | true =>
              obtain ⟨entries, account⟩ :=
                ih (fun other mem => known other (List.mem_cons_of_mem _ mem)) serves'
              refine ⟨entry.toList ++ entries, ?_, ?_, ?_, ?_⟩
              · rw [Document.enterAll_append, Document.enterAll_toList, ← visited.doc]
                exact account.doc
              · intro e mem
                rcases List.mem_append.mp mem with here | later
                · exact visited.noted e (by simpa using here)
                · exact account.noted e later
              · intro ends
                obtain ⟨e, mem, blot⟩ := account.ends ends
                exact ⟨e, List.mem_append_right _ mem, blot⟩
              · intro goesOn other mem e owes
                rcases List.mem_cons.mp mem with rfl | later
                · have recorded := owes rewrite serves
                  rw [made] at recorded
                  have same := Document.enter_injective _ (visited.doc.symm.trans recorded)
                  exact List.mem_append_left _ (by simp [same])
                · exact List.mem_append_right _ (account.owed goesOn other later e owes)

theorem visitAll_goesOn {passes : List RewritePass}
    (known : ∀ pass ∈ passes, pass ∈ standard ∧ pass.concerns cursor.kind = true) {a b : Rewrite}
    (servesA : a.Serves source config) (servesB : b.Serves source config) :
    (visitAll cursor b passes).1 = (visitAll cursor a passes).1 := by
  induction passes generalizing a b with
  | nil => rfl
  | cons pass rest ih =>
      obtain ⟨one, concerned⟩ := known pass List.mem_cons_self
      have same := visit_goesOn one servesA servesB cursor
      have nextA := serves_visit one servesA concerned
      have nextB := serves_visit one servesB concerned
      rw [visitAll, visitAll]
      cases madeA : pass.visit cursor a with
      | mk goesA a' =>
          cases madeB : pass.visit cursor b with
          | mk goesB b' =>
              rw [madeA] at same nextA
              rw [madeB] at same nextB
              simp only at same
              subst same
              cases goesB with
              | true => exact ih (fun other mem => known other (List.mem_cons_of_mem _ mem)) nextA nextB
              | false => rfl

/-- One pass that ends its visit ends the visits. -/
theorem visitAll_ends {passes : List RewritePass}
    (known : ∀ pass ∈ passes, pass ∈ standard ∧ pass.concerns cursor.kind = true)
    (serves : rewrite.Serves source config) {pass : RewritePass} (mem : pass ∈ passes)
    (ends : ∀ rewrite : Rewrite, rewrite.Serves source config → (pass.visit cursor rewrite).1 = false) :
    (visitAll cursor rewrite passes).1 = false := by
  induction passes generalizing rewrite with
  | nil => cases mem
  | cons first rest ih =>
      obtain ⟨one, concerned⟩ := known first List.mem_cons_self
      have next := serves_visit one serves concerned
      rw [visitAll]
      cases made : first.visit cursor rewrite with
      | mk goesOn state =>
          rw [made] at next
          cases goesOn with
          | false => rfl
          | true =>
              rcases List.mem_cons.mp mem with rfl | later
              · have ended := ends rewrite serves
                rw [made] at ended
                cases ended
              · exact ih (fun other mem => known other (List.mem_cons_of_mem _ mem)) next later

/-- When all passes that a node concerns go on, so do the visits. -/
theorem visitAll_open {passes : List RewritePass}
    (known : ∀ pass ∈ passes, pass ∈ standard ∧ pass.concerns cursor.kind = true)
    (serves : rewrite.Serves source config)
    (goes : ∀ pass ∈ passes, ∀ rewrite : Rewrite, rewrite.Serves source config →
      (pass.visit cursor rewrite).1 = true) : (visitAll cursor rewrite passes).1 = true := by
  induction passes generalizing rewrite with
  | nil => rfl
  | cons first rest ih =>
      obtain ⟨one, concerned⟩ := known first List.mem_cons_self
      have next := serves_visit one serves concerned
      have open' := goes first List.mem_cons_self rewrite serves
      rw [visitAll]
      cases made : first.visit cursor rewrite with
      | mk goesOn state =>
          rw [made] at next open'
          cases open'
          exact ih (fun other mem => known other (List.mem_cons_of_mem _ mem)) next
            fun other mem => goes other (List.mem_cons_of_mem _ mem)

end RewritePass

/-- Where the edits of a document come from: `noted` holds the place at which each was recorded, among the
places met so far, and no place follows one below it. -/
structure Chronicle (source : Bytes) (config : PatchConfig) (noted met : List Cursor) (doc : Document) :
    Prop where
  length : noted.length = doc.recorded
  known : ∀ c ∈ noted, c ∈ met
  order : noted.Pairwise fun a b => b ∉ a.above
  edits : ∀ edit ∈ doc.edits, ∃ c, noted[edit.seq]? = some c ∧ Noted source config c edit.entry

/-- Whether an entry was recorded at a place. -/
def Filed (noted : List Cursor) (doc : Document) (c : Cursor) (e : Entry) : Prop :=
  ∃ edit ∈ doc.edits, noted[edit.seq]? = some c ∧ edit.entry = e

namespace Filed

variable {noted : List Cursor} {doc : Document} {c : Cursor} {e : Entry}

theorem enter (filed : Filed noted doc c e) (d : Cursor) (entry : Entry) :
    Filed (noted ++ [d]) (doc.enter (some entry)) c e := by
  obtain ⟨edit, mem, place, same⟩ := filed
  refine ⟨edit, Edit.mem_insert.mpr (.inr mem), ?_, same⟩
  rw [List.getElem?_append_left (List.getElem?_eq_some_iff.mp place).1]
  exact place

end Filed

namespace Chronicle

variable {noted met : List Cursor} {doc : Document} {c : Cursor} {e : Entry}

theorem mono (chronicle : Chronicle source config noted met doc) {more : List Cursor}
    (among : ∀ c ∈ met, c ∈ more) : Chronicle source config noted more doc :=
  ⟨chronicle.length, fun c mem => among c (chronicle.known c mem), chronicle.order, chronicle.edits⟩

theorem enter (chronicle : Chronicle source config noted met doc) (here : c ∈ met)
    (last : ∀ a ∈ met, c ∉ a.above) (note : Noted source config c e) :
    Chronicle source config (noted ++ [c]) met (doc.enter (some e)) ∧
      Filed (noted ++ [c]) (doc.enter (some e)) c e := by
  have place : (noted ++ [c])[doc.recorded]? = some c := by
    rw [← chronicle.length, List.getElem?_append_right (Nat.le_refl _), Nat.sub_self]
    rfl
  refine ⟨⟨?_, ?_, ?_, ?_⟩, ?_⟩
  · rw [List.length_append, chronicle.length]
    rfl
  · intro d mem
    rcases List.mem_append.mp mem with known | same
    · exact chronicle.known d known
    · rw [List.mem_singleton.mp same]
      exact here
  · rw [List.pairwise_append]
    refine ⟨chronicle.order, List.pairwise_singleton _ _, ?_⟩
    intro a mem b same
    rw [List.mem_singleton.mp same]
    exact last a (chronicle.known a mem)
  · intro edit mem
    rcases Edit.mem_insert.mp mem with rfl | mem
    · exact ⟨c, place, note⟩
    · obtain ⟨d, place, note⟩ := chronicle.edits edit mem
      refine ⟨d, ?_, note⟩
      rw [List.getElem?_append_left (List.getElem?_eq_some_iff.mp place).1]
      exact place
  · exact ⟨_, Edit.mem_insert.mpr (.inl rfl), place, rfl⟩

theorem enterAll {entries : List Entry} (chronicle : Chronicle source config noted met doc) (here : c ∈ met)
    (last : ∀ a ∈ met, c ∉ a.above) (notes : ∀ e ∈ entries, Noted source config c e) :
    ∃ noted', Chronicle source config noted' met (doc.enterAll entries) ∧
      (∀ e ∈ entries, Filed noted' (doc.enterAll entries) c e) ∧
      ∀ d e, Filed noted doc d e → Filed noted' (doc.enterAll entries) d e := by
  induction entries generalizing noted doc with
  | nil => exact ⟨noted, chronicle, by simp, fun _ _ filed => filed⟩
  | cons e rest ih =>
      obtain ⟨next, filed⟩ := chronicle.enter here last (notes e List.mem_cons_self)
      obtain ⟨noted', done, later, kept⟩ := ih next fun e mem => notes e (List.mem_cons_of_mem _ mem)
      refine ⟨noted', done, ?_, fun d other known => kept d other (known.enter c e)⟩
      intro other mem
      rcases List.mem_cons.mp mem with rfl | mem
      · exact kept c other filed
      · exact later other mem

/-- What is recorded above a place is recorded before what is recorded at it. -/
theorem seq_lt (chronicle : Chronicle source config noted met doc) {a b : Edit} {d : Cursor}
    (placeA : noted[a.seq]? = some c) (placeB : noted[b.seq]? = some d) (above : c ∈ d.above) :
    a.seq < b.seq := by
  rw [← Nat.not_le]
  intro later
  obtain ⟨boundA, sameA⟩ := List.getElem?_eq_some_iff.mp placeA
  obtain ⟨boundB, sameB⟩ := List.getElem?_eq_some_iff.mp placeB
  rcases Nat.eq_or_lt_of_le later with same | less
  · rw [same, placeA] at placeB
    cases placeB
    exact not_mem_above_self c above
  · have ordered := List.pairwise_iff_getElem.mp chronicle.order b.seq a.seq boundB boundA less
    rw [sameA, sameB] at ordered
    exact ordered above

end Chronicle

/-- What a walk has done at a place behind the bootstrap: where it did not go below, it wrote a text over
the node; elsewhere every pass recorded what it owes. -/
structure Settled (source : Bytes) (config : PatchConfig) (passes : List RewritePass) (skip : Nat)
    (below : Cursor → Bool) (noted : List Cursor) (doc : Document) (c : Cursor) : Prop where
  pruned : below c = false → skip < c.focus.stop → ∃ e, Blot source c e ∧ Filed noted doc c e
  owed : below c = true → skip < c.focus.stop → ∀ pass ∈ passes, pass.concerns c.kind = true →
    ∀ e, pass.Owes source config c e → Filed noted doc c e

namespace Settled

variable {passes : List RewritePass} {skip : Nat} {below : Cursor → Bool} {noted noted' : List Cursor}
  {doc doc' : Document} {c : Cursor}

/-- A place stays settled while nothing that was recorded at it is lost. -/
theorem mono (settled : Settled source config passes skip below noted doc c)
    (kept : ∀ e, Filed noted doc c e → Filed noted' doc' c e) :
    Settled source config passes skip below noted' doc' c where
  pruned stays behind := by
    obtain ⟨e, blot, filed⟩ := settled.pruned stays behind
    exact ⟨e, blot, kept e filed⟩
  owed goes behind pass among concerned e owes := kept e (settled.owed goes behind pass among concerned e owes)

/-- In the bootstrap nothing is owed. -/
theorem of_skipped (skipped : c.focus.stop ≤ skip) : Settled source config passes skip below noted doc c :=
  ⟨fun _ behind => absurd skipped (Nat.not_le.mpr behind), fun _ behind => absurd skipped (Nat.not_le.mpr behind)⟩

/-- Where all that the visits recorded is filed, a place is settled. -/
theorem of_account {before : Rewrite} {result : Bool × Rewrite} {entries : List Entry}
    (account : Account source config (passes.filter fun pass => pass.concerns c.kind) c before result entries)
    (goes : result.1 = below c) (filed : ∀ e ∈ entries, Filed noted doc c e) :
    Settled source config passes skip below noted doc c where
  pruned stays _ := by
    obtain ⟨e, mem, blot⟩ := account.ends (goes.trans stays)
    exact ⟨e, blot, filed e mem⟩
  owed opens _ pass among concerned e owes :=
    filed e (account.owed (goes.trans opens) pass (List.mem_filter.mpr ⟨among, concerned⟩) e owes)

end Settled

namespace RewritePass

variable {passes : List RewritePass} {first : Rewrite}

/-- The passes that a node concerns. -/
theorem concerned_known (known : ∀ pass ∈ passes, pass ∈ standard) (c : Cursor) :
    ∀ pass ∈ passes.filter fun pass => pass.concerns c.kind,
      pass ∈ standard ∧ pass.concerns c.kind = true := by
  intro pass mem
  obtain ⟨one, concerned⟩ := List.mem_filter.mp mem
  exact ⟨known pass one, concerned⟩

/-- The walk of the passes goes below the same nodes whatever was recorded. -/
theorem steady (known : ∀ pass ∈ passes, pass ∈ standard) (serves : first.Serves source config) :
    (visitor passes).Steady (below passes first)
      fun rewrite => rewrite.Serves source config ∧ rewrite.skipBefore = first.skipBefore where
  agree c rewrite holds := by
    simp only [below, visitor, holds.2]
    split
    · rfl
    · exact visitAll_goesOn (concerned_known known c) serves holds.1
  keeps c rewrite holds := by
    simp only [visitor]
    split
    · exact holds
    · obtain ⟨entries, account⟩ := account (concerned_known known c) holds.1
      have keeps := keeps_visitAll (fun pass mem => (concerned_known known c pass mem).1) c rewrite
      refine ⟨⟨?_, keeps.config.trans holds.1.config⟩, keeps.skipBefore.trans holds.2⟩
      rw [account.doc, Document.enterAll_source]
      exact holds.1.source
  idle _ _ := rfl

/-- The visit of one more place goes on with a chronicle and settles the place. -/
theorem chronicle_enter (known : ∀ pass ∈ passes, pass ∈ standard) (serves : first.Serves source config)
    {met noted : List Cursor} {rewrite : Rewrite} (holds : rewrite.Serves source config)
    (skip : rewrite.skipBefore = first.skipBefore) {c : Cursor} (last : ∀ a ∈ met, c ∉ a.above)
    (chronicle : Chronicle source config noted met rewrite.doc)
    (settled : ∀ d ∈ met, Settled source config passes first.skipBefore (below passes first) noted rewrite.doc d) :
    let doc := ((visitor passes).enter c rewrite).2.doc
    ∃ noted', Chronicle source config noted' (met ++ [c]) doc ∧
      ∀ d ∈ met ++ [c], Settled source config passes first.skipBefore (below passes first) noted' doc d := by
  have goes := (steady known serves).agree c rewrite ⟨holds, skip⟩
  have grown : Chronicle source config noted (met ++ [c]) rewrite.doc :=
    chronicle.mono fun d mem => List.mem_append_left _ mem
  simp only [visitor] at goes ⊢
  split
  · rename_i skipped
    simp only [Bool.and_eq_true, decide_eq_true_eq] at skipped
    refine ⟨noted, grown, fun d mem => ?_⟩
    rcases List.mem_append.mp mem with before | same
    · exact settled d before
    · rw [List.mem_singleton.mp same]
      exact .of_skipped (skip ▸ skipped.1)
  · rename_i entered
    rw [if_neg entered] at goes
    obtain ⟨entries, account⟩ := account (concerned_known known c) holds
    have apart : ∀ a ∈ met ++ [c], c ∉ a.above := by
      intro a mem
      rcases List.mem_append.mp mem with before | same
      · exact last a before
      · rw [List.mem_singleton.mp same]
        exact not_mem_above_self c
    obtain ⟨noted', next, filed, kept⟩ :=
      grown.enterAll (List.mem_append_right _ List.mem_cons_self) apart account.noted
    rw [← account.doc] at next filed kept
    refine ⟨noted', next, fun d mem => ?_⟩
    rcases List.mem_append.mp mem with before | same
    · exact (settled d before).mono (kept d)
    · rw [List.mem_singleton.mp same]
      exact .of_account account goes filed

/-- The fold over places that are met one after the other keeps a chronicle. -/
theorem chronicle_foldl (known : ∀ pass ∈ passes, pass ∈ standard) (serves : first.Serves source config)
    {todo met noted : List Cursor} {rewrite : Rewrite} (holds : rewrite.Serves source config)
    (skip : rewrite.skipBefore = first.skipBefore)
    (ordered : (met ++ todo).Pairwise fun a b => b ∉ a.above)
    (chronicle : Chronicle source config noted met rewrite.doc)
    (settled : ∀ c ∈ met, Settled source config passes first.skipBefore (below passes first) noted
      rewrite.doc c) :
    let last := (todo.foldl (fun rewrite c => ((visitor passes).enter c rewrite).2) rewrite).doc
    ∃ noted', Chronicle source config noted' (met ++ todo) last ∧
      ∀ c ∈ met ++ todo, Settled source config passes first.skipBefore (below passes first) noted'
        last c := by
  induction todo generalizing met noted rewrite with
  | nil =>
      rw [List.append_nil]
      exact ⟨noted, chronicle, settled⟩
  | cons c rest ih =>
      have again := (steady known serves).keeps c rewrite ⟨holds, skip⟩
      have last : ∀ a ∈ met, c ∉ a.above := fun a mem =>
        (List.pairwise_append.mp ordered).2.2 a mem c List.mem_cons_self
      obtain ⟨noted', next, settled'⟩ := chronicle_enter known serves holds skip last chronicle settled
      rw [List.append_cons] at ordered ⊢
      exact ih again.1 again.2 ordered next settled'

/-- The chronicle of a walk. -/
theorem chronicle_walked (known : ∀ pass ∈ passes, pass ∈ standard) (root : Tree)
    (serves : rewrite.Serves source config) (blank : rewrite.doc.edits = []) (zero : rewrite.doc.recorded = 0) :
    let first := passes.foldl (fun rewrite pass => pass.prepare rewrite) rewrite
    let met := reached (below passes first) root
    ∃ noted, Chronicle source config noted met (walked passes root rewrite).doc ∧
      ∀ c ∈ met, Settled source config passes rewrite.skipBefore (below passes first) noted
        (walked passes root rewrite).doc c := by
  intro first met
  have doc : first.doc = rewrite.doc := prepare_doc known rewrite
  have keeps : rewrite.Keeps first := keeps_prepared known rewrite
  have serves' : first.Serves source config :=
    ⟨by rw [doc]; exact serves.source, keeps.config.trans serves.config⟩
  have start : Chronicle source config [] [] first.doc := by
    rw [doc]
    exact ⟨zero.symm, by simp, List.Pairwise.nil, by simp [blank]⟩
  have whole := chronicle_foldl known serves' serves' rfl
    (show ([] ++ met).Pairwise _ from pairwise_reached (below passes first) root) start (by simp)
  rw [walked, (steady known serves').walk_eq_foldl ⟨serves', rfl⟩, ← keeps.skipBefore]
  exact whole

end RewritePass

end

end Rebundle
