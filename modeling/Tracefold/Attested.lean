import Mathlib.Tactic.Common
import Tracefold.Announced
import Tracefold.Escrow
import Tracefold.Leaves

/-! The inverse a commit receipt attests, and the escrow of the transformation it commits. -/

namespace Tracefold

open Library Engine
open Std (ExtTreeMap)

theorem Lifecycle.Edge.of_closed {state next : Lifecycle} (h : Lifecycle.Edge (some state) next)
    (hs : state = .committed ∨ state = .superseded) : next = .superseded := by
  rcases hs with rfl | rfl
  · cases h with
    | superseded => rfl
    | aborted _ reason hlive => cases hlive
  · cases h with
    | aborted _ reason hlive => cases hlive

theorem Legal.of_closed {state : Lifecycle} {n : Note} (h : Legal (some state) n)
    (hs : state = .committed ∨ state = .superseded) :
    (∃ by_, n = .superseded by_) ∨ ∃ body, n = .planned body := by
  have hne : some state ≠ some .committing := by
    rcases hs with rfl | rfl <;> nofun
  cases n with
  | planned body => exact .inr ⟨body, rfl⟩
  | superseded by_ => exact .inl ⟨by_, rfl⟩
  | provenanceDerived | inverseEscrowed | applyStarted | applyObserved | inverseCompleted =>
    exact absurd h hne
  | verdict kind | humanDecision kind =>
    obtain ⟨_, next, _, hnext, hedge⟩ := h
    have hcases := stateOfVerdict_cases kind
    obtain rfl := hedge.of_closed hs
    rw [Note.next] at hnext
    grind
  | _ =>
    obtain ⟨_, next, _, hnext, hedge⟩ := h
    obtain rfl := hedge.of_closed hs
    cases hnext

theorem escrowOf?_isSome (id : TransformationId) {notes : List Note} {body : EscrowBody}
    (h : .inverseEscrowed body ∈ notes) : ∃ row, escrowOf? id notes = some row := by
  rcases escrowOf?_left id notes with ⟨hnone, _⟩ | ⟨_, row, _, hrow, _⟩
  · have hempty : notes.filter Note.answers = [] := List.getLast?_eq_none_iff.mp hnone
    have hmem : .inverseEscrowed body ∈ notes.filter Note.answers :=
      List.mem_filter.mpr ⟨h, rfl⟩
    rw [hempty] at hmem
    cases hmem
  · exact ⟨row, hrow⟩

theorem applyStarted_rowOf (id : TransformationId) {notes : List Note}
    (h : (rowOf id notes).applyStarted.isSome) : ∃ cid, .applyStarted cid ∈ notes := by
  induction notes using List.reverseRecOn with
  | nil => cases h
  | append_singleton notes n ih =>
    rw [rowOf_append] at h
    have hold : (rowOf id notes).applyStarted.isSome → ∃ cid, .applyStarted cid ∈ notes ++ [n] := by
      intro hsome
      obtain ⟨cid, hcid⟩ := ih hsome
      exact ⟨cid, List.mem_append_left _ hcid⟩
    cases n with
    | applyStarted cid => exact ⟨cid, List.mem_append_right _ List.mem_cons_self⟩
    | verdict kind digest engaged => cases engaged <;> exact hold h
    | _ => exact hold h

theorem escrowRow_settled [Canon] (id : TransformationId) (outcome : InvertOutcome) :
    (escrowRow id outcome false).status ≠ .pending := by
  unfold escrowRow
  split
  next => nofun
  next =>
    dsimp only
    split <;> nofun

section Kept

variable [Canon]

/-- The receipt a leaf was appended for names the inverse of the escrow row, which waits for
nothing. -/
structure EscrowRow.Attested (row : EscrowRow) (leaf : LedgerEntry) : Prop where
  settled : row.status ≠ .pending
  inverse : ∃ payload : ReceiptPayload, payload.ledgerDigest = leaf.receiptDigest ∧
    payload.inverseDelta = row.inverseCid

/-- The escrow row these notes leave is attested by the leaf. -/
def Attests (notes : List Note) (leaf : LedgerEntry) : Prop :=
  ∃ row, escrowOf? leaf.transformation notes = some row ∧ row.Attested leaf

theorem Attests.append {notes : List Note} {n : Note} {leaf : LedgerEntry}
    (h : Attests notes leaf) (hn : n.answers = false) : Attests (notes ++ [n]) leaf := by
  obtain ⟨row, hrow, hsettled, hinverse⟩ := h
  rw [Attests, escrowOf?_append, hrow]
  rcases absorb_other hn (some row) leaf.transformation with ⟨_, by_, habsorb⟩ | ⟨_, habsorb⟩
  · rw [habsorb]
    exact ⟨_, rfl, nofun, hinverse⟩
  · rw [habsorb]
    exact ⟨row, rfl, hsettled, hinverse⟩

theorem EscrowRow.Attested.receipt [Canon.CollisionFree] {row : EscrowRow} {leaf : LedgerEntry}
    (h : row.Attested leaf) {payload : ReceiptPayload}
    (hdigest : payload.ledgerDigest = leaf.receiptDigest) :
    payload.inverseDelta = row.inverseCid := by
  obtain ⟨attested, hattested, hinverse⟩ := h.inverse
  have hpayload := Canon.CollisionFree.payload (hdigest.trans hattested.symm)
  have hsame := congrArg ReceiptPayload.inverseDelta hpayload
  rw [← hinverse]
  exact hsame

/-- A row with a leaf is on its way from the leaf to its `Committed` record, or closed. -/
def Closing (history : List Event) (records : List Record) (leaf : LedgerEntry) : Prop :=
  stateOf? (notesOf leaf.transformation records) = some .committing ∧
      .leaf leaf ∈ attemptEvents leaf.transformation history ∨
    ∃ state, stateOf? (notesOf leaf.transformation records) = some state ∧
      (state = .committed ∨ state = .superseded)

/-- An announced apply has its inverse on record. -/
def StartsEscrowed (notes : List Note) : Prop :=
  ∀ cid, .applyStarted cid ∈ notes → ∃ body, .inverseEscrowed body ∈ notes

/-- A run whose plans leave every row alone that has a leaf, and whose recoveries apply nothing
again without an inverse on record. -/
def unleafedOnly : Policy where
  plans e id := leafOf e.ledger id = none
  undos _ _ := True
  reapplies _ notes := ∃ body, .inverseEscrowed body ∈ notes
  commits _ _ := True

variable {pol : Policy} {w : World} {id : TransformationId} {s s' : Sys}

/-- A word on the inverse of a row comes before its leaf, or settles what was pending. -/
theorem Step.answers (hstep : Step pol w id s s') {n : Note} {t : Timestamp}
    (hr : s'.engine.records = s.engine.records ++ [.about id n t]) (hn : n.answers = true) :
    stateOf? (s.engine.notes id) = some .committing ∧ ((∃ entry, InCommit s id entry) ∨
      ∃ row, escrowOf? id (s.engine.notes id) = some row ∧ row.status = .pending) := by
  have hnone : s.engine.records ≠ s.engine.records ++ [.about id n t] := by simp
  cases hstep with
  | escrowed entry outcome pending stamp hcommit => exact ⟨hcommit.state, .inl ⟨entry, hcommit⟩⟩
  | completed inverse stamp hstate hpending => exact ⟨hstate, .inr hpending⟩
  | _ =>
    first
    | exact absurd hr hnone
    | cases List.append_cancel_left hr <;> cases hn

theorem Step.plans_closing [Canon.CollisionFree] (hs : Synced s.engine) (hi : Indexed s.engine)
    (hl : Lawful (s.engine.notes id)) {leaf : LedgerEntry}
    (hclosing : Closing s.history s.engine.records leaf) (hid : leaf.transformation = id)
    (hstep : Step pol w id s s') {body : PlannedBody} {t : Timestamp}
    (hr : s'.engine.records = s.engine.records ++ [.about id (.planned body) t]) :
    pol.plans s.engine id := by
  subst hid
  have hnone : s.engine.records ≠
      s.engine.records ++ [.about leaf.transformation (.planned body) t] := by simp
  cases hstep with
  | planned intent shape stamp hid hsound hdraft halready hresolved hanew hpol => exact hpol
  | undone original entry inverse fp0 pre t' stage witness stamp horiginal hcommitted hescrow hid
      hmints hpre hundo =>
    exfalso
    have hreplans := undo_replans hs hi (hid ▸ hmints.names) hl hundo
    rcases hclosing with ⟨hstate, _⟩ | ⟨state, hstate, rfl | rfl⟩ <;>
      · rw [Engine.notes, hstate] at hreplans
        rcases hreplans with h | h | ⟨reason, h⟩ <;> cases h
  | _ =>
    first
    | exact absurd hr hnone
    | cases List.append_cancel_left hr

/-- A row with a leaf stays on its way, and what its leaf attests stays escrowed. -/
theorem Closing.step [Canon.CollisionFree] (hs : Synced s.engine) (hi : Indexed s.engine)
    (hl : ∀ other, Lawful (s.engine.notes other)) {leaf : LedgerEntry}
    (hleaf : leaf ∈ s.engine.ledger) (hclosing : Closing s.history s.engine.records leaf)
    (hattests : Attests (s.engine.notes leaf.transformation) leaf)
    (hstep : Step unleafedOnly w id s s') :
    Closing s'.history s'.engine.records leaf ∧
      Attests (s'.engine.notes leaf.transformation) leaf := by
  rcases hstep.notes leaf.transformation with hsame | ⟨rfl, n, t, hr, hnotes⟩
  · rw [hsame, Closing, show notesOf leaf.transformation s'.engine.records = _ from hsame]
    refine ⟨hclosing.imp_left fun ⟨hstate, hmem⟩ => ⟨hstate, ?_⟩, hattests⟩
    refine hstep.mem_attemptEvents hmem fun n t hr => ?_
    rw [Engine.notes, hr, notesOf_append, notesOf_about] at hsame
    simp at hsame
  · have hplanned : ∀ body, n ≠ .planned body := by
      rintro body rfl
      have hnone := hstep.plans_closing hs hi (hl _) hclosing rfl hr
      exact leafOf_eq_none hnone leaf hleaf rfl
    have hsilent : n.answers = false := by
      by_contra hanswers
      obtain ⟨hstate, ⟨entry, hcommit⟩ | ⟨row, hrow, hpending⟩⟩ :=
        hstep.answers hr (by simpa using hanswers)
      · rcases hclosing with ⟨_, hmem⟩ | ⟨state, hstate', hclosed⟩
        · exact hcommit.noLeaf leaf hmem rfl
        · rw [show notesOf leaf.transformation s.engine.records =
            s.engine.notes leaf.transformation from rfl, hstate] at hstate'
          cases hstate'
          rcases hclosed with h | h <;> cases h
      · obtain ⟨held, hheld, hattested⟩ := hattests
        rw [hrow] at hheld
        cases hheld
        exact hattested.settled hpending
    have hlegal := hstep.legal hs hr
    rw [hnotes]
    refine ⟨?_, hattests.append hsilent⟩
    rw [Closing, show notesOf leaf.transformation s'.engine.records = _ from hnotes, stateOf?_append]
    rcases hclosing with ⟨hstate, hmem⟩ | ⟨state, hstate, hclosed⟩
    · rw [show stateOf? (s.engine.notes leaf.transformation) = _ from hstate] at hlegal ⊢
      rcases hlegal.of_committing with ⟨hnext, hstarts, _⟩ | ⟨m, rfl⟩ | ⟨_, _, rfl⟩ | ⟨body, rfl⟩
      · refine .inl ⟨hnext, hstep.mem_attemptEvents hmem fun n' t' hr' => ?_⟩
        rw [hr] at hr'
        cases List.append_cancel_left hr'
        exact hstarts
      · exact .inr ⟨_, rfl, .inl rfl⟩
      · exact absurd hmem ((hstep.aborts hr).leafless_of_committing hs (hl _) hstate hleaf rfl)
      · exact absurd rfl (hplanned body)
    · rw [show stateOf? (s.engine.notes leaf.transformation) = _ from hstate] at hlegal ⊢
      rcases hlegal.of_closed hclosed with ⟨by_, rfl⟩ | ⟨body, rfl⟩
      · exact .inr ⟨_, rfl, .inr rfl⟩
      · exact absurd rfl (hplanned body)

theorem LiveLeaf.attests {entry : Entry} {outcome : InvertOutcome} {applied : AppliedDelta}
    {facts : CommitFacts} (h : LiveLeaf s id entry outcome applied facts) :
    ∃ row, escrowOf? id (s.engine.notes id) = some row ∧ row.status ≠ .pending ∧
      facts.payload.inverseDelta = row.inverseCid := by
  obtain ⟨live, canonicalCid, verdict, inverse, key, hfacts, _, _, _, hinverse⟩ := h.facts_eq
  have hdelta : facts.payload.inverseDelta = inverse := by
    rw [hfacts]
    rfl
  rw [hdelta, hinverse]
  rcases h.settled with hrow | ⟨completed, _, _, hrow⟩
  · rw [hrow]
    exact ⟨_, rfl, escrowRow_settled id outcome, rfl⟩
  · rw [hrow]
    refine ⟨_, rfl, ?_, rfl⟩
    dsimp only
    split <;> nofun

theorem RebuiltLeaf.attests {row : StateRow} {delta : PlannedDelta} {applied : AppliedDelta}
    {facts : CommitFacts} (h : RebuiltLeaf s row delta applied facts)
    (hescrowed : ∃ body, .inverseEscrowed body ∈ s.engine.notes row.transformation) :
    ∃ held, escrowOf? row.transformation (s.engine.notes row.transformation) = some held ∧
      held.status ≠ .pending ∧ facts.payload.inverseDelta = held.inverseCid := by
  obtain ⟨m, verdict, inverse, status, key, hfacts, _, _, _, hinverse, hstatus⟩ := h.facts_eq
  have hdelta : facts.payload.inverseDelta = inverse := by
    rw [hfacts]
    rfl
  obtain ⟨body, hbody⟩ := hescrowed
  obtain ⟨held, hheld⟩ := escrowOf?_isSome row.transformation hbody
  rw [hheld] at hinverse hstatus
  refine ⟨held, hheld, ?_, hdelta.trans hinverse⟩
  rcases hstatus with ⟨hsame, hne⟩ | ⟨_, hsettled⟩
  · intro hpending
    exact hne (by rw [hsame, Option.map_some, hpending])
  · rw [Option.some.inj hsettled]
    dsimp only
    split <;> nofun

theorem Attests.leafed (hstep : Step unleafedOnly w id s s') {leaf : LedgerEntry}
    (hl : s'.engine.ledger = s.engine.ledger ++ [leaf]) :
    Attests (s.engine.notes leaf.transformation) leaf := by
  have hnone : s.engine.ledger ≠ s.engine.ledger ++ [leaf] := by simp
  cases hstep with
  | leafed entry outcome applied facts stamp hleaf =>
    cases List.append_cancel_left hl
    obtain ⟨row, hrow, hsettled, hinverse⟩ := hleaf.attests
    exact ⟨row, hrow, hsettled, facts.payload, rfl, hinverse⟩
  | leafedAgain row delta applied facts stamp hid hleaf hpol =>
    cases List.append_cancel_left hl
    subst hid
    obtain ⟨notes, ⟨body, hbody⟩, hprefix⟩ := hpol
    obtain ⟨held, hheld, hsettled, hinverse⟩ := hleaf.attests ⟨body, hprefix.subset hbody⟩
    exact ⟨held, hheld, hsettled, facts.payload, rfl, hinverse⟩
  | _ => exact absurd hl hnone

theorem StartsEscrowed.step (hstep : Step unleafedOnly w id s s')
    (h : ∀ other, StartsEscrowed (s.engine.notes other)) (other : TransformationId) :
    StartsEscrowed (s'.engine.notes other) := by
  rcases hstep.notes other with hsame | ⟨rfl, n, t, hr, hnotes⟩
  · rw [hsame]
    exact h other
  · rw [hnotes]
    intro cid hcid
    have hescrowed : ∃ body, .inverseEscrowed body ∈ s.engine.notes other := by
      rcases List.mem_append.mp hcid with hold | hnew
      · exact h other cid hold
      · obtain rfl := List.mem_singleton.mp hnew
        rcases (hstep.announces hr).2 with ⟨⟨body, hbody⟩, _⟩ | ⟨notes, ⟨body, hbody⟩, hnotes'⟩
        · exact ⟨body, mem_of_mem_afterLast hbody⟩
        · refine ⟨body, ?_⟩
          rcases hnotes' with hsame | ⟨inverse, hmore⟩
          · rw [hsame]
            exact hbody
          · rw [hmore]
            exact List.mem_append_left _ hbody
    obtain ⟨body, hbody⟩ := hescrowed
    exact ⟨body, List.mem_append_left _ hbody⟩

/-- Every `Committed` record stands over a leaf that attests what was escrowed when it was
written. -/
def CommitsAttested (records : List Record) (ledger : List LedgerEntry) : Prop :=
  ∀ id before n after, notesOf id records = before ++ .committed n :: after →
    ∃ leaf ∈ ledger, leaf.transformation = id ∧ Attests before leaf

/-- Every receipt on file is that of a leaf of its transformation. -/
def ReceiptsLeafed (disk : Disk) : Prop :=
  ∀ (id : TransformationId) receipt, disk.receipts[id]? = some receipt →
    ∃ leaf ∈ disk.ledger, leaf.transformation = id ∧
      receipt.payload.ledgerDigest = leaf.receiptDigest

theorem Step.mem_ledger (hstep : Step pol w id s s') {leaf : LedgerEntry}
    (hleaf : leaf ∈ s.engine.ledger) : leaf ∈ s'.engine.ledger := by
  cases hstep.writes with
  | nothing _ _ hl | record _ _ _ hl =>
    rw [hl]
    exact hleaf
  | leaf _ _ _ hl =>
    rw [hl]
    exact List.mem_append_left _ hleaf

omit [Canon] in
theorem split_append_singleton {α : Type} {notes before after : List α} {a b : α}
    (h : notes ++ [a] = before ++ b :: after) :
    (∃ rest, after = rest ++ [a] ∧ notes = before ++ b :: rest) ∨
      after = [] ∧ b = a ∧ notes = before := by
  cases after using List.reverseRecOn with
  | nil =>
    obtain ⟨hnotes, hlast⟩ := List.append_inj' h rfl
    exact .inr ⟨rfl, (List.singleton_inj.mp hlast).symm, hnotes⟩
  | append_singleton rest c _ =>
    rw [← List.cons_append, ← List.append_assoc] at h
    obtain ⟨hnotes, hlast⟩ := List.append_inj' h rfl
    obtain rfl := List.singleton_inj.mp hlast
    exact .inl ⟨rest, rfl, hnotes⟩

theorem CommitsAttested.step (h : CommitsAttested s.engine.records s.engine.ledger)
    (hattests : ∀ leaf ∈ s.engine.ledger, Attests (s.engine.notes leaf.transformation) leaf)
    (hstep : Step pol w id s s') : CommitsAttested s'.engine.records s'.engine.ledger := by
  intro other before n after hsplit
  have hold : ∀ rest, s.engine.notes other = before ++ .committed n :: rest →
      ∃ leaf ∈ s'.engine.ledger, leaf.transformation = other ∧ Attests before leaf := by
    intro rest hrest
    obtain ⟨leaf, hleaf, hfacts⟩ := h other before n rest hrest
    exact ⟨leaf, hstep.mem_ledger hleaf, hfacts⟩
  have hsplit : s'.engine.notes other = before ++ .committed n :: after := hsplit
  rcases hstep.notes other with hsame | ⟨rfl, note, t, hr, hnotes⟩
  · exact hold after (hsame ▸ hsplit)
  · rw [hnotes] at hsplit
    rcases split_append_singleton hsplit with ⟨rest, _, hrest⟩ | ⟨_, rfl, rfl⟩
    · exact hold rest hrest
    · obtain ⟨leaf, hleaf, _⟩ := hstep.commits hr
      obtain ⟨hmem, hid⟩ := mem_of_leafOf hleaf
      refine ⟨leaf, hstep.mem_ledger hmem, hid, ?_⟩
      have hnow := hattests leaf hmem
      rw [hid] at hnow
      exact hnow

theorem ReceiptsLeafed.step (hin : InStep s) (h : ReceiptsLeafed s.disk)
    (hstep : Step pol w id s s') : ReceiptsLeafed s'.disk := by
  have hin' := hin.writes hstep.writes
  have hold : s'.disk.receipts = s.disk.receipts → ReceiptsLeafed s'.disk := by
    intro hsame other receipt hreceipt
    rw [hsame] at hreceipt
    obtain ⟨leaf, hleaf, hfacts⟩ := h other receipt hreceipt
    rw [← hin.ledger] at hleaf
    rw [← hin'.ledger]
    exact ⟨leaf, hstep.mem_ledger hleaf, hfacts⟩
  cases hstep with
  | filed receipt leaf hleaf hdigest hid =>
    intro other receipt' hreceipt
    have hinsert := ExtTreeMap.getElem?_insert.symm.trans hreceipt
    split at hinsert
    next heq =>
      obtain rfl : id = other := by simpa using heq
      obtain rfl := Option.some.inj hinsert
      obtain ⟨hmem, hleafed⟩ := mem_of_leafOf hleaf
      rw [hin.ledger] at hmem
      exact ⟨leaf, hmem, hleafed, hdigest⟩
    next => exact h other receipt' hinsert
  | _ => exact hold rfl

/-- Every receipt a process holds is that of the leaf of its transformation. -/
def Received (e : Engine) : Prop :=
  ∀ (id : TransformationId) entry receipt, e.table[id]? = some entry →
    entry.receipt = some receipt → IssuedFor e.ledger id receipt

omit [Canon] in
theorem leafOf_append {ledger : List LedgerEntry} {leaf new : LedgerEntry}
    (h : leafOf ledger id = some leaf) : leafOf (ledger ++ [new]) id = some leaf := by
  rw [leafOf] at h ⊢
  rw [List.find?_append, h]
  rfl

theorem IssuedFor.step (hstep : Step pol w id s s') {other : TransformationId} {receipt : Receipt}
    (h : IssuedFor s.engine.ledger other receipt) : IssuedFor s'.engine.ledger other receipt := by
  obtain ⟨leaf, hleaf, hdigest⟩ := h
  refine ⟨leaf, ?_, hdigest⟩
  cases hstep.writes with
  | nothing _ _ hl | record _ _ _ hl =>
    rw [hl]
    exact hleaf
  | leaf _ _ _ hl =>
    rw [hl]
    exact leafOf_append hleaf

theorem Received.step (h : Received s.engine) (hstep : Step pol w id s s') :
    Received s'.engine := by
  have hkept : s'.engine.table = s.engine.table → Received s'.engine := by
    intro hsame other entry receipt hentry hreceipt
    rw [hsame] at hentry
    exact (h other entry receipt hentry hreceipt).step hstep
  have hlive : ∀ f, s'.engine.table = s.engine.table.modify id f →
      Entry.Receipts s.engine.ledger id f → Received s'.engine := by
    intro f htable hf other entry receipt hentry hreceipt
    rw [htable, ExtTreeMap.getElem?_modify] at hentry
    apply IssuedFor.step hstep
    split at hentry
    next heq =>
      obtain rfl : id = other := by simpa using heq
      obtain ⟨before, hbefore, rfl⟩ := Option.map_eq_some_iff.mp hentry
      rcases hf before receipt hreceipt with hold | hissued
      · exact h id before receipt hbefore hold
      · exact hissued
    next => exact h other entry receipt hentry hreceipt
  have hinsert : ∀ fresh : Entry, s'.engine.table = s.engine.table.insert id fresh →
      fresh.receipt = none → Received s'.engine := by
    intro fresh htable hnone other entry receipt hentry hreceipt
    rw [htable, ExtTreeMap.getElem?_insert] at hentry
    split at hentry
    next =>
      obtain rfl := Option.some.inj hentry
      rw [hnone] at hreceipt
      cases hreceipt
    next => exact (h other entry receipt hentry hreceipt).step hstep
  cases hstep with
  | seated => exact hinsert _ rfl rfl
  | rehydrated intent shape stamp =>
    refine hinsert _ rfl ?_
    cases (reconstruct s.engine.records).stateOf id <;> rfl
  | restored => exact hinsert _ rfl rfl
  | idle f hf hreceipt => exact hlive f rfl hreceipt
  | closed f stamp hstate hf hreceipt => exact hlive f rfl hreceipt
  | verifyStarted | unverified | ruled | opened | decided | canonicalized | committing | provenance
  | announced | observationNamed | aborted | superseded => exact hlive _ rfl fun _ _ => .inl
  | _ => exact hkept rfl

/-- What the files of a project keep of the inverses its receipts attest. -/
structure FilesAttested (history : List Event) (disk : Disk) : Prop where
  lawful : ∀ id, Lawful (notesOf id disk.journal)
  named : ∀ id body, .planned body ∈ notesOf id disk.journal → Named id body
  numbered : Numbered disk.ledger
  started : ∀ id, StartsEscrowed (notesOf id disk.journal)
  closing : ∀ leaf ∈ disk.ledger, Closing history disk.journal leaf
  attests : ∀ leaf ∈ disk.ledger, Attests (notesOf leaf.transformation disk.journal) leaf
  commits : CommitsAttested disk.journal disk.ledger
  receipts : ReceiptsLeafed disk

theorem FilesAttested.empty : FilesAttested [] .empty := by
  refine ⟨fun _ => Lawful.nil, fun id body h => ?_, Numbered.nil, fun id cid h => ?_,
    fun leaf h => ?_, fun leaf h => ?_, fun id before n after h => ?_, fun id receipt h => ?_⟩
  · cases h
  · cases h
  · cases h
  · cases h
  · have hlength := congrArg List.length h
    simp [notesOf, Disk.empty] at hlength
  · have hempty : Disk.empty.receipts[id]? = none := ExtTreeMap.getElem?_empty
    rw [hempty] at h
    cases h

/-- What a process keeps of them. -/
structure ProcessAttested (e : Engine) : Prop where
  synced : Synced e
  indexed : Indexed e
  received : Received e

theorem attested_kept [Canon.CollisionFree] (w : World) :
    Project.Kept w unleafedOnly FilesAttested (fun s => ProcessAttested s.engine) where
  init := .empty
  opens _ disk config hd := by
    refine ⟨Synced.openThrough config disk, Indexed.openThrough config hd.named, ?_⟩
    intro id entry receipt hentry
    have hempty : (Engine.openThrough config disk).table[id]? = none := ExtTreeMap.getElem?_empty
    rw [hempty] at hentry
    cases hentry
  step id s s' hin hd he hstep := by
    obtain ⟨hlawful, hnamed, hnumbered, hstarted, hclosing, hattests, hcommits, hreceipts⟩ := hd
    obtain ⟨hs, hi, hreceived⟩ := he
    rw [← hin.records] at hlawful hnamed hstarted
    rw [← hin.ledger] at hnumbered
    rw [← hin.records, ← hin.ledger] at hclosing hattests hcommits
    have hin' := hin.writes hstep.writes
    have hi' := hi.step hstep
    have hold : ∀ leaf ∈ s.engine.ledger, Closing s'.history s'.engine.records leaf ∧
        Attests (s'.engine.notes leaf.transformation) leaf := fun leaf hleaf =>
      Closing.step hs hi hlawful hleaf (hclosing leaf hleaf) (hattests leaf hleaf) hstep
    have hleaves : ∀ leaf ∈ s'.engine.ledger, Closing s'.history s'.engine.records leaf ∧
        Attests (s'.engine.notes leaf.transformation) leaf := by
      intro leaf hleaf
      cases hstep.writes with
      | nothing _ _ hl | record _ _ _ hl => exact hold leaf (hl ▸ hleaf)
      | leaf new hr _ hl =>
        rw [hl] at hleaf
        rcases List.mem_append.mp hleaf with hmem | hmem
        · exact hold leaf hmem
        · obtain rfl := List.mem_singleton.mp hmem
          obtain ⟨hid, _, _, hstate, hh⟩ := hstep.leafs hl
          subst hid
          have hnew := Attests.leafed hstep hl
          rw [Closing, Engine.notes, hr]
          refine ⟨.inl ⟨hstate, ?_⟩, hnew⟩
          rw [hh, attemptEvents, afterLast_unmarked rfl]
          exact List.mem_append_right _ List.mem_cons_self
    refine ⟨⟨?_, ?_, ?_, ?_, ?_, ?_, ?_, hreceipts.step hin hstep⟩, hs.step hstep, hi',
      hreceived.step hstep⟩
    · rw [← hin'.records]
      exact Lawful.step hs hstep hlawful
    · rw [← hin'.records]
      exact hi'.named
    · rw [← hin'.ledger]
      exact hnumbered.step hstep
    · rw [← hin'.records]
      exact StartsEscrowed.step hstep hstarted
    · rw [← hin'.records, ← hin'.ledger]
      exact fun leaf hleaf => (hleaves leaf hleaf).1
    · rw [← hin'.records, ← hin'.ledger]
      exact fun leaf hleaf => (hleaves leaf hleaf).2
    · rw [← hin'.records, ← hin'.ledger]
      exact hcommits.step hattests hstep

/-- `plan` does not mint the id of a transformation that has a leaf, where neither of its guards
stops it and it does not rehydrate the last resolution of the intent. -/
def MintsUnleafed (w : World) (p : Project) (a : Action) : Prop :=
  ∀ s intent stamp, p.calls a = some (s, .plan intent stamp) →
    ∀ shape, (planShape intent stamp).answer w s = .ok shape →
      s.engine.plannedAlready (Canon.intent intent) = none →
      s.engine.resolvedAlready (Canon.intent intent) shape.id = none →
      s.engine.rehydrating (Canon.intent intent) shape.id = false →
      leafOf s.engine.ledger shape.id = none

theorem MintsUnleafed.allows {p : Project} {a : Action} (ha : MintsUnleafed w p a)
    (hsolo : a.Solo) (hp : p.Holds FilesAttested fun s => ProcessAttested s.engine) {op : Op}
    (hcalls : p.calls a = some (s, op)) : unleafedOnly.Allows w s op := by
  cases op with
  | plan intent stamp => exact ha s intent stamp hcalls
  | undo original witness rngSeed stamp => exact fun _ _ _ _ _ _ => trivial
  | commit id stamp key => exact fun _ _ _ _ _ _ => trivial
  | canonicalize => exact fun _ _ _ _ => trivial
  | recover stamp key =>
    intro row hrow hstate hleaf hannounced
    have hrecords : s.engine.records = p.disk.journal := by
      cases a with
      | start => cases hcalls
      | locked => exact hsolo.elim
      | call pid op' =>
        obtain rfl : pid = 0 := hsolo
        obtain ⟨e, he, heq⟩ := Option.map_eq_some_iff.mp hcalls
        obtain ⟨rfl, _⟩ := Prod.mk.inj heq
        exact (hp.2 e he).1.records
    rw [(mem_transformations hrow).2, hrecords] at hannounced
    obtain ⟨cid, hcid⟩ := applyStarted_rowOf _ hannounced
    obtain ⟨body, hbody⟩ := hp.1.started row.transformation cid hcid
    refine ⟨body, ?_⟩
    rw [Engine.notes, hrecords]
    exact hbody
  | _ => trivial

/-- What the commit of a transformation attests: when its `Committed` record was written its escrow
row waited for nothing, and every receipt of its leaf names the inverse of that row. -/
def CommitAttested (disk : Disk) (id : TransformationId) (before : List Note) : Prop :=
  ∃ row, escrowOf? id before = some row ∧ row.status ≠ .pending ∧
    ∀ receipt, IssuedFor disk.ledger id receipt → receipt.payload.inverseDelta = row.inverseCid

/-- In a run of one process with crashes, restarts and recoveries, whose plans leave every row
alone that has a leaf, a committed row has an escrow row that waits for nothing, and the commit
receipts on file and in memory name the inverse that was escrowed when it was committed. -/
theorem commits_attest_their_escrow [Canon.CollisionFree] {w : World} {p : Project}
    (h : Project.empty.Reaches w (fun p a => a.Solo ∧ MintsUnleafed w p a) p)
    {id : TransformationId} (hstate : sigmaState p.disk.journal id = some .committed) :
    (∃ row, (reconstruct p.disk.journal).escrowOf id = some row ∧ row.status ≠ .pending) ∧
      (∃ n, .committed n ∈ notesOf id p.disk.journal) ∧
      (∀ before n after, notesOf id p.disk.journal = before ++ .committed n :: after →
        CommitAttested p.disk id before) ∧
      (∀ receipt, p.disk.receipts[id]? = some receipt → IssuedFor p.disk.ledger id receipt) ∧
      ∀ e entry receipt, p.process 0 = some e → e.table[id]? = some entry →
        entry.receipt = some receipt → IssuedFor p.disk.ledger id receipt := by
  have hkept := (attested_kept w).solo_of h (fun _ _ ha => ha.1)
    fun p a ha hp s op hcalls => ha.2.allows ha.1 hp hcalls
  obtain ⟨hfiles, hprocess⟩ := hkept
  have hleafOf : ∀ leaf ∈ p.disk.ledger, leaf.transformation = id →
      leafOf p.disk.ledger id = some leaf := by
    intro leaf hleaf hid
    have hsome : (leafOf p.disk.ledger id).isSome := by
      rw [leafOf, List.find?_isSome]
      exact ⟨leaf, hleaf, by simpa using hid⟩
    obtain ⟨found, hfound⟩ := Option.isSome_iff_exists.mp hsome
    obtain ⟨hmem, hid'⟩ := mem_of_leafOf hfound
    rw [hfound, hfiles.numbered.unique hmem hleaf (hid'.trans hid.symm)]
  rw [sigmaState_eq] at hstate
  obtain ⟨n, hn⟩ := (hfiles.lawful id).committed hstate (.inl rfl)
  refine ⟨?_, ⟨n, hn⟩, fun before m after hsplit => ?_, fun receipt hreceipt => ?_,
    fun e entry receipt he hentry hreceipt => ?_⟩
  · obtain ⟨before, after, hsplit⟩ := List.append_of_mem hn
    obtain ⟨leaf, hleaf, rfl, _⟩ := hfiles.commits id before n after hsplit
    obtain ⟨row, hrow, hattested⟩ := hfiles.attests leaf hleaf
    rw [escrowOf_reconstruct]
    exact ⟨row, hrow, hattested.settled⟩
  · obtain ⟨leaf, hleaf, hid, row, hrow, hattested⟩ := hfiles.commits id before m after hsplit
    rw [hid] at hrow
    refine ⟨row, hrow, hattested.settled, ?_⟩
    rintro receipt ⟨held, hheld, hdigest⟩
    rw [hleafOf leaf hleaf hid] at hheld
    obtain rfl := Option.some.inj hheld
    exact hattested.receipt hdigest
  · obtain ⟨leaf, hleaf, hid, hdigest⟩ := hfiles.receipts id receipt hreceipt
    exact ⟨leaf, hleafOf leaf hleaf hid, hdigest⟩
  · obtain ⟨hin, hp⟩ := hprocess e he
    rw [← hin.ledger]
    exact hp.received id entry receipt hentry hreceipt

end Kept

section TwoPhase

open Tracefold.Ideal

/-- A process whose adapter completes inverses, with a place to file its receipts. -/
def twoPhase : Config :=
  { Ideal.config with completions := fun _ => true, receiptSink := some ⟨true, true⟩ }

/-- An intent planned over both versions of its object, the first of them committed; after a restart
the intent is planned over the first version again and committed, by a process that dies before the
apply, and recovered. -/
def mintedAgain : List Action :=
  [.start 0 twoPhase, .call 0 (.submit intent 0 0), .call 0 (.plan intent 0),
    .call 0 (.plan intent 0)] ++ committing (idAt 1) ++
    [.start 0 twoPhase, .call 0 (.plan intent 3)] ++ committing (idAt 1) ++
    [.start 0 twoPhase, .call 0 (.recover 9 "k")]

def dyingEscrowed : World := fun history =>
  let env := if 6 ≤ history.length ∧ history.length < 10 then envAt 2 else envAt 1
  { env with
    needsCompletion := fun _ _ => .ok true
    fault := if history.length = 52 then .crash else .none }

/-- The recovery closes the second commit from the receipt of the first, over an escrow that is
still pending. -/
theorem committed_over_a_pending_escrow :
    ¬ ∀ (w : World) (p : Project) (id : TransformationId),
      Project.empty.Reaches w (fun _ a => a.Solo) p →
      sigmaState p.disk.journal id = some .committed →
      ∃ row, (reconstruct p.disk.journal).escrowOf id = some row ∧ row.status ≠ .pending := by
  intro h
  have hreached : Project.empty.Reaches dyingEscrowed (fun _ a => a.Solo)
      (Project.empty.run dyingEscrowed mintedAgain) :=
    Project.reaches_run fun a ha _ => (by decide : ∀ a ∈ mintedAgain, a.Solo) a ha
  have hcommitted : stateOf? (notesOf (idAt 1)
      (Project.empty.run dyingEscrowed mintedAgain).disk.journal) = some .committed := by
    decide +kernel
  have hpending : (escrowOf? (idAt 1) (notesOf (idAt 1)
      (Project.empty.run dyingEscrowed mintedAgain).disk.journal)).map (·.status) =
        some .pending := by decide +kernel
  rw [← sigmaState_eq] at hcommitted
  obtain ⟨row, hrow, hne⟩ := h dyingEscrowed _ (idAt 1) hreached hcommitted
  rw [escrowOf_reconstruct] at hrow
  rw [hrow, Option.map_some] at hpending
  exact hne (Option.some.inj hpending)

/-- An adapter that makes the inverse of what it observed, and a process that dies before it has
the inverse on record. -/
def observing : World := objectFrom 2 fun now env =>
  { env with
    apply := fun _ delta => .ok ⟨delta.reference, fingerprintAt 3, ⟨[3]⟩, 0, some [5]⟩
    needsCompletion := fun _ _ => .ok true
    completeInverse := fun inverse bytes => .ok (some ⟨inverse.substrate, bytes, none⟩)
    fault := if now = 28 then .crash else .none }

def observed : List Action :=
  [.start 0 twoPhase, .call 0 (.submit intent 0 0), .call 0 (.plan intent 0)] ++
    committing (idAt 2) ++ [.start 0 twoPhase, .call 0 (.recover 9 "k")]

theorem commits_attest_their_escrow_observed :
    ∃ before n after, notesOf (idAt 2) (Project.empty.run observing observed).disk.journal =
        before ++ .committed n :: after ∧
      CommitAttested (Project.empty.run observing observed).disk (idAt 2) before ∧
      (escrowOf? (idAt 2) before).map (·.inverseCid) = some (some (Canon.delta .fs [5])) := by
  have hreached : Project.empty.Reaches observing
      (fun p a => a.Solo ∧ MintsUnleafed observing p a) (Project.empty.run observing observed) := by
    refine Project.Reaches.refl.run ⟨⟨rfl, ?_⟩, ⟨rfl, ?_⟩, ⟨rfl, ?_⟩, ⟨rfl, ?_⟩, ⟨rfl, ?_⟩,
      ⟨rfl, ?_⟩, ⟨rfl, ?_⟩, ⟨rfl, ?_⟩, trivial⟩
    case refine_3 =>
      intro s intent stamp hcalls shape _ _ _ _
      cases hcalls
      rfl
    all_goals
      intro s intent stamp hcalls
      cases Project.calls_op hcalls
  have hstate : stateOf? (notesOf (idAt 2) (Project.empty.run observing observed).disk.journal) =
      some .committed := by decide +kernel
  rw [← sigmaState_eq] at hstate
  obtain ⟨_, _, hcommits, _⟩ := commits_attest_their_escrow hreached hstate
  have hsplit : notesOf (idAt 2) (Project.empty.run observing observed).disk.journal =
      (notesOf (idAt 2) (Project.empty.run observing observed).disk.journal).dropLast ++
        .committed 0 :: [] := by decide +kernel
  refine ⟨_, 0, [], hsplit, hcommits _ 0 [] hsplit, ?_⟩
  decide +kernel

end TwoPhase

end Tracefold
