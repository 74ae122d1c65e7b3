import Mathlib.Tactic.Common
import Tracefold.Engine
import Tracefold.Ideal
import Tracefold.Library.Chain
import Tracefold.Library.Frames

/-! The head a project has recorded against the bytes of its files: the links of a chained journal,
the root of the ledger at an earlier size, and what `rollback_of` answers of them. -/

namespace Tracefold.Head

open Library
open Library.Frames (lengthBytes u32FromBeBytes u32FromBeBytes_injective)

/-- A BLAKE3 digest. -/
abbrev Digest := { bytes : Bytes // bytes.length = 32 }

inductive JournalFormat where
  | legacy
  | chained
  | chainedV2
  deriving DecidableEq, Repr

/-- A journal as a process holds it: the format it sniffed when it opened the file, and the file
as it is now, if it is there. -/
structure Journal where
  format : JournalFormat
  file : Option Bytes
  deriving DecidableEq, Repr

/-- `JOURNAL_MAGIC` and `JOURNAL_MAGIC_V2`: `GXJRNL01`, `GXJRNL02`. -/
def journalMagic : Bytes := [71, 88, 74, 82, 78, 76, 48, 49]

def journalMagicV2 : Bytes := [71, 88, 74, 82, 78, 76, 48, 50]

/-- `CHAIN_TAG`: `gx.journal.chain.v1`. -/
def chainTag : Bytes :=
  [103, 120, 46, 106, 111, 117, 114, 110, 97, 108, 46, 99, 104, 97, 105, 110, 46, 118, 49]

def chainBytes : ℕ := 32

def maxRecordBytes : ℕ := 2 ^ 20

/-- What the genesis link of a framing is minted over, behind the byte of `Domain::Leaf`. -/
def genesisPreimage (magic : Bytes) : Bytes := 0 :: (chainTag ++ magic)

/-- What the link of a record is minted over. -/
def linkPreimage (previous : Digest) (payload : Bytes) : Bytes :=
  0 :: (chainTag ++ previous.1 ++ payload)

section Walk

variable (hash : Bytes → Digest)

def genesisLink (magic : Bytes) : Digest := hash (genesisPreimage magic)

def link (previous : Digest) (payload : Bytes) : Digest := hash (linkPreimage previous payload)

/-- `genesis_link_of` the format that a file's first bytes are sniffed as, with its marker. -/
def sniff (bytes : Bytes) : Option Bytes :=
  if journalMagicV2.isPrefixOf bytes then some journalMagicV2
  else if journalMagic.isPrefixOf bytes then some journalMagic
  else none

structure ChainWalk where
  head : Option Digest
  records : ℕ
  goodBytes : ℕ
  breakAt : Option ℕ
  deriving DecidableEq

/-- The whole frame at the front of some bytes, if there is one: its payload, the link stored
behind it, and what follows. -/
def frame? (rest : Bytes) : Option (Bytes × Bytes × Bytes) :=
  if rest.length < lengthBytes then none
  else
    let length := u32FromBeBytes (rest.take lengthBytes)
    if length = 0 ∨ maxRecordBytes < length then none
    else if rest.length < lengthBytes + length + chainBytes then none
    else
      some ((rest.drop lengthBytes).take length, (rest.drop (lengthBytes + length)).take chainBytes,
        rest.drop (lengthBytes + length + chainBytes))

/-- The loop of `walk_links`, over the bytes from `offset` on; every frame takes some of them, so
there is fuel for all. -/
def walkFrames : ℕ → Digest → ℕ → ℕ → Bytes → ChainWalk
  | 0, chain, records, offset, _ => ⟨some chain, records, offset, none⟩
  | fuel + 1, chain, records, offset, rest =>
    match frame? rest with
    | none => ⟨some chain, records, offset, none⟩
    | some (payload, stored, tail) =>
      let expected := link hash chain payload
      if stored ≠ expected.1 then ⟨some chain, records, offset, some offset⟩
      else
        walkFrames fuel expected (records + 1) (offset + lengthBytes + payload.length + chainBytes)
          tail

/-- `walk_links`. -/
def walkLinks (bytes : Bytes) : ChainWalk :=
  match sniff bytes with
  | none => ⟨none, 0, 0, none⟩
  | some magic =>
    walkFrames hash bytes.length (genesisLink hash magic) 0 magic.length (bytes.drop magic.length)

/-- `EngineJournal::chain_head_through`. -/
def chainHeadThrough (journal : Journal) (len : ℕ) : Option (Option Digest) :=
  if journal.format = .legacy then some none
  else
    match journal.file with
    | none => none
    | some file =>
      if file.length < len then none
      else
        let walk := walkLinks hash (file.take len)
        if walk.breakAt.isSome ∨ walk.goodBytes ≠ len then none
        else some walk.head

end Walk

/-- The length `std::fs::metadata` gives. -/
def Journal.len (journal : Journal) : ℕ := (journal.file.map List.length).getD 0

structure Floor where
  treeSize : ℕ
  rootHash : Cid
  journalLen : ℕ
  journalHead : Option Digest
  versionDigest : Option String
  deriving DecidableEq

inductive RolledBack where
  | treeShorter (was now : ℕ)
  | treeDiverged (was : ℕ) (expected : Cid) (found : Option Cid)
  | journalShorter (was now : ℕ)
  | journalDiverged (at_ : ℕ)
  | versionChanged (was : String) (now : Option String)
  deriving DecidableEq, Repr

/-- `head::compare`. -/
def compare (floor : Floor) (nowTreeSize : ℕ) (nowRootAt : Option Cid) (nowJournalLen : ℕ)
    (nowJournalHeadAt : Option (Option Digest)) (nowVersionDigest : Option String) :
    Option RolledBack :=
  if nowTreeSize < floor.treeSize then some (.treeShorter floor.treeSize nowTreeSize)
  else if 0 < floor.treeSize ∧ nowRootAt ≠ some floor.rootHash then
    some (.treeDiverged floor.treeSize floor.rootHash nowRootAt)
  else if nowJournalLen < floor.journalLen then
    some (.journalShorter floor.journalLen nowJournalLen)
  else if diverged then some (.journalDiverged floor.journalLen)
  else
    match floor.versionDigest with
    | some expected =>
      if nowVersionDigest ≠ some expected then some (.versionChanged expected nowVersionDigest)
      else none
    | none => none
where
  diverged : Bool :=
    match nowJournalHeadAt, floor.journalHead with
    | some found, some expected => found ≠ some expected
    | _, _ => false

section Recorded

variable [Canon] (hash : Bytes → Digest)

/-- `rollback_of`. -/
def rollbackOf (floor : Floor) (ledger : List LedgerEntry) (journal : Journal)
    (versionDigest : Option String) : Option RolledBack :=
  let nowJournalHead :=
    if floor.journalHead.isSome ∧ floor.journalLen ≤ journal.len then
      some (chainHeadThrough hash journal floor.journalLen)
    else none
  compare floor ledger.length (Engine.rootAt ledger floor.treeSize) journal.len
    (nowJournalHead.map (·.getD none)) versionDigest

/-- What `record_head` states of the files it is over; nothing is stated of an empty tree. -/
def recordedFloor (ledger : List LedgerEntry) (journal : Journal) (versionDigest : Option String) :
    Option Floor :=
  (mth (ledger.map (·.leafCid))).map fun root =>
    { treeSize := ledger.length
      rootHash := root
      journalLen := journal.len
      journalHead := (chainHeadThrough hash journal journal.len).join
      versionDigest := versionDigest }

/-- The pairs of children that are hashed for a tree; the fuel is the number of leaves. -/
def childrenFrom : ℕ → List Cid → List (Cid × Cid)
  | 0, _ => []
  | fuel + 1, leaves =>
    if leaves.length ≤ 1 then []
    else
      let left := leaves.take (splitPoint leaves.length)
      let right := leaves.drop (splitPoint leaves.length)
      ((mthFrom fuel left).getD Canon.unset, (mthFrom fuel right).getD Canon.unset) ::
        (childrenFrom fuel left ++ childrenFrom fuel right)

def children (leaves : List Cid) : List (Cid × Cid) := childrenFrom leaves.length leaves

/-- Trees of one size and one root have the same leaves, where no two of the pairs that are hashed
have one hash. -/
theorem mthFrom_injective {fuel : ℕ} {leaves leaves' : List Cid} {root : Cid}
    (hfuel : leaves.length ≤ fuel) (hlength : leaves.length = leaves'.length)
    (hfree : ∀ x ∈ childrenFrom fuel leaves, ∀ y ∈ childrenFrom fuel leaves',
      Canon.node x.1 x.2 = Canon.node y.1 y.2 → x = y)
    (h : mthFrom fuel leaves = some root) (h' : mthFrom fuel leaves' = some root) :
    leaves = leaves' := by
  induction fuel generalizing leaves leaves' root with
  | zero =>
    obtain rfl := List.length_eq_zero_iff.mp (Nat.le_zero.mp hfuel)
    exact (List.length_eq_zero_iff.mp hlength.symm).symm
  | succ fuel ih =>
    by_cases hsmall : leaves.length ≤ 1
    · match leaves, leaves', hlength, hsmall with
      | [], [], _, _ => rfl
      | [leaf], [leaf'], _, _ =>
        rw [mthFrom] at h h'
        rw [Option.some.inj (h.trans h'.symm)]
    · have htwo : 2 ≤ leaves.length := by omega
      rw [mthFrom_succ htwo] at h
      rw [mthFrom_succ (hlength ▸ htwo)] at h'
      rw [← hlength] at h'
      rw [childrenFrom, if_neg hsmall, childrenFrom, if_neg (hlength ▸ hsmall), ← hlength] at hfree
      have hlt : splitPoint leaves.length < leaves.length := splitPoint_lt htwo
      have hpos : 0 < splitPoint leaves.length := Nat.two_pow_pos _
      generalize splitPoint leaves.length = k at *
      obtain ⟨left, hleft, h⟩ := Option.bind_eq_some_iff.mp h
      obtain ⟨right, hright, h⟩ := Option.bind_eq_some_iff.mp h
      obtain ⟨left', hleft', h'⟩ := Option.bind_eq_some_iff.mp h'
      obtain ⟨right', hright', h'⟩ := Option.bind_eq_some_iff.mp h'
      have hnode : Canon.node left right = Canon.node left' right' :=
        (Option.some.inj h).trans (Option.some.inj h').symm
      simp only [hleft, hright, hleft', hright', Option.getD_some] at hfree
      obtain ⟨rfl, rfl⟩ := Prod.mk.inj
        (hfree (left, right) List.mem_cons_self (left', right') List.mem_cons_self hnode)
      have hlefts : leaves.take k = leaves'.take k := by
        refine ih ?_ ?_ (fun x hx y hy => hfree x ?_ y ?_) hleft hleft'
        · rw [List.length_take]
          omega
        · rw [List.length_take, List.length_take, hlength]
        · exact List.mem_cons_of_mem _ (List.mem_append_left _ hx)
        · exact List.mem_cons_of_mem _ (List.mem_append_left _ hy)
      have hrights : leaves.drop k = leaves'.drop k := by
        refine ih ?_ ?_ (fun x hx y hy => hfree x ?_ y ?_) hright hright'
        · rw [List.length_drop]
          omega
        · rw [List.length_drop, List.length_drop, hlength]
        · exact List.mem_cons_of_mem _ (List.mem_append_right _ hx)
        · exact List.mem_cons_of_mem _ (List.mem_append_right _ hy)
      rw [← List.take_append_drop k leaves, hlefts, hrights, List.take_append_drop]

/-- The payloads of the whole frames at the front of some bytes. -/
def payloadsFrom : ℕ → Bytes → List Bytes
  | 0, _ => []
  | fuel + 1, rest =>
    match frame? rest with
    | none => []
    | some (payload, _, tail) => payload :: payloadsFrom fuel tail

/-- Bytes that are the frames of some payloads and nothing else, every one with its link. -/
def Framed : Digest → List Bytes → Bytes → Prop
  | _, [], rest => rest = []
  | chain, payload :: payloads, rest => ∃ header tail,
    rest = header ++ payload ++ (link hash chain payload).1 ++ tail ∧
      header.length = lengthBytes ∧ u32FromBeBytes header = payload.length ∧
      Framed (link hash chain payload) payloads tail

omit [Canon] in
theorem frame?_eq_some {rest payload stored tail : Bytes}
    (h : frame? rest = some (payload, stored, tail)) :
    ∃ header, rest = header ++ payload ++ stored ++ tail ∧ header.length = lengthBytes ∧
      u32FromBeBytes header = payload.length ∧ stored.length = chainBytes := by
  unfold frame? at h
  split at h
  next => cases h
  next hheader =>
    dsimp only at h
    split at h
    next => cases h
    next =>
      split at h
      next => cases h
      next hlength =>
        cases h
        set length := u32FromBeBytes (rest.take lengthBytes) with hlen
        refine ⟨rest.take lengthBytes, ?_, ?_, ?_, ?_⟩
        · simp only [List.append_assoc, ← List.drop_drop, List.take_append_drop]
        · rw [List.length_take]
          omega
        · rw [List.length_take, List.length_drop, ← hlen]
          omega
        · rw [List.length_take, List.length_drop]
          omega

omit [Canon] in
theorem walkFrames_full {fuel : ℕ} {chain : Digest} {records offset : ℕ} {rest : Bytes}
    (hfuel : rest.length ≤ fuel)
    (hbreak : (walkFrames hash fuel chain records offset rest).breakAt = none)
    (hgood : (walkFrames hash fuel chain records offset rest).goodBytes = offset + rest.length) :
    (walkFrames hash fuel chain records offset rest).head =
        some (Chain.head (link hash) chain (payloadsFrom fuel rest)) ∧
      Framed hash chain (payloadsFrom fuel rest) rest := by
  induction fuel generalizing chain records offset rest with
  | zero => exact ⟨rfl, List.length_eq_zero_iff.mp (Nat.le_zero.mp hfuel)⟩
  | succ fuel ih =>
    cases hframe : frame? rest with
    | none =>
      simp only [walkFrames, payloadsFrom, hframe] at hgood ⊢
      exact ⟨rfl, List.length_eq_zero_iff.mp (by omega)⟩
    | some frame =>
      obtain ⟨payload, stored, tail⟩ := frame
      obtain ⟨header, rfl, hheader, hlength, hstored⟩ := frame?_eq_some hframe
      simp only [walkFrames, payloadsFrom, hframe] at hbreak hgood ⊢
      simp only [List.length_append] at hfuel hgood
      split at hbreak
      next => cases hbreak
      next hlink =>
        rw [if_neg hlink] at hgood ⊢
        have hsome : 0 < lengthBytes := by decide
        obtain ⟨hhead, hframed⟩ := ih (by omega) hbreak (by omega)
        refine ⟨hhead, header, tail, ?_, hheader, hlength, hframed⟩
        rw [← not_not.mp hlink]

omit [Canon] in
theorem Framed.unique {chain : Digest} {payloads : List Bytes} {a b : Bytes}
    (ha : Framed hash chain payloads a) (hb : Framed hash chain payloads b) : a = b := by
  induction payloads generalizing chain a b with
  | nil => exact Eq.trans ha (Eq.symm hb)
  | cons payload payloads ih =>
    obtain ⟨header, tail, rfl, hheader, hlength, ha⟩ := ha
    obtain ⟨header', tail', rfl, hheader', hlength', hb⟩ := hb
    rw [u32FromBeBytes_injective hheader hheader' (hlength.trans hlength'.symm), ih ha hb]

/-- The bytes that a frame takes. -/
def frameBytes (payload : Bytes) : ℕ := lengthBytes + payload.length + chainBytes

omit [Canon] in
theorem Framed.length {chain : Digest} {payloads : List Bytes} {rest : Bytes}
    (h : Framed hash chain payloads rest) : rest.length = (payloads.map frameBytes).sum := by
  induction payloads generalizing chain rest with
  | nil => rw [show rest = [] from h, List.map_nil, List.sum_nil, List.length_nil]
  | cons payload payloads ih =>
    obtain ⟨header, tail, rfl, hheader, -, h⟩ := h
    have hlink : (link hash chain payload).1.length = chainBytes := (link hash chain payload).2
    simp only [List.length_append, hheader, hlink, ih h, List.map_cons, List.sum_cons, frameBytes]

omit [Canon] in
theorem linkPreimage_injective {previous previous' : Digest} {payload payload' : Bytes}
    (h : linkPreimage previous payload = linkPreimage previous' payload') :
    previous = previous' ∧ payload = payload' := by
  have h := (List.cons.inj h).2
  rw [List.append_assoc, List.append_assoc] at h
  obtain ⟨hprevious, hpayload⟩ :=
    List.append_inj (List.append_cancel_left h) (previous.2.trans previous'.2.symm)
  exact ⟨Subtype.ext hprevious, hpayload⟩

/-- Everything that is hashed on a walk over some bytes. -/
def preimages (bytes : Bytes) : List Bytes :=
  match sniff bytes with
  | none => []
  | some magic =>
    genesisPreimage magic ::
      (Chain.hashed (link hash) (genesisLink hash magic)
        (payloadsFrom bytes.length (bytes.drop magic.length))).map fun x => linkPreimage x.1 x.2

omit [Canon] in
theorem sniff_isPrefix {bytes magic : Bytes} (h : sniff bytes = some magic) :
    magic <+: bytes ∧ (magic = journalMagic ∨ magic = journalMagicV2) := by
  unfold sniff at h
  split at h
  next hprefix =>
    cases h
    exact ⟨List.isPrefixOf_iff_prefix.mp hprefix, .inr rfl⟩
  next =>
    split at h
    next hprefix =>
      cases h
      exact ⟨List.isPrefixOf_iff_prefix.mp hprefix, .inl rfl⟩
    next => cases h

omit [Canon] in
theorem walkLinks_full {bytes : Bytes} {head : Digest}
    (hbreak : (walkLinks hash bytes).breakAt = none)
    (hgood : (walkLinks hash bytes).goodBytes = bytes.length)
    (hhead : (walkLinks hash bytes).head = some head) :
    ∃ magic rest, sniff bytes = some magic ∧ bytes = magic ++ rest ∧ magic.length = 8 ∧
      head = Chain.head (link hash) (genesisLink hash magic) (payloadsFrom bytes.length rest) ∧
      Framed hash (genesisLink hash magic) (payloadsFrom bytes.length rest) rest := by
  cases hsniff : sniff bytes with
  | none =>
    simp only [walkLinks, hsniff] at hhead
    cases hhead
  | some magic =>
    simp only [walkLinks, hsniff] at hbreak hgood hhead
    obtain ⟨⟨rest, rfl⟩, hmagic⟩ := sniff_isPrefix hsniff
    rw [List.drop_left] at hbreak hgood hhead
    rw [List.length_append] at hgood hbreak hhead ⊢
    obtain ⟨hwalked, hframed⟩ := walkFrames_full hash (Nat.le_add_left ..) hbreak hgood
    refine ⟨magic, rest, rfl, rfl, ?_, Option.some.inj (hhead.symm.trans hwalked), hframed⟩
    rcases hmagic with rfl | rfl <;> rfl

omit [Canon] in
/-- Bytes of one length that are walked whole to one head are the same bytes. -/
theorem walkLinks_injective {bytes bytes' : Bytes} {head : Digest}
    (hlength : bytes.length = bytes'.length)
    (hfree : ∀ x ∈ preimages hash bytes, ∀ y ∈ preimages hash bytes', hash x = hash y → x = y)
    (hbreak : (walkLinks hash bytes).breakAt = none)
    (hgood : (walkLinks hash bytes).goodBytes = bytes.length)
    (hhead : (walkLinks hash bytes).head = some head)
    (hbreak' : (walkLinks hash bytes').breakAt = none)
    (hgood' : (walkLinks hash bytes').goodBytes = bytes'.length)
    (hhead' : (walkLinks hash bytes').head = some head) : bytes = bytes' := by
  obtain ⟨magic, rest, hsniff, rfl, hmagic, rfl, hframed⟩ :=
    walkLinks_full hash hbreak hgood hhead
  obtain ⟨magic', rest', hsniff', rfl, hmagic', hsame, hframed'⟩ :=
    walkLinks_full hash hbreak' hgood' hhead'
  simp only [preimages, hsniff, hsniff', List.drop_left] at hfree
  rw [← hlength] at hsame hframed' hfree
  have hrests : rest.length = rest'.length := by
    simp only [List.length_append] at hlength
    omega
  rw [hframed.length, hframed'.length] at hrests
  obtain ⟨hgenesis, hpayloads⟩ : genesisLink hash magic = genesisLink hash magic' ∧ _ := by
    refine Chain.head_injective (fun payload => ?_) hrests (fun x hx y hy hlink => ?_) hsame
    · exact Nat.lt_of_lt_of_le (show 0 < lengthBytes by decide) (by rw [frameBytes]; omega)
    · have hx := List.mem_cons_of_mem (genesisPreimage magic)
        (List.mem_map_of_mem (f := fun x : Digest × Bytes => linkPreimage x.1 x.2) hx)
      have hy := List.mem_cons_of_mem (genesisPreimage magic')
        (List.mem_map_of_mem (f := fun x : Digest × Bytes => linkPreimage x.1 x.2) hy)
      obtain ⟨hprevious, hpayload⟩ := linkPreimage_injective (hfree _ hx _ hy hlink)
      exact Prod.ext hprevious hpayload
  have hmagics := hfree _ List.mem_cons_self _ List.mem_cons_self hgenesis
  obtain rfl : magic = magic' := List.append_cancel_left (List.cons.inj hmagics).2
  rw [hpayloads] at hframed
  rw [hframed.unique hash hframed']

omit [Canon] in
theorem chainHeadThrough_eq_some {journal : Journal} {len : ℕ} {head : Digest}
    (h : chainHeadThrough hash journal len = some (some head)) :
    ∃ file, journal.file = some file ∧ len ≤ file.length ∧
      (walkLinks hash (file.take len)).breakAt = none ∧
      (walkLinks hash (file.take len)).goodBytes = len ∧
      (walkLinks hash (file.take len)).head = some head := by
  unfold chainHeadThrough at h
  split at h
  next => cases h
  next =>
    cases hfile : journal.file with
    | none =>
      rw [hfile] at h
      cases h
    | some file =>
      rw [hfile] at h
      dsimp only at h
      split at h
      next => cases h
      next hlen =>
        split at h
        next => cases h
        next hwalk =>
          obtain ⟨hbreak, hgood⟩ := not_or.mp hwalk
          exact ⟨file, rfl, not_lt.mp hlen, Option.not_isSome_iff_eq_none.mp hbreak,
            not_not.mp hgood, Option.some.inj h⟩

omit [Canon] in
theorem compare_eq_none {floor : Floor} {treeSize journalLen : ℕ} {root : Option Cid}
    {head : Option (Option Digest)} {digest : Option String}
    (h : compare floor treeSize root journalLen head digest = none) :
    floor.treeSize ≤ treeSize ∧ (0 < floor.treeSize → root = some floor.rootHash) ∧
      floor.journalLen ≤ journalLen ∧
      (∀ found expected, head = some found → floor.journalHead = some expected →
        found = some expected) ∧
      ∀ expected, floor.versionDigest = some expected → digest = some expected := by
  unfold compare at h
  split at h
  next => cases h
  next htree =>
    split at h
    next => cases h
    next hroot =>
      split at h
      next => cases h
      next hjournal =>
        split at h
        next => cases h
        next hhead =>
          refine ⟨not_lt.mp htree, fun hpos => ?_, not_lt.mp hjournal, ?_, ?_⟩
          · by_contra hne
            exact hroot ⟨hpos, hne⟩
          · rintro found expected rfl hexpected
            simpa [compare.diverged, hexpected] using hhead
          · intro expected hexpected
            rw [hexpected] at h
            by_contra hne
            simp [hne] at h

/-- The bytes of a journal; a file that is not there has none. -/
def Journal.bytes (journal : Journal) : Bytes := journal.file.getD []

/-- No two values that are hashed, one for the first of two trees and files and one for the second,
have one hash. -/
structure CollisionFree (leaves leaves' : List Cid) (bytes bytes' : Bytes) : Prop where
  nodes : ∀ x ∈ children leaves, ∀ y ∈ children leaves',
    Canon.node x.1 x.2 = Canon.node y.1 y.2 → x = y
  links : ∀ x ∈ preimages hash bytes, ∀ y ∈ preimages hash bytes', hash x = hash y → x = y

instance {leaves leaves' : List Cid} {bytes bytes' : Bytes} :
    Decidable (CollisionFree hash leaves leaves' bytes bytes') :=
  decidable_of_iff (_ ∧ _) ⟨fun h => ⟨h.1, h.2⟩, fun h => ⟨h.nodes, h.links⟩⟩

theorem leaves_prefix {ledger ledger' : List LedgerEntry} {root : Cid}
    (hfree : ∀ x ∈ children (ledger.map (·.leafCid)),
      ∀ y ∈ children ((ledger'.take ledger.length).map (·.leafCid)),
        Canon.node x.1 x.2 = Canon.node y.1 y.2 → x = y)
    (hroot : mth (ledger.map (·.leafCid)) = some root)
    (hroot' : Engine.rootAt ledger' ledger.length = some root) :
    ledger.map (·.leafCid) <+: ledger'.map (·.leafCid) := by
  unfold Engine.rootAt at hroot'
  split at hroot'
  next => cases hroot'
  next hsize =>
    have hlength : (ledger.map (·.leafCid)).length =
        ((ledger'.take ledger.length).map (·.leafCid)).length := by
      rw [List.length_map, List.length_map, List.length_take]
      omega
    unfold mth at hroot hroot'
    unfold children at hfree
    rw [← hlength] at hroot' hfree
    rw [mthFrom_injective le_rfl hlength hfree hroot hroot', List.map_take]
    exact List.take_prefix ..

omit [Canon] in
/-- A head that a journal has over the whole of its bytes commits to them: a file that leads to the
same head at that length starts with them. -/
theorem bytes_eq {journal journal' : Journal} {head : Digest}
    (hfree : ∀ x ∈ preimages hash journal.bytes,
      ∀ y ∈ preimages hash (journal'.bytes.take journal.len), hash x = hash y → x = y)
    (h : chainHeadThrough hash journal journal.len = some (some head))
    (h' : chainHeadThrough hash journal' journal.len = some (some head)) :
    journal'.bytes.take journal.len = journal.bytes := by
  obtain ⟨file, hfile, -, hbreak, hgood, hhead⟩ := chainHeadThrough_eq_some hash h
  obtain ⟨file', hfile', hlen', hbreak', hgood', hhead'⟩ := chainHeadThrough_eq_some hash h'
  have hbytes : journal.bytes = file := by rw [Journal.bytes, hfile, Option.getD_some]
  have hbytes' : journal'.bytes = file' := by rw [Journal.bytes, hfile', Option.getD_some]
  have hlen : journal.len = file.length := by
    rw [Journal.len, hfile, Option.map_some, Option.getD_some]
  rw [hlen, List.take_length] at hbreak hgood hhead
  rw [hlen] at hlen' hbreak' hgood' hhead' hfree ⊢
  rw [hbytes, hbytes'] at hfree ⊢
  have hlength : file.length = (file'.take file.length).length := by
    rw [List.length_take, min_eq_left hlen']
  exact (walkLinks_injective hash hlength hfree hbreak hgood hhead hbreak'
    (hgood'.trans hlength) hhead').symm

/-- What is not found to be rolled back still starts with what was recorded: the leaves, every byte
of the journal, and the declaration where one was recorded. -/
theorem rollback_is_detected {floor : Floor} {ledger ledger' : List LedgerEntry}
    {journal journal' : Journal} {digest digest' : Option String}
    (hrecorded : recordedFloor hash ledger journal digest = some floor)
    (hchained : floor.journalHead.isSome)
    (hfree : CollisionFree hash (ledger.map (·.leafCid))
      ((ledger'.take floor.treeSize).map (·.leafCid)) journal.bytes
      (journal'.bytes.take floor.journalLen))
    (h : rollbackOf hash floor ledger' journal' digest' = none) :
    ledger.map (·.leafCid) <+: ledger'.map (·.leafCid) ∧
      journal'.bytes.take floor.journalLen = journal.bytes ∧
      ∀ expected, digest = some expected → digest' = some expected := by
  obtain ⟨root, hroot, rfl⟩ := Option.map_eq_some_iff.mp hrecorded
  obtain ⟨head, hhead⟩ := Option.isSome_iff_exists.mp hchained
  dsimp only at hhead hfree ⊢
  obtain ⟨-, hrootAt, hlen, hheadAt, hdigest⟩ := compare_eq_none h
  refine ⟨?_, ?_, hdigest⟩
  · refine leaves_prefix hfree.nodes hroot (hrootAt ?_)
    rw [List.length_pos_iff]
    rintro rfl
    cases hroot
  · rw [if_pos ⟨hchained, hlen⟩] at hheadAt
    have hfound := hheadAt _ head rfl hhead
    have hwalked : chainHeadThrough hash journal' journal.len = some (some head) := by
      cases hnow : chainHeadThrough hash journal' journal.len with
      | none => simp [hnow] at hfound
      | some found =>
        rw [hnow] at hfound
        exact congrArg some hfound
    exact bytes_eq hash hfree.links (Option.join_eq_some_iff.mp hhead) hwalked

end Recorded

section Appended

open Tracefold.Ideal

/-- The last bytes of what is hashed, backwards: enough to tell apart what is hashed below. -/
def lastBytes (bytes : Bytes) : Digest :=
  ⟨(bytes.reverse ++ List.replicate 32 0).take 32, by simp⟩

/-- A leaf under the number it is at. -/
def leafAt (index : ℕ) : LedgerEntry := ⟨0, index, ⟨[index]⟩, ⟨[]⟩, ⟨[]⟩⟩

/-- A frame of one byte. -/
def frameOf (previous : Digest) (byte : UInt8) : Bytes :=
  [0, 0, 0, 1, byte] ++ (link lastBytes previous [byte]).1

/-- A journal of one record, and the same one with a second record behind it. -/
def oneRecord : Bytes := journalMagicV2 ++ frameOf (genesisLink lastBytes journalMagicV2) 7

def twoRecords : Bytes :=
  oneRecord ++ frameOf (link lastBytes (genesisLink lastBytes journalMagicV2) [7]) 9

/-- The head over the first record and two leaves, under a declaration. -/
def recordedHead : Floor where
  treeSize := 2
  rootHash := Canon.node ⟨[0]⟩ ⟨[1]⟩
  journalLen := oneRecord.length
  journalHead := some (link lastBytes (genesisLink lastBytes journalMagicV2) [7])
  versionDigest := some "v1"

theorem rollback_is_detected_appended :
    rollbackOf lastBytes recordedHead [leafAt 0, leafAt 1, leafAt 2]
        ⟨.chainedV2, some twoRecords⟩ (some "v1") = none ∧
      twoRecords.take recordedHead.journalLen = oneRecord := by
  have hrecorded : recordedFloor lastBytes [leafAt 0, leafAt 1] ⟨.chainedV2, some oneRecord⟩
      (some "v1") = some recordedHead := by decide
  have hfree : CollisionFree lastBytes ([leafAt 0, leafAt 1].map (·.leafCid))
      (([leafAt 0, leafAt 1, leafAt 2].take recordedHead.treeSize).map (·.leafCid))
      (Journal.bytes ⟨.chainedV2, some oneRecord⟩)
      ((Journal.bytes ⟨.chainedV2, some twoRecords⟩).take recordedHead.journalLen) := by
    decide
  have hrollback : rollbackOf lastBytes recordedHead [leafAt 0, leafAt 1, leafAt 2]
      ⟨.chainedV2, some twoRecords⟩ (some "v1") = none := by decide
  exact ⟨hrollback, (rollback_is_detected lastBytes hrecorded rfl hfree hrollback).2.1⟩

/-- A head written by a caller without a declaration says nothing of it, and a declaration that is
there later is not compared. -/
theorem declaration_not_recorded :
    ∃ floor, recordedFloor lastBytes [leafAt 0] ⟨.chainedV2, some journalMagicV2⟩ none =
        some floor ∧ floor.journalHead.isSome ∧
      CollisionFree lastBytes [⟨[0]⟩] [⟨[0]⟩] journalMagicV2 journalMagicV2 ∧
      rollbackOf lastBytes floor [leafAt 0] ⟨.chainedV2, some journalMagicV2⟩ (some "v2") = none ∧
      some "v2" ≠ floor.versionDigest := by
  refine ⟨⟨1, ⟨[0]⟩, 8, some (genesisLink lastBytes journalMagicV2), none⟩, ?_⟩
  decide

end Appended

end Tracefold.Head
