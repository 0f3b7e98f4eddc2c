import Driftless.Raft.Node

/-!
# The ids of the peers

Without a registry `main` derives the id of each peer from its address in `PEER_ADDRS`: what is
before the first colon, and of that what is before the first dot, or a letter for the position where
nothing is left. The node keys all it knows about a peer by that id. Each peer has an id, map
entries and acknowledgements of its own exactly if the addresses differ in that part
(`identified_iff`); two ports of one host do not: `peers_confused`.
-/

namespace Driftless.Raft

/-! ## Parsing -/

/-- `unicode.IsSpace`. -/
def isSpace (c : Char) : Bool :=
  c.toNat ∈ [0x09, 0x0A, 0x0B, 0x0C, 0x0D, 0x20, 0x85, 0xA0, 0x1680, 0x2028, 0x2029, 0x202F, 0x205F,
    0x3000] ∨ (0x2000 ≤ c.toNat ∧ c.toNat ≤ 0x200A)

/-- `strings.TrimSpace`. -/
def trimSpace (s : List Char) : List Char :=
  ((s.dropWhile isSpace).reverse.dropWhile isSpace).reverse

def splitPeers (raw : String) : List String :=
  (((raw.toList.splitOn ',').map trimSpace).filter fun s => s ≠ []).map String.ofList

/-- `strings.SplitN(s, sep, 2)[0]`. -/
def splitFirst (s : String) (sep : Char) : String := .ofList (s.toList.takeWhile fun c => c ≠ sep)

/-- `string(rune(n))`: the conversion to `int32` wraps, and an invalid code point becomes
`U+FFFD`. -/
def runeString (n : ℕ) : String :=
  if (n % 0x100000000).isValidChar then .singleton (Char.ofNat (n % 0x100000000)) else "\uFFFD"

/-- The id of a peer whose address does not start with a label. -/
def fallbackID (fallbackIdx : ℕ) : String := "peer-" ++ runeString ('a'.toNat + fallbackIdx)

def peerIDFromAddr (addr : String) (fallbackIdx : ℕ) : String :=
  let host := splitFirst addr ':'
  let part := splitFirst host '.'
  if part ≠ "" then part else fallbackID fallbackIdx

/-- The ids of the peers that `main` passes to `NewNode`. -/
def peerIDs (addrs : List String) : List String :=
  addrs.zipIdx.map fun x => peerIDFromAddr x.1 x.2

/-! ## What ids are for -/

/-- As many of the keys are ids of peers as there are peers. -/
def EntryPerPeer (ids keys : List String) : Prop :=
  (keys.filter fun k => k ∈ ids).length = ids.length

/-- Every peer has an id of its own, an entry of its own in the maps of a new leader, and what it
acknowledges adds at most one to the replicas that are counted for an index. -/
structure Identified (ids : List String) : Prop where
  nodup : ids.Nodup
  entries : ∀ n : Node, n.peer = ids → EntryPerPeer ids n.initLeaderState.nextIndex.keys ∧
    EntryPerPeer ids n.initLeaderState.matchIndex.keys ∧
    EntryPerPeer ids n.initLeaderState.replicateSig.keys
  counted : ∀ n : Node, n.peer = ids → ∀ p newMatch N,
    (n.recordMatch p newMatch).replicas N ≤ n.replicas N + 1

theorem mem_fillPeers {β : Type} (v : β) {peers : List String} {p : String} (hp : p ∈ peers) :
    p ∈ fillPeers peers v := by
  suffices h : ∀ m : AList fun _ : String => β, p ∈ m ∨ p ∈ peers →
      p ∈ peers.foldl (fun m p => m.insert p v) m from h ∅ (.inr hp)
  clear hp
  induction peers with
  | nil => simp
  | cons q peers ih =>
    intro m hm
    refine ih (m.insert q v) ?_
    simp only [List.mem_cons, AList.mem_insert] at hm ⊢
    tauto

/-- Keys are distinct, so that peers with distinct ids have as many. -/
theorem entryPerPeer {β : Type} {ids : List String} (hnd : ids.Nodup)
    {m : AList fun _ : String => β} (hm : ∀ p ∈ ids, p ∈ m) : EntryPerPeer ids m.keys := by
  have hperm : (m.keys.filter fun k => k ∈ ids).Perm ids := by
    refine (List.perm_ext_iff_of_nodup (m.keys_nodup.filter _) hnd).2 fun p => ?_
    simp only [List.mem_filter, decide_eq_true_eq]
    exact ⟨fun h => h.2, fun h => ⟨hm p h, h⟩⟩
  exact hperm.length_eq

/-- A test that changes for one value changes the count by its occurrences at most. -/
theorem length_filter_le_add_count {P Q : String → Bool} {p : String}
    (h : ∀ q, q ≠ p → P q = true → Q q = true) (l : List String) :
    (l.filter P).length ≤ (l.filter Q).length + l.count p := by
  induction l with
  | nil => simp
  | cons q l ih =>
    simp only [List.filter_cons, List.count_cons]
    by_cases hq : q = p
    · subst hq
      split_ifs <;> simp at * <;> omega
    · have := h q hq
      split_ifs <;> simp_all <;> omega

theorem identified_of_nodup {ids : List String} (hnd : ids.Nodup) : Identified ids where
  nodup := hnd
  entries n hn := by
    subst hn
    refine ⟨entryPerPeer hnd fun p hp => mem_fillPeers _ hp, entryPerPeer hnd fun p hp => ?_,
      entryPerPeer hnd fun p hp => mem_fillPeers _ hp⟩
    exact AList.mem_insert _ |>.2 (.inr (mem_fillPeers _ hp))
  counted n hn p newMatch N := by
    subst hn
    have hone := List.nodup_iff_count_le_one.1 hnd p
    have hle := length_filter_le_add_count (p := p)
      (P := fun q => decide ((n.recordMatch p newMatch).matchIndex.get q ≥ N))
      (Q := fun q => decide (n.matchIndex.get q ≥ N)) (fun q hq hP => ?_) n.peer
    · show 1 + (n.peer.filter _).length ≤ 1 + (n.peer.filter _).length + 1
      omega
    · have hget : (n.recordMatch p newMatch).matchIndex.get q = n.matchIndex.get q := by
        show PeerMap.get (if _ then _ else _) q = _
        split_ifs
        · exact PeerMap.get_insert_ne _ _ hq
        · rfl
      rwa [hget] at hP

/-! ## When addresses are told apart -/

/-- The part of an address before its first colon or dot. -/
def label (addr : String) : String :=
  .ofList (addr.toList.takeWhile fun c => c ≠ ':' ∧ c ≠ '.')

/-- No two addresses start with the same label; and the name made up for an address that starts with
none is neither the label of another nor made up for another. -/
structure Distinguishable (addrs : List String) : Prop where
  labels : ∀ (i j : ℕ) a b, addrs[i]? = some a → addrs[j]? = some b → i ≠ j →
    label a ≠ "" → label a ≠ label b
  fallbacks : ∀ (i j : ℕ) a b, addrs[i]? = some a → addrs[j]? = some b → i ≠ j →
    label a = "" → label b ≠ fallbackID i ∧
      (label b = "" → runeString ('a'.toNat + i) ≠ runeString ('a'.toNat + j))

theorem takeWhile_takeWhile_ne (l : List Char) :
    (l.takeWhile fun c => c ≠ ':').takeWhile (fun c => c ≠ '.') =
      l.takeWhile fun c => c ≠ ':' ∧ c ≠ '.' := by
  induction l with
  | nil => rfl
  | cons c l ih =>
    by_cases h₁ : c = ':'
    · simp [h₁]
    · by_cases h₂ : c = '.'
      · simp [h₂]
      · simpa [List.takeWhile_cons, h₁, h₂] using ih

theorem peerIDFromAddr_eq (addr : String) (i : ℕ) :
    peerIDFromAddr addr i = if label addr ≠ "" then label addr else fallbackID i := by
  have hpart : splitFirst (splitFirst addr ':') '.' = label addr := by
    simp only [splitFirst, label, String.toList_ofList, takeWhile_takeWhile_ne]
  simp only [peerIDFromAddr, hpart]

theorem nodup_peerIDs_iff {addrs : List String} : (peerIDs addrs).Nodup ↔
    ∀ (i j : ℕ) a b, addrs[i]? = some a → addrs[j]? = some b → i ≠ j →
      peerIDFromAddr a i ≠ peerIDFromAddr b j := by
  have hget : ∀ i : ℕ, (peerIDs addrs)[i]? = addrs[i]?.map fun a => peerIDFromAddr a i := by
    intro i
    simp [peerIDs, List.getElem?_zipIdx, Function.comp_def]
  constructor
  · intro hnd i j a b ha hb hij heq
    have hi : i < (peerIDs addrs).length := by
      simpa [peerIDs] using (List.getElem?_eq_some_iff.1 ha).1
    refine hij ((List.getElem?_inj hi hnd).1 ?_)
    rw [hget, hget, ha, hb, Option.map_some, Option.map_some, heq]
  · intro hne
    refine List.nodup_iff_getElem?_ne_getElem?.2 fun i j hij hj => ?_
    have hj : j < addrs.length := by simpa [peerIDs] using hj
    rw [hget, hget, List.getElem?_eq_getElem hj, List.getElem?_eq_getElem (hij.trans hj)]
    simpa using hne i j _ _ (List.getElem?_eq_getElem (hij.trans hj)) (List.getElem?_eq_getElem hj)
      (Nat.ne_of_lt hij)

/-- **Peers are told apart** exactly if their addresses are. -/
theorem identified_iff (raw : String) :
    Identified (peerIDs (splitPeers raw)) ↔ Distinguishable (splitPeers raw) := by
  generalize splitPeers raw = addrs
  have hfallback : ∀ i j, fallbackID i = fallbackID j ↔
      runeString ('a'.toNat + i) = runeString ('a'.toNat + j) := by
    intro i j
    simp [fallbackID, String.ext_iff]
  rw [show Identified (peerIDs addrs) ↔ (peerIDs addrs).Nodup from
    ⟨Identified.nodup, identified_of_nodup⟩, nodup_peerIDs_iff]
  simp only [peerIDFromAddr_eq]
  constructor
  · intro hne
    refine ⟨fun i j a b ha hb hij hlabel heq => ?_, fun i j a b ha hb hij hnone => ?_⟩
    · refine hne i j a b ha hb hij ?_
      rw [if_pos hlabel, if_pos (heq ▸ hlabel), heq]
    · have h := hne i j a b ha hb hij
      rw [if_neg (not_not.2 hnone)] at h
      refine ⟨fun heq => h ?_, fun hnone' heq => h ?_⟩
      · have hne' : label b ≠ "" := by
          rw [heq]
          simp [fallbackID, String.ext_iff]
        rw [if_pos hne', heq]
      · rw [if_neg (not_not.2 hnone'), hfallback, heq]
  · intro hd i j a b ha hb hij
    by_cases hla : label a = ""
    · obtain ⟨hother, hletter⟩ := hd.fallbacks i j a b ha hb hij hla
      rw [if_neg (not_not.2 hla)]
      by_cases hlb : label b = ""
      · rw [if_neg (not_not.2 hlb), Ne, hfallback]
        exact hletter hlb
      · rw [if_pos hlb]
        exact hother.symm
    · rw [if_pos hla]
      by_cases hlb : label b = ""
      · rw [if_neg (not_not.2 hlb)]
        exact (hd.fallbacks j i b a hb ha hij.symm hlb).1
      · rw [if_pos hlb]
        exact hd.labels i j a b ha hb hij hla

/-- An address of a host and a port. -/
def HostPort (addr : String) : Prop :=
  ∃ host port : List Char, host ≠ [] ∧ port ≠ [] ∧ (∀ c ∈ port, c.isDigit = true) ∧
    addr.toList = host ++ ':' :: port

/-- **Two ports of one host are one peer**, as in the cluster of three that the README starts. -/
theorem peers_confused : ¬ ∀ raw : String, (splitPeers raw).Nodup →
    (∀ a ∈ splitPeers raw, HostPort a) → Identified (peerIDs (splitPeers raw)) := by
  intro hall
  have hsplit : splitPeers "localhost:50052,localhost:50053" =
      ["localhost:50052", "localhost:50053"] := by decide +kernel
  have hid := hall "localhost:50052,localhost:50053"
  rw [hsplit] at hid
  have hport : ∀ a ∈ ["localhost:50052", "localhost:50053"], HostPort a := by
    intro a ha
    rcases List.mem_cons.1 ha with rfl | ha
    · exact ⟨"localhost".toList, "50052".toList, by decide, by decide,
        List.all_eq_true.1 (by decide), by decide⟩
    · rw [List.mem_singleton.1 ha]
      exact ⟨"localhost".toList, "50053".toList, by decide, by decide,
        List.all_eq_true.1 (by decide), by decide⟩
  exact absurd (hid (by decide) hport).nodup (by decide +kernel)

end Driftless.Raft
