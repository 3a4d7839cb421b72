import Mathlib.Data.Finset.Interval
import Mathlib.Order.Interval.Finset.Nat
import Rekha.Lib.FinMap
import Rekha.Lib.Url
import Rekha.Repl.Panics

/-!
# Starting a cluster

Every node numbers the addresses it is given from 1 and takes the one under its own
number for itself. Nodes that are given the same list agree on all addresses, and on
the members if they are all on it (`same_peers`). Nodes that are given the others'
addresses, as the README has it, do not (`others_only`).
-/

namespace Rekha.Cluster

open Repl (Text trim Trimmed)

/-! ## The peers of a node -/

/-- The list `peers.split(',')`, with the blanks around each address removed. -/
def addresses (peers : Text) : List Text :=
  if peers = [] then [] else (peers.splitOn ',').map trim

/-- The addresses with their numbers, the node's own left out. -/
def peerEntries (nodeId : ℕ) (peers : Text) : List (Text × ℕ) :=
  ((addresses peers).zipIdx 1).filter fun p => decide (p.2 ≠ nodeId)

def peerMap (nodeId : ℕ) (peers : Text) : FinMap ℕ Text :=
  (peerEntries nodeId peers).foldl (fun m p => m.insert p.2 p.1) ∅

def peerIds (nodeId : ℕ) (peers : Text) : List ℕ := (peerEntries nodeId peers).map Prod.snd

/-- The members a node initializes the cluster with: itself and its peers. -/
def members (nodeId : ℕ) (peers : Text) : Finset ℕ := insert nodeId (peerIds nodeId peers).toFinset

/-- The address of a node that is not in the map. The sum wraps in a release build. -/
def loopback (target : ℕ) : Text :=
  "127.0.0.1:".toList ++ (toString ((8000 + target) % 2 ^ 64)).toList

/-- Where `RaftNetworkFactoryImpl` looks for a node. The address that a node was added
with is not asked. -/
def newClient (peers : FinMap ℕ Text) (target : ℕ) : Text :=
  (peers.lookup target).getD (loopback target)

section Peers

variable {nodeId : ℕ} {peers : Text} {k : ℕ} {addr : Text}

theorem mem_peerEntries :
    (addr, k) ∈ peerEntries nodeId peers ↔
      1 ≤ k ∧ (addresses peers)[k - 1]? = some addr ∧ k ≠ nodeId := by
  rw [peerEntries, List.mem_filter, List.mk_mem_zipIdx_iff_le_and_getElem?_sub, decide_eq_true_iff,
    and_assoc]

theorem lookup_foldl_insert : ∀ {entries : List (Text × ℕ)} {m : FinMap ℕ Text},
    (∀ a b, (a, k) ∈ entries → (b, k) ∈ entries → a = b) →
    ((entries.foldl (fun m p => m.insert p.2 p.1) m).lookup k = some addr ↔
      (addr, k) ∈ entries ∨ (∀ a, (a, k) ∉ entries) ∧ m.lookup k = some addr)
  | [], m, _ => by simp
  | (b, j) :: entries, m, huniq => by
      have hrest : ∀ a b, (a, k) ∈ entries → (b, k) ∈ entries → a = b := fun a b ha hb =>
        huniq a b (List.mem_cons_of_mem _ ha) (List.mem_cons_of_mem _ hb)
      rw [List.foldl_cons, lookup_foldl_insert hrest, FinMap.lookup_insert_ite]
      by_cases hk : k = j
      · subst hk
        rw [if_pos rfl]
        constructor
        · rintro (hmem | ⟨-, hb⟩)
          · exact .inl (List.mem_cons_of_mem _ hmem)
          · obtain rfl := Option.some.inj hb
            exact .inl List.mem_cons_self
        · rintro (hmem | ⟨hnone, -⟩)
          · obtain rfl := huniq addr b hmem List.mem_cons_self
            by_cases hin : (addr, k) ∈ entries
            · exact .inl hin
            · refine .inr ⟨?_, rfl⟩
              intro a ha
              rw [huniq a addr (List.mem_cons_of_mem _ ha) hmem] at ha
              exact hin ha
          · exact absurd List.mem_cons_self (hnone b)
      · rw [if_neg hk]
        have hcons : ∀ a, (a, k) ∈ (b, j) :: entries ↔ (a, k) ∈ entries := by
          intro a
          rw [List.mem_cons, or_iff_right]
          exact fun heq => hk (congrArg Prod.snd heq)
        simp only [hcons]

theorem lookup_peerMap : (peerMap nodeId peers).lookup k = some addr ↔
    1 ≤ k ∧ (addresses peers)[k - 1]? = some addr ∧ k ≠ nodeId := by
  have huniq : ∀ a b, (a, k) ∈ peerEntries nodeId peers → (b, k) ∈ peerEntries nodeId peers →
      a = b := by
    intro a b ha hb
    have hget := (mem_peerEntries.mp ha).2.1
    rw [(mem_peerEntries.mp hb).2.1] at hget
    exact (Option.some.inj hget).symm
  rw [peerMap, lookup_foldl_insert huniq, mem_peerEntries]
  constructor
  · rintro (h | ⟨-, h⟩)
    · exact h
    · cases h
  · exact .inl

theorem mem_members : k ∈ members nodeId peers ↔
    k = nodeId ∨ 1 ≤ k ∧ k ≤ (addresses peers).length := by
  rw [members, Finset.mem_insert, List.mem_toFinset, peerIds, List.mem_map]
  constructor
  · rintro (h | ⟨⟨addr, k⟩, hmem, rfl⟩)
    · exact .inl h
    · obtain ⟨hone, hget, -⟩ := mem_peerEntries.mp hmem
      have hlt := (List.getElem?_eq_some_iff.mp hget).1
      exact .inr ⟨hone, by dsimp only; omega⟩
  · rintro (h | ⟨hone, hle⟩)
    · exact .inl h
    · by_cases hk : k = nodeId
      · exact .inl hk
      · have hlt : k - 1 < (addresses peers).length := by omega
        exact .inr ⟨(_, k), mem_peerEntries.mpr ⟨hone, List.getElem?_eq_getElem hlt, hk⟩, rfl⟩

theorem newClient_peerMap (hone : 1 ≤ k) (hk : k ≠ nodeId) :
    newClient (peerMap nodeId peers) k = ((addresses peers)[k - 1]?).getD (loopback k) := by
  rw [newClient]
  congr 1
  ext addr
  rw [lookup_peerMap]
  exact ⟨fun h => h.2.1, fun h => ⟨hone, h, hk⟩⟩

theorem newClient_zero : newClient (peerMap nodeId peers) 0 = loopback 0 := by
  cases hlookup : (peerMap nodeId peers).lookup 0 with
  | none => rw [newClient, hlookup, Option.getD_none]
  | some addr => exact absurd (lookup_peerMap.mp hlookup).1 (by decide)

/-- Where a node with a list looks for another one. -/
def addressOf (peers : Text) (k : ℕ) : Text :=
  if k = 0 then loopback 0 else ((addresses peers)[k - 1]?).getD (loopback k)

theorem newClient_eq_addressOf (hk : k ≠ nodeId) :
    newClient (peerMap nodeId peers) k = addressOf peers k := by
  rw [addressOf]
  split
  · rename_i hzero
    rw [hzero, newClient_zero]
  · exact newClient_peerMap (by omega) hk

/-- **Nodes with the same list.** They look for every third node at the same address,
the trimmed entry of its number or the loopback, and agree on the members exactly if
both are on the list. -/
theorem same_peers (peers : Text) (i j : ℕ) (hij : i ≠ j) :
    (∀ k, k ≠ i → k ≠ j → newClient (peerMap i peers) k = addressOf peers k ∧
      newClient (peerMap j peers) k = addressOf peers k) ∧
    (members i peers = members j peers ↔
      (1 ≤ i ∧ i ≤ (addresses peers).length) ∧ 1 ≤ j ∧ j ≤ (addresses peers).length) := by
  refine ⟨?_, ?_, ?_⟩
  · intro k hi hj
    exact ⟨newClient_eq_addressOf hi, newClient_eq_addressOf hj⟩
  · intro heq
    constructor
    · have hmem : i ∈ members j peers := heq ▸ mem_members.mpr (.inl rfl)
      exact (mem_members.mp hmem).resolve_left hij
    · have hmem : j ∈ members i peers := heq ▸ mem_members.mpr (.inl rfl)
      exact (mem_members.mp hmem).resolve_left hij.symm
  · rintro ⟨hi, hj⟩
    ext k
    rw [mem_members, mem_members]
    constructor
    · rintro (rfl | h)
      · exact .inr hi
      · exact .inr h
    · rintro (rfl | h)
      · exact .inr hj
      · exact .inr h

/-- The list of three that all nodes share, with a blank in it. -/
theorem same_peers_demo : members 2 "a:1, b:2,c:3".toList = members 3 "a:1, b:2,c:3".toList ∧
    newClient (peerMap 1 "a:1, b:2,c:3".toList) 2 = "b:2".toList := by
  refine ⟨(same_peers "a:1, b:2,c:3".toList 2 3 (by decide)).2.mpr (by decide +kernel), ?_⟩
  rw [((same_peers "a:1, b:2,c:3".toList 1 3 (by decide)).1 2 (by decide) (by decide)).1]
  decide +kernel

/-! ## The others' addresses -/

/-- Text that is an address in a list: not empty, no comma, no blanks around it. -/
structure IsAddress (addr : Text) : Prop where
  ne : addr ≠ []
  comma : ',' ∉ addr
  trimmed : Trimmed addr

theorem addresses_intercalate {addrs : List Text} (h : ∀ a ∈ addrs, IsAddress a) :
    addresses ([','].intercalate addrs) = addrs := by
  cases addrs with
  | nil => rfl
  | cons a addrs =>
      have hne : [','].intercalate (a :: addrs) ≠ [] := by
        cases addrs with
        | nil =>
            rw [List.intercalate_singleton]
            exact (h a List.mem_cons_self).ne
        | cons b addrs =>
            rw [List.intercalate_cons_cons]
            exact List.append_ne_nil_of_left_ne_nil
              (List.append_ne_nil_of_left_ne_nil (h a List.mem_cons_self).ne _) _
      have hsplit : ([','].intercalate (a :: addrs)).splitOn ',' = a :: addrs :=
        List.splitOn_intercalate ',' (fun b hb => (h b hb).comma) (List.cons_ne_nil _ _)
      rw [addresses, if_neg hne, hsplit, List.map_congr_left fun b hb => (h b hb).trimmed.trim_eq,
        List.map_id']

/-- What the README gives a node: the addresses of the others. -/
def othersOf (addrs : List Text) (i : ℕ) : Text := [','].intercalate (addrs.eraseIdx (i - 1))

/-- **Nodes with the others' addresses.** All but the last one take the cluster for one
node smaller, and look for every node after themselves at the address of the next one. -/
theorem others_only {addrs : List Text} (haddrs : ∀ a ∈ addrs, IsAddress a) (i : ℕ) (hone : 1 ≤ i)
    (hle : i ≤ addrs.length) :
    members i (othersOf addrs i)
      = Finset.Icc 1 (if i = addrs.length then addrs.length else addrs.length - 1) ∧
    ∀ k, 1 ≤ k → k ≠ i → newClient (peerMap i (othersOf addrs i)) k
      = (addrs[if k < i then k - 1 else k]?).getD (loopback k) := by
  have hothers : addresses (othersOf addrs i) = addrs.eraseIdx (i - 1) :=
    addresses_intercalate fun a ha => haddrs a (List.mem_of_mem_eraseIdx ha)
  constructor
  · ext k
    rw [mem_members, hothers, List.length_eraseIdx_of_lt (by omega), Finset.mem_Icc]
    split <;> omega
  · intro k hk hne
    rw [newClient_peerMap hk hne, hothers, List.getElem?_eraseIdx]
    by_cases hlt : k < i
    · rw [if_pos (by omega), if_pos hlt]
    · rw [if_neg (by omega), if_neg hlt, Nat.sub_add_cancel hk]

end Peers

/-- The README's list for the first of three nodes: it looks for the second one at the
address of the third, and does not know of a third. -/
theorem others_only_demo :
    let addrs := ["node1:8000".toList, "node2:8000".toList, "node3:8000".toList]
    members 1 (othersOf addrs 1) = {1, 2} ∧
    newClient (peerMap 1 (othersOf addrs 1)) 2 = "node3:8000".toList := by
  intro addrs
  have haddrs : ∀ a ∈ addrs, IsAddress a := by
    intro a ha
    simp only [addrs, List.mem_cons, List.not_mem_nil, or_false] at ha
    rcases ha with rfl | rfl | rfl <;>
      exact ⟨by simp, by simp, ⟨by simp [Repl.isWhitespace], by simp [Repl.isWhitespace]⟩⟩
  obtain ⟨hmembers, haddr⟩ := others_only haddrs 1 le_rfl (by decide)
  exact ⟨hmembers, haddr 2 (by decide) (by decide)⟩

/-! ## Where the requests go -/

/-- `RaftNetworkImpl::send_rpc`. -/
def rpcUrl (addr path : Text) : Text :=
  "http://".toList ++ (addr ++ '/' :: ("internal/raft/".toList ++ path))

/-- The address that a node follows, the first one of the list. -/
def leaderUrl (nodeId : ℕ) (peers : Text) : Text :=
  ((peerMap nodeId peers).lookup 1).getD "http://127.0.0.1:8000".toList

/-- `WalReplication::fetch_delta`. -/
def deltaUrl (leaderUrl collectionId fromSeq : Text) : Text :=
  leaderUrl ++ '/' :: ("internal/wal/".toList ++ collectionId ++ "/delta?from_seq=".toList
    ++ fromSeq)

def Fetches (url : Text) : Prop := ∃ s, Url.scheme url = some s ∧ Url.IsWeb s

theorem exists_first {nodeId : ℕ} (hnode : nodeId ≠ 1) {peers : Text} (hpeers : peers ≠ []) :
    ∃ addr, (peerMap nodeId peers).lookup 1 = some addr ∧ ∀ c ∈ addr, c ∈ peers := by
  obtain ⟨first, rest, hsplit⟩ := List.exists_cons_of_ne_nil (List.splitOn_ne_nil ',' peers)
  refine ⟨trim first, lookup_peerMap.mpr ⟨le_rfl, ?_, hnode.symm⟩, ?_⟩
  · rw [addresses, if_neg hpeers, hsplit]
    rfl
  · intro c hc
    have hpart : first <:+: [','].intercalate (peers.splitOn ',') :=
      Repl.infix_intercalate (hsplit ▸ List.mem_cons_self)
    rw [List.intercalate_splitOn] at hpart
    apply hpart.subset
    exact (List.dropWhile_sublist _).mem ((List.rdropWhile_prefix _ _).sublist.mem hc)

/-- **Raft or replication.** The Raft network puts "http://" in front of an address, the
replication does not. Where a node's list lets it fetch from node 1, its Raft requests
to node 1 go to a host called "http" or "https". -/
theorem fetches_or_reaches {nodeId : ℕ} (hnode : nodeId ≠ 1) {peers : Text} (hpeers : peers ≠ [])
    (hat : '@' ∉ peers) (collectionId fromSeq path : Text)
    (h : Fetches (deltaUrl (leaderUrl nodeId peers) collectionId fromSeq)) :
    Url.IsWeb (Url.host (rpcUrl (newClient (peerMap nodeId peers) 1) path)) := by
  obtain ⟨s, hscheme, hweb⟩ := h
  rw [deltaUrl, Url.scheme_append_slash] at hscheme
  obtain ⟨addr, haddr, hmem⟩ := exists_first hnode hpeers
  rw [leaderUrl, haddr, Option.getD_some] at hscheme
  have hhost : Url.host (rpcUrl addr path) = s :=
    Url.host_nested hscheme fun hin => hat (hmem _ hin)
  rw [newClient, haddr, Option.getD_some, hhost]
  exact hweb

theorem fetches_or_reaches_demo : Url.IsWeb (Url.host
    (rpcUrl (newClient (peerMap 2 "http://a:1,b:2".toList) 1) "vote".toList)) := by
  have hfetches : Fetches (deltaUrl (leaderUrl 2 "http://a:1,b:2".toList) ['i'] ['1']) :=
    ⟨"http".toList, by decide +kernel, .inl (by decide +kernel)⟩
  exact fetches_or_reaches (by decide) (by simp) (by simp) ['i'] ['1'] _ hfetches

end Rekha.Cluster
