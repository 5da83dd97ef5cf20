import Mathlib.Data.List.Sort
import Mathlib.Data.String.Basic
import ConvergioMesh.Library.Upsert
import ConvergioMesh.Transport.Import

/-!
# Who is online

The heartbeats that peers post, and the two routes that read them. Both count the local node as
online: the status adds one, and the list of peers either adds an entry or rewrites the entries it
takes for the local node.
-/

namespace ConvergioMesh

open Library

/-- A row of `peer_heartbeats`. -/
structure Heartbeat where
  peerName : String
  lastSeen : Int64
  version : Option String := none
  capabilities : Option String := none
  role : Option String := none

/-- The table, with its PRIMARY KEY. -/
abbrev Heartbeats := KeyedRows Heartbeat.peerName

/-- The upsert of `handle_heartbeat`. -/
def storeHeartbeat (now : Int64) (t : Heartbeats) (body : HeartbeatRequest) : Heartbeats :=
  t.upsert ⟨body.peer, now, body.version, body.capabilities, body.role⟩
    (fun h => { h with lastSeen := now, version := body.version, capabilities := body.capabilities, role := body.role })
    fun _ same => same

/-- `last_seen > unixepoch() - 600`. -/
def isOnline (now : Int64) (h : Heartbeat) : Bool := now.toInt - 600 < h.lastSeen.toInt

structure MeshStatus where
  peersOnline : Nat
  totalSynced : Nat

/-- `handle_status`, given what its query of `mesh_sync_stats` returns. -/
def handleStatus (now : Int64) (t : Heartbeats) (synced : Option Nat) : MeshStatus where
  peersOnline := t.rows.countP (isOnline now) + 1
  totalSynced := synced.getD 0

structure PeerEntry where
  peer : String
  lastSeen : Int64
  version : Option String
  status : String
  role : Option String
  deriving DecidableEq

structure LocalNode where
  /-- `hostname::get`. -/
  hostname : Option String
  /-- `CONVERGIO_NODE_ROLE`. -/
  nodeRole : Option String := none

def LocalNode.name (l : LocalNode) : String := l.hostname.getD "unknown"

def cargoPkgVersion : String := "0.1.13"

def heartbeatStatus (now : Int64) (h : Heartbeat) : String := if isOnline now h then "online" else "offline"

def storedEntry (now : Int64) (h : Heartbeat) : PeerEntry where
  peer := h.peerName
  lastSeen := h.lastSeen
  version := h.version
  status := heartbeatStatus now h
  role := h.role

/-- The names that `handle_peers` takes for the local node. -/
def isLocal (localName name : String) : Bool :=
  name = localName || (localName ++ ".").toList.isPrefixOf name.toList || (name ++ ".").toList.isPrefixOf localName.toList

def localEntry (now : Int64) (l : LocalNode) : PeerEntry where
  peer := l.name
  lastSeen := now
  version := some cargoPkgVersion
  status := "online"
  role := some (l.nodeRole.getD "")

/-- What is set in an entry that is taken for the local node. -/
def PeerEntry.forceOnline (now : Int64) (e : PeerEntry) : PeerEntry :=
  { e with status := "online", version := some cargoPkgVersion, lastSeen := now }

/-- The rows of the query, ordered by name. -/
def storedEntries (now : Int64) (t : Heartbeats) : List PeerEntry :=
  (t.rows.insertionSort fun h h' => h.peerName ≤ h'.peerName).map (storedEntry now)

def handlePeers (now : Int64) (l : LocalNode) (t : Heartbeats) : List PeerEntry :=
  let peers := storedEntries now t
  if peers.any fun e => isLocal l.name e.peer then
    peers.map fun e => if isLocal l.name e.peer then e.forceOnline now else e
  else localEntry now l :: peers

/-! ### The list of peers -/

/-- The entry of a row in a list with the local node in it. -/
def shownEntry (now : Int64) (l : LocalNode) (h : Heartbeat) : PeerEntry :=
  if isLocal l.name h.peerName then (storedEntry now h).forceOnline now else storedEntry now h

variable {now : Int64} {l : LocalNode} {t : Heartbeats}

theorem storedEntries_perm (now : Int64) (t : Heartbeats) : (storedEntries now t).Perm (t.rows.map (storedEntry now)) :=
  (List.perm_insertionSort _ _).map _

theorem any_isLocal_iff : (storedEntries now t).any (fun e => isLocal l.name e.peer) = true ↔
    ∃ h ∈ t.rows, isLocal l.name h.peerName = true := by
  rw [List.any_eq_true]
  constructor
  · rintro ⟨e, member, own⟩
    obtain ⟨h, stored, rfl⟩ := List.mem_map.mp ((storedEntries_perm now t).mem_iff.mp member)
    exact ⟨h, stored, own⟩
  · rintro ⟨h, stored, own⟩
    exact ⟨_, (storedEntries_perm now t).mem_iff.mpr (List.mem_map_of_mem stored), own⟩

/-- If a stored name is taken for the local node, the list is that of the rows, with these forced online. -/
theorem handlePeers_of_local (now : Int64) (listed : ∃ h ∈ t.rows, isLocal l.name h.peerName = true) :
    (handlePeers now l t).Perm (t.rows.map (shownEntry now l)) := by
  unfold handlePeers
  dsimp only
  rw [if_pos (any_isLocal_iff.mpr listed)]
  have shown := (storedEntries_perm now t).map fun e => if isLocal l.name e.peer then e.forceOnline now else e
  rwa [List.map_map] at shown

/-- Otherwise the local node comes first. -/
theorem handlePeers_of_absent (now : Int64) (absent : ∀ h ∈ t.rows, isLocal l.name h.peerName = false) :
    (handlePeers now l t).Perm (localEntry now l :: t.rows.map (storedEntry now)) := by
  have other : ¬∃ h ∈ t.rows, isLocal l.name h.peerName = true := by
    rintro ⟨h, stored, own⟩
    rw [absent h stored] at own
    cases own
  unfold handlePeers
  dsimp only
  rw [if_neg (mt any_isLocal_iff.mp other)]
  exact (storedEntries_perm now t).cons _

theorem storedEntry_online {h : Heartbeat} : (storedEntry now h).status = "online" ↔ isOnline now h = true := by
  change heartbeatStatus now h = "online" ↔ _
  unfold heartbeatStatus
  cases isOnline now h <;> decide

theorem shownEntry_online {h : Heartbeat} :
    (shownEntry now l h).status = "online" ↔ isLocal l.name h.peerName = true ∨ isOnline now h = true := by
  unfold shownEntry
  split
  · rename_i own
    exact iff_of_true rfl (.inl own)
  · rename_i other
    rw [storedEntry_online, or_iff_right other]

@[simp] theorem shownEntry_peer (h : Heartbeat) : (shownEntry now l h).peer = h.peerName := by
  unfold shownEntry
  split <;> rfl

theorem isLocal_name (l : LocalNode) : isLocal l.name l.name = true := by simp [isLocal]

/-- The local node is listed, and every entry taken for it is online. -/
theorem local_listed (now : Int64) (l : LocalNode) (t : Heartbeats) :
    (∃ entry ∈ handlePeers now l t, isLocal l.name entry.peer = true) ∧
      ∀ entry ∈ handlePeers now l t, isLocal l.name entry.peer = true → entry.status = "online" := by
  by_cases listed : ∃ h ∈ t.rows, isLocal l.name h.peerName = true
  · have shown := handlePeers_of_local (l := l) now listed
    obtain ⟨h, stored, own⟩ := listed
    refine ⟨⟨_, shown.mem_iff.mpr (List.mem_map_of_mem stored), by simpa using own⟩, fun entry member own => ?_⟩
    obtain ⟨h, _, rfl⟩ := List.mem_map.mp (shown.mem_iff.mp member)
    exact shownEntry_online.mpr (.inl (by simpa using own))
  · have absent : ∀ h ∈ t.rows, isLocal l.name h.peerName = false := fun h stored =>
      Bool.eq_false_iff.mpr fun own => listed ⟨h, stored, own⟩
    have shown := handlePeers_of_absent (l := l) now absent
    refine ⟨⟨_, shown.mem_iff.mpr List.mem_cons_self, isLocal_name l⟩, fun entry member own => ?_⟩
    rcases List.mem_cons.mp (shown.mem_iff.mp member) with rfl | later
    · rfl
    · obtain ⟨h, stored, rfl⟩ := List.mem_map.mp later
      exact absurd own (by simp [storedEntry, absent h stored])

/-! ### The number of peers online -/

def onlineEntries (es : List PeerEntry) : Nat := es.countP fun e => e.status = "online"

/-- The stale rows that are taken for the local node. -/
def staleLocal (now : Int64) (l : LocalNode) (t : Heartbeats) : Nat :=
  t.rows.countP fun h => isLocal l.name h.peerName && !isOnline now h

theorem onlineEntries_of_absent (absent : ∀ h ∈ t.rows, isLocal l.name h.peerName = false) :
    onlineEntries (handlePeers now l t) = t.rows.countP (isOnline now) + 1 := by
  rw [onlineEntries, (handlePeers_of_absent now absent).countP_eq, List.countP_cons_of_pos (by simp [localEntry]),
    List.countP_map]
  congr 1
  refine List.countP_congr fun h _ => ?_
  simp [storedEntry_online]

theorem onlineEntries_of_local (listed : ∃ h ∈ t.rows, isLocal l.name h.peerName = true) :
    onlineEntries (handlePeers now l t) = t.rows.countP (isOnline now) + staleLocal now l t := by
  rw [onlineEntries, (handlePeers_of_local now listed).countP_eq, List.countP_map, staleLocal]
  induction t.rows with
  | nil => rfl
  | cons h rows ih =>
    rw [List.countP_cons, List.countP_cons, List.countP_cons, ih, Function.comp_apply]
    cases own : isLocal l.name h.peerName <;> cases online : isOnline now h <;>
      simp [shownEntry_online, own, online] <;> omega

/-- The status and the list agree on who is online exactly if no stored name is taken for the local node, or one stale
row is. -/
theorem peersOnline_eq_iff (now : Int64) (l : LocalNode) (t : Heartbeats) (synced : Option Nat) :
    (handleStatus now t synced).peersOnline = onlineEntries (handlePeers now l t) ↔
      (∀ h ∈ t.rows, isLocal l.name h.peerName = false) ∨ staleLocal now l t = 1 := by
  have counted : (handleStatus now t synced).peersOnline = t.rows.countP (isOnline now) + 1 := rfl
  by_cases listed : ∃ h ∈ t.rows, isLocal l.name h.peerName = true
  · have present : ¬∀ h ∈ t.rows, isLocal l.name h.peerName = false := by
      obtain ⟨h, stored, own⟩ := listed
      intro absent
      rw [absent h stored] at own
      cases own
    rw [counted, onlineEntries_of_local listed, or_iff_right present]
    omega
  · have absent : ∀ h ∈ t.rows, isLocal l.name h.peerName = false := by
      intro h stored
      exact Bool.eq_false_iff.mpr fun own => listed ⟨h, stored, own⟩
    rw [counted, onlineEntries_of_absent absent]
    exact iff_of_true rfl (.inl absent)

def heardFrom (peer : String) : Heartbeats := storeHeartbeat 1776772800 KeyedRows.empty ⟨peer, some "0.1.12", none, none⟩

/-- Ten seconds after a heartbeat under its own name, the local node is counted twice and listed once. -/
theorem own_heartbeat_counted_twice :
    (handleStatus 1776772810 (heardFrom "m5max") none).peersOnline = 2 ∧
    handlePeers 1776772810 ⟨some "m5max", none⟩ (heardFrom "m5max") =
      [⟨"m5max", 1776772810, some "0.1.13", "online", none⟩] ∧
    (handleStatus 1776772810 (heardFrom "m5max") none).peersOnline ≠
      onlineEntries (handlePeers 1776772810 ⟨some "m5max", none⟩ (heardFrom "m5max")) := by
  decide

end ConvergioMesh
