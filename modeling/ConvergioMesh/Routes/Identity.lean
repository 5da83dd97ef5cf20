import ConvergioMesh.Peers.Types
import ConvergioMesh.Routes.Presence

/-!
# The local node in the list of peers

`handle_peers` recognises the local node by its dotted names, the registry by its canonical name.
The list shows the local node once where the two agree on the stored names.
-/

namespace ConvergioMesh

open Library

/-- The name has the canonical name of the local node. -/
def sameNode (localName name : String) : Bool :=
  match canonicalPeerName localName.toList with
  | some identity => canonicalPeerName name.toList = some identity
  | none => false

/-- One entry is the local node and online, and every other one is as stored. -/
structure ShowsLocalOnce (now : Int64) (l : LocalNode) (t : Heartbeats) (es : List PeerEntry) : Prop where
  once : es.countP (fun e => sameNode l.name e.peer) = 1
  online : ∀ e ∈ es, sameNode l.name e.peer = true → e.status = "online"
  others : ∀ e ∈ es, sameNode l.name e.peer = false → ∃ h ∈ t.rows, e.peer = h.peerName ∧ e.lastSeen = h.lastSeen ∧
    e.version = h.version ∧ e.status = heartbeatStatus now h

/-- One row is the local node, which is recognised or fresh, and a row recognised by mistake already has what is set. -/
structure Recognised (now : Int64) (l : LocalNode) (t : Heartbeats) : Prop where
  listed : ∃ h ∈ t.rows, isLocal l.name h.peerName = true
  once : t.rows.countP (fun h => sameNode l.name h.peerName) = 1
  online : ∀ h ∈ t.rows, sameNode l.name h.peerName = true → isLocal l.name h.peerName = true ∨ isOnline now h = true
  others : ∀ h ∈ t.rows, sameNode l.name h.peerName = false → isLocal l.name h.peerName = true →
    h.lastSeen = now ∧ h.version = some cargoPkgVersion

/-- No row is the local node or taken for it. -/
def Unknown (l : LocalNode) (t : Heartbeats) : Prop :=
  ∀ h ∈ t.rows, isLocal l.name h.peerName = false ∧ sameNode l.name h.peerName = false

variable {now : Int64} {l : LocalNode} {t : Heartbeats}

theorem sameNode_self {name : String} (ascii : IsAscii name.toList) : sameNode name name = true := by
  simp [sameNode, ascii.canonicalPeerName]

theorem shownEntry_other {h : Heartbeat} (other : isLocal l.name h.peerName = false) :
    shownEntry now l h = storedEntry now h := if_neg (by simp [other])

theorem shownEntry_local {h : Heartbeat} (own : isLocal l.name h.peerName = true) :
    shownEntry now l h = (storedEntry now h).forceOnline now := if_pos own

theorem heartbeatStatus_of_now {h : Heartbeat} (current : h.lastSeen = now) : heartbeatStatus now h = "online" := by
  refine if_pos ?_
  rw [isOnline, current, decide_eq_true_eq]
  omega

theorem showsLocalOnce_of_absent (ascii : IsAscii l.name.toList)
    (absent : ∀ h ∈ t.rows, isLocal l.name h.peerName = false) :
    ShowsLocalOnce now l t (handlePeers now l t) ↔ ∀ h ∈ t.rows, sameNode l.name h.peerName = false := by
  have shown := handlePeers_of_absent now absent
  have self : sameNode l.name (localEntry now l).peer = true := sameNode_self ascii
  have count : (handlePeers now l t).countP (fun e => sameNode l.name e.peer) =
      t.rows.countP (fun h => sameNode l.name h.peerName) + 1 := by
    rw [shown.countP_eq, List.countP_cons, if_pos self, List.countP_map]
    rfl
  constructor
  · intro h row stored
    have none : t.rows.countP (fun h => sameNode l.name h.peerName) = 0 := by
      have := h.once
      omega
    simpa using List.countP_eq_zero.mp none row stored
  · intro unlisted
    have others {e : PeerEntry} (member : e ∈ handlePeers now l t) :
        e = localEntry now l ∨ ∃ h ∈ t.rows, e = storedEntry now h := by
      rcases List.mem_cons.mp (shown.mem_iff.mp member) with first | later
      · exact .inl first
      · obtain ⟨h, stored, rfl⟩ := List.mem_map.mp later
        exact .inr ⟨h, stored, rfl⟩
    constructor
    · rw [count, List.countP_eq_zero.mpr fun h stored => by simp [unlisted h stored]]
    · intro e member same
      rcases others member with rfl | ⟨h, stored, rfl⟩
      · rfl
      · have different := unlisted h stored
        change sameNode l.name h.peerName = true at same
        rw [different] at same
        cases same
    · intro e member other
      rcases others member with rfl | ⟨h, stored, rfl⟩
      · rw [self] at other
        cases other
      · exact ⟨h, stored, rfl, rfl, rfl, rfl⟩

theorem showsLocalOnce_of_local (listed : ∃ h ∈ t.rows, isLocal l.name h.peerName = true) :
    ShowsLocalOnce now l t (handlePeers now l t) ↔ Recognised now l t := by
  have shown := handlePeers_of_local now listed
  have entry {e : PeerEntry} : e ∈ handlePeers now l t ↔ ∃ h ∈ t.rows, shownEntry now l h = e := by
    rw [shown.mem_iff, List.mem_map]
  have count : (handlePeers now l t).countP (fun e => sameNode l.name e.peer) =
      t.rows.countP fun h => sameNode l.name h.peerName := by
    rw [shown.countP_eq, List.countP_map]
    exact List.countP_congr fun h _ => by simp [shownEntry_peer]
  constructor
  · rintro ⟨once, online, others⟩
    refine ⟨listed, count ▸ once, fun h stored same => ?_, fun h stored different own => ?_⟩
    · exact shownEntry_online.mp (online _ (entry.mpr ⟨h, stored, rfl⟩) (by rwa [shownEntry_peer]))
    · obtain ⟨h', stored', peer, seen, version, _⟩ :=
        others _ (entry.mpr ⟨h, stored, rfl⟩) (by rwa [shownEntry_peer])
      rw [shownEntry_peer] at peer
      obtain rfl := t.eq_of_key stored stored' peer
      rw [shownEntry_local own] at seen version
      exact ⟨seen.symm, version.symm⟩
  · rintro ⟨_, once, online, others⟩
    refine ⟨count.trans once, fun e member same => ?_, fun e member different => ?_⟩
    · obtain ⟨h, stored, rfl⟩ := entry.mp member
      rw [shownEntry_peer] at same
      exact shownEntry_online.mpr (online h stored same)
    · obtain ⟨h, stored, rfl⟩ := entry.mp member
      rw [shownEntry_peer] at different
      cases own : isLocal l.name h.peerName with
      | false =>
        rw [shownEntry_other own]
        exact ⟨h, stored, rfl, rfl, rfl, rfl⟩
      | true =>
        obtain ⟨current, version⟩ := others h stored different own
        rw [shownEntry_local own]
        exact ⟨h, stored, rfl, current.symm, version.symm, (heartbeatStatus_of_now current).symm⟩

/-- The list shows the local node once, online, and the others as stored, exactly if the stored names do not know the
local node at all, or one of them does and is recognised where it matters. -/
theorem handlePeers_shows_iff (now : Int64) (t : Heartbeats) (ascii : IsAscii l.name.toList) :
    ShowsLocalOnce now l t (handlePeers now l t) ↔ Unknown l t ∨ Recognised now l t := by
  by_cases listed : ∃ h ∈ t.rows, isLocal l.name h.peerName = true
  · have known : ¬Unknown l t := by
      obtain ⟨h, stored, own⟩ := listed
      intro unknown
      rw [(unknown h stored).1] at own
      cases own
    rw [showsLocalOnce_of_local listed, or_iff_right known]
  · have absent : ∀ h ∈ t.rows, isLocal l.name h.peerName = false := by
      intro h stored
      exact Bool.eq_false_iff.mpr fun own => listed ⟨h, stored, own⟩
    rw [showsLocalOnce_of_absent ascii absent, or_iff_left fun recognised : Recognised now l t => listed recognised.listed]
    exact forall₂_congr fun h stored => (and_iff_right (absent h stored)).symm

theorem other_peer_shown :
    ShowsLocalOnce 1776772810 ⟨some "m5max", none⟩ (heardFrom "a100")
      (handlePeers 1776772810 ⟨some "m5max", none⟩ (heardFrom "a100")) :=
  (handlePeers_shows_iff 1776772810 (heardFrom "a100") (by decide)).mpr
    (.inl fun h stored => by
      rw [List.mem_singleton.mp stored]
      decide)

/-- A row with another spelling of the local name is listed beside the local node, and a peer whose name continues the
local one is shown as the local node. -/
theorem local_names_misread :
    handlePeers 1776772810 ⟨some "m5max", none⟩ (heardFrom "M5Max.local") =
      [⟨"m5max", 1776772810, some "0.1.13", "online", some ""⟩,
        ⟨"M5Max.local", 1776772800, some "0.1.12", "online", none⟩] ∧
    ¬ShowsLocalOnce 1776772810 ⟨some "m5max", none⟩ (heardFrom "M5Max.local")
      (handlePeers 1776772810 ⟨some "m5max", none⟩ (heardFrom "M5Max.local")) ∧
    handlePeers 1776779999 ⟨some "m5", none⟩ (heardFrom "m5.ts.net") =
      [⟨"m5.ts.net", 1776779999, some "0.1.13", "online", none⟩] ∧
    ¬ShowsLocalOnce 1776779999 ⟨some "m5", none⟩ (heardFrom "m5.ts.net")
      (handlePeers 1776779999 ⟨some "m5", none⟩ (heardFrom "m5.ts.net")) := by
  refine ⟨by decide, fun shows => ?_, by decide, fun shows => ?_⟩
  · exact absurd shows.once (by decide)
  · exact absurd shows.once (by decide)

end ConvergioMesh
