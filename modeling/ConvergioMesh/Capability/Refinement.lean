import Mathlib.Data.List.Induction
import ConvergioMesh.Capability.Store

/-!
# The capability registry as a map

Per peer and name the last registration since the peer was last removed. The table refines this map
over every run of successful calls, and each way of reading the table reports it.
-/

namespace ConvergioMesh

open Library

inductive CapabilityCall where
  | register (peer : String) (caps : List NodeCapability) (ios : List UpsertIo)
  | remove (peer : String) (fault : Bool)

namespace CapabilityCall

def peer : CapabilityCall → String
  | .register peer _ _ | .remove peer _ => peer

/-- What a call registers. -/
def caps : CapabilityCall → List NodeCapability
  | .register _ caps _ => caps
  | .remove _ _ => []

/-- The table after a call that succeeds. -/
def run (c : CapabilityCodec) (t : CapabilityTable) : CapabilityCall → Option CapabilityTable
  | .register peer caps ios => succeeded (registerCapabilities c peer ios t caps)
  | .remove peer fault => succeeded (removePeerCapabilities fault t peer)
where
  succeeded (done : CapabilityTable × Bool) : Option CapabilityTable := if done.2 then some done.1 else none

/-- What is registered for a peer, in call and list order. -/
def registers (p : String) (held : List NodeCapability) : CapabilityCall → List NodeCapability
  | .register peer caps _ => if peer = p then held ++ caps else held
  | .remove peer _ => if peer = p then [] else held

end CapabilityCall

/-- Everything registered for a peer since its last removal. -/
def registered (p : String) (calls : List CapabilityCall) : List NodeCapability :=
  calls.foldl (fun held call => call.registers p held) []

/-- The last registration of a name. -/
def latest (caps : List NodeCapability) (name : String) : Option NodeCapability :=
  caps.reverse.find? fun cap => cap.name = name

/-- Decoding undoes encoding for a capability. -/
structure CapabilityCodec.Lossless (c : CapabilityCodec) (cap : NodeCapability) : Prop where
  tags : (c.showTags cap.tags).bind c.readTags = some cap.tags
  metadata : (c.showMetadata cap.metadata).bind c.readMetadata = some cap.metadata

theorem succeeded_eq_some {done : CapabilityTable × Bool} {t : CapabilityTable}
    (h : CapabilityCall.run.succeeded done = some t) : done = (t, true) := by
  unfold CapabilityCall.run.succeeded at h
  split at h
  · rename_i succeeds
    exact Prod.ext (Option.some.inj h) succeeds
  · cases h

theorem latest_append (caps more : List NodeCapability) (name : String) :
    latest (caps ++ more) name = (latest more name).or (latest caps name) := by
  rw [latest, List.reverse_append, List.find?_append]
  rfl

theorem decode_capabilityRow {c : CapabilityCodec} {cap : NodeCapability} (lossless : c.Lossless cap)
    (now peer : String) : (capabilityRow c now peer cap).decode c = cap := by
  obtain ⟨tags, shown, read⟩ := Option.bind_eq_some_iff.mp lossless.tags
  obtain ⟨metadata, shown', read'⟩ := Option.bind_eq_some_iff.mp lossless.metadata
  simp [capabilityRow, CapabilityRow.decode, shown, read, shown', read']

/-- The table holds, for each peer and name, the latest of these registrations. -/
def Refines (c : CapabilityCodec) (t : CapabilityTable) (m : String → List NodeCapability) : Prop :=
  ∀ p name, (t.find (p, name)).map (·.decode c) = latest (m p) name

theorem Refines.empty (c : CapabilityCodec) : Refines c KeyedRows.empty fun _ => [] := fun _ _ => rfl

variable {c : CapabilityCodec} {t t' : CapabilityTable} {m : String → List NodeCapability}

theorem find_upsertCapability_same (t : CapabilityTable) (r : CapabilityRow) :
    (upsertCapability t r).find r.key = some r := by
  rw [upsertCapability, KeyedRows.find_upsert_same]
  cases found : t.find r.key with
  | none => rfl
  | some s => exact congrArg some (CapabilityRow.excluded_eq (KeyedRows.find_eq_some.mp found).2)

theorem Refines.upsert {cap : NodeCapability} (lossless : c.Lossless cap) (h : Refines c t m) (now peer : String) :
    Refines c (upsertCapability t (capabilityRow c now peer cap))
      fun p => if peer = p then m p ++ [cap] else m p := by
  intro p name
  dsimp only
  by_cases same : (p, name) = (peer, cap.name)
  · obtain ⟨rfl, rfl⟩ := Prod.mk.inj same
    have stored := find_upsertCapability_same t (capabilityRow c now p cap)
    rw [show (p, cap.name) = (capabilityRow c now p cap).key from rfl, stored, Option.map_some,
      decode_capabilityRow lossless, if_pos rfl, latest_append]
    simp [latest]
  · have other : (p, name) ≠ (capabilityRow c now peer cap).key := same
    rw [upsertCapability, KeyedRows.find_upsert_other other, h p name]
    split
    · rename_i here
      subst p
      have renamed : cap.name ≠ name := fun isName => same (by rw [isName])
      rw [latest_append]
      simp [latest, renamed]
    · rfl

theorem Refines.register {peer : String} {caps : List NodeCapability} {ios : List UpsertIo}
    (lossless : ∀ cap ∈ caps, c.Lossless cap) (h : Refines c t m)
    (ran : registerCapabilities c peer ios t caps = (t', true)) :
    Refines c t' fun p => if peer = p then m p ++ caps else m p := by
  induction caps generalizing ios t m with
  | nil =>
    obtain ⟨rfl, _⟩ := Prod.mk.inj ran
    simpa using h
  | cons cap rest ih =>
    rw [registerCapabilities] at ran
    split at ran
    · cases (Prod.mk.inj ran).2
    · have stored := h.upsert (lossless cap List.mem_cons_self) (ios.headD {}).now peer
      have next := ih (fun cap' later => lossless cap' (List.mem_cons_of_mem _ later)) stored ran
      intro p name
      rw [next p name]
      dsimp only
      split <;> simp

theorem Refines.remove {peer : String} {fault : Bool} (h : Refines c t m)
    (ran : removePeerCapabilities fault t peer = (t', true)) :
    Refines c t' fun p => if peer = p then [] else m p := by
  unfold removePeerCapabilities at ran
  split at ran
  · cases (Prod.mk.inj ran).2
  obtain ⟨rfl, _⟩ := Prod.mk.inj ran
  intro p name
  have held := h p name
  rw [KeyedRows.find_delete]
  change _ = latest (if peer = p then [] else m p) name
  cases found : t.find (p, name) with
  | none =>
    rw [found] at held
    split
    · rfl
    · exact held
  | some r =>
    have peer_eq : r.peerName = p := (Prod.mk.inj (KeyedRows.find_eq_some.mp found).2).1
    rw [found] at held
    split
    · rename_i here
      simp [Option.filter, peer_eq, here, latest]
    · rename_i other
      rw [← held]
      simp [Option.filter, peer_eq, Ne.symm other]

/-- A successful call does to the table what it does to the map. -/
theorem Refines.run {call : CapabilityCall} (lossless : ∀ cap ∈ call.caps, c.Lossless cap) (h : Refines c t m)
    (ran : call.run c t = some t') : Refines c t' fun p => call.registers p (m p) := by
  cases call with
  | register peer caps ios => exact h.register lossless (succeeded_eq_some ran)
  | remove peer fault => exact h.remove (succeeded_eq_some ran)

theorem Refines.runs {calls : List CapabilityCall} (lossless : ∀ call ∈ calls, ∀ cap ∈ call.caps, c.Lossless cap)
    (h : Refines c t m) (ran : calls.foldlM (CapabilityCall.run c) t = some t') :
    Refines c t' fun p => calls.foldl (fun held call => call.registers p held) (m p) := by
  induction calls generalizing t m with
  | nil =>
    obtain rfl := Option.some.inj ran
    exact h
  | cons call rest ih =>
    rw [List.foldlM_cons] at ran
    obtain ⟨u, first, ran⟩ := Option.bind_eq_some_iff.mp ran
    have next := h.run (lossless call List.mem_cons_self) first
    exact ih (fun later isLater => lossless later (List.mem_cons_of_mem _ isLater)) next ran

/-- The entries of a peer among some rows. -/
def peerEntries (c : CapabilityCodec) (rows : List CapabilityRow) (p : String) : List NodeCapability :=
  (rows.filter fun r => r.peerName = p).map (·.decode c)

theorem peerEntries_perm {rows rows' : List CapabilityRow} (same : rows.Perm rows') (p : String) :
    (peerEntries c rows p).Perm (peerEntries c rows' p) := (same.filter _).map _

theorem mem_peerEntries {p : String} {cap : NodeCapability} :
    cap ∈ peerEntries c t.rows p ↔ (t.find (p, cap.name)).map (·.decode c) = some cap := by
  constructor
  · intro member
    obtain ⟨r, selected, rfl⟩ := List.mem_map.mp member
    obtain ⟨stored, peer⟩ := List.mem_filter.mp selected
    have found : t.find (p, r.capabilityName) = some r :=
      KeyedRows.find_eq_some.mpr ⟨stored, Prod.ext (of_decide_eq_true peer) rfl⟩
    rw [show (r.decode c).name = r.capabilityName from rfl, found]
    rfl
  · intro held
    obtain ⟨r, found, decoded⟩ := Option.map_eq_some_iff.mp held
    obtain ⟨stored, key⟩ := KeyedRows.find_eq_some.mp found
    exact List.mem_map.mpr ⟨r, List.mem_filter.mpr ⟨stored, decide_eq_true (Prod.mk.inj key).1⟩, decoded⟩

theorem peerEntries_names_nodup (t : CapabilityTable) (p : String) :
    ((peerEntries c t.rows p).map (·.name)).Nodup := by
  rw [peerEntries, List.map_map]
  exact names_nodup_of_peer List.filter_sublist fun r selected => of_decide_eq_true (List.mem_filter.mp selected).2

theorem find_groupRow_same (groups : CapabilityGroups) (r : CapabilityRow) :
    (groupRow c groups r).find r.peerName =
      some ((groups.find r.peerName).elim ⟨r.peerName, [r.decode c], r.updatedAt⟩ (·.push (r.decode c) r.updatedAt)) :=
  KeyedRows.find_upsert_same

theorem find_groupRow_other (groups : CapabilityGroups) {r : CapabilityRow} {p : String} (other : r.peerName ≠ p) :
    (groupRow c groups r).find p = groups.find p := KeyedRows.find_upsert_other (Ne.symm other)

/-- What holds of the group of a peer, as its rows come one after the other. -/
theorem find_groups_inv (P : List CapabilityRow → Option NodeCapabilities → Prop) (start : P [] none)
    (next : ∀ rs g r, P rs g → P (rs ++ [r])
      (some (g.elim ⟨r.peerName, [r.decode c], r.updatedAt⟩ (·.push (r.decode c) r.updatedAt))))
    (rows : List CapabilityRow) (p : String) :
    P (rows.filter fun r => r.peerName = p) ((rows.foldl (groupRow c) KeyedRows.empty).find p) := by
  apply KeyedRows.find_foldl_inv (t := KeyedRows.empty) (groupRow c) (fun r => r.peerName = p) p P start
  · intro groups r rs here before
    obtain rfl := of_decide_eq_true here
    rw [find_groupRow_same]
    exact next rs _ r before
  · intro groups r other
    exact find_groupRow_other groups (of_decide_eq_false other)

/-- The group of a peer collects its entries, and a peer without entries has no group. -/
theorem find_groups (rows : List CapabilityRow) (p : String) :
    ((rows.foldl (groupRow c) KeyedRows.empty).find p).map (·.capabilities) =
      if peerEntries c rows p = [] then none else some (peerEntries c rows p) := by
  apply find_groups_inv (c := c) fun rs g =>
    g.map (·.capabilities) = if rs.map (·.decode c) = [] then none else some (rs.map (·.decode c))
  · rfl
  · intro rs g r before
    rw [if_neg (by simp), List.map_append, List.map_singleton]
    cases g with
    | none =>
      have empty : rs.map (·.decode c) = [] := by simpa using before
      rw [empty]
      rfl
    | some g =>
      have collected : g.capabilities = rs.map (·.decode c) := by
        split at before
        · cases before
        · exact Option.some.inj before
      rw [← collected]
      rfl

/-- The last registration of each name, and no other entry. -/
structure Reports (entries held : List NodeCapability) : Prop where
  distinct : (entries.map (·.name)).Nodup
  mem_iff : ∀ cap, cap ∈ entries ↔ latest held cap.name = some cap

theorem reports_get {scan : List CapabilityRow → List CapabilityRow} (permutes : ∀ rows, (scan rows).Perm rows)
    (h : Refines c t m) (p : String) : Reports (getPeerCapabilities c scan t p) (m p) := by
  have same : (getPeerCapabilities c scan t p).Perm (peerEntries c t.rows p) := (permutes _).map _
  constructor
  · exact (same.map _).nodup_iff.mpr (peerEntries_names_nodup t p)
  · intro cap
    rw [same.mem_iff, mem_peerEntries, h p cap.name]

theorem filter_register {peer p : String} {caps : List NodeCapability} {ios : List UpsertIo}
    (ran : registerCapabilities c peer ios t caps = (t', true)) (other : peer ≠ p) :
    t'.rows.filter (fun r => r.peerName = p) = t.rows.filter fun r => r.peerName = p := by
  induction caps generalizing ios t with
  | nil =>
    obtain ⟨rfl, _⟩ := Prod.mk.inj ran
    rfl
  | cons cap rest ih =>
    rw [registerCapabilities] at ran
    split at ran
    · cases (Prod.mk.inj ran).2
    · rw [ih ran]
      have elsewhere : decide ((capabilityRow c (ios.headD {}).now peer cap).key.1 = p) = false := decide_eq_false other
      exact KeyedRows.filter_upsert (p := fun k : String × String => decide (k.1 = p)) elsewhere

theorem filter_remove {peer p : String} {fault : Bool} (ran : removePeerCapabilities fault t peer = (t', true))
    (other : peer ≠ p) : t'.rows.filter (fun r => r.peerName = p) = t.rows.filter fun r => r.peerName = p := by
  unfold removePeerCapabilities at ran
  split at ran
  · cases (Prod.mk.inj ran).2
  obtain ⟨rfl, _⟩ := Prod.mk.inj ran
  rw [KeyedRows.delete, List.filter_filter]
  refine List.filter_congr fun r _ => ?_
  by_cases here : r.peerName = p
  · simp [here, Ne.symm other]
  · simp [here]

/-- A call on one peer leaves the entries of every other. -/
theorem get_other {scan : List CapabilityRow → List CapabilityRow} {call : CapabilityCall}
    (ran : call.run c t = some t') {p : String} (other : call.peer ≠ p) :
    getPeerCapabilities c scan t' p = getPeerCapabilities c scan t p := by
  have selected : t'.rows.filter (fun r => r.peerName = p) = t.rows.filter fun r => r.peerName = p := by
    cases call with
    | register peer caps ios => exact filter_register (succeeded_eq_some ran) other
    | remove peer fault => exact filter_remove (succeeded_eq_some ran) other
  rw [getPeerCapabilities, selected, getPeerCapabilities]

structure Lists (groups : List NodeCapabilities) (entries : String → List NodeCapability) : Prop where
  distinct : (groups.map (·.peerName)).Nodup
  listed_iff : ∀ p, (∃ g ∈ groups, g.peerName = p) ↔ entries p ≠ []
  same : ∀ g ∈ groups, g.capabilities.Perm (entries g.peerName)

theorem lists_all {scan : List CapabilityRow → List CapabilityRow} (permutes : ∀ rows, (scan rows).Perm rows)
    {iterate : List NodeCapabilities → List NodeCapabilities} (permutes' : ∀ groups, (iterate groups).Perm groups)
    (t : CapabilityTable) : Lists (listAllCapabilities c iterate t) (getPeerCapabilities c scan t) := by
  let groups := (t.rows.insertionSort listOrder).foldl (groupRow c) KeyedRows.empty
  have found : ∀ p, (groups.find p).map (·.capabilities) = _ := find_groups (t.rows.insertionSort listOrder)
  have listed : (listAllCapabilities c iterate t).Perm groups.rows := permutes' _
  have same : ∀ p, (peerEntries c (t.rows.insertionSort listOrder) p).Perm (getPeerCapabilities c scan t p) := by
    intro p
    exact (peerEntries_perm (List.perm_insertionSort _ _) p).trans ((permutes _).map _).symm
  constructor
  · exact (listed.map _).nodup_iff.mpr groups.distinct
  · intro p
    rw [← List.length_pos_iff, ← (same p).length_eq, List.length_pos_iff]
    constructor
    · rintro ⟨g, member, rfl⟩ empty
      have here := found g.peerName
      rw [if_pos empty, KeyedRows.find_eq_some.mpr ⟨listed.mem_iff.mp member, rfl⟩] at here
      cases here
    · intro entries
      have here := found p
      rw [if_neg entries] at here
      obtain ⟨g, isGroup, _⟩ := Option.map_eq_some_iff.mp here
      obtain ⟨member, named⟩ := KeyedRows.find_eq_some.mp isGroup
      exact ⟨g, listed.mem_iff.mpr member, named⟩
  · intro g member
    have here := found g.peerName
    rw [KeyedRows.find_eq_some.mpr ⟨listed.mem_iff.mp member, rfl⟩] at here
    split at here
    · cases here
    · have collected : g.capabilities = _ := Option.some.inj here
      rw [collected]
      exact same g.peerName

/-- Over every run of successful calls the table is the map from peers and names to the latest registration. -/
theorem capabilities_refine {calls : List CapabilityCall}
    (ran : calls.foldlM (CapabilityCall.run c) KeyedRows.empty = some t)
    (lossless : ∀ call ∈ calls, ∀ cap ∈ call.caps, c.Lossless cap)
    {scan : List CapabilityRow → List CapabilityRow} (permutes : ∀ rows, (scan rows).Perm rows)
    {iterate : List NodeCapabilities → List NodeCapabilities} (permutes' : ∀ groups, (iterate groups).Perm groups) :
    (∀ p, Reports (getPeerCapabilities c scan t p) (registered p calls)) ∧
    (∀ (call : CapabilityCall) t', call.run c t = some t' → ∀ p, call.peer ≠ p →
      getPeerCapabilities c scan t' p = getPeerCapabilities c scan t p) ∧
    Lists (listAllCapabilities c iterate t) (getPeerCapabilities c scan t) := by
  have refines := (Refines.empty c).runs lossless ran
  refine ⟨fun p => reports_get permutes refines p, ?_, lists_all permutes permutes' t⟩
  intro call t' next p other
  exact get_other next other

def gpuCodec : CapabilityCodec where
  showTags _ := some "[\"gpu\"]"
  readTags s := if s = "[\"gpu\"]" then some ["gpu"] else none
  showMetadata _ := some "\x7b\x7d"
  readMetadata s := if s = "\x7b\x7d" then some (.object []) else none

def gpu (name version : String) : NodeCapability := ⟨name, version, ["gpu"], .object []⟩

def gpuCalls : List CapabilityCall :=
  [.register "m4" [gpu "llm" "1.0.0", gpu "llm" "2.0.0"] [], .register "a100" [gpu "t" "1.0.0"] [], .remove "a100" false]

theorem gpu_lossless (name version : String) : gpuCodec.Lossless (gpu name version) := ⟨rfl, rfl⟩

theorem gpuCalls_refined :
    ∃ t, (∀ p, Reports (getPeerCapabilities gpuCodec id t p) (registered p gpuCalls)) ∧
      getPeerCapabilities gpuCodec id t "m4" = [gpu "llm" "2.0.0"] ∧
      getPeerCapabilities gpuCodec id t "a100" = [] := by
  have lossless : ∀ call ∈ gpuCalls, ∀ cap ∈ call.caps, gpuCodec.Lossless cap := by
    simp [gpuCalls, CapabilityCall.caps, gpu_lossless]
  have ran : gpuCalls.foldlM (CapabilityCall.run gpuCodec) KeyedRows.empty = some _ := rfl
  obtain ⟨reported, _⟩ := capabilities_refine ran lossless (fun rows => .refl rows) (fun groups => .refl groups)
  exact ⟨_, reported, rfl, rfl⟩

end ConvergioMesh
