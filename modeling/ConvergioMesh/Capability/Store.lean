import Mathlib.Data.List.Sort
import Mathlib.Data.String.Basic
import ConvergioMesh.Json
import ConvergioMesh.Library.Upsert

/-!
# The capability registry

`node_capabilities` with its UNIQUE constraint, and the functions that write and read it. JSON texts
belong to `serde_json` and are taken as given by a `CapabilityCodec`.
-/

namespace ConvergioMesh

open Library

structure NodeCapability where
  name : String
  version : String
  tags : List String
  metadata : Json

/-- `to_string` and `from_str` of the two columns that hold JSON. -/
structure CapabilityCodec where
  showTags : List String → Option String
  readTags : String → Option (List String)
  showMetadata : Json → Option String
  readMetadata : String → Option Json

structure CapabilityRow where
  peerName : String
  capabilityName : String
  capabilityVersion : String
  tagsJson : String
  metadataJson : String
  updatedAt : String

def CapabilityRow.key (r : CapabilityRow) : String × String := (r.peerName, r.capabilityName)

/-- The table, with UNIQUE(peer_name, capability_name). -/
abbrev CapabilityTable := KeyedRows CapabilityRow.key

/-- What one INSERT meets: the time, and whether SQLite fails. -/
structure UpsertIo where
  now : String := ""
  fault : Bool := false

def capabilityRow (c : CapabilityCodec) (now peer : String) (cap : NodeCapability) : CapabilityRow where
  peerName := peer
  capabilityName := cap.name
  capabilityVersion := cap.version
  tagsJson := (c.showTags cap.tags).getD "[]"
  metadataJson := (c.showMetadata cap.metadata).getD "\x7b\x7d"
  updatedAt := now

/-- The DO UPDATE of the upsert: every column but the key is taken from the new values. -/
def CapabilityRow.excluded (new old : CapabilityRow) : CapabilityRow :=
  { old with
    capabilityVersion := new.capabilityVersion
    tagsJson := new.tagsJson
    metadataJson := new.metadataJson
    updatedAt := new.updatedAt }

@[simp] theorem CapabilityRow.key_excluded (new old : CapabilityRow) : (new.excluded old).key = old.key := rfl

theorem CapabilityRow.excluded_eq {new old : CapabilityRow} (same : old.key = new.key) : new.excluded old = new := by
  obtain ⟨peer, name⟩ := Prod.mk.inj same
  rw [excluded, peer, name]

def upsertCapability (t : CapabilityTable) (r : CapabilityRow) : CapabilityTable :=
  t.upsert r r.excluded fun old same => (r.key_excluded old).trans same

/-- `register_capabilities`: false if a statement fails, which leaves the earlier ones in place. -/
def registerCapabilities (c : CapabilityCodec) (peer : String) :
    List UpsertIo → CapabilityTable → List NodeCapability → CapabilityTable × Bool
  | _, t, [] => (t, true)
  | ios, t, cap :: rest =>
    let io := ios.headD {}
    if io.fault then (t, false)
    else registerCapabilities c peer ios.tail (upsertCapability t (capabilityRow c io.now peer cap)) rest

def removePeerCapabilities (fault : Bool) (t : CapabilityTable) (peer : String) : CapabilityTable × Bool :=
  if fault then (t, false) else (t.delete fun r => r.peerName = peer, true)

def CapabilityRow.decode (c : CapabilityCodec) (r : CapabilityRow) : NodeCapability where
  name := r.capabilityName
  version := r.capabilityVersion
  tags := (c.readTags r.tagsJson).getD []
  metadata := (c.readMetadata r.metadataJson).getD .null

/-- `get_peer_capabilities`; `scan` is the order in which SQLite returns the selected rows. -/
def getPeerCapabilities (c : CapabilityCodec) (scan : List CapabilityRow → List CapabilityRow) (t : CapabilityTable)
    (peer : String) : List NodeCapability :=
  (scan (t.rows.filter fun r => r.peerName = peer)).map (·.decode c)

structure NodeCapabilities where
  peerName : String
  capabilities : List NodeCapability
  lastUpdated : String

/-- The `HashMap` that `list_all_capabilities` fills. -/
abbrev CapabilityGroups := KeyedRows NodeCapabilities.peerName

/-- `ORDER BY peer_name, capability_name`. -/
def listOrder (r s : CapabilityRow) : Prop :=
  r.peerName < s.peerName ∨ r.peerName = s.peerName ∧ r.capabilityName ≤ s.capabilityName

instance : DecidableRel listOrder := fun _ _ => inferInstanceAs (Decidable (_ ∨ _ ∧ _))

/-- Rows of one peer have different names. -/
theorem names_nodup_of_peer {t : CapabilityTable} {rows : List CapabilityRow} {p : String} (part : rows.Sublist t.rows)
    (own : ∀ r ∈ rows, r.peerName = p) : (rows.map (·.capabilityName)).Nodup := by
  have keys : (rows.map CapabilityRow.key).Nodup := t.distinct.sublist (part.map _)
  have split_keys : ∀ r ∈ rows, r.key = (p, r.capabilityName) := fun r member => Prod.ext (own r member) rfl
  rw [List.map_congr_left split_keys, ← Function.comp_def (Prod.mk p), ← List.map_map] at keys
  exact keys.of_map _

/-- The push onto an entry, and the newer of the two times. -/
def NodeCapabilities.push (cap : NodeCapability) (updated : String) (g : NodeCapabilities) : NodeCapabilities :=
  { g with
    capabilities := g.capabilities ++ [cap]
    lastUpdated := if g.lastUpdated < updated then updated else g.lastUpdated }

@[simp] theorem NodeCapabilities.peerName_push (cap : NodeCapability) (updated : String) (g : NodeCapabilities) :
    (g.push cap updated).peerName = g.peerName := rfl

/-- `entry(peer).or_insert(…)` followed by the push. -/
def groupRow (c : CapabilityCodec) (groups : CapabilityGroups) (r : CapabilityRow) : CapabilityGroups :=
  groups.upsert ⟨r.peerName, [r.decode c], r.updatedAt⟩ (NodeCapabilities.push (r.decode c) r.updatedAt)
    fun g same => (g.peerName_push (r.decode c) r.updatedAt).trans same

/-- `list_all_capabilities`; `iterate` is the order in which the map is iterated. -/
def listAllCapabilities (c : CapabilityCodec) (iterate : List NodeCapabilities → List NodeCapabilities)
    (t : CapabilityTable) : List NodeCapabilities :=
  iterate ((t.rows.insertionSort listOrder).foldl (groupRow c) KeyedRows.empty).rows

end ConvergioMesh
