import ConvergioMesh.Sync.Types

/-!
# The `plans` table

The schema the crate's tests create, for concrete inputs: an INTEGER PRIMARY KEY `id`, a text
`name` and a non-null text `updated_at`.
-/

namespace ConvergioMesh

def plansSchema : Schema where
  columns := [{ name := "id", affinity := .integer }, { name := "name", affinity := .text },
    { name := "updated_at", affinity := .text, notNull := true }]
  rowid := true
  distinct := by decide
  id_spelled := by decide
  rowid_integer := by decide

def plan (id : Int64) (name updatedAt : String) : Row :=
  [("id", .integer id), ("name", .text name), ("updated_at", .text updatedAt)]

def planEntries (id : Int64) (name updatedAt : String) : List (String × Json) :=
  [("id", .number (.ofInt64 id)), ("name", .string name), ("updated_at", .string updatedAt)]

def planChange (pk id : Int64) (name updatedAt : String) : SyncChange :=
  ⟨"plans", .number (.ofInt64 pk), .object (planEntries id name updatedAt)⟩

/-- An engine that writes a float as its bit pattern, for data without floats, blobs or exhausted
rowids. -/
def sampleEngine : Engine where
  showReal f := String.ofList ('.' :: Nat.toDigits 10 f.bits.toNat)
  readReal s :=
    match s.toList with
    | '.' :: cs => (digitsValue cs).map fun n => ⟨.ofNat n.toNat⟩
    | _ => none
  wireReal f := f
  ofInt _ := ⟨0⟩
  castText _ := ""
  pickRowid _ := none

theorem planRows_shaped {rows : List (Int64 × String × String)} :
    ∀ r ∈ rows.map (fun p => plan p.1 p.2.1 p.2.2), r.names = plansSchema.names := by
  intro r member
  obtain ⟨p, _, rfl⟩ := List.mem_map.mp member
  rfl

theorem planRows_accepted {rows : List (Int64 × String × String)} :
    ∀ r ∈ rows.map (fun p => plan p.1 p.2.1 p.2.2), plansSchema.accepts r = true := by
  intro r member
  obtain ⟨p, _, rfl⟩ := List.mem_map.mp member
  rfl

def plansTable (rows : List (Int64 × String × String))
    (distinct : (rows.map fun p => plan p.1 p.2.1 p.2.2).Pairwise fun r s => plansSchema.conflict r s = false) :
    Table where
  schema := plansSchema
  rows := rows.map fun p => plan p.1 p.2.1 p.2.2
  shaped := planRows_shaped
  accepted := planRows_accepted
  distinct := distinct

def noPlans : Table := plansTable [] (by decide)

/-- A database whose only table is this `plans` table, with no cursor stored. -/
def plansDb (t : Table) : Database where
  tables := fun name => if name = "plans" then some t else none
  syncMeta _ _ := none

end ConvergioMesh
