import ConvergioMesh.Sync.Guard

/-!
# Versions beyond 32 bits

The check reads a peer's version as 64 bits and compares it cut to 32. It is exact exactly if no
version of a module on both sides exceeds 32 bits, or another module's cut version differs.
-/

namespace ConvergioMesh

variable {here : List (String × UInt32)} {remote : List (String × Json)} {entry : String × UInt32} {v : UInt64}

/-- A local module that the peer has in version `v`. -/
structure OnBothSides (here : List (String × UInt32)) (remote : List (String × Json)) (entry : String × UInt32)
    (v : UInt64) : Prop where
  listed : entry ∈ here
  reported : remoteVersion remote entry.1 = some v

/-- Each module on both sides has one version, as an integer. -/
def EqualVersions (here : List (String × UInt32)) (remote : List (String × Json)) : Prop :=
  ∀ entry v, OnBothSides here remote entry v → v.toNat = entry.2.toNat

/-- Each version that the peer has of a local module fits in 32 bits. -/
def FitsVersions (here : List (String × UInt32)) (remote : List (String × Json)) : Prop :=
  ∀ entry v, OnBothSides here remote entry v → v.toNat < 2 ^ 32

/-- Some module on both sides has versions that differ modulo 2^32. -/
def DiffersCut (here : List (String × UInt32)) (remote : List (String × Json)) : Prop :=
  ∃ entry v, OnBothSides here remote entry v ∧ v.toNat % 2 ^ 32 ≠ entry.2.toNat

theorem toUInt32_eq_iff {w : UInt32} : v.toUInt32 = w ↔ v.toNat % 2 ^ 32 = w.toNat := by
  rw [← UInt32.toNat_inj, UInt64.toNat_toUInt32]

theorem not_differsCut : ¬DiffersCut here remote ↔
    ∀ entry v, OnBothSides here remote entry v → v.toNat % 2 ^ 32 = entry.2.toNat := by
  unfold DiffersCut
  push Not
  rfl

theorem checkSchemaCompatibility_ok_iff_cut {io : HealthIo} (h : io.Answers remote) (db : Database) (peerAddr : String) :
    checkSchemaCompatibility io db peerAddr = .ok () ↔
      ¬DiffersCut (localSchemaVersions io.registryFault db) remote := by
  rw [checkSchemaCompatibility_ok_iff h, not_differsCut]
  constructor
  · intro same entry v shared
    exact toUInt32_eq_iff.mp (same entry shared.listed v shared.reported)
  · intro same entry listed v reported
    exact toUInt32_eq_iff.mpr (same entry v ⟨listed, reported⟩)

/-- Versions that agree modulo 2^32 are equal exactly if the peer's fit in 32 bits. -/
theorem equalVersions_iff_fits (cut : ¬DiffersCut here remote) : EqualVersions here remote ↔ FitsVersions here remote := by
  have cut := not_differsCut.mp cut
  constructor
  · intro same entry v shared
    rw [same entry v shared]
    exact entry.2.toNat_lt
  · intro fits entry v shared
    rw [← cut entry v shared, Nat.mod_eq_of_lt (fits entry v shared)]

theorem DiffersCut.not_equal (cut : DiffersCut here remote) : ¬EqualVersions here remote := by
  obtain ⟨entry, v, shared, differs⟩ := cut
  intro same
  apply differs
  rw [same entry v shared, Nat.mod_eq_of_lt entry.2.toNat_lt]

/-- The check passes exactly the peers whose versions of the common modules are the local ones, exactly if
those versions fit in 32 bits or some of them differ modulo 2^32. -/
theorem schemaCheck_exact_iff {io : HealthIo} (h : io.Answers remote) (db : Database) (peerAddr : String) :
    (checkSchemaCompatibility io db peerAddr = .ok () ↔ EqualVersions (localSchemaVersions io.registryFault db) remote) ↔
      FitsVersions (localSchemaVersions io.registryFault db) remote ∨
        DiffersCut (localSchemaVersions io.registryFault db) remote := by
  rw [checkSchemaCompatibility_ok_iff_cut h]
  by_cases cut : DiffersCut (localSchemaVersions io.registryFault db) remote
  · exact iff_of_true (iff_of_false (not_not.mpr cut) cut.not_equal) (.inr cut)
  · rw [iff_true_left cut, or_iff_left cut]
    exact equalVersions_iff_fits cut

def kernelVersions (version : UInt64) : List (String × Json) := [("kernel", .number (.posInt version))]

def kernelHealth (version : UInt64) : HealthIo where
  get := .ok ⟨true, "200 OK", .ok (.object [("schema_versions", .object (kernelVersions version))])⟩

def kernelDb : Database := kernelOne.db

theorem kernelHealth_answers (version : UInt64) : (kernelHealth version).Answers (kernelVersions version) :=
  ⟨rfl, _, _, rfl, rfl⟩

theorem kernelDb_versions : localSchemaVersions false kernelDb = [("kernel", 1)] := by decide

theorem kernel_two_exact :
    FitsVersions (localSchemaVersions false kernelDb) (kernelVersions 2) ∧
      (checkSchemaCompatibility (kernelHealth 2) kernelDb "10.0.0.2:8420" = .ok () ↔
        EqualVersions (localSchemaVersions false kernelDb) (kernelVersions 2)) := by
  have fits : FitsVersions (localSchemaVersions false kernelDb) (kernelVersions 2) := by
    rintro entry v ⟨listed, reported⟩
    rw [kernelDb_versions, List.mem_singleton] at listed
    subst listed
    obtain rfl : 2 = v := Option.some.inj reported
    decide
  exact ⟨fits, (schemaCheck_exact_iff (kernelHealth_answers 2) kernelDb _).mpr (.inl fits)⟩

/-- A peer in version 2^32 + 1 of the module `kernel` passes the check of a node in version 1. -/
theorem wrapped_version_passes :
    checkSchemaCompatibility (kernelHealth 4294967297) kernelDb "10.0.0.2:8420" = .ok () ∧
      ¬EqualVersions (localSchemaVersions false kernelDb) (kernelVersions 4294967297) := by
  refine ⟨by decide, fun same => ?_⟩
  have shared : OnBothSides (localSchemaVersions false kernelDb) (kernelVersions 4294967297) ("kernel", 1) 4294967297 :=
    ⟨by decide, rfl⟩
  exact absurd (same _ _ shared) (by decide)

end ConvergioMesh
