import ConvergioMesh.Transport.Fresh

/-!
# The age check at the ends of the range

`(now - ts).abs() > HMAC_MAX_AGE_SECS` is computed in 64 bits. A build with overflow checks panics
where a step leaves them, and a release build wraps.
-/

namespace ConvergioMesh

/-- `-` where overflow is checked. -/
def checkedSub (a b : Int64) : Option Int64 := toInt64? (a.toInt - b.toInt)

/-- `abs` where overflow is checked. -/
def checkedAbs (a : Int64) : Option Int64 := toInt64? a.toInt.natAbs

/-- The comparison of the age where overflow is checked; `none` is a panic. -/
def checkedTooOld (now ts : Int64) : Option Bool :=
  (checkedSub now ts).bind fun difference => (checkedAbs difference).map fun age => hmacMaxAgeSecs < age

def distance (now ts : Int64) : Nat := (now.toInt - ts.toInt).natAbs

def expiredResponse : Response := ⟨.unauthorized, errorBody "HMAC timestamp expired"⟩

/-- No step overflows, the checked comparison rejects exactly the distances over 300, and so do both handlers where
arithmetic wraps. -/
structure AgeCheckExact (c : Crypto) (secret : Bytes) (now ts : Int64) (h : MeshHeaders) : Prop where
  noOverflow : checkedTooOld now ts ≠ none
  checked : checkedTooOld now ts = some (decide (300 < distance now ts))
  import_iff : ∀ e io db body, io.now = now →
    ((handleImport e c (some secret) io db h body).response ≠ expiredResponse ↔ distance now ts ≤ 300)
  heartbeat_iff : ∀ io body, io.now = now →
    ((handleHeartbeat c (some secret) io h body).1 ≠ expiredResponse ↔ distance now ts ≤ 300)

theorem toInt64?_eq_some_iff {i : Int} {x : Int64} : toInt64? i = some x ↔ x.toInt = i := by
  unfold toInt64?
  constructor
  · intro h
    split at h
    · rename_i fits
      rw [← Option.some.inj h]
      exact Int64.toInt_ofInt_of_le fits.1 fits.2
    · cases h
  · rintro rfl
    rw [if_pos ⟨x.le_toInt, x.toInt_lt⟩, Int64.ofInt_toInt]

theorem toInt64?_eq_none_iff {i : Int} : toInt64? i = none ↔ i < -2 ^ 63 ∨ 2 ^ 63 ≤ i := by
  unfold toInt64?
  split
  · simp
    omega
  · simp
    omega

theorem checkHmac_expired_iff (c : Crypto) (secret : Bytes) (path : String) {now : Int64} {h : MeshHeaders} :
    checkHmac c (some secret) now path h = some expiredResponse ↔ isExpired now h = true := by
  have other : errorBody "HMAC verification failed" ≠ errorBody "HMAC timestamp expired" := by
    simp [errorBody]
  unfold checkHmac
  dsimp only
  constructor
  · intro rejects
    split at rejects
    · assumption
    split at rejects
    · cases rejects
    · exact absurd (congrArg Response.body (Option.some.inj rejects)) other
  · intro old
    rw [if_pos old]
    rfl

theorem handleImport_expired_iff {e : Engine} {c : Crypto} {secret : Bytes} {io : ImportIo} {db : Database}
    {h : MeshHeaders} {body : Bytes} :
    (handleImport e c (some secret) io db h body).response = expiredResponse ↔ isExpired io.now h = true := by
  rw [← checkHmac_expired_iff c secret importPath]
  unfold handleImport
  cases check : checkHmac c (some secret) io.now importPath h with
  | some rejection => exact Option.some_inj.symm
  | none =>
    refine iff_of_false (fun expired => ?_) (by simp)
    have status := importBody_status e io db body
    change (importBody e io db body).response = expiredResponse at expired
    rw [expired] at status
    cases status

theorem handleHeartbeat_expired_iff {c : Crypto} {secret : Bytes} {io : HeartbeatIo} {h : MeshHeaders} {body : Bytes} :
    (handleHeartbeat c (some secret) io h body).1 = expiredResponse ↔ isExpired io.now h = true := by
  rw [← checkHmac_expired_iff c secret heartbeatPath]
  have unauthorized {r : Response} : r.status = .ok → r ≠ expiredResponse := by
    rintro ok rfl
    cases ok
  unfold handleHeartbeat
  cases check : checkHmac c (some secret) io.now heartbeatPath h with
  | some rejection => exact Option.some_inj.symm
  | none =>
    refine iff_of_false (unauthorized ?_) (by simp)
    dsimp only
    split
    · rfl
    split
    · rfl
    split <;> rfl

theorem checkedTooOld_of_exact {now ts : Int64} (above : -2 ^ 63 < now.toInt - ts.toInt)
    (below : now.toInt - ts.toInt < 2 ^ 63) : checkedTooOld now ts = some (decide (300 < distance now ts)) := by
  have limit : hmacMaxAgeSecs.toInt = 300 := rfl
  have difference : (now - ts).toInt = now.toInt - ts.toInt := by
    rw [Int64.toInt_sub]
    exact Int.bmod_eq_of_le (by omega) (by omega)
  have exact : AgeExact now ts := ageExact_of_difference above below
  have sub : checkedSub now ts = some (now - ts) := toInt64?_eq_some_iff.mpr difference
  have abs : checkedAbs (now - ts) = some (now - ts).abs := by
    rw [checkedAbs, toInt64?_eq_some_iff, exact, difference]
  have compared : hmacMaxAgeSecs < (now - ts).abs ↔ 300 < distance now ts := by
    rw [Int64.lt_iff_toInt_lt, exact, limit, distance]
    omega
  rw [checkedTooOld, sub, Option.bind_some, abs, Option.map_some, decide_eq_decide.mpr compared]

/-- The age check is exact for a timestamp exactly if it lies less than 2^63 seconds in the past. -/
theorem ageCheckExact_iff (c : Crypto) (secret : Bytes) {now ts : Int64} (since : 0 ≤ now.toInt)
    (until' : now.toInt < 2 ^ 40) {h : MeshHeaders} (carried : parseI64 (h.timestamp.getD "") = some ts) :
    AgeCheckExact c secret now ts h ↔ now.toInt - ts.toInt < 2 ^ 63 := by
  have above : -2 ^ 63 < now.toInt - ts.toInt := by
    have := ts.toInt_lt
    omega
  constructor
  · intro exact
    by_contra far
    refine exact.noOverflow ?_
    have overflows : checkedSub now ts = none := toInt64?_eq_none_iff.mpr (.inr (by omega))
    rw [checkedTooOld, overflows]
    rfl
  · intro below
    have checked := checkedTooOld_of_exact above below
    have expired := isExpired_iff carried (ageExact_of_difference above below)
    refine ⟨by simp [checked], checked, ?_, ?_⟩
    · rintro e io db body rfl
      rw [Ne, handleImport_expired_iff, expired, distance]
      omega
    · rintro io body rfl
      rw [Ne, handleHeartbeat_expired_iff, expired, distance]
      omega

/-- Where arithmetic wraps, every timestamp further in the past is rejected too, except one for each `now`. -/
theorem isExpired_of_far {now ts : Int64} (until' : now.toInt < 2 ^ 40) {h : MeshHeaders}
    (carried : parseI64 (h.timestamp.getD "") = some ts) (far : 2 ^ 63 ≤ now.toInt - ts.toInt) :
    isExpired now h = false ↔ now.toInt - ts.toInt = 2 ^ 63 := by
  have limit : hmacMaxAgeSecs.toInt = 300 := rfl
  have least := ts.le_toInt
  have wrapped : (now - ts).toInt = now.toInt - ts.toInt - 2 ^ 64 := by
    rw [Int64.toInt_sub, Int.bmod_eq_iff (by decide)]
    omega
  rw [isExpired, carried, Option.any_some, decide_eq_false_iff_not, Int64.lt_iff_toInt_lt, limit]
  by_cases smallest : now.toInt - ts.toInt = 2 ^ 63
  · have same : now - ts = Int64.minValue := Int64.toInt_inj.mp (by rw [wrapped, smallest]; rfl)
    rw [same]
    exact iff_of_true (by decide) smallest
  · have not_min : (now - ts).toBitVec ≠ BitVec.intMin 64 := by
      intro same
      have value : (now - ts).toInt = -2 ^ 63 := congrArg BitVec.toInt same
      omega
    have age : (now - ts).abs.toInt = (now - ts).toInt.natAbs := BitVec.toInt_abs_eq_natAbs_of_ne_intMin not_min
    rw [age, wrapped]
    omega

def agedHeaders (timestamp : String) : MeshHeaders := { timestamp := some timestamp }

theorem recent_age_exact :
    AgeCheckExact emptyImportCrypto meshKey 1776772830 1776772800 (agedHeaders "1776772800") :=
  (ageCheckExact_iff emptyImportCrypto meshKey (by decide) (by decide) (by decide)).mpr (by decide)

/-- A timestamp 2^63 seconds in the past panics where overflow is checked, and passes where it wraps. -/
theorem far_age_passes :
    checkedTooOld 1776772800 (-9223372035078003008) = none ∧
    isExpired 1776772800 (agedHeaders "-9223372035078003008") = false ∧
    distance 1776772800 (-9223372035078003008) = 2 ^ 63 ∧
    ¬AgeCheckExact emptyImportCrypto meshKey 1776772800 (-9223372035078003008) (agedHeaders "-9223372035078003008") := by
  have overflows : checkedTooOld 1776772800 (-9223372035078003008) = none := by decide
  exact ⟨overflows, by decide, by decide, fun exact => exact.noOverflow overflows⟩

end ConvergioMesh
