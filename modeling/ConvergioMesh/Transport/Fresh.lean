import ConvergioMesh.Transport.Authentic

/-!
# What an accepted signature says about its time

The age check is skipped for a timestamp that does not parse, but no honest node signs one.
-/

namespace ConvergioMesh

/-- The age in 64 bits is the one over the integers. -/
def AgeExact (now ts : Int64) : Prop := (now - ts).abs.toInt = (now.toInt - ts.toInt).natAbs

/-- No step overflows if the difference and its negation fit. -/
theorem ageExact_of_difference {now ts : Int64} (above : -2 ^ 63 < now.toInt - ts.toInt)
    (below : now.toInt - ts.toInt < 2 ^ 63) : AgeExact now ts := by
  have difference : (now - ts).toInt = now.toInt - ts.toInt := by
    rw [Int64.toInt_sub]
    exact Int.bmod_eq_of_le (by omega) (by omega)
  have not_min : (now - ts).toBitVec ≠ BitVec.intMin 64 := by
    intro same
    have smallest : (now - ts).toInt = -2 ^ 63 := congrArg BitVec.toInt same
    omega
  rw [AgeExact, ← difference]
  exact BitVec.toInt_abs_eq_natAbs_of_ne_intMin not_min

theorem ageExact_of_clocks {now ts : Int64} (clock : now.toInt.natAbs < 2 ^ 62) (clock' : ts.toInt.natAbs < 2 ^ 62) :
    AgeExact now ts := ageExact_of_difference (by omega) (by omega)

theorem parseI64_toString (ts : Int64) : parseI64 (toString ts.toInt) = some ts := by
  rw [parseI64, signedDigits_int, Option.bind_some, toInt64?_toInt]

theorem checkHmac_not_expired {c : Crypto} {secret : Bytes} {now : Int64} {path : String} {h : MeshHeaders}
    (passes : checkHmac c (some secret) now path h = none) : isExpired now h = false := by
  unfold checkHmac at passes
  dsimp only at passes
  split at passes
  · cases passes
  · rename_i fresh
    simpa using fresh

theorem isExpired_iff {now ts : Int64} {h : MeshHeaders} (carried : parseI64 (h.timestamp.getD "") = some ts)
    (exact : AgeExact now ts) : isExpired now h = true ↔ 300 < (now.toInt - ts.toInt).natAbs := by
  have limit : hmacMaxAgeSecs.toInt = 300 := rfl
  rw [isExpired, carried, Option.any_some, decide_eq_true_eq, Int64.lt_iff_toInt_lt, exact, limit]
  omega

theorem age_of_not_expired {now ts : Int64} {h : MeshHeaders} (fresh : isExpired now h = false)
    (timestamp : h.timestamp.getD "" = toString ts.toInt) (exact : AgeExact now ts) :
    (now.toInt - ts.toInt).natAbs ≤ 300 := by
  have carried : parseI64 (h.timestamp.getD "") = some ts := by rw [timestamp, parseI64_toString]
  have within := mt (isExpired_iff carried exact).mpr (by simp [fresh])
  omega

/-- An honest node signed a message for the endpoint with the timestamp and the body hash of the
headers, at most 300 seconds from `now`. -/
def SignedFresh (c : Crypto) (log : List Signed) (ep : Endpoint) (now : Int64) (h : MeshHeaders) : Prop :=
  ∃ ts body, .post ep ts body ∈ log ∧ h.timestamp = some (toString ts.toInt) ∧
    h.bodyHash = some (hexEncode (c.sha256 body)) ∧ (now.toInt - ts.toInt).natAbs ≤ 300

theorem getD_empty_eq {o : Option String} {s : String} (nonempty : s ≠ "") (h : o.getD "" = s) : o = some s := by
  cases o with
  | none => exact absurd h.symm nonempty
  | some t => exact congrArg some h

theorem toString_ne_empty (i : Int) : toString i ≠ "" := by
  intro empty
  have read := signedDigits_int i
  rw [empty] at read
  cases read

theorem Accepts.fresh {c : Crypto} {secret : Bytes} {log : List Signed} (ideal : Unforgeable c secret log)
    {now : Int64} {ep : Endpoint} {h : MeshHeaders}
    (exact : ∀ ep ts body, .post ep ts body ∈ log → AgeExact now ts) (accepts : Accepts c secret now ep h) :
    SignedFresh c log ep now h := by
  obtain ⟨s, member, data⟩ := ideal _ _ (checkHmac_none accepts)
  obtain ⟨ts, body, rfl, timestamp, hash⟩ := received_eq_message (utf8_injective data)
  have age := age_of_not_expired (checkHmac_not_expired accepts) timestamp (exact ep ts body member)
  exact ⟨ts, body, member, getD_empty_eq (toString_ne_empty _) timestamp, hash, age⟩

/-- Whatever the headers, a request that either handler does not answer with 401 carries the
timestamp and the body hash of a message an honest node signed for that endpoint, no more than 300
seconds before or after. -/
theorem handlers_accept_fresh {c : Crypto} {secret : Bytes} {log : List Signed} (ideal : Unforgeable c secret log)
    {now : Int64} (exact : ∀ ep ts body, .post ep ts body ∈ log → AgeExact now ts) (h : MeshHeaders) :
    (∀ e io db body, io.now = now →
      (handleImport e c (some secret) io db h body).response.status ≠ .unauthorized → SignedFresh c log .import now h) ∧
    ∀ io body, io.now = now →
      (handleHeartbeat c (some secret) io h body).1.status ≠ .unauthorized → SignedFresh c log .heartbeat now h := by
  constructor
  · rintro e io db body rfl passes
    exact Accepts.fresh ideal exact (not_not.mp (mt handleImport_unauthorized_iff.mpr passes))
  · rintro io body rfl passes
    exact Accepts.fresh ideal exact (not_not.mp (mt handleHeartbeat_unauthorized_iff.mpr passes))

theorem emptyImport_fresh :
    SignedFresh emptyImportCrypto [.post .import 1776772800 emptyImport] .import 1776772830 emptyImportHeaders := by
  have exact : ∀ ep ts body, Signed.post ep ts body ∈ [Signed.post .import 1776772800 emptyImport] →
      AgeExact 1776772830 ts := by
    intro ep ts body member
    obtain ⟨_, rfl, _⟩ := Signed.post.inj (List.mem_singleton.mp member)
    exact ageExact_of_clocks (by decide) (by decide)
  refine (handlers_accept_fresh emptyImportCrypto_unforgeable exact emptyImportHeaders).1 sampleEngine forgedIo
    (plansDb noPlans) emptyImport rfl fun rejected => ?_
  exact handleImport_unauthorized_iff.mp rejected emptyImport_accepted

end ConvergioMesh
