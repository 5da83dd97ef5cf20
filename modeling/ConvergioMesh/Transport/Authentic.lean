import ConvergioMesh.Library.Text
import ConvergioMesh.Sync.Plans
import ConvergioMesh.Transport.Import

/-!
# What an accepted signature says about the body

Honest nodes sign imports and heartbeats with the hash of their body, and exports without one. The
MAC is ideal: a tag verifies only for a text that an honest node signed.
-/

namespace ConvergioMesh

inductive Endpoint where
  | import
  | heartbeat
  deriving DecidableEq

def Endpoint.path : Endpoint → String
  | .import => importPath
  | .heartbeat => heartbeatPath

/-- A cursor as rounds store it (`syncTableWithPeer_normalised`). -/
structure CursorText where
  text : String
  normalised : 'T' ∉ text.toList

/-- The path and query that `fetch_changes_from_peer` signs. -/
def exportPath (table : String) (since : Option CursorText) : String :=
  "/api/sync/export?table=" ++ table ++
    match since with
    | some ts => "&since=" ++ ts.text
    | none => ""

inductive Signed where
  | post (endpoint : Endpoint) (timestamp : Int64) (body : Bytes)
  | export (timestamp : Int64) (table : String) (synced : table ∈ syncTables) (since : Option CursorText)

def Signed.message (c : Crypto) : Signed → String
  | .post endpoint timestamp body =>
    meshMessage (toString timestamp.toInt) "POST" endpoint.path (some (hexEncode (c.sha256 body)))
  | .export timestamp table _ since => meshMessage (toString timestamp.toInt) "GET" (exportPath table since) none

def fields (s : String) : List (List Char) := s.toList.splitOn ':'

theorem fields_append_colon (a b : String) : fields (a ++ ":" ++ b) = fields a ++ fields b := by
  unfold fields
  rw [String.append_assoc, String.toList_append, String.toList_append]
  exact List.splitOn_append_cons_self ..

theorem fields_of_no_colon {s : String} (h : ':' ∉ s.toList) : fields s = [s.toList] :=
  List.splitOn_eq_singleton h

theorem fields_ne_nil (s : String) : fields s ≠ [] := List.splitOn_ne_nil ':' s.toList

theorem fields_singleton {s : String} {x : List Char} (h : fields s = [x]) : s.toList = x := by
  have joined : [':'].intercalate (fields s) = s.toList := List.intercalate_splitOn ':'
  rw [← joined, h]
  simp

theorem not_mem_int {c : Char} (other : c.isDigit = false ∧ c ≠ '-') (i : Int) : c ∉ (toString i).toList := by
  have digit (n : Nat) : c ∉ (toString n).toList := by
    intro member
    rw [show (toString n).toList = Nat.toDigits 10 n from Nat.toList_repr] at member
    rw [Nat.isDigit_of_mem_toDigits (by decide) (by decide) member] at other
    exact absurd other.1 (by decide)
  cases i with
  | ofNat n => exact digit n
  | negSucc n =>
    change c ∉ ("-" ++ toString (n + 1)).toList
    rw [String.toList_append, List.mem_append, not_or]
    refine ⟨fun sign => other.2 ?_, digit (n + 1)⟩
    simpa using sign

theorem colon_not_mem_int (i : Int) : ':' ∉ (toString i).toList := not_mem_int (by decide) i

theorem colon_not_mem_path (ep : Endpoint) : ':' ∉ ep.path.toList := by cases ep <;> decide

theorem fields_post (c : Crypto) (ep : Endpoint) (ts : Int64) (body : Bytes) :
    fields ((Signed.post ep ts body).message c) =
      [(toString ts.toInt).toList, "POST".toList, ep.path.toList, (hexEncode (c.sha256 body)).toList] := by
  simp only [Signed.message, meshMessage, fields_append_colon, fields_of_no_colon (colon_not_mem_int _),
    fields_of_no_colon (show ':' ∉ "POST".toList by decide), fields_of_no_colon (colon_not_mem_path ep),
    fields_of_no_colon (colon_not_mem_hexEncode _)]
  rfl

theorem fields_received (ep : Endpoint) (h : MeshHeaders) :
    ∃ last, fields (receivedMessage ep.path h) =
        fields (h.timestamp.getD "") ++ "POST".toList :: ep.path.toList :: last ∧
      (last = [] ∨ ∃ hash, h.bodyHash = some hash ∧ last = fields hash) := by
  unfold receivedMessage
  dsimp only
  split
  · refine ⟨[], ?_, .inl rfl⟩
    simp only [meshMessage, fields_append_colon, fields_of_no_colon (show ':' ∉ "POST".toList by decide),
      fields_of_no_colon (colon_not_mem_path ep), List.append_assoc, List.singleton_append]
  · rename_i nonempty
    obtain ⟨hash, sent⟩ : ∃ hash, h.bodyHash = some hash := by
      refine Option.ne_none_iff_exists'.mp fun missing => nonempty ?_
      rw [missing]
      rfl
    refine ⟨fields hash, ?_, .inr ⟨hash, sent, rfl⟩⟩
    simp only [sent, Option.getD_some, meshMessage, fields_append_colon,
      fields_of_no_colon (show ':' ∉ "POST".toList by decide), fields_of_no_colon (colon_not_mem_path ep),
      List.append_assoc, List.singleton_append]
    rfl

theorem T_not_mem_exportPath {table : String} (synced : table ∈ syncTables) (since : Option CursorText) :
    'T' ∉ (exportPath table since).toList := by
  have names : ∀ name ∈ syncTables, 'T' ∉ name.toList := by decide
  unfold exportPath
  cases since with
  | none =>
    simp only [String.toList_append, List.mem_append, not_or]
    exact ⟨⟨by decide, names table synced⟩, by decide⟩
  | some ts =>
    simp only [String.toList_append, List.mem_append, not_or]
    exact ⟨⟨by decide, names table synced⟩, by decide, ts.normalised⟩

theorem POST_not_mem_export (c : Crypto) (ts : Int64) (table : String) (synced : table ∈ syncTables)
    (since : Option CursorText) : "POST".toList ∉ fields ((Signed.export ts table synced since).message c) := by
  have GET : fields "GET" = ["GET".toList] := fields_of_no_colon (by decide)
  simp only [Signed.message, meshMessage, fields_append_colon, fields_of_no_colon (colon_not_mem_int _), GET,
    List.mem_append, List.mem_singleton, not_or]
  refine ⟨⟨fun same => ?_, by decide⟩, fun field => ?_⟩
  · have digit : 'P' ∈ (toString ts.toInt).toList := same ▸ List.mem_cons_self
    exact not_mem_int (by decide) ts.toInt digit
  · exact T_not_mem_exportPath synced since (Library.mem_of_mem_splitOn field (by decide)).1

/-- A text the receiver forms that an honest node signed was signed for the same endpoint, with the
same timestamp and body hash. -/
theorem received_eq_message {c : Crypto} {ep : Endpoint} {h : MeshHeaders} {s : Signed}
    (same : receivedMessage ep.path h = s.message c) :
    ∃ ts body, s = .post ep ts body ∧ h.timestamp.getD "" = toString ts.toInt ∧
      h.bodyHash = some (hexEncode (c.sha256 body)) := by
  obtain ⟨last, split, ending⟩ := fields_received ep h
  rw [same] at split
  cases s with
  | «export» ts table synced since =>
    refine absurd ?_ (POST_not_mem_export c ts table synced since)
    rw [split]
    simp
  | post ep' ts body =>
    rw [fields_post] at split
    have method : "POST".toList ≠ ep'.path.toList := by cases ep' <;> decide
    cases head : fields (h.timestamp.getD "") with
    | nil => exact absurd head (fields_ne_nil _)
    | cons x xs =>
      rw [head] at split
      cases xs with
      | nil =>
        obtain ⟨time, _, path, hash⟩ : (toString ts.toInt).toList = x ∧ True ∧ ep'.path.toList = ep.path.toList ∧
            [(hexEncode (c.sha256 body)).toList] = last := by simpa using split
        obtain rfl : ep' = ep := by
          cases ep <;> cases ep' <;> first | rfl | exact absurd path (by decide)
        refine ⟨ts, body, rfl, ?_, ?_⟩
        · exact String.toList_inj.mp ((fields_singleton head).trans time.symm)
        · rcases ending with none | ⟨sent, header, some⟩
          · rw [none] at hash
            cases hash
          · rw [some] at hash
            rw [header, String.toList_inj.mp (fields_singleton hash.symm)]
      | cons y ys =>
        cases ys with
        | nil =>
          have shifted : ep'.path.toList = "POST".toList := by
            have := congrArg (fun l => l[2]?) split
            simpa using this
          exact absurd shifted.symm method
        | cons z zs =>
          have lengths := congrArg List.length split
          simp only [List.length_cons, List.length_nil, List.length_append] at lengths
          omega

/-! ### Accepted requests -/

/-- The ideal MAC: a tag verifies only for a text in the log of what honest nodes signed. -/
def Unforgeable (c : Crypto) (secret : Bytes) (log : List Signed) : Prop :=
  ∀ data tag, c.verifySlice secret data tag = true → ∃ s ∈ log, data = utf8 (s.message c)

/-- The handler of this endpoint gets past its HMAC check, whatever the body. -/
def Accepts (c : Crypto) (secret : Bytes) (now : Int64) (ep : Endpoint) (h : MeshHeaders) : Prop :=
  checkHmac c (some secret) now ep.path h = none

instance (c : Crypto) (secret : Bytes) (now : Int64) (ep : Endpoint) (h : MeshHeaders) :
    Decidable (Accepts c secret now ep h) :=
  decidable_of_iff ((checkHmac c (some secret) now ep.path h).isNone = true) Option.isNone_iff_eq_none

def SignedBody (log : List Signed) (ep : Endpoint) (body : Bytes) : Prop := ∃ ts, .post ep ts body ∈ log

def SignedWith (c : Crypto) (log : List Signed) (ep : Endpoint) (h : MeshHeaders) (body : Bytes) : Prop :=
  ∃ ts, .post ep ts body ∈ log ∧ (Signed.post ep ts body).message c = receivedMessage ep.path h

theorem Accepts.signed {c : Crypto} {secret : Bytes} {log : List Signed} (ideal : Unforgeable c secret log)
    {now : Int64} {ep : Endpoint} {h : MeshHeaders} (accepts : Accepts c secret now ep h) :
    ∃ body, SignedWith c log ep h body ∧ h.bodyHash.getD "" = hexEncode (c.sha256 body) := by
  obtain ⟨s, member, data⟩ := ideal _ _ (checkHmac_none accepts)
  have same := utf8_injective data
  obtain ⟨ts, body, rfl, _, hash⟩ := received_eq_message same
  exact ⟨body, ⟨ts, member, same.symm⟩, by rw [hash]; rfl⟩

theorem exists_unsigned (log : List Signed) (ep : Endpoint) : ∃ body, ¬SignedBody log ep body := by
  let bodies := log.filterMap fun s =>
    match s with
    | .post _ _ body => some body
    | .export .. => none
  have listed : ∀ body, SignedBody log ep body → body ∈ bodies := by
    rintro body ⟨ts, member⟩
    exact List.mem_filterMap.mpr ⟨_, member, rfl⟩
  have longest : ∀ body ∈ bodies, body.length ≤ (bodies.map List.length).max?.getD 0 := fun body member =>
    List.le_max?_getD_of_mem (List.mem_map_of_mem member)
  refine ⟨List.replicate ((bodies.map List.length).max?.getD 0 + 1) 0, fun signed => ?_⟩
  have := longest _ (listed _ signed)
  rw [List.length_replicate] at this
  omega

/-- An accepted body is the one signed with its headers exactly if its hash is the one in the header,
which the check does not compare; and headers that are accepted are accepted with unsigned bodies. -/
theorem accepted_body_signed_iff {c : Crypto} {secret : Bytes} {log : List Signed}
    (ideal : Unforgeable c secret log) (collisionFree : Function.Injective c.sha256) (now : Int64) (ep : Endpoint)
    (h : MeshHeaders) :
    (∀ body, (Accepts c secret now ep h → SignedWith c log ep h body ∧ SignedBody log ep body) ↔
      (Accepts c secret now ep h → h.bodyHash.getD "" = hexEncode (c.sha256 body))) ∧
    ((∀ body, Accepts c secret now ep h → SignedBody log ep body) ↔ ¬Accepts c secret now ep h) := by
  constructor
  · intro body
    refine forall_congr' fun accepts => ⟨fun ⟨⟨ts, _, same⟩, _⟩ => ?_, fun hash => ?_⟩
    · obtain ⟨_, _, post, _, hash⟩ := received_eq_message same.symm
      cases post
      rw [hash]
      rfl
    · obtain ⟨signed, with_headers, hash'⟩ := accepts.signed ideal
      obtain rfl : signed = body := collisionFree (hexEncode_injective (hash'.symm.trans hash))
      obtain ⟨ts, member, _⟩ := id with_headers
      exact ⟨with_headers, ts, member⟩
  · refine ⟨fun authentic accepts => ?_, fun rejects body accepts => absurd accepts rejects⟩
    obtain ⟨body, unsigned⟩ := exists_unsigned log ep
    exact unsigned (authentic body accepts)

/-! ### An intercepted import -/

def meshKey : Bytes := [109, 101, 115, 104, 45, 107, 101, 121]

def emptyImport : Bytes := [123, 34, 99, 104, 97, 110, 103, 101, 115, 34, 58, 91, 93, 125]

def emptyImportHash : Bytes :=
  [28, 123, 11, 231, 207, 203, 82, 157, 97, 223, 124, 123, 80, 186, 169, 30, 105, 25, 220, 240, 235, 164,
    14, 104, 102, 150, 83, 171, 40, 128, 199, 17]

/-- The HMAC-SHA256 with `meshKey` of an import of `emptyImport` at 1776772800. -/
def emptyImportTag : Bytes :=
  [150, 79, 176, 171, 249, 59, 1, 100, 75, 6, 107, 138, 213, 166, 43, 13, 121, 140, 53, 178, 120, 235,
    126, 81, 242, 235, 53, 193, 134, 234, 131, 79]

/-- Digests that agree with the real ones on `emptyImport`, in a mesh where nothing else is signed. -/
def emptyImportCrypto : Crypto where
  sha256 body := if body = emptyImport then emptyImportHash else body ++ List.replicate 33 0
  hmac _ _ := emptyImportTag
  verifySlice secret data tag :=
    secret = meshKey && data = utf8 ("1776772800:POST:/api/sync/import:" ++ hexEncode emptyImportHash) &&
      tag = emptyImportTag

def emptyImportHeaders : MeshHeaders where
  timestamp := some "1776772800"
  signature := some "964fb0abf93b01644b066b8ad5a62b0d798c35b278eb7e51f2eb35c186ea834f"
  bodyHash := some "1c7b0be7cfcb529d61df7c7b50baa91e6919dcf0eba40e68669653ab2880c711"

theorem emptyImportCrypto_unforgeable :
    Unforgeable emptyImportCrypto meshKey [.post .import 1776772800 emptyImport] := by
  intro data tag verifies
  refine ⟨_, List.mem_singleton_self _, ?_⟩
  simp only [emptyImportCrypto, Bool.and_eq_true, decide_eq_true_eq] at verifies
  exact verifies.1.2

theorem emptyImportCrypto_collisionFree : Function.Injective emptyImportCrypto.sha256 :=
  digest_injective emptyImport emptyImportHash rfl

theorem emptyImport_accepted : Accepts emptyImportCrypto meshKey 1776772830 .import emptyImportHeaders := by
  decide

theorem emptyImport_signed_iff :
    Accepts emptyImportCrypto meshKey 1776772830 .import emptyImportHeaders ∧
      (∀ body, (Accepts emptyImportCrypto meshKey 1776772830 .import emptyImportHeaders →
          SignedWith emptyImportCrypto [.post .import 1776772800 emptyImport] .import emptyImportHeaders body ∧
            SignedBody [.post .import 1776772800 emptyImport] .import body) ↔
        (Accepts emptyImportCrypto meshKey 1776772830 .import emptyImportHeaders →
          emptyImportHeaders.bodyHash.getD "" = hexEncode (emptyImportCrypto.sha256 body))) :=
  ⟨emptyImport_accepted, (accepted_body_signed_iff emptyImportCrypto_unforgeable emptyImportCrypto_collisionFree
    1776772830 .import emptyImportHeaders).1⟩

/-- A JSON body with one change: plan 1, named `forged`. -/
def forgedImport : Bytes :=
  [123, 34, 99, 104, 97, 110, 103, 101, 115, 34, 58, 91, 123, 34, 116, 97, 98, 108, 101, 95, 110, 97, 109, 101, 34,
    58, 34, 112, 108, 97, 110, 115, 34, 44, 34, 112, 107, 34, 58, 49, 44, 34, 100, 97, 116, 97, 34, 58, 123, 34,
    105, 100, 34, 58, 49, 44, 34, 110, 97, 109, 101, 34, 58, 34, 102, 111, 114, 103, 101, 100, 34, 44, 34, 117, 112,
    100, 97, 116, 101, 100, 95, 97, 116, 34, 58, 34, 50, 48, 50, 54, 45, 48, 52, 45, 50, 49, 32, 49, 50, 58, 48, 48,
    58, 48, 48, 34, 125, 125, 93, 125]

def forgedIo : ImportIo where
  now := 1776772830
  decode body :=
    if body = forgedImport then .ok [planChange 1 1 "forged" "2026-04-21 12:00:00"] else .error "expected value"
  pool := .ok ()
  sqlErrorText _ := ""

/-- The intercepted headers let a body through that nobody signed, and it is applied. -/
theorem forged_body_imported :
    Unforgeable emptyImportCrypto meshKey [.post .import 1776772800 emptyImport] ∧
      Accepts emptyImportCrypto meshKey 1776772830 .import emptyImportHeaders ∧
      ¬SignedBody [.post .import 1776772800 emptyImport] .import forgedImport ∧
      (handleImport sampleEngine emptyImportCrypto (some meshKey) forgedIo (plansDb noPlans) emptyImportHeaders
          forgedImport).response.body = .object [("applied", .number (.posInt 1))] := by
  refine ⟨emptyImportCrypto_unforgeable, emptyImport_accepted, ?_, ?_⟩
  · rintro ⟨ts, member⟩
    obtain ⟨_, _, body⟩ := Signed.post.inj (List.mem_singleton.mp member)
    exact absurd body (by decide)
  · have passes : checkHmac emptyImportCrypto (some meshKey) forgedIo.now importPath emptyImportHeaders = none :=
      emptyImport_accepted
    rw [handleImport, passes]
    rfl

end ConvergioMesh
