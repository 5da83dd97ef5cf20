import ConvergioMesh.Capability.Query
import ConvergioMesh.Capability.Refinement

/-!
# The capability routes

The handlers over the registry, and what the table holds after requests of which some fail: a
registration that fails half way keeps what it has written.
-/

namespace ConvergioMesh

open Library

/-! ### The handlers -/

/-- The connection of a request, and the text of an error of SQLite. -/
structure CapabilityIo where
  pool : Except String Unit := .ok ()
  errorText : String := ""

/-- `handle_register`: the table, and the number in the answer. -/
def handleRegister (c : CapabilityCodec) (io : CapabilityIo) (t : CapabilityTable) (peer : String)
    (caps : List NodeCapability) (ios : List UpsertIo) : CapabilityTable × Except String Nat :=
  match io.pool with
  | .error why => (t, .error why)
  | .ok () =>
    let done := registerCapabilities c peer ios t caps
    (done.1, if done.2 then .ok caps.length else .error io.errorText)

def handleDeletePeer (io : CapabilityIo) (t : CapabilityTable) (peer : String) (fault : Bool) :
    CapabilityTable × Except String Unit :=
  match io.pool with
  | .error why => (t, .error why)
  | .ok () =>
    let done := removePeerCapabilities fault t peer
    (done.1, if done.2 then .ok () else .error io.errorText)

/-- A read that SQLite answers or refuses. -/
def CapabilityIo.answer {A : Type} (io : CapabilityIo) (fault : Bool) (a : A) : Except String A :=
  match io.pool with
  | .error why => .error why
  | .ok () => if fault then .error io.errorText else .ok a

def handleGetPeer (c : CapabilityCodec) (scan : List CapabilityRow → List CapabilityRow) (io : CapabilityIo) (fault : Bool)
    (t : CapabilityTable) (peer : String) : Except String (List NodeCapability) :=
  io.answer fault (getPeerCapabilities c scan t peer)

def handleListAll (c : CapabilityCodec) (iterate : List NodeCapabilities → List NodeCapabilities) (io : CapabilityIo)
    (fault : Bool) (t : CapabilityTable) : Except String (List NodeCapabilities) :=
  io.answer fault (listAllCapabilities c iterate t)

def handleQuery (c : CapabilityCodec) (scan : List CapabilityRow → List CapabilityRow)
    (iterate : List CapabilityMatch → List CapabilityMatch) (io : CapabilityIo) (fault : Bool) (t : CapabilityTable)
    (q : CapabilityQuery) : Except String (List CapabilityMatch) :=
  io.answer fault (queryCapablePeers c scan iterate t q)

/-! ### Runs -/

/-- A request that may change the table. -/
inductive CapabilityPost where
  | register (io : CapabilityIo) (peer : String) (caps : List NodeCapability) (ios : List UpsertIo)
  | delete (io : CapabilityIo) (peer : String) (fault : Bool)

namespace CapabilityPost

def handle (c : CapabilityCodec) (t : CapabilityTable) : CapabilityPost → CapabilityTable
  | .register io peer caps ios => (handleRegister c io t peer caps ios).1
  | .delete io peer fault => (handleDeletePeer io t peer fault).1

end CapabilityPost

/-- The capabilities before the first whose statement fails. -/
def completed : List UpsertIo → List NodeCapability → List NodeCapability
  | _, [] => []
  | ios, cap :: rest => if (ios.headD {}).fault then [] else cap :: completed ios.tail rest

namespace CapabilityPost

/-- What the request writes of its list. -/
def writes : CapabilityPost → List NodeCapability
  | .register io _ caps ios => if io.pool.isOk then completed ios caps else []
  | .delete .. => []

/-- What is held for a peer after the request. -/
def holds (p : String) (held : List NodeCapability) : CapabilityPost → List NodeCapability
  | .register io peer caps ios => if io.pool.isOk ∧ peer = p then held ++ completed ios caps else held
  | .delete io peer fault => if io.pool.isOk ∧ fault = false ∧ peer = p then [] else held

end CapabilityPost

/-- What is held for a peer after the requests. -/
def heldAfter (p : String) (posts : List CapabilityPost) : List NodeCapability :=
  posts.foldl (fun held post => post.holds p held) []

variable {c : CapabilityCodec} {t t' : CapabilityTable} {m : String → List NodeCapability}

/-- A registration writes its list up to the first failure, and succeeds if there is none. -/
theorem registerCapabilities_completed (c : CapabilityCodec) (t : CapabilityTable) (peer : String)
    (caps : List NodeCapability) (ios : List UpsertIo) :
    registerCapabilities c peer ios t (completed ios caps) = ((registerCapabilities c peer ios t caps).1, true) ∧
      ((registerCapabilities c peer ios t caps).2 = true ↔ completed ios caps = caps) := by
  induction caps generalizing ios t with
  | nil => exact ⟨rfl, iff_of_true rfl rfl⟩
  | cons cap rest ih =>
    rw [completed, registerCapabilities]
    cases fault : (ios.headD {}).fault with
    | true => exact ⟨rfl, iff_of_false Bool.false_ne_true (List.cons_ne_nil _ _).symm⟩
    | false =>
      obtain ⟨same, done⟩ := ih (upsertCapability t (capabilityRow c (ios.headD {}).now peer cap)) ios.tail
      rw [if_neg Bool.false_ne_true, if_neg Bool.false_ne_true, registerCapabilities, fault, if_neg Bool.false_ne_true]
      exact ⟨same, done.trans (by simp)⟩

theorem Refines.handle {post : CapabilityPost} (lossless : ∀ cap ∈ post.writes, c.Lossless cap) (h : Refines c t m) :
    Refines c (post.handle c t) fun p => post.holds p (m p) := by
  cases post with
  | register io peer caps ios =>
    cases pool : io.pool with
    | error why =>
      simpa [CapabilityPost.handle, CapabilityPost.holds, handleRegister, pool, Except.isOk, Except.toBool] using h
    | ok =>
      have written : ∀ cap ∈ completed ios caps, c.Lossless cap := by
        simpa [CapabilityPost.writes, pool, Except.isOk, Except.toBool] using lossless
      have stored := h.register written (registerCapabilities_completed c t peer caps ios).1
      simpa [CapabilityPost.handle, CapabilityPost.holds, handleRegister, pool, Except.isOk, Except.toBool] using stored
  | delete io peer fault =>
    cases pool : io.pool with
    | error why =>
      simpa [CapabilityPost.handle, CapabilityPost.holds, handleDeletePeer, pool, Except.isOk, Except.toBool] using h
    | ok =>
      cases fault with
      | true =>
        simpa [CapabilityPost.handle, CapabilityPost.holds, handleDeletePeer, pool, removePeerCapabilities, Except.isOk,
          Except.toBool] using h
      | false =>
        have removed := h.remove (show removePeerCapabilities false t peer = (t.delete fun r => r.peerName = peer, true) from rfl)
        simpa [CapabilityPost.handle, CapabilityPost.holds, handleDeletePeer, pool, removePeerCapabilities, Except.isOk,
          Except.toBool] using removed

theorem Refines.handles {posts : List CapabilityPost} (lossless : ∀ post ∈ posts, ∀ cap ∈ post.writes, c.Lossless cap)
    (h : Refines c t m) :
    Refines c (posts.foldl (CapabilityPost.handle c) t) fun p => posts.foldl (fun held post => post.holds p held) (m p) := by
  induction posts generalizing t m with
  | nil => exact h
  | cons post rest ih =>
    obtain ⟨first, later⟩ := List.forall_mem_cons.mp lossless
    exact ih later (h.handle first)

theorem handleRegister_ok_iff {io : CapabilityIo} {peer : String} {caps : List NodeCapability} {ios : List UpsertIo}
    {n : Nat} :
    (handleRegister c io t peer caps ios).2 = .ok n ↔
      io.pool = .ok () ∧ (CapabilityPost.register io peer caps ios).writes = caps ∧ n = caps.length := by
  unfold handleRegister
  cases pool : io.pool with
  | error => simp
  | ok =>
    have written : (CapabilityPost.register io peer caps ios).writes = completed ios caps := by
      simp [CapabilityPost.writes, pool, Except.isOk, Except.toBool]
    dsimp only
    rw [written, ← (registerCapabilities_completed c t peer caps ios).2]
    cases (registerCapabilities c peer ios t caps).2 <;> simp [eq_comm]

theorem heldAfter_register (p : String) (made : List CapabilityPost) (io : CapabilityIo) (caps : List NodeCapability)
    (ios : List UpsertIo) : heldAfter p (made ++ [.register io p caps ios]) =
      heldAfter p made ++ (CapabilityPost.register io p caps ios).writes := by
  cases pool : io.pool <;>
    simp [heldAfter, List.foldl_append, CapabilityPost.holds, CapabilityPost.writes, pool, Except.isOk, Except.toBool]

/-- After any requests the registry answers with the last that was written for each peer and name since the peer's last
deletion, the parts of failed registrations included. A registration is answered with a number exactly if it gets a
connection and its whole list is written. -/
theorem capability_requests_refine {posts : List CapabilityPost}
    (lossless : ∀ post ∈ posts, ∀ cap ∈ post.writes, c.Lossless cap)
    {scan : List CapabilityRow → List CapabilityRow} (permutes : ∀ rows, (scan rows).Perm rows)
    {iterate : List NodeCapabilities → List NodeCapabilities} (permutes' : ∀ groups, (iterate groups).Perm groups) :
    (∀ p, ∃ entries, handleGetPeer c scan {} false (posts.foldl (CapabilityPost.handle c) .empty) p = .ok entries ∧
      Reports entries (heldAfter p posts)) ∧
    (∃ groups, handleListAll c iterate {} false (posts.foldl (CapabilityPost.handle c) .empty) = .ok groups ∧
      Lists groups (getPeerCapabilities c scan (posts.foldl (CapabilityPost.handle c) .empty))) ∧
    ∀ made io peer caps ios later, posts = made ++ .register io peer caps ios :: later →
      (∀ n, (handleRegister c io (made.foldl (CapabilityPost.handle c) .empty) peer caps ios).2 = .ok n ↔
        io.pool = .ok () ∧ (CapabilityPost.register io peer caps ios).writes = caps ∧ n = caps.length) ∧
      heldAfter peer (made ++ [.register io peer caps ios]) =
        heldAfter peer made ++ (CapabilityPost.register io peer caps ios).writes := by
  have refines := (Refines.empty c).handles lossless
  refine ⟨fun p => ⟨_, rfl, reports_get permutes refines p⟩, ⟨_, rfl, lists_all permutes permutes' _⟩, ?_⟩
  rintro made io peer caps ios later rfl
  exact ⟨fun n => handleRegister_ok_iff, heldAfter_register peer made io caps ios⟩

/-- A registration of two versions that fails at the second. -/
def halfRegistered : List CapabilityPost :=
  [.register {} "m4" [gpu "llm" "1.0.0", gpu "llm" "2.0.0"] [{}, { fault := true }], .delete {} "a100" true]

theorem halfRegistered_refined :
    ∃ entries, handleGetPeer gpuCodec id {} false (halfRegistered.foldl (CapabilityPost.handle gpuCodec) .empty) "m4" =
        .ok entries ∧ Reports entries [gpu "llm" "1.0.0"] := by
  have lossless : ∀ post ∈ halfRegistered, ∀ cap ∈ post.writes, gpuCodec.Lossless cap := by
    intro post member cap written
    rcases List.mem_cons.mp member with rfl | member
    · obtain rfl : cap = gpu "llm" "1.0.0" := List.mem_singleton.mp written
      exact gpu_lossless _ _
    · obtain rfl := List.mem_singleton.mp member
      cases written
  have permutes (rows : List CapabilityRow) : (id rows).Perm rows := .refl rows
  have permutes' (groups : List NodeCapabilities) : (id groups).Perm groups := .refl groups
  exact (capability_requests_refine lossless permutes permutes').1 "m4"

end ConvergioMesh
