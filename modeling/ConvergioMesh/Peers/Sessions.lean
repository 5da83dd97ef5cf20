import ConvergioMesh.Peers.Registry
import ConvergioMesh.Peers.RoundTrip

/-!
# Sessions on the registry

Edits with restarts between them. A restart saves the registry and loads what was written; it goes
unnoticed as long as everything an edit stores can be written and read back.
-/

namespace ConvergioMesh

open Library

/-- `save`, and `load` of the file. -/
def PeersRegistry.reload (r : PeersRegistry) : Except Stop PeersRegistry :=
  PeersRegistry.load (some (savedText r))

inductive SessionStep where
  | edit (call : RegistryCall)
  | restart

def SessionStep.run (r : PeersRegistry) : SessionStep → Except Stop PeersRegistry
  | .edit call => .ok (call.run r)
  | .restart => r.reload

def SessionStep.call : SessionStep → Option RegistryCall
  | .edit call => some call
  | .restart => none

def runSession (r : PeersRegistry) (steps : List SessionStep) : Except Stop PeersRegistry :=
  steps.foldlM SessionStep.run r

def edits (steps : List SessionStep) : List RegistryCall := steps.filterMap SessionStep.call

/-- Each key and each entry is written and read back as it is. -/
def PeersRegistry.Lasting (r : PeersRegistry) : Prop := ∀ k cfg, r.peers[k]? = some cfg → KeptKey k ∧ cfg.reread = cfg

/-- What the edit stores is written and read back as it is. -/
def RegistryCall.Lasting (r : PeersRegistry) : RegistryCall → Prop
  | .add name config => KeptKey name ∧ config.reread = config
  | .remove _ => True
  | .role name newRole => name ∈ r.peers → sanitizeIniValue newRole = newRole

variable {r : PeersRegistry}

/-! ### Restarts -/

theorem reload_eq_iff {r' : PeersRegistry} :
    r.reload = .ok r' ↔ parseIni (savedText r) = .ok (r'.sharedSecret, r'.peers) := by
  constructor
  · exact parseIni_of_load
  · intro parsed
    unfold PeersRegistry.reload PeersRegistry.load
    dsimp only
    rw [parsed]
    rfl

/-- A name that is read is in lower case. -/
theorem lower_of_reloaded (secret : Clean r.sharedSecret) (ascii : ∀ k ∈ r.peers, IsAscii k) (same : r.reload = .ok r) :
    ∀ k ∈ r.peers, asciiLower k = k := by
  have parsed := reload_eq_iff.mp same
  rw [parseIni_savedText secret ascii, Except.ok.injEq, Prod.mk.injEq] at parsed
  intro k member
  rw [← parsed.2, Std.ExtTreeMap.mem_iff_isSome_getElem?, getElem?_mergePeers, entryOf_isSome] at member
  obtain ⟨q, listed, rfl⟩ := member
  obtain ⟨p, _, _, rfl⟩ := mem_rereadPeers.mp listed
  exact asciiLower_canonical _

theorem KeptKey.lower {k : Text} (h : KeptKey k) : asciiLower k = k := by
  have fixed := asciiLower_canonical k
  rwa [h.canonical] at fixed

theorem reload_iff_lasting (secret : Clean r.sharedSecret) (ascii : ∀ k ∈ r.peers, IsAscii k) :
    r.reload = .ok r ↔ r.Lasting := by
  constructor
  · intro same
    exact (saved_reloads_iff_entries secret ascii (lower_of_reloaded secret ascii same)).mp (reload_eq_iff.mp same)
  · intro lasting
    refine reload_eq_iff.mpr ((saved_reloads_iff_entries secret ascii fun k member => ?_).mpr lasting)
    obtain ⟨cfg, held⟩ := mem_peers.mp member
    exact (lasting k cfg held).1.lower

/-! ### Edits -/

theorem RegistryCall.run_secret (call : RegistryCall) : (call.run r).sharedSecret = r.sharedSecret := by
  cases call with
  | add => rfl
  | remove => rfl
  | role name newRole =>
    simp only [run, PeersRegistry.updateRole]
    split <;> rfl

/-- An added name is ASCII. -/
def RegistryCall.Named : RegistryCall → Prop
  | .add name _ => IsAscii name
  | _ => True

theorem RegistryCall.run_ascii {call : RegistryCall} (named : call.Named) (before : ∀ k ∈ r.peers, IsAscii k) :
    ∀ k ∈ (call.run r).peers, IsAscii k := by
  intro k member
  cases call with
  | add name config =>
    rcases mem_addPeer.mp member with rfl | held
    · exact named
    · exact before k held
  | remove name => exact before k (mem_removePeer member)
  | role name newRole => exact before k (mem_updateRole.mp member)

/-- Another role is read back if it is trimmed and on one line. -/
theorem reread_role_iff {p : PeerConfig} (same : p.reread = p) (role : Text) :
    ({ p with role } : PeerConfig).reread = { p with role } ↔ sanitizeIniValue role = role := by
  constructor
  · exact fun kept => congrArg PeerConfig.role kept
  · intro kept
    change { p.reread with role := sanitizeIniValue role } = { p with role }
    rw [same, kept]

theorem lasting_insert {k : Text} {cfg : PeerConfig} (before : r.Lasting) :
    ({ r with peers := r.peers.insert k cfg } : PeersRegistry).Lasting ↔ KeptKey k ∧ cfg.reread = cfg := by
  constructor
  · exact fun after => after k cfg Std.ExtTreeMap.getElem?_insert_self
  · intro good k' cfg' held
    rw [Std.ExtTreeMap.getElem?_insert] at held
    split at held
    · rename_i same
      obtain rfl := Std.compare_eq_iff_eq.mp same
      exact Option.some.inj held ▸ good
    · exact before k' cfg' held

theorem RegistryCall.run_lasting_iff (before : r.Lasting) (call : RegistryCall) :
    (call.run r).Lasting ↔ call.Lasting r := by
  cases call with
  | add name config => exact lasting_insert before
  | remove name =>
    refine iff_of_true (fun k cfg held => before k cfg ?_) trivial
    have found : (r.peers.erase name)[k]? = some cfg := held
    rw [Std.ExtTreeMap.getElem?_erase] at found
    split at found
    · cases found
    · exact found
  | role name newRole =>
    cases held : r.peers[name]? with
    | none =>
      have absent : name ∉ r.peers := fun member => by
        obtain ⟨cfg, found⟩ := mem_peers.mp member
        rw [held] at found
        cases found
      simp only [run, PeersRegistry.updateRole, held, Lasting]
      exact iff_of_true before fun member => absurd member absent
    | some p =>
      obtain ⟨kept, same⟩ := before name p held
      have member : name ∈ r.peers := mem_peers.mpr ⟨p, held⟩
      simp only [run, PeersRegistry.updateRole, held, Lasting]
      rw [lasting_insert before, and_iff_right kept, reread_role_iff same, forall_prop_of_true member]

/-! ### Sessions -/

/-- What the edits of a session keep, whatever they store. -/
structure Readable (r : PeersRegistry) : Prop where
  secret : Clean r.sharedSecret
  ascii : ∀ k ∈ r.peers, IsAscii k

theorem Readable.run (h : Readable r) {call : RegistryCall} (named : call.Named) : Readable (call.run r) where
  secret := by
    rw [call.run_secret]
    exact h.secret
  ascii := RegistryCall.run_ascii named h.ascii

theorem Readable.foldl (h : Readable r) {calls : List RegistryCall} (named : ∀ call ∈ calls, call.Named) :
    Readable (calls.foldl RegistryCall.run r) := by
  induction calls generalizing r with
  | nil => exact h
  | cons call rest ih =>
    exact ih (h.run (named call List.mem_cons_self)) fun call later => named call (List.mem_cons_of_mem _ later)

theorem edits_append (steps later : List SessionStep) : edits (steps ++ later) = edits steps ++ edits later :=
  List.filterMap_append

theorem runSession_edits (calls : List RegistryCall) :
    runSession r (calls.map .edit) = .ok (calls.foldl RegistryCall.run r) ∧ edits (calls.map .edit) = calls := by
  constructor
  · induction calls generalizing r with
    | nil => rfl
    | cons call rest ih => exact ih
  · rw [edits, List.filterMap_map]
    exact List.filterMap_some

/-- The registry lasts after every prefix of the edits, exactly if it does at the start and each edit
stores what lasts. -/
theorem lasting_prefixes_iff (calls : List RegistryCall) :
    (∀ made, made <+: calls → (made.foldl RegistryCall.run r).Lasting) ↔
      r.Lasting ∧ ∀ made call later, calls = made ++ call :: later → call.Lasting (made.foldl RegistryCall.run r) := by
  constructor
  · intro always
    refine ⟨always [] List.nil_prefix, ?_⟩
    rintro made call later rfl
    have after := always (made ++ [call]) ⟨later, by simp⟩
    rw [List.foldl_append] at after
    exact (RegistryCall.run_lasting_iff (always made (List.prefix_append ..)) call).mp after
  · rintro ⟨start, each⟩ made
    induction made using List.reverseRecOn with
    | nil => exact fun _ => start
    | append_singleton made call ih =>
      rintro ⟨later, whole⟩
      rw [List.append_assoc] at whole
      rw [List.foldl_append]
      exact (RegistryCall.run_lasting_iff (ih ⟨_, whole⟩) call).mpr (each made call later whole.symm)

/-- Restarts go unnoticed in every session that makes these edits, or the first of them, exactly if the
registry is read back after each. -/
theorem sessions_iff_reloads (calls : List RegistryCall) :
    (∀ steps, edits steps <+: calls → runSession r steps = .ok ((edits steps).foldl RegistryCall.run r)) ↔
      ∀ made, made <+: calls →
        (made.foldl RegistryCall.run r).reload = .ok (made.foldl RegistryCall.run r) := by
  constructor
  -- The session that makes these edits and restarts at the end.
  · intro unnoticed made part
    obtain ⟨run, same⟩ := runSession_edits (r := r) made
    have whole : edits (made.map .edit ++ [.restart]) = made := by
      rw [edits_append, same]
      exact List.append_nil made
    have session := unnoticed (made.map .edit ++ [.restart])
    rw [whole, runSession, List.foldlM_append, ← runSession, run] at session
    exact (bind_pure _).symm.trans (session part)
  · intro reloads steps
    induction steps using List.reverseRecOn with
    | nil => exact fun _ => rfl
    | append_singleton steps step ih =>
      intro part
      rw [edits_append] at part ⊢
      rw [runSession, List.foldlM_append, ← runSession, ih ((List.prefix_append ..).trans part), List.foldl_append]
      cases step with
      | edit call => rfl
      | restart => exact (bind_pure _).trans (reloads _ ((List.prefix_append ..).trans part))

/-- In a session on a loaded registry, however its edits and restarts are mixed, the restarts go
unnoticed exactly if the text can be stored and each edit stores what is read back. -/
theorem sessions_iff {text : Text} (loaded : PeersRegistry.load (some text) = .ok r)
    (ascii : ∀ s ∈ sections text, IsAscii s.name) {calls : List RegistryCall} (named : ∀ call ∈ calls, call.Named) :
    (∀ steps, edits steps <+: calls → runSession r steps = .ok ((edits steps).foldl RegistryCall.run r)) ↔
      Storable text ∧
        ∀ made call later, calls = made ++ call :: later → call.Lasting (made.foldl RegistryCall.run r) := by
  have parsed := parseIni_of_load loaded
  have readable : Readable r := by
    refine ⟨parseIni_secret_clean parsed, fun k key => ?_⟩
    obtain ⟨s, listed, _, rfl⟩ := key_canonical parsed ascii key
    exact (ascii s listed).canonical
  have storable : Storable text ↔ r.Lasting :=
    ⟨fun storable k cfg held => storable.entries parsed ascii held, storable_of_entries parsed ascii⟩
  rw [sessions_iff_reloads, storable, ← lasting_prefixes_iff]
  refine forall₂_congr fun made part => ?_
  have after := readable.foldl fun call member => named call (part.subset member)
  exact reload_iff_lasting after.secret after.ascii

/-- The coordinator's role, a second peer, and the first one taken out. -/
def m5Edits : List RegistryCall :=
  [.role "m5".toList "coordinator".toList, .add "a100".toList samplePeer, .remove "m5".toList]

theorem m5Edits_lasting {r : PeersRegistry} {made later : List RegistryCall} {call : RegistryCall}
    (whole : m5Edits = made ++ call :: later) : call.Lasting r := by
  have listed : call ∈ m5Edits := by
    rw [whole]
    simp
  simp only [m5Edits, List.mem_cons, List.not_mem_nil, or_false] at listed
  rcases listed with rfl | rfl | rfl
  · exact fun _ => by decide
  · exact ⟨⟨by decide, by decide, by decide⟩, by decide⟩
  · trivial

set_option maxRecDepth 8000 in
theorem m5_restarts_unnoticed :
    ∃ r, PeersRegistry.load (some (peerText "m5")) = .ok r ∧
      ∀ steps, edits steps <+: m5Edits → runSession r steps = .ok ((edits steps).foldl RegistryCall.run r) := by
  obtain ⟨r, loaded⟩ : ∃ r, PeersRegistry.load (some (peerText "m5")) = .ok r := ⟨_, rfl⟩
  have ascii : ∀ s ∈ sections (peerText "m5"), IsAscii s.name := by decide
  have named : ∀ call ∈ m5Edits, call.Named := by
    simp only [m5Edits, List.forall_mem_cons, RegistryCall.Named]
    exact ⟨trivial, by decide, trivial, fun _ last => nomatch last⟩
  refine ⟨r, loaded, (sessions_iff loaded ascii named).mpr ⟨?_, fun made call later whole => m5Edits_lasting whole⟩⟩
  have only : (PeersRegistry.load (some (peerText "m5"))).toOption.map (·.peers.toList) =
      some [("m5".toList, samplePeer)] := by decide
  rw [loaded] at only
  have whole : r.peers.toList = [("m5".toList, samplePeer)] := Option.some.inj only
  refine storable_of_entries (parseIni_of_load loaded) ascii fun k cfg held => ?_
  have listed := Std.ExtTreeMap.mem_toList_iff_getElem?_eq_some.mpr held
  rw [whole, List.mem_singleton, Prod.mk.injEq] at listed
  obtain ⟨rfl, rfl⟩ := listed
  exact ⟨⟨by decide, by decide, by decide⟩, by decide⟩

end ConvergioMesh
