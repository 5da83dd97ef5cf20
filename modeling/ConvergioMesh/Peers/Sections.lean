import Mathlib.Data.List.Induction
import ConvergioMesh.Peers.Ini

/-!
# The sections of a configuration

What `parse_ini` accepts and returns, read off from the sections of the text: a section is a header
with the entries up to the next one.
-/

namespace ConvergioMesh

open Library

inductive LineKind where
  | skipped
  | header (name : Text)
  | entry (key value : Text)
  | unexpected

def lineKind (raw : Text) : LineKind :=
  let line := trim raw
  if line = [] ∨ line.head? = some '#' then .skipped
  else if line.head? = some '[' ∧ line.getLast? = some ']' then .header line.tail.dropLast
  else
    match splitOnce '=' line with
    | some (key, val) => .entry (trim key) (trim val)
    | none => .unexpected

structure Section where
  name : Text
  kv : Kv

def ParseState.current (s : ParseState) : Option Section := s.currentSection.map fun name => ⟨name, s.currentKv⟩

def flush (acc : Text × Peers) (s : Section) : Except Stop (Text × Peers) :=
  flushSection (some s.name) s.kv acc.1 acc.2

def sectionsFrom : Option Section → List Text → List Section
  | current, [] => current.toList
  | current, raw :: rest =>
    match lineKind raw with
    | .header name => current.toList ++ sectionsFrom (some ⟨name, ∅⟩) rest
    | .entry key value => sectionsFrom (current.map fun s => { s with kv := s.kv.insert key value }) rest
    | _ => sectionsFrom current rest

def sections (text : Text) : List Section := sectionsFrom none (lines text)

theorem flush_current (s : ParseState) (secret : Text) (peers : Peers) :
    s.current.toList.foldlM flush (secret, peers) = flushSection s.currentSection s.currentKv secret peers := by
  unfold ParseState.current
  cases s.currentSection with
  | none => rfl
  | some name =>
    simp only [Option.map_some, Option.toList_some, List.foldlM_cons, List.foldlM_nil, flush]
    exact bind_pure _

theorem parseLine_eq (s : ParseState) (n : Nat) (raw : Text) :
    parseLine s n raw =
      match lineKind raw with
      | .skipped => .ok s
      | .header name => do
        let (sharedSecret, peers) ← flushSection s.currentSection s.currentKv s.sharedSecret s.peers
        return { sharedSecret, peers, currentSection := some name, currentKv := ∅ }
      | .entry key value => .ok { s with currentKv := s.currentKv.insert key value }
      | .unexpected => .error (.error (.parse (n + 1) ("unexpected content: ".toList ++ trim raw))) := by
  unfold parseLine lineKind
  dsimp only
  split
  · rfl
  split
  · rfl
  cases splitOnce '=' (trim raw) with
  | none => rfl
  | some p => rfl

theorem parseLines_ok_iff {r : Text × Peers} (s : ParseState) (n : Nat) (ls : List Text) :
    (do let s ← parseLines s n ls
        flushSection s.currentSection s.currentKv s.sharedSecret s.peers) = .ok r ↔
      (∀ raw ∈ ls, lineKind raw ≠ .unexpected) ∧
        (sectionsFrom s.current ls).foldlM flush (s.sharedSecret, s.peers) = .ok r := by
  induction ls generalizing s n with
  | nil =>
    rw [sectionsFrom, flush_current]
    simp [parseLines]
    rfl
  | cons raw rest ih =>
    rw [parseLines, sectionsFrom, parseLine_eq, List.forall_mem_cons]
    cases lineKind raw with
    | skipped =>
      refine (ih s (n + 1)).trans ?_
      simp
    | header name =>
      dsimp only
      rw [List.foldlM_append, flush_current]
      cases flushed : flushSection s.currentSection s.currentKv s.sharedSecret s.peers with
      | error stop => simp [bind, Except.bind]
      | ok acc =>
        refine (ih ⟨acc.1, acc.2, some name, ∅⟩ (n + 1)).trans ?_
        simp [ParseState.current, bind, Except.bind]
    | entry key value =>
      refine (ih { s with currentKv := s.currentKv.insert key value } (n + 1)).trans ?_
      have opened : ParseState.current { s with currentKv := s.currentKv.insert key value } =
          s.current.map fun c => { c with kv := c.kv.insert key value } := by
        simp only [ParseState.current, Option.map_map]
        rfl
      rw [opened]
      simp
    | unexpected =>
      simp [bind, Except.bind]

/-- A text is accepted if every line makes sense and every section is read. -/
theorem parseIni_ok_iff {text : Text} {r : Text × Peers} :
    parseIni text = .ok r ↔
      (∀ raw ∈ lines text, lineKind raw ≠ .unexpected) ∧ (sections text).foldlM flush ([], ∅) = .ok r :=
  parseLines_ok_iff {} 0 (lines text)

/-! ### What the sections amount to -/

abbrev Section.IsMesh (s : Section) : Prop := s.name = "mesh".toList

/-- A peer section as read: its canonical name, its own name, and its configuration. -/
structure ReadPeer where
  canon : Text
  name : Text
  cfg : PeerConfig

/-- `build_peer`, with the name of the section as an alias. -/
def Section.read (s : Section) : Except Stop ReadPeer := do
  let canon ← orPanic (canonicalPeerName s.name)
  let cfg ← buildPeer s.name s.kv
  return ⟨canon, s.name, withAlias canon s.name cfg⟩

def mergePeer (peers : Peers) (p : ReadPeer) : Peers :=
  match peers[p.canon]? with
  | some existing =>
    peers.insert p.canon
      { existing with aliases := mergeAliases p.canon existing.aliases (p.cfg.aliases ++ [p.name]) }
  | none => peers.insert p.canon p.cfg

def Section.secret (s : Section) : Option Text := if s.IsMesh then s.kv["shared_secret".toList]? else none

def Section.peer (s : Section) : Option ReadPeer := if s.IsMesh then none else s.read.toOption

theorem flush_eq (acc : Text × Peers) (s : Section) :
    flush acc s =
      if s.IsMesh then .ok (s.secret.getD acc.1, acc.2) else s.read.map fun p => (acc.1, mergePeer acc.2 p) := by
  unfold flush flushSection Section.read Section.secret
  dsimp only
  by_cases mesh : s.IsMesh
  · rw [if_pos mesh, if_pos mesh, if_pos mesh]
  · rw [if_neg mesh, if_neg mesh]
    cases orPanic (canonicalPeerName s.name) with
    | error stop => rfl
    | ok canon =>
      cases buildPeer s.name s.kv with
      | error stop => rfl
      | ok cfg =>
        simp only [bind, Except.bind, pure, Except.pure, Except.map, mergePeer]
        cases acc.2[canon]? <;> rfl

theorem foldlM_flush_ok {ss : List Section} {acc r : Text × Peers} :
    ss.foldlM flush acc = .ok r ↔
      (∀ s ∈ ss, ¬s.IsMesh → ∃ p, s.read = .ok p) ∧
        r = (((ss.filterMap Section.secret).getLast?).getD acc.1, (ss.filterMap Section.peer).foldl mergePeer acc.2) := by
  induction ss generalizing acc with
  | nil => simp [pure, Except.pure, eq_comm]
  | cons s rest ih =>
    rw [List.foldlM_cons, flush_eq, List.forall_mem_cons]
    by_cases mesh : s.IsMesh
    · have peer : s.peer = none := if_pos mesh
      rw [if_pos mesh]
      refine ih.trans ?_
      rw [List.filterMap_cons_none peer]
      cases secret : s.secret with
      | none => simp [mesh, secret]
      | some v =>
        rw [List.filterMap_cons_some secret]
        simp [mesh, List.getLast?_cons]
    · have secret : s.secret = none := if_neg mesh
      rw [if_neg mesh, List.filterMap_cons_none secret]
      cases read : s.read with
      | error stop => simp [mesh, Except.map, bind, Except.bind]
      | ok p =>
        have peer : s.peer = some p := by simp [Section.peer, mesh, read, Except.toOption]
        refine ih.trans ?_
        rw [List.filterMap_cons_some peer]
        simp

/-- The entry of a key: the first section with that identity, and the aliases of the later ones. -/
def entryOf (ps : List ReadPeer) (k : Text) : Option PeerConfig :=
  match ps.filter (·.canon = k) with
  | [] => none
  | first :: rest =>
    some { first.cfg with
      aliases := rest.foldl (fun known p => mergeAliases k known (p.cfg.aliases ++ [p.name])) first.cfg.aliases }

theorem getElem?_mergePeer (peers : Peers) (p : ReadPeer) (k : Text) :
    (mergePeer peers p)[k]? =
      if p.canon = k then
        some ((peers[k]?.map fun e => { e with aliases := mergeAliases k e.aliases (p.cfg.aliases ++ [p.name]) }).getD
          p.cfg)
      else peers[k]? := by
  unfold mergePeer
  split
  · rename_i existing held
    rw [Std.ExtTreeMap.getElem?_insert]
    by_cases same : p.canon = k
    · subst same
      simp [held]
    · simp [same]
  · rename_i absent
    rw [Std.ExtTreeMap.getElem?_insert]
    by_cases same : p.canon = k
    · subst same
      simp [absent]
    · simp [same]

theorem getElem?_mergePeers (ps : List ReadPeer) (k : Text) : (ps.foldl mergePeer ∅)[k]? = entryOf ps k := by
  induction ps using List.reverseRecOn with
  | nil => rfl
  | append_singleton ps p ih =>
    rw [List.foldl_append, List.foldl_cons, List.foldl_nil, getElem?_mergePeer, ih]
    unfold entryOf
    rw [List.filter_append]
    by_cases same : p.canon = k
    · rw [if_pos same, List.filter_singleton, decide_eq_true same, cond_true]
      cases ps.filter (·.canon = k) with
      | nil => rfl
      | cons first rest => simp
    · rw [if_neg same, List.filter_singleton, decide_eq_false same, cond_false, List.append_nil]

theorem parseIni_loads {text secret : Text} {peers : Peers} (h : parseIni text = .ok (secret, peers)) :
    secret = ((sections text).filterMap Section.secret).getLast?.getD [] ∧
      ∀ k, peers[k]? = entryOf ((sections text).filterMap Section.peer) k := by
  obtain ⟨_, same⟩ := foldlM_flush_ok.mp (parseIni_ok_iff.mp h).2
  obtain ⟨rfl, rfl⟩ := Prod.mk.inj same
  exact ⟨rfl, getElem?_mergePeers _⟩

theorem entryOf_isSome {ps : List ReadPeer} {k : Text} : (entryOf ps k).isSome ↔ ∃ p ∈ ps, p.canon = k := by
  unfold entryOf
  split
  · rename_i none
    simpa using none
  · rename_i first rest some
    have member : first ∈ ps.filter (·.canon = k) := some ▸ List.mem_cons_self
    simp only [Option.isSome_some, true_iff]
    exact ⟨first, (List.mem_filter.mp member).1, of_decide_eq_true (List.mem_filter.mp member).2⟩

theorem Section.read_canon {s : Section} {p : ReadPeer} (h : s.read = .ok p) :
    canonicalPeerName s.name = some p.canon := by
  unfold Section.read at h
  cases canon : canonicalPeerName s.name with
  | none =>
    rw [canon] at h
    cases h
  | some k =>
    rw [canon] at h
    cases built : buildPeer s.name s.kv with
    | error stop =>
      rw [built] at h
      cases h
    | ok cfg =>
      rw [built] at h
      cases h
      rfl

theorem parseIni_keys {text secret : Text} {peers : Peers} (h : parseIni text = .ok (secret, peers)) {k : Text} :
    k ∈ peers ↔ ∃ s ∈ sections text, ¬s.IsMesh ∧ canonicalPeerName s.name = some k := by
  have read := (foldlM_flush_ok.mp (parseIni_ok_iff.mp h).2).1
  rw [Std.ExtTreeMap.mem_iff_isSome_getElem?, (parseIni_loads h).2, entryOf_isSome]
  constructor
  · rintro ⟨p, member, rfl⟩
    obtain ⟨s, listed, isPeer⟩ := List.mem_filterMap.mp member
    unfold Section.peer at isPeer
    split at isPeer
    · cases isPeer
    · rename_i peer
      obtain ⟨q, ok⟩ := read s listed peer
      rw [ok] at isPeer
      obtain rfl := Option.some.inj isPeer
      exact ⟨s, listed, peer, Section.read_canon ok⟩
  · rintro ⟨s, listed, peer, canon⟩
    obtain ⟨p, ok⟩ := read s listed peer
    refine ⟨p, List.mem_filterMap.mpr ⟨s, listed, ?_⟩, ?_⟩
    · rw [Section.peer, if_neg peer, ok]
      rfl
    · rw [Section.read_canon ok] at canon
      exact Option.some.inj canon

end ConvergioMesh
