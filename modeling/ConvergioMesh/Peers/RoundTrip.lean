import ConvergioMesh.Peers.Loaded

/-!
# Saving a loaded registry

A loaded registry is read back from what `save` writes exactly if its text is storable.
-/

namespace ConvergioMesh

open Library

/-! ### Entries -/

/-- A key that is written and read as the same key. -/
structure KeptKey (k : Text) : Prop where
  sanitized : sanitizeIniValue k = k
  canonical : canonical k = k
  notMesh : k ≠ "mesh".toList

theorem sanitize_sublist (s : Text) : (sanitizeIniValue s).Sublist s := (trim_sublist _).trans List.filter_sublist

theorem KeptKey.reread {k : Text} (h : KeptKey k) (cfg : PeerConfig) : rereadPeer (k, cfg) = ⟨k, k, cfg.reread⟩ := by
  unfold rereadPeer
  dsimp only
  rw [h.sanitized, h.canonical, withAlias, if_neg fun other => other.1 rfl]

theorem entryOf_unique {ps : List ReadPeer} (distinct : (ps.map (·.canon)).Nodup) {p : ReadPeer} (member : p ∈ ps) :
    entryOf ps p.canon = some p.cfg := by
  have only : ps.filter (·.canon = p.canon) = [p] := by
    induction ps with
    | nil => cases member
    | cons q rest ih =>
      rw [List.map_cons, List.nodup_cons] at distinct
      rcases List.mem_cons.mp member with rfl | later
      · have none : rest.filter (·.canon = p.canon) = [] := by
          rw [List.filter_eq_nil_iff]
          intro q listed same
          exact distinct.1 (List.mem_map.mpr ⟨q, listed, of_decide_eq_true same⟩)
        rw [List.filter_cons, if_pos (decide_eq_true rfl), none]
      · have other : ¬decide (q.canon = p.canon) = true := by
          intro same
          exact distinct.1 (List.mem_map.mpr ⟨p, later, (of_decide_eq_true same).symm⟩)
        rw [List.filter_cons, if_neg other, ih distinct.2 later]
  unfold entryOf
  rw [only]
  rfl

theorem mem_rereadPeers {ps : List (Text × PeerConfig)} {q : ReadPeer} :
    q ∈ rereadPeers ps ↔ ∃ p ∈ ps, sanitizeIniValue p.1 ≠ "mesh".toList ∧ q = rereadPeer p := by
  simp only [rereadPeers, List.mem_filterMap, Option.ite_none_left_eq_some, Option.some.injEq, @eq_comm _ q]

theorem reloaded_of_kept {peers : Peers} (kept : ∀ k ∈ peers, KeptKey k) (k : Text) :
    entryOf (rereadPeers peers.toList) k = peers[k]?.map (·.reread) := by
  have listed : ∀ p ∈ peers.toList, p.1 ∈ peers ∧ peers[p.1]? = some p.2 := by
    intro p member
    have held := Std.ExtTreeMap.mem_toList_iff_getElem?_eq_some.mp member
    exact ⟨mem_peers.mpr ⟨p.2, held⟩, held⟩
  have shape : rereadPeers peers.toList = peers.toList.map fun p => ⟨p.1, p.1, p.2.reread⟩ := by
    rw [rereadPeers, ← List.filterMap_eq_map]
    apply List.filterMap_congr
    intro p member
    have good := kept p.1 (listed p member).1
    rw [good.sanitized, if_neg good.notMesh, good.reread]
    rfl
  cases held : peers[k]? with
  | none =>
    have absent : ¬(entryOf (rereadPeers peers.toList) k).isSome := by
      rw [entryOf_isSome, shape]
      rintro ⟨q, member, rfl⟩
      obtain ⟨p, inside, rfl⟩ := List.mem_map.mp member
      rw [(listed p inside).2] at held
      cases held
    simpa using absent
  | some cfg =>
    have distinct : ((rereadPeers peers.toList).map (·.canon)).Nodup := by
      rw [shape, List.map_map]
      exact Std.ExtTreeMap.map_fst_toList_eq_keys (t := peers) ▸ Std.ExtTreeMap.nodup_keys
    have member : (⟨k, k, cfg.reread⟩ : ReadPeer) ∈ rereadPeers peers.toList := by
      rw [shape]
      exact List.mem_map.mpr ⟨(k, cfg), Std.ExtTreeMap.mem_toList_iff_getElem?_eq_some.mpr held, rfl⟩
    exact entryOf_unique distinct member

/-- If nothing is lost, every key is kept: no two names can share one, and no name gets longer. -/
theorem kept_of_reloaded {peers : Peers} (lower : ∀ k ∈ peers, asciiLower k = k)
    (same : ∀ k, entryOf (rereadPeers peers.toList) k = peers[k]?) : ∀ k ∈ peers, KeptKey k := by
  let key (k : Text) : Option Text :=
    if sanitizeIniValue k = "mesh".toList then none else some (canonical (sanitizeIniValue k))
  have shrinks : ∀ k ∈ peers.keys, ∀ k', key k = some k' → k'.length ≤ k.length := by
    intro k _ k' image
    obtain ⟨_, image⟩ := Option.ite_none_left_eq_some.mp image
    rw [← Option.some.inj image]
    exact (length_canonical _).trans (sanitize_sublist k).length_le
  have covers : ∀ k ∈ peers.keys, ∃ k' ∈ peers.keys, key k' = some k := by
    intro k member
    have held : (entryOf (rereadPeers peers.toList) k).isSome := by
      rw [same k, ← Std.ExtTreeMap.mem_iff_isSome_getElem?]
      exact Std.ExtTreeMap.mem_keys.mp member
    obtain ⟨q, listed, rfl⟩ := entryOf_isSome.mp held
    obtain ⟨p, inside, other, rfl⟩ := mem_rereadPeers.mp listed
    refine ⟨p.1, ?_, if_neg other⟩
    rw [← Std.ExtTreeMap.map_fst_toList_eq_keys]
    exact List.mem_map_of_mem inside
  intro k member
  obtain ⟨k', image, length⟩ := weight_kept Std.ExtTreeMap.nodup_keys shrinks covers k (Std.ExtTreeMap.mem_keys.mpr member)
  obtain ⟨other, image⟩ := Option.ite_none_left_eq_some.mp image
  rw [← Option.some.inj image] at length
  have whole : sanitizeIniValue k = k := by
    apply (sanitize_sublist k).eq_of_length_le
    rw [← length]
    exact length_canonical _
  rw [whole] at length other
  refine ⟨whole, ?_, other⟩
  rw [(canonical_of_length length.ge).2, lower k member]

/-- A registry of ASCII names in lower case is read back exactly if each key and each entry is. -/
theorem saved_reloads_iff_entries {r : PeersRegistry} (secret : Clean r.sharedSecret) (ascii : ∀ k ∈ r.peers, IsAscii k)
    (lower : ∀ k ∈ r.peers, asciiLower k = k) :
    parseIni (savedText r) = .ok (r.sharedSecret, r.peers) ↔
      ∀ k cfg, r.peers[k]? = some cfg → KeptKey k ∧ cfg.reread = cfg := by
  have maps : parseIni (savedText r) = .ok (r.sharedSecret, r.peers) ↔
      ∀ k, entryOf (rereadPeers r.peers.toList) k = r.peers[k]? := by
    rw [parseIni_savedText secret ascii, Except.ok.injEq, Prod.mk.injEq]
    simp only [true_and, ← getElem?_mergePeers]
    exact ⟨fun same k => by rw [same], Std.ExtTreeMap.ext_getElem?⟩
  rw [maps]
  constructor
  · intro same k cfg held
    have kept := kept_of_reloaded lower same
    refine ⟨kept k (mem_peers.mpr ⟨cfg, held⟩), ?_⟩
    have reloaded := reloaded_of_kept kept k
    rw [same, held, Option.map_some] at reloaded
    exact (Option.some.inj reloaded).symm
  · intro good k
    have kept : ∀ k ∈ r.peers, KeptKey k := by
      intro k member
      obtain ⟨cfg, held⟩ := mem_peers.mp member
      exact (good k cfg held).1
    rw [reloaded_of_kept kept]
    cases held : r.peers[k]? with
    | none => rfl
    | some cfg => exact congrArg some (good k cfg held).2

/-! ### Texts -/

/-- A section name that is trimmed, has no carriage return, no comma unless it is canonical, and a
canonical form that is one and is not `mesh`. -/
def PlainName (n : Text) : Prop :=
  trim n = n ∧ '\r' ∉ n ∧
    ∃ k, canonicalPeerName n = some k ∧ canonicalPeerName k = some k ∧ k ≠ "mesh".toList ∧ (',' ∈ n → n = k)

/-- No stored value and no capability has a carriage return. -/
structure PlainValues (kv : Kv) : Prop where
  values : ∀ key ∈ storedKeys, ∀ v, kv[key.toList]? = some v → '\r' ∉ v
  capabilities : ∀ raw, kv["capabilities".toList]? = some raw → ∀ c ∈ parseCapabilities raw, '\r' ∉ c

/-- The names and declared aliases of all peer sections are plain, and so are the values of the first
section of each host. -/
structure Storable (text : Text) : Prop where
  names : ∀ s ∈ sections text, ¬s.IsMesh → PlainName s.name
  aliases : ∀ s ∈ sections text, ¬s.IsMesh → ∀ a ∈ declared s.kv, '\r' ∉ a
  values : ∀ k s, (sections text).find? (·.Of k) = some s → PlainValues s.kv

theorem KeptKey.noCr {k : Text} (h : KeptKey k) : '\r' ∉ k := by
  intro cr
  rw [← h.sanitized] at cr
  exact (mem_sanitize cr).2.2 rfl

theorem KeptKey.trimmed {k : Text} (h : KeptKey k) : trim k = k :=
  (canonical_of_length (by rw [h.canonical])).1

theorem plainName_iff {n : Text} (ascii : IsAscii n) (whole : '\n' ∉ n) :
    PlainName n ↔ KeptKey (canonical n) ∧ (n ≠ canonical n → Item n ∧ '\r' ∉ n) := by
  have canon := ascii.canonicalPeerName
  have again := ascii.canonical.canonicalPeerName
  constructor
  · rintro ⟨trimmed, noCr, k, canon', again', notMesh, comma⟩
    obtain rfl := Option.some.inj (canon.symm.trans canon')
    have fixed : canonical (canonical n) = canonical n := Option.some.inj (again.symm.trans again')
    have solid : Solid (canonical n) := trim_eq_self_iff.mp (canonical_of_length (by rw [fixed])).1
    have clean : Clean (canonical n) := ⟨solid, fun newline => whole (mem_canonical (by decide) newline)⟩
    refine ⟨⟨(sanitize_eq_self_iff clean).mpr fun cr => noCr (mem_canonical (by decide) cr), fixed, notMesh⟩, ?_⟩
    intro other
    refine ⟨⟨trim_eq_self_iff.mp trimmed, ?_, fun inside => other (comma inside)⟩, noCr⟩
    rintro rfl
    exact other rfl
  · rintro ⟨kept, plain⟩
    refine ⟨?_, ?_, canonical n, canon, by rw [again, kept.canonical], kept.notMesh, fun comma => ?_⟩
    · by_cases same : n = canonical n
      · rw [same]
        exact kept.trimmed
      · exact trim_of_solid (plain same).1.solid
    · by_cases same : n = canonical n
      · rw [same]
        exact kept.noCr
      · exact (plain same).2
    · by_contra other
      exact (plain other).1.noComma comma

theorem declared_item {kv : Kv} {a : Text} (member : a ∈ declared kv) :
    Item a ∧ ∃ raw, kv["aliases".toList]? = some raw ∧ ∀ c ∈ a, c ∈ raw := by
  unfold declared at member
  cases found : kv["aliases".toList]? with
  | none =>
    rw [found] at member
    cases member
  | some raw =>
    rw [found] at member
    obtain ⟨item, inside⟩ := item_of_parsed member
    exact ⟨item, raw, rfl, inside⟩

theorem strings_of_aliases {cfg cfg₀ : PeerConfig} (h : cfg = { cfg₀ with aliases := cfg.aliases }) :
    cfg.strings = cfg₀.strings ∧ cfg.capabilities = cfg₀.capabilities := by
  rw [h]
  exact ⟨rfl, rfl⟩

theorem plainValues_iff {s : Section} {cfg : PeerConfig} (clean : s.CleanValues)
    (built : buildPeer s.name s.kv = .ok cfg) :
    PlainValues s.kv ↔ (∀ v ∈ cfg.strings, sanitizeIniValue v = v) ∧
      parseCapabilities (sanitizeIniValue (join cfg.capabilities)) = cfg.capabilities := by
  have strings : (∀ v ∈ cfg.strings, sanitizeIniValue v = v) ↔
      ∀ key ∈ storedKeys, ∀ v, s.kv[key.toList]? = some v → '\r' ∉ v := by
    rw [forall_strings_iff built (by decide)]
    refine forall₂_congr fun key _ => forall₂_congr fun v found => ?_
    exact sanitize_eq_self_iff (clean.kv _ v found)
  have listed := (buildPeer_ok built).1.capabilities
  obtain ⟨raw, found, capabilities⟩ := Option.map_eq_some_iff.mp listed
  have whole : ∀ c ∈ cfg.capabilities, '\n' ∉ c := by
    intro c member newline
    rw [← capabilities] at member
    exact (clean.kv _ raw found).2 ((item_of_parsed member).2 _ newline)
  have items : parseCapabilities (sanitizeIniValue (join cfg.capabilities)) = cfg.capabilities ↔
      ∀ raw, s.kv["capabilities".toList]? = some raw → ∀ c ∈ parseCapabilities raw, '\r' ∉ c := by
    rw [reread_items_iff whole, found]
    simp only [Option.some.injEq, forall_eq', capabilities]
    refine forall₂_congr fun c member => and_iff_right_of_imp fun _ => ?_
    rw [← capabilities] at member
    exact (item_of_parsed member).1
  rw [strings, items]
  exact ⟨fun h => ⟨h.values, h.capabilities⟩, fun h => ⟨h.1, h.2⟩⟩

section

variable {text secret : Text} {peers : Peers}

theorem key_canonical (parsed : parseIni text = .ok (secret, peers)) (ascii : ∀ s ∈ sections text, IsAscii s.name)
    {k : Text} (key : k ∈ peers) : ∃ s ∈ sections text, s.Of k ∧ k = canonical s.name := by
  obtain ⟨s, listed, other, canon⟩ := (parseIni_keys parsed).mp key
  refine ⟨s, listed, ⟨other, canon⟩, ?_⟩
  rw [(ascii s listed).canonicalPeerName] at canon
  exact (Option.some.inj canon).symm

theorem storable_of_entries (parsed : parseIni text = .ok (secret, peers))
    (ascii : ∀ s ∈ sections text, IsAscii s.name)
    (entries : ∀ k cfg, peers[k]? = some cfg → KeptKey k ∧ cfg.reread = cfg) : Storable text := by
  have entry : ∀ s ∈ sections text, ∀ k, s.Of k → ∃ cfg, EntryFrom text k cfg ∧ KeptKey k ∧
      (∀ v ∈ cfg.strings, sanitizeIniValue v = v) ∧
      parseCapabilities (sanitizeIniValue (join cfg.capabilities)) = cfg.capabilities ∧
      ∀ a ∈ cfg.aliases, Item a ∧ '\r' ∉ a := by
    intro s listed k of
    have key : k ∈ peers := (parseIni_keys parsed).mpr ⟨s, listed, of.1, of.2⟩
    obtain ⟨cfg, held⟩ := mem_peers.mp key
    obtain ⟨kept, same⟩ := entries k cfg held
    have source := entryFrom parsed held
    obtain ⟨strings, capabilities, aliases⟩ := (reread_eq_self_iff cfg).mp same
    refine ⟨cfg, source, kept, strings, capabilities, (reread_items_iff ?_).mp aliases⟩
    intro a member newline
    obtain ⟨s, listed, _, own | ⟨rfl, _⟩⟩ := source.sources a member
    · obtain ⟨_, raw, found, inside⟩ := declared_item own
      exact ((sections_clean s listed).kv _ raw found).2 (inside _ newline)
    · exact (sections_clean s listed).name newline
  have of_canonical : ∀ s ∈ sections text, ¬s.IsMesh → s.Of (canonical s.name) := fun s listed other =>
    ⟨other, (ascii s listed).canonicalPeerName⟩
  constructor
  · intro s listed other
    have of := of_canonical s listed other
    obtain ⟨cfg, source, kept, _, _, aliases⟩ := entry s listed _ of
    refine (plainName_iff (ascii s listed) (sections_clean s listed).name).mpr ⟨kept, fun differs => ?_⟩
    exact aliases s.name (source.collected s listed of s.name (.inr rfl) differs)
  · intro s listed other a own
    have of := of_canonical s listed other
    obtain ⟨cfg, source, kept, _, _, aliases⟩ := entry s listed _ of
    by_cases same : a = canonical s.name
    · rw [same]
      exact kept.noCr
    · exact (aliases a (source.collected s listed of a (.inl own) same)).2
  · intro k s found
    have listed := List.mem_of_find?_eq_some found
    have of : s.Of k := by simpa using List.find?_some found
    obtain ⟨cfg, source, _, strings, capabilities, _⟩ := entry s listed k of
    obtain ⟨s', cfg₀, found', built, same⟩ := source.first
    obtain rfl := Option.some.inj (found.symm.trans found')
    obtain ⟨strings', capabilities'⟩ := strings_of_aliases same
    rw [strings'] at strings
    rw [capabilities'] at capabilities
    exact (plainValues_iff (sections_clean s listed) built).mpr ⟨strings, capabilities⟩

theorem Storable.entries (h : Storable text) (parsed : parseIni text = .ok (secret, peers))
    (ascii : ∀ s ∈ sections text, IsAscii s.name) {k : Text} {cfg : PeerConfig} (held : peers[k]? = some cfg) :
    KeptKey k ∧ cfg.reread = cfg := by
  have named : ∀ s ∈ sections text, s.Of k → KeptKey k ∧ (s.name ≠ k → Item s.name ∧ '\r' ∉ s.name) := by
    intro s listed of
    have canon := of.2
    rw [(ascii s listed).canonicalPeerName] at canon
    obtain rfl := Option.some.inj canon
    exact (plainName_iff (ascii s listed) (sections_clean s listed).name).mp (h.names s listed of.1)
  have source := entryFrom parsed held
  obtain ⟨s, cfg₀, found, built, same⟩ := source.first
  have listed := List.mem_of_find?_eq_some found
  have of : s.Of k := by simpa using List.find?_some found
  obtain ⟨strings', capabilities'⟩ := strings_of_aliases same
  obtain ⟨strings, capabilities⟩ := (plainValues_iff (sections_clean s listed) built).mp (h.values k s found)
  have aliases : ∀ a ∈ cfg.aliases, '\n' ∉ a ∧ Item a ∧ '\r' ∉ a := by
    intro a member
    obtain ⟨s, listed, of, own | ⟨rfl, differs⟩⟩ := source.sources a member
    · obtain ⟨item, raw, found, inside⟩ := declared_item own
      refine ⟨fun newline => ?_, item, h.aliases s listed of.1 a own⟩
      exact ((sections_clean s listed).kv _ raw found).2 (inside _ newline)
    · exact ⟨(sections_clean s listed).name, (named s listed of).2 differs⟩
  refine ⟨(named s listed of).1, (reread_eq_self_iff cfg).mpr ⟨?_, ?_, ?_⟩⟩
  · rw [strings']
    exact strings
  · rw [capabilities']
    exact capabilities
  · exact (reread_items_iff fun a member => (aliases a member).1).mpr fun a member => (aliases a member).2

/-- An accepted text of ASCII section names is saved without loss exactly if it is storable. -/
theorem saved_reloads_iff (parsed : parseIni text = .ok (secret, peers))
    (ascii : ∀ s ∈ sections text, IsAscii s.name) :
    parseIni (savedText ⟨secret, peers⟩) = .ok (secret, peers) ↔ Storable text := by
  have ascii_keys : ∀ k ∈ peers, IsAscii k := by
    intro k key
    obtain ⟨s, listed, _, rfl⟩ := key_canonical parsed ascii key
    exact (ascii s listed).canonical
  have lower : ∀ k ∈ peers, asciiLower k = k := by
    intro k key
    obtain ⟨s, listed, _, rfl⟩ := key_canonical parsed ascii key
    exact asciiLower_canonical _
  rw [saved_reloads_iff_entries (r := ⟨secret, peers⟩) (parseIni_secret_clean parsed) ascii_keys lower]
  constructor
  · exact storable_of_entries parsed ascii
  · exact fun storable k cfg held => storable.entries parsed ascii held

end

set_option maxRecDepth 8000 in
theorem m5_reloads :
    ∃ secret peers, parseIni (peerText "M5") = .ok (secret, peers) ∧
      (parseIni (savedText ⟨secret, peers⟩) = .ok (secret, peers) ↔ Storable (peerText "M5")) ∧
      Storable (peerText "M5") := by
  obtain ⟨⟨secret, peers⟩, parsed⟩ : ∃ loaded, parseIni (peerText "M5") = .ok loaded := ⟨_, rfl⟩
  have name : ∀ s ∈ sections (peerText "M5"), s.name = "M5".toList := by decide
  have plain : ∀ s ∈ sections (peerText "M5"), ∀ e ∈ s.kv.toList, '\r' ∉ e.2 := by decide
  have entry : ∀ s ∈ sections (peerText "M5"), ∀ key value, s.kv[key]? = some value → '\r' ∉ value :=
    fun s listed key value found =>
      plain s listed (key, value) (Std.ExtTreeMap.mem_toList_iff_getElem?_eq_some.mpr found)
  refine ⟨secret, peers, parsed, saved_reloads_iff parsed ?_, ?_, ?_, ?_⟩
  · intro s listed
    rw [name s listed]
    simp [IsAscii]
  · intro s listed _
    rw [name s listed]
    exact ⟨by decide, by decide, "m5".toList, by decide⟩
  · intro s listed _ a own cr
    obtain ⟨_, raw, found, inside⟩ := declared_item own
    exact entry s listed _ raw found (inside _ cr)
  · intro k s found
    have listed := List.mem_of_find?_eq_some found
    refine ⟨fun key _ v held => entry s listed _ v held, fun raw held c item cr => ?_⟩
    exact entry s listed _ raw held ((item_of_parsed item).2 _ cr)

set_option maxRecDepth 8000 in
/-- A peer under the name of the secret's section is lost, and a name is canonicalised once more. -/
theorem renamed_peers_lost :
    (∃ secret peers, parseIni (peerText "MESH") = .ok (secret, peers) ∧
      parseIni (savedText ⟨secret, peers⟩) ≠ .ok (secret, peers)) ∧
    ∃ secret peers, parseIni (peerText "x.local.local") = .ok (secret, peers) ∧
      parseIni (savedText ⟨secret, peers⟩) ≠ .ok (secret, peers) := by
  constructor
  · refine ⟨_, _, rfl, fun same => ?_⟩
    have kept : (parseIni (savedText _)).toOption.map (·.2["mesh".toList]?.isSome) = some true :=
      congrArg (·.toOption.map (·.2["mesh".toList]?.isSome)) same
    exact absurd kept (by decide)
  · refine ⟨_, _, rfl, fun same => ?_⟩
    have kept : (parseIni (savedText _)).toOption.map (·.2["x.local".toList]?.isSome) = some true :=
      congrArg (·.toOption.map (·.2["x.local".toList]?.isSome)) same
    exact absurd kept (by decide)

end ConvergioMesh
