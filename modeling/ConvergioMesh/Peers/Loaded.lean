import ConvergioMesh.Peers.Written

/-!
# What a loaded registry holds

The values of a text without line breaks, and the entry of each identity.
-/

namespace ConvergioMesh

open Library

theorem bind_ok {α β : Type} {x : Except Stop α} {f : α → Except Stop β} {b : β} (h : x >>= f = .ok b) :
    ∃ a, x = .ok a ∧ f a = .ok b := by
  cases x with
  | error stop => cases h
  | ok a => exact ⟨a, rfl, h⟩

theorem require_ok {kv : Kv} {key : String} {peer v : Text} (h : require kv key peer = .ok v) :
    kv[key.toList]? = some v := by
  unfold require at h
  split at h
  · rename_i found
    rw [found, Except.ok.inj h]
  · cases h

/-! ### Clean values -/

structure Section.CleanValues (s : Section) : Prop where
  name : '\n' ∉ s.name
  kv : ∀ (k v : Text), s.kv[k]? = some v → Clean v

theorem lineKind_entry_clean {raw key value : Text} (whole : '\n' ∉ raw) (h : lineKind raw = .entry key value) :
    Clean value := by
  unfold lineKind at h
  dsimp only at h
  split at h
  · cases h
  split at h
  · cases h
  cases found : splitOnce '=' (trim raw) with
  | none =>
    rw [found] at h
    cases h
  | some p =>
    rw [found] at h
    obtain ⟨rfl, rfl⟩ := LineKind.entry.inj h
    refine ⟨solid_trim _, fun newline => whole (mem_of_mem_trim ?_)⟩
    rw [eq_of_splitOnce found]
    exact List.mem_append_right _ (List.mem_cons_of_mem _ (mem_of_mem_trim newline))

theorem lineKind_header_clean {raw name : Text} (whole : '\n' ∉ raw) (h : lineKind raw = .header name) :
    '\n' ∉ name := by
  unfold lineKind at h
  dsimp only at h
  split at h
  · cases h
  split at h
  · obtain rfl := LineKind.header.inj h
    intro newline
    exact whole (mem_of_mem_trim (List.mem_of_mem_tail (List.dropLast_subset _ newline)))
  · split at h <;> cases h

theorem sectionsFrom_clean {ls : List Text} (whole : ∀ raw ∈ ls, '\n' ∉ raw) {current : Option Section}
    (before : ∀ s ∈ current, s.CleanValues) : ∀ s ∈ sectionsFrom current ls, s.CleanValues := by
  induction ls generalizing current with
  | nil =>
    intro s member
    exact before s (Option.mem_toList.mp member)
  | cons raw rest ih =>
    rw [List.forall_mem_cons] at whole
    unfold sectionsFrom
    cases kind : lineKind raw with
    | header name =>
      have opened : ∀ s ∈ some (⟨name, ∅⟩ : Section), s.CleanValues := by
        rintro s ⟨⟩
        refine ⟨lineKind_header_clean whole.1 kind, fun k v found => ?_⟩
        rw [Std.ExtTreeMap.getElem?_empty] at found
        cases found
      intro s member
      rcases List.mem_append.mp member with old | later
      · exact before s (Option.mem_toList.mp old)
      · exact ih whole.2 opened s later
    | entry key value =>
      apply ih whole.2
      intro s member
      obtain ⟨s', held, rfl⟩ := Option.map_eq_some_iff.mp member
      refine ⟨(before s' held).name, fun k v found => ?_⟩
      rw [Std.ExtTreeMap.getElem?_insert] at found
      split at found
      · rw [← Option.some.inj found]
        exact lineKind_entry_clean whole.1 kind
      · exact (before s' held).kv k v found
    | skipped => exact ih whole.2 before
    | unexpected => exact ih whole.2 before

theorem sections_clean {text : Text} : ∀ s ∈ sections text, s.CleanValues :=
  sectionsFrom_clean (fun _ member => newline_not_mem_lines member) nofun

theorem clean_nil : Clean [] := ⟨⟨nofun, nofun⟩, List.not_mem_nil⟩

theorem parseIni_secret_clean {text secret : Text} {peers : Peers} (h : parseIni text = .ok (secret, peers)) :
    Clean secret := by
  rw [(parseIni_loads h).1]
  cases last : ((sections text).filterMap Section.secret).getLast? with
  | none => exact clean_nil
  | some v =>
    obtain ⟨s, listed, found⟩ := List.mem_filterMap.mp (List.mem_of_getLast? last)
    unfold Section.secret at found
    split at found
    · exact (sections_clean s listed).kv _ v found
    · cases found

/-! ### Lists of values -/

/-- An item of a list that is written and read as it is, but for carriage returns. -/
structure Item (a : Text) : Prop where
  solid : Solid a
  nonempty : a ≠ []
  noComma : ',' ∉ a

theorem item_of_parsed {raw a : Text} (member : a ∈ parseCapabilities raw) : Item a ∧ ∀ c ∈ a, c ∈ raw := by
  unfold parseCapabilities at member
  obtain ⟨listed, nonempty⟩ := List.mem_filter.mp member
  obtain ⟨f, field, rfl⟩ := List.mem_map.mp listed
  refine ⟨⟨solid_trim f, of_decide_eq_true nonempty, fun comma => ?_⟩, fun c inside => ?_⟩
  · exact (mem_of_mem_splitOn field (mem_of_mem_trim comma)).2 rfl
  · exact (mem_of_mem_splitOn field (mem_of_mem_trim inside)).1

theorem mem_join {items : List Text} {c : Char} (member : c ∈ join items) : c = ',' ∨ ∃ a ∈ items, c ∈ a := by
  induction items with
  | nil => simp [join] at member
  | cons a items ih =>
    cases items with
    | nil =>
      right
      exact ⟨a, List.mem_singleton_self a, by simpa [join] using member⟩
    | cons b items =>
      rw [join, List.intercalate_cons_cons, List.append_assoc, List.mem_append] at member
      rcases member with first | member
      · exact .inr ⟨a, List.mem_cons_self, first⟩
      rcases List.mem_append.mp member with comma | later
      · exact .inl (List.mem_singleton.mp comma)
      · exact (ih later).imp_right fun ⟨x, listed, inside⟩ => ⟨x, List.mem_cons_of_mem _ listed, inside⟩

theorem join_ne_nil {a : Text} (nonempty : a ≠ []) (items : List Text) : join (a :: items) ≠ [] := by
  cases items with
  | nil => simpa [join] using nonempty
  | cons b items => simp [join, nonempty]

theorem solid_join {items : List Text} (good : ∀ a ∈ items, Item a) : Solid (join items) := by
  induction items with
  | nil => exact ⟨nofun, nofun⟩
  | cons a items ih =>
    rw [List.forall_mem_cons] at good
    cases items with
    | nil => simpa [join] using good.1.solid
    | cons b items =>
      have later := ih good.2
      have nonempty := join_ne_nil (good.2 b List.mem_cons_self).nonempty items
      rw [join, List.intercalate_cons_cons]
      exact good.1.solid.enclose good.1.nonempty later nonempty [',']

theorem parseCapabilities_join {items : List Text} (good : ∀ a ∈ items, Item a) :
    parseCapabilities (join items) = items := by
  cases items with
  | nil => rfl
  | cons a rest =>
    have fields : (join (a :: rest)).splitOn ',' = a :: rest :=
      List.splitOn_intercalate ',' (fun b member => (good b member).noComma) (List.cons_ne_nil a rest)
    have trimmed : (a :: rest).map trim = a :: rest := by
      rw [List.map_congr_left fun b member => trim_of_solid (good b member).solid, List.map_id']
    rw [parseCapabilities, fields, trimmed, List.filter_eq_self]
    exact fun b member => decide_eq_true (good b member).nonempty

/-- A list survives being written and read exactly if each item can stand in a list and has no carriage
return. -/
theorem reread_items_iff {items : List Text} (whole : ∀ a ∈ items, '\n' ∉ a) :
    parseCapabilities (sanitizeIniValue (join items)) = items ↔ ∀ a ∈ items, Item a ∧ '\r' ∉ a := by
  constructor
  · intro same a member
    rw [← same] at member
    obtain ⟨item, inside⟩ := item_of_parsed member
    exact ⟨item, fun cr => (mem_sanitize (inside _ cr)).2.2 rfl⟩
  · intro good
    have items_good := fun a member => (good a member).1
    have clean : Clean (join items) := by
      refine ⟨solid_join items_good, fun newline => ?_⟩
      rcases mem_join newline with comma | ⟨a, member, inside⟩
      · exact absurd comma (by decide)
      · exact whole a member inside
    have kept : sanitizeIniValue (join items) = join items := by
      refine (sanitize_eq_self_iff clean).mpr fun cr => ?_
      rcases mem_join cr with comma | ⟨a, member, inside⟩
      · exact absurd comma (by decide)
      · exact (good a member).2 inside
    rw [kept, parseCapabilities_join items_good]

/-! ### The entries -/

/-- The strings of a configuration that are written as they are. -/
def PeerConfig.strings (p : PeerConfig) : List Text :=
  [p.sshAlias, p.user, p.os, p.tailscaleIp, p.dnsName, p.role, p.status] ++ p.thunderboltIp.toList ++ p.lanIp.toList ++
    p.macAddress.toList ++ p.ghAccount.toList ++ p.runnerPaths.toList ++ p.repoPath.toList

theorem map_eq_self_iff {o : Option Text} {f : Text → Text} : o.map f = o ↔ ∀ v ∈ o.toList, f v = v := by
  cases o <;> simp

theorem reread_eq_self_iff (p : PeerConfig) :
    p.reread = p ↔
      (∀ v ∈ p.strings, sanitizeIniValue v = v) ∧
        parseCapabilities (sanitizeIniValue (join p.capabilities)) = p.capabilities ∧
        parseCapabilities (sanitizeIniValue (join p.aliases)) = p.aliases := by
  obtain ⟨_, _, _, _, _, _, _, _, _, _, _, _, _, _, _, _⟩ := p
  simp only [PeerConfig.reread, PeerConfig.strings, PeerConfig.mk.injEq, map_eq_self_iff, List.forall_mem_append,
    List.forall_mem_cons]
  tauto

def declared (kv : Kv) : List Text := (kv["aliases".toList]?.map parseCapabilities).getD []

/-- The fields of a configuration other than its aliases, given the value of each key. -/
structure PeerConfig.FieldsFrom (cfg : PeerConfig) (value : String → Option Text) : Prop where
  sshAlias : value "ssh_alias" = some cfg.sshAlias
  user : value "user" = some cfg.user
  os : value "os" = some cfg.os
  tailscaleIp : value "tailscale_ip" = some cfg.tailscaleIp
  dnsName : value "dns_name" = some cfg.dnsName
  capabilities : (value "capabilities").map parseCapabilities = some cfg.capabilities
  role : value "role" = some cfg.role
  status : cfg.status = (value "status").getD "active".toList
  thunderboltIp : cfg.thunderboltIp = value "thunderbolt_ip"
  lanIp : cfg.lanIp = value "lan_ip"
  macAddress : cfg.macAddress = value "mac_address"
  ghAccount : cfg.ghAccount = value "gh_account"
  runners : cfg.runners = (value "runners").bind parseU32
  runnerPaths : cfg.runnerPaths = value "runner_paths"
  repoPath : cfg.repoPath = value "repo_path"

theorem buildPeer_ok {name : Text} {kv : Kv} {cfg : PeerConfig} (h : buildPeer name kv = .ok cfg) :
    cfg.FieldsFrom (fun key => kv[key.toList]?) ∧ cfg.aliases = declared kv := by
  obtain ⟨sshAlias, h1, h⟩ := bind_ok h
  obtain ⟨user, h2, h⟩ := bind_ok h
  obtain ⟨os, h3, h⟩ := bind_ok h
  obtain ⟨tailscaleIp, h4, h⟩ := bind_ok h
  obtain ⟨dnsName, h5, h⟩ := bind_ok h
  obtain ⟨capabilities, h6, h⟩ := bind_ok h
  obtain ⟨role, h7, h⟩ := bind_ok h
  obtain rfl := Except.ok.inj h
  refine ⟨⟨require_ok h1, require_ok h2, require_ok h3, require_ok h4, require_ok h5, ?_, require_ok h7, rfl, rfl, rfl,
    rfl, rfl, rfl, rfl, rfl⟩, rfl⟩
  rw [require_ok h6]
  rfl

def storedKeys : List String :=
  ["ssh_alias", "user", "os", "tailscale_ip", "dns_name", "role", "status", "thunderbolt_ip", "lan_ip", "mac_address",
    "gh_account", "runner_paths", "repo_path"]

theorem forall_strings_iff {name : Text} {kv : Kv} {cfg : PeerConfig} (h : buildPeer name kv = .ok cfg)
    {P : Text → Prop} (active : P "active".toList) :
    (∀ v ∈ cfg.strings, P v) ↔ ∀ key ∈ storedKeys, ∀ v, kv[key.toList]? = some v → P v := by
  obtain ⟨⟨sshAlias, user, os, tailscaleIp, dnsName, _, role, status, thunderboltIp, lanIp, macAddress, ghAccount, _,
    runnerPaths, repoPath⟩, _⟩ := buildPeer_ok h
  have status_iff : P cfg.status ↔ ∀ v, kv["status".toList]? = some v → P v := by
    rw [status]
    cases kv["status".toList]? with
    | none => exact iff_of_true active nofun
    | some v => simp
  have optional (o : Option Text) : (∀ v ∈ o.toList, P v) ↔ ∀ v, o = some v → P v := by
    simp only [Option.mem_toList]
  simp only [PeerConfig.strings, storedKeys, List.forall_mem_append, List.forall_mem_cons, status_iff, optional, sshAlias,
    user, os, tailscaleIp, dnsName, role, thunderboltIp, lanIp, macAddress, ghAccount, runnerPaths, repoPath,
    Option.some.injEq, forall_eq', List.not_mem_nil, false_imp_iff, implies_true, and_true, and_assoc]

/-- A peer section of the host `k`. -/
def Section.Of (s : Section) (k : Text) : Prop := ¬s.IsMesh ∧ canonicalPeerName s.name = some k

instance (s : Section) (k : Text) : Decidable (s.Of k) := inferInstanceAs (Decidable (_ ∧ _))

theorem withAlias_fields (canon name : Text) (cfg : PeerConfig) :
    withAlias canon name cfg = { cfg with aliases := (withAlias canon name cfg).aliases } := by
  unfold withAlias
  split <;> rfl

theorem mem_withAlias {canon name a : Text} {cfg : PeerConfig} :
    a ∈ (withAlias canon name cfg).aliases ↔ a ∈ cfg.aliases ∨ a = name ∧ a ≠ canon := by
  unfold withAlias
  split
  · rename_i added
    rw [List.mem_append, List.mem_singleton]
    refine or_congr_right (and_iff_left_of_imp ?_).symm
    rintro rfl
    exact added.1
  · rename_i kept
    refine (or_iff_left_of_imp ?_).symm
    rintro ⟨rfl, other⟩
    by_contra absent
    exact kept ⟨other, absent⟩

theorem Section.read_ok {s : Section} {p : ReadPeer} (h : s.read = .ok p) :
    canonicalPeerName s.name = some p.canon ∧ p.name = s.name ∧
      (∃ cfg, buildPeer s.name s.kv = .ok cfg ∧ p.cfg = { cfg with aliases := p.cfg.aliases }) ∧
      ∀ a, a ∈ p.cfg.aliases ↔ a ∈ declared s.kv ∨ a = s.name ∧ a ≠ p.canon := by
  refine ⟨Section.read_canon h, ?_⟩
  obtain ⟨canon, _, h⟩ := bind_ok h
  obtain ⟨cfg, built, h⟩ := bind_ok h
  obtain rfl := Except.ok.inj h
  have aliases := (buildPeer_ok built).2
  refine ⟨rfl, ⟨cfg, built, withAlias_fields ..⟩, fun a => ?_⟩
  rw [← aliases]
  exact mem_withAlias

theorem mem_mergeAliases {k a : Text} (known more : List Text) :
    a ∈ mergeAliases k known more ↔ a ∈ known ∨ a ∈ more ∧ a ≠ k := by
  induction more generalizing known with
  | nil => simp [mergeAliases]
  | cons x rest ih =>
    unfold mergeAliases
    split
    · rename_i added
      rw [ih, List.mem_append, List.mem_singleton, List.mem_cons]
      constructor
      · rintro ((old | rfl) | ⟨later, other⟩)
        · exact .inl old
        · exact .inr ⟨.inl rfl, added.1⟩
        · exact .inr ⟨.inr later, other⟩
      · rintro (old | ⟨rfl | later, other⟩)
        · exact .inl (.inl old)
        · exact .inl (.inr rfl)
        · exact .inr ⟨later, other⟩
    · rename_i kept
      rw [ih, List.mem_cons]
      constructor
      · exact Or.imp_right (And.imp_left Or.inr)
      · rintro (old | ⟨rfl | later, other⟩)
        · exact .inl old
        · left
          by_contra absent
          exact kept ⟨other, absent⟩
        · exact .inr ⟨later, other⟩

theorem mem_foldl_mergeAliases {k a : Text} (ps : List ReadPeer) (known : List Text) :
    a ∈ ps.foldl (fun known p => mergeAliases k known (p.cfg.aliases ++ [p.name])) known ↔
      a ∈ known ∨ ∃ p ∈ ps, (a ∈ p.cfg.aliases ∨ a = p.name) ∧ a ≠ k := by
  induction ps generalizing known with
  | nil => simp
  | cons p ps ih =>
    rw [List.foldl_cons, ih, mem_mergeAliases, List.mem_append, List.mem_singleton, List.exists_mem_cons_iff, or_assoc]

/-- How the entry of a host comes from its sections. -/
structure EntryFrom (text k : Text) (cfg : PeerConfig) : Prop where
  first : ∃ s cfg₀, (sections text).find? (·.Of k) = some s ∧ buildPeer s.name s.kv = .ok cfg₀ ∧
    cfg = { cfg₀ with aliases := cfg.aliases }
  sources : ∀ a ∈ cfg.aliases, ∃ s ∈ sections text, s.Of k ∧ (a ∈ declared s.kv ∨ a = s.name ∧ a ≠ k)
  collected : ∀ s ∈ sections text, s.Of k → ∀ a, a ∈ declared s.kv ∨ a = s.name → a ≠ k → a ∈ cfg.aliases

theorem Section.peer_eq_some {s : Section} {p : ReadPeer} : s.peer = some p ↔ ¬s.IsMesh ∧ s.read = .ok p := by
  unfold Section.peer
  split
  · rename_i mesh
    exact iff_of_false nofun fun h => h.1 mesh
  · rename_i other
    cases s.read with
    | error stop => exact iff_of_false nofun fun h => nomatch h.2
    | ok q =>
      constructor
      · rintro ⟨⟩
        exact ⟨other, rfl⟩
      · rintro ⟨_, ⟨⟩⟩
        rfl

theorem Section.of_peer {s : Section} {p : ReadPeer} (h : s.peer = some p) : s.Of p.canon := by
  obtain ⟨other, read⟩ := Section.peer_eq_some.mp h
  exact ⟨other, Section.read_canon read⟩

theorem Section.peer_any {s : Section} (read : ¬s.IsMesh → ∃ p, s.read = .ok p) (k : Text) :
    (s.peer.any fun p => decide (p.canon = k)) = decide (s.Of k) := by
  by_cases mesh : s.IsMesh
  · have noPeer : s.peer = none := if_pos mesh
    rw [noPeer, decide_eq_false fun h => h.1 mesh]
    rfl
  · obtain ⟨p, ok⟩ := read mesh
    rw [Section.peer_eq_some.mpr ⟨mesh, ok⟩]
    apply decide_eq_decide.mpr
    constructor
    · rintro rfl
      exact ⟨mesh, Section.read_canon ok⟩
    · rintro ⟨_, canon⟩
      exact Option.some.inj ((Section.read_canon ok).symm.trans canon)

theorem entryFrom {text secret k : Text} {peers : Peers} {cfg : PeerConfig} (h : parseIni text = .ok (secret, peers))
    (held : peers[k]? = some cfg) : EntryFrom text k cfg := by
  have read := (foldlM_flush_ok.mp (parseIni_ok_iff.mp h).2).1
  rw [(parseIni_loads h).2] at held
  have same : ∀ s ∈ sections text, (s.peer.any fun p => decide (p.canon = k)) = decide (s.Of k) :=
    fun s listed => Section.peer_any (read s listed) k
  unfold entryOf at held
  split at held
  · cases held
  rename_i first rest found
  have members : ∀ p ∈ first :: rest, ∃ s ∈ sections text, s.peer = some p ∧ s.Of k := by
    intro p member
    rw [← found] at member
    obtain ⟨listed, canon⟩ := List.mem_filter.mp member
    obtain ⟨s, isSection, peer⟩ := List.mem_filterMap.mp listed
    obtain rfl := of_decide_eq_true canon
    exact ⟨s, isSection, peer, Section.of_peer peer⟩
  have aliases_iff (a : Text) : a ∈ cfg.aliases ↔
      a ∈ first.cfg.aliases ∨ ∃ p ∈ rest, (a ∈ p.cfg.aliases ∨ a = p.name) ∧ a ≠ k := by
    rw [← Option.some.inj held]
    exact mem_foldl_mergeAliases rest _
  constructor
  · have start : ((sections text).filterMap Section.peer).find? (·.canon = k) = some first := by
      rw [← List.head?_filter, found]
      rfl
    rw [List.find?_filterMap, ← List.head?_filter, List.filter_congr same, List.head?_filter] at start
    obtain ⟨s, found, peer⟩ := Option.bind_eq_some_iff.mp start
    obtain ⟨_, _, ⟨cfg₀, built, same_cfg⟩, _⟩ := Section.read_ok (Section.peer_eq_some.mp peer).2
    refine ⟨s, cfg₀, found, built, ?_⟩
    rw [← Option.some.inj held, same_cfg]
  · intro a listed
    rcases (aliases_iff a).mp listed with own | ⟨p, member, source, other⟩
    · obtain ⟨s, isSection, peer, of⟩ := members first List.mem_cons_self
      obtain ⟨canon, _, _, aliases⟩ := Section.read_ok (Section.peer_eq_some.mp peer).2
      obtain rfl := Option.some.inj (canon.symm.trans of.2)
      exact ⟨s, isSection, of, (aliases a).mp own⟩
    · obtain ⟨s, isSection, peer, of⟩ := members p (List.mem_cons_of_mem _ member)
      obtain ⟨_, name, _, aliases⟩ := Section.read_ok (Section.peer_eq_some.mp peer).2
      rcases source with own | rfl
      · exact ⟨s, isSection, of, ((aliases a).mp own).imp_right fun h => ⟨h.1, other⟩⟩
      · exact ⟨s, isSection, of, .inr ⟨name, other⟩⟩
  · intro s isSection of a source other
    obtain ⟨p, ok⟩ := read s isSection of.1
    have peer := Section.peer_eq_some.mpr ⟨of.1, ok⟩
    obtain ⟨canon, _, _, aliases⟩ := Section.read_ok ok
    obtain rfl := Option.some.inj (canon.symm.trans of.2)
    have own : a ∈ p.cfg.aliases := (aliases a).mpr (source.imp_right fun name => ⟨name, other⟩)
    have member : p ∈ first :: rest := by
      rw [← found]
      exact List.mem_filter.mpr ⟨List.mem_filterMap.mpr ⟨s, isSection, peer⟩, decide_eq_true rfl⟩
    rcases List.mem_cons.mp member with rfl | later
    · exact (aliases_iff a).mpr (.inl own)
    · exact (aliases_iff a).mpr (.inr ⟨p, later, .inl own, other⟩)

end ConvergioMesh
