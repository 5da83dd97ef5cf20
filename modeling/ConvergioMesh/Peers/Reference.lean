import ConvergioMesh.Peers.Loaded
import ConvergioMesh.Peers.Secret

/-!
# The reference reading of a configuration

A text as its headers, each with the significant lines up to the next one, and what `parse_ini` makes
of them, without its loop.
-/

namespace ConvergioMesh

open Library

/-- Neither empty nor a comment. -/
def significant (line : Text) : Bool := line ≠ [] ∧ line.head? ≠ some '#'

def significantLines (text : Text) : List Text := ((lines text).map trim).filter significant

structure Stanza where
  name : Text
  body : List Text

def stanzasOf : List Text → List Stanza
  | [] => []
  | line :: rest =>
    if exactHeader line then ⟨line.tail.dropLast, rest.takeWhile (!exactHeader ·)⟩ :: stanzasOf rest
    else stanzasOf rest

def stanzas (text : Text) : List Stanza := stanzasOf (significantLines text)

/-- The key and the value on the two sides of the first `=`. -/
def assignment (line : Text) : Option (Text × Text) := (splitOnce '=' line).map fun p => (trim p.1, trim p.2)

namespace Stanza

def assignments (s : Stanza) : List (Text × Text) := s.body.filterMap assignment

/-- The last value assigned to a key. -/
def value (s : Stanza) (key : String) : Option Text :=
  ((s.assignments.filter (·.1 = key.toList)).getLast?).map (·.2)

abbrev IsMesh (s : Stanza) : Prop := s.name = "mesh".toList

/-- A stanza of the peer `k`. -/
abbrev Of (s : Stanza) (k : Text) : Prop := ¬s.IsMesh ∧ canonical s.name = k

def declared (s : Stanza) : List Text := ((s.value "aliases").map parseCapabilities).getD []

end Stanza

def requiredKeys : List String := ["ssh_alias", "user", "os", "tailscale_ip", "dns_name", "capabilities", "role"]

/-! ### The sections of the loop -/

def Stanza.section (s : Stanza) : Section := ⟨s.name, insertAll ∅ s.assignments⟩

theorem lineKind_eq (raw : Text) :
    lineKind raw =
      if significant (trim raw) = false then .skipped
      else if exactHeader (trim raw) then .header (trim raw).tail.dropLast
      else (assignment (trim raw)).elim .unexpected fun e => .entry e.1 e.2 := by
  have skipped : significant (trim raw) = false ↔ trim raw = [] ∨ (trim raw).head? = some '#' := by
    simp only [significant, decide_eq_false_iff_not, not_and_or, not_not]
  unfold lineKind assignment
  dsimp only
  simp only [skipped, exactHeader_iff]
  cases splitOnce '=' (trim raw) <;> rfl

theorem sectionsFrom_eq (ls : List Text) (current : Option Section) :
    sectionsFrom current ls =
      (current.map fun s => { s with kv := insertAll s.kv ((((ls.map trim).filter significant).takeWhile
        (!exactHeader ·)).filterMap assignment) }).toList ++
        (stanzasOf ((ls.map trim).filter significant)).map Stanza.section := by
  induction ls generalizing current with
  | nil => cases current <;> rfl
  | cons raw rest ih =>
    rw [sectionsFrom, lineKind_eq, List.map_cons, List.filter_cons]
    cases keep : significant (trim raw) with
    | false => exact ih current
    | true =>
      rw [if_neg (by simp), if_pos rfl, List.takeWhile_cons, stanzasOf]
      cases header : exactHeader (trim raw) with
      | true =>
        simp only [if_true]
        rw [ih]
        cases current <;> rfl
      | false =>
        simp only [Bool.false_eq_true, if_false, Bool.not_false, if_true]
        cases entry : assignment (trim raw) with
        | none =>
          rw [List.filterMap_cons_none entry]
          exact ih current
        | some e =>
          rw [List.filterMap_cons_some entry]
          refine (ih _).trans ?_
          cases current <;> rfl

theorem sections_eq (text : Text) : sections text = (stanzas text).map Stanza.section :=
  sectionsFrom_eq (lines text) none

theorem getElem?_insertAll_last (es : List (Text × Text)) (kv : Kv) (k : Text) :
    (insertAll kv es)[k]? = (((es.filter (·.1 = k)).getLast?).map (·.2)).or kv[k]? := by
  induction es using List.reverseRecOn with
  | nil => rfl
  | append_singleton es e ih =>
    rw [insertAll, List.foldl_append, List.foldl_cons, List.foldl_nil, Std.ExtTreeMap.getElem?_insert,
      List.filter_append]
    by_cases same : e.1 = k
    · rw [if_pos (Std.compare_eq_iff_eq.mpr same), List.filter_singleton, decide_eq_true same, cond_true,
        List.getLast?_concat]
      rfl
    · rw [if_neg (mt Std.compare_eq_iff_eq.mp same), List.filter_singleton, decide_eq_false same, cond_false,
        List.append_nil]
      exact ih

theorem section_value (s : Stanza) (key : String) : s.section.kv[key.toList]? = s.value key := by
  rw [Stanza.section, getElem?_insertAll_last, Std.ExtTreeMap.getElem?_empty, Option.or_none]
  rfl

/-! ### What is accepted -/

theorem splitOnce_none_iff {sep : Char} {s : Text} : splitOnce sep s = none ↔ sep ∉ s := by
  induction s with
  | nil => simp [splitOnce]
  | cons c s ih =>
    unfold splitOnce
    split
    · rename_i same
      simp [same]
    · rename_i other
      rw [Option.map_eq_none_iff, ih, List.mem_cons, not_or, and_iff_right (Ne.symm other)]

theorem lineKind_unexpected_iff {raw : Text} :
    lineKind raw = .unexpected ↔
      significant (trim raw) = true ∧ exactHeader (trim raw) = false ∧ '=' ∉ trim raw := by
  rw [lineKind_eq, ← splitOnce_none_iff]
  unfold assignment
  cases significant (trim raw) with
  | false => simp
  | true =>
    cases exactHeader (trim raw) with
    | true => simp
    | false => cases splitOnce '=' (trim raw) <;> simp

/-- Every significant line that is no header contains `=`, and every peer assigns the required keys. -/
structure WellFormed (text : Text) : Prop where
  lines : ∀ line ∈ significantLines text, exactHeader line = false → '=' ∈ line
  peers : ∀ s ∈ stanzas text, ¬s.IsMesh → ∀ key ∈ requiredKeys, (s.value key).isSome

theorem lines_expected_iff (text : Text) :
    (∀ raw ∈ lines text, lineKind raw ≠ .unexpected) ↔
      ∀ line ∈ significantLines text, exactHeader line = false → '=' ∈ line := by
  simp only [significantLines, List.mem_filter, List.mem_map, ne_eq, lineKind_unexpected_iff, not_and, not_not]
  constructor
  · rintro all line ⟨⟨raw, listed, rfl⟩, kept⟩
    exact all raw listed kept
  · exact fun all raw listed kept => all _ ⟨⟨raw, listed, rfl⟩, kept⟩

theorem buildPeer_ok_iff (name : Text) {kv : Kv} :
    (∃ cfg, buildPeer name kv = .ok cfg) ↔ ∀ key ∈ requiredKeys, (kv[key.toList]?).isSome := by
  simp only [requiredKeys, List.forall_mem_cons, Option.isSome_iff_exists]
  constructor
  · rintro ⟨cfg, built⟩
    obtain ⟨fields, _⟩ := buildPeer_ok built
    obtain ⟨capabilities, listed, _⟩ := Option.map_eq_some_iff.mp fields.capabilities
    exact ⟨⟨_, fields.sshAlias⟩, ⟨_, fields.user⟩, ⟨_, fields.os⟩, ⟨_, fields.tailscaleIp⟩, ⟨_, fields.dnsName⟩,
      ⟨_, listed⟩, ⟨_, fields.role⟩, nofun⟩
  · rintro ⟨⟨_, sshAlias⟩, ⟨_, user⟩, ⟨_, os⟩, ⟨_, tailscaleIp⟩, ⟨_, dnsName⟩, ⟨_, capabilities⟩, ⟨_, role⟩, _⟩
    unfold buildPeer require
    rw [sshAlias, user, os, tailscaleIp, dnsName, capabilities, role]
    exact ⟨_, rfl⟩

theorem section_read_iff {s : Stanza} (ascii : IsAscii s.name) :
    (∃ p, s.section.read = .ok p) ↔ ∀ key ∈ requiredKeys, (s.value key).isSome := by
  have canon : canonicalPeerName s.section.name = some (canonical s.name) := ascii.canonicalPeerName
  simp only [← section_value]
  rw [← buildPeer_ok_iff s.section.name]
  unfold Section.read
  rw [canon]
  constructor
  · rintro ⟨p, read⟩
    obtain ⟨_, _, read⟩ := bind_ok read
    obtain ⟨cfg, built, _⟩ := bind_ok read
    exact ⟨cfg, built⟩
  · rintro ⟨cfg, built⟩
    rw [built]
    exact ⟨_, rfl⟩

theorem accepted_iff {text : Text} (ascii : ∀ s ∈ stanzas text, IsAscii s.name) :
    (∃ r, parseIni text = .ok r) ↔ WellFormed text := by
  have readable : (∀ s ∈ sections text, ¬s.IsMesh → ∃ p, s.read = .ok p) ↔
      ∀ s ∈ stanzas text, ¬s.IsMesh → ∀ key ∈ requiredKeys, (s.value key).isSome := by
    rw [sections_eq, List.forall_mem_map]
    exact forall₃_congr fun s listed _ => section_read_iff (ascii s listed)
  constructor
  · rintro ⟨r, accepted⟩
    obtain ⟨expected, flushed⟩ := parseIni_ok_iff.mp accepted
    exact ⟨(lines_expected_iff text).mp expected, readable.mp (foldlM_flush_ok.mp flushed).1⟩
  · intro formed
    exact ⟨_, parseIni_ok_iff.mpr ⟨(lines_expected_iff text).mpr formed.lines,
      foldlM_flush_ok.mpr ⟨readable.mpr formed.peers, rfl⟩⟩⟩

/-! ### What is returned -/

/-- The last secret of the mesh stanzas; the entries by canonical name, with the fields of the first
stanza of each peer, and the aliases of all of them. -/
structure ReadsAs (text secret : Text) (peers : Peers) : Prop where
  secret : secret = ((((stanzas text).filter (·.IsMesh)).filterMap (·.value "shared_secret")).getLast?).getD []
  keys : ∀ k, k ∈ peers ↔ ∃ s ∈ stanzas text, s.Of k
  fields : ∀ k cfg, peers[k]? = some cfg → ∃ s, (stanzas text).find? (·.Of k) = some s ∧ cfg.FieldsFrom s.value
  aliases : ∀ k cfg, peers[k]? = some cfg → ∀ a, a ≠ k →
    (a ∈ cfg.aliases ↔ ∃ s ∈ stanzas text, s.Of k ∧ (a ∈ s.declared ∨ a = s.name))

theorem section_secret (s : Stanza) :
    s.section.secret = if s.IsMesh then s.value "shared_secret" else none := by
  rw [Section.secret, section_value]
  rfl

theorem section_of {s : Stanza} (ascii : IsAscii s.name) (k : Text) : s.section.Of k ↔ s.Of k := by
  have canon : canonicalPeerName s.section.name = some (canonical s.name) := ascii.canonicalPeerName
  unfold Section.Of
  rw [canon, Option.some.injEq]
  rfl

theorem section_declared (s : Stanza) : ConvergioMesh.declared s.section.kv = s.declared := by
  rw [ConvergioMesh.declared, section_value]
  rfl

theorem filterMap_ite {α β : Type} (p : α → Prop) [DecidablePred p] (f : α → Option β) (l : List α) :
    l.filterMap (fun a => if p a then f a else none) = (l.filter (p ·)).filterMap f := by
  rw [List.filterMap_filter]
  refine List.filterMap_congr fun a _ => ?_
  by_cases h : p a <;> simp [h]

theorem mem_sections_of {text k : Text} (ascii : ∀ s ∈ stanzas text, IsAscii s.name) {x : Section} :
    x ∈ sections text ∧ x.Of k ↔ ∃ s ∈ stanzas text, s.Of k ∧ s.section = x := by
  rw [sections_eq, List.mem_map]
  constructor
  · rintro ⟨⟨s, listed, rfl⟩, of⟩
    exact ⟨s, listed, (section_of (ascii s listed) k).mp of, rfl⟩
  · rintro ⟨s, listed, of, rfl⟩
    exact ⟨⟨s, listed, rfl⟩, (section_of (ascii s listed) k).mpr of⟩

theorem find_stanza {text k : Text} (ascii : ∀ s ∈ stanzas text, IsAscii s.name) {x : Section}
    (h : (sections text).find? (·.Of k) = some x) :
    ∃ s, (stanzas text).find? (·.Of k) = some s ∧ s.section = x := by
  have same : ∀ s ∈ stanzas text, decide (s.section.Of k) = decide (s.Of k) :=
    fun s listed => decide_eq_decide.mpr (section_of (ascii s listed) k)
  rw [sections_eq, List.find?_map, Option.map_eq_some_iff] at h
  obtain ⟨s, found, rfl⟩ := h
  refine ⟨s, ?_, rfl⟩
  rw [← List.head?_filter] at found ⊢
  rwa [← List.filter_congr same]

theorem readsAs_of_ok {text secret : Text} {peers : Peers} (ascii : ∀ s ∈ stanzas text, IsAscii s.name)
    (h : parseIni text = .ok (secret, peers)) : ReadsAs text secret peers where
  secret := by
    rw [(parseIni_loads h).1, sections_eq, List.filterMap_map, ← filterMap_ite]
    congr 3
    exact funext section_secret
  keys k := by
    refine (parseIni_keys h).trans ?_
    constructor
    · rintro ⟨x, listed, of⟩
      obtain ⟨s, member, here, _⟩ := (mem_sections_of ascii).mp ⟨listed, of⟩
      exact ⟨s, member, here⟩
    · rintro ⟨s, member, here⟩
      obtain ⟨listed, of⟩ := (mem_sections_of ascii).mpr ⟨s, member, here, rfl⟩
      exact ⟨s.section, listed, of⟩
  fields k cfg held := by
    obtain ⟨x, cfg₀, found, built, same⟩ := (entryFrom h held).first
    obtain ⟨s, first, rfl⟩ := find_stanza ascii found
    refine ⟨s, first, ?_⟩
    have fields := (buildPeer_ok built).1
    simp only [section_value] at fields
    rw [same]
    exact { fields with }
  aliases k cfg held a other := by
    have entry := entryFrom h held
    constructor
    · intro listed
      obtain ⟨x, member, of, source⟩ := entry.sources a listed
      obtain ⟨s, stanza, here, rfl⟩ := (mem_sections_of ascii).mp ⟨member, of⟩
      rw [section_declared] at source
      exact ⟨s, stanza, here, source.imp_right And.left⟩
    · rintro ⟨s, stanza, here, source⟩
      obtain ⟨member, of⟩ := (mem_sections_of ascii).mpr ⟨s, stanza, here, rfl⟩
      refine entry.collected s.section member of a ?_ other
      rwa [section_declared]

/-- For ASCII section names, `parse_ini` accepts the well-formed texts and returns their reference
reading. -/
theorem parseIni_reference {text : Text} (ascii : ∀ s ∈ stanzas text, IsAscii s.name) :
    ((∃ r, parseIni text = .ok r) ↔ WellFormed text) ∧
      ∀ secret peers, parseIni text = .ok (secret, peers) → ReadsAs text secret peers :=
  ⟨accepted_iff ascii, fun _ _ => readsAs_of_ok ascii⟩

/-- A host in two spellings, below the secret. -/
def duplicateText : Text := "[mesh]\nshared_secret=s\n".toList ++ peerText "M5Max.local" ++ peerText "M5Max"

set_option maxRecDepth 8000 in
theorem parseIni_reference_duplicate :
    ((∃ r, parseIni duplicateText = .ok r) ↔ WellFormed duplicateText) ∧
      ∀ secret peers, parseIni duplicateText = .ok (secret, peers) → ReadsAs duplicateText secret peers :=
  parseIni_reference (by decide)

end ConvergioMesh
