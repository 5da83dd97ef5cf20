import ConvergioMesh.Peers.Loaded
import ConvergioMesh.Peers.Secret

/-!
# What a written text can carry

A peer section is read back as that peer alone. The secret is written as it is, so its line breaks
are those of the file.
-/

namespace ConvergioMesh

open Library

/-! ### A peer section -/

theorem lines_peerToIni (name : Text) (p : PeerConfig) : lines (peerToIni name p) = (peerLines (name, p)).tail := by
  rw [peerToIni_eq]
  exact lines_good fun l member => peerLines_good (p := (name, p)) (List.mem_cons_of_mem _ member)

theorem sections_peerToIni (name : Text) (p : PeerConfig) : sections (peerToIni name p) = [writtenSection (name, p)] := by
  have good : ∀ e ∈ written p.fields, plainKey e.1 = true ∧ Solid e.2 := fun e member =>
    ⟨(written_good member).1, (written_good member).2.1⟩
  rw [sections, lines_peerToIni, peerLines, List.tail_cons, sectionsFrom_header]
  have entries := sectionsFrom_entries good (sanitizeIniValue name) ∅ []
  rw [List.append_nil] at entries
  exact entries

/-- A written peer section is read as that peer and nothing else. -/
theorem peerToIni_reread {name : Text} (p : PeerConfig) (ascii : IsAscii (sanitizeIniValue name))
    (peer : sanitizeIniValue name ≠ "mesh".toList) :
    ∃ key, canonicalPeerName (sanitizeIniValue name) = some key ∧
      parseIni (peerToIni name p) = .ok ([], (∅ : Peers).insert key
        { p.reread with
          aliases := p.reread.aliases ++
            if sanitizeIniValue name ≠ key ∧ sanitizeIniValue name ∉ p.reread.aliases then [sanitizeIniValue name]
            else [] }) := by
  have read := read_written (p := (name, p)) ascii
  have isPeer : (writtenSection (name, p)).peer = some (rereadPeer (name, p)) :=
    Section.peer_eq_some.mpr ⟨peer, read⟩
  refine ⟨canonical (sanitizeIniValue name), ascii.canonicalPeerName, parseIni_ok_iff.mpr ⟨?_, ?_⟩⟩
  · intro raw member
    rw [lines_peerToIni] at member
    exact (peerLines_good (List.mem_of_mem_tail member)).expected
  · rw [sections_peerToIni, foldlM_flush_ok]
    refine ⟨fun s member _ => ?_, ?_⟩
    · rw [List.mem_singleton.mp member]
      exact ⟨_, read⟩
    · rw [List.filterMap_cons_none (secret_written (name, p)), List.filterMap_cons_some isPeer]
      change ([], _) = ([], mergePeer ∅ (rereadPeer (name, p)))
      unfold mergePeer rereadPeer withAlias
      dsimp only
      rw [Std.ExtTreeMap.getElem?_empty]
      split
      · rfl
      · rw [List.append_nil]

/-- A peer whose fields try to open a section, and to add a key. -/
def hostilePeer : PeerConfig :=
  { samplePeer with
    sshAlias := "m5\n[evil]".toList
    status := "active\r\nrole=coordinator".toList
    aliases := ["a, b".toList, "c\n#".toList] }

theorem peerToIni_reread_hostile :
    ∃ key, canonicalPeerName (sanitizeIniValue "M5.local]\n[mesh".toList) = some key ∧
      parseIni (peerToIni "M5.local]\n[mesh".toList hostilePeer) = .ok ([], (∅ : Peers).insert key
        { hostilePeer.reread with
          aliases := hostilePeer.reread.aliases ++
            if sanitizeIniValue "M5.local]\n[mesh".toList ≠ key ∧
              sanitizeIniValue "M5.local]\n[mesh".toList ∉ hostilePeer.reread.aliases
            then [sanitizeIniValue "M5.local]\n[mesh".toList] else [] }) := by
  have name : sanitizeIniValue "M5.local]\n[mesh".toList = "M5.local][mesh".toList := by decide
  refine peerToIni_reread hostilePeer ?_ ?_
  · rw [name]
    simp [IsAscii]
  · rw [name]
    decide

/-! ### A saved registry -/

/-- The name in a header. -/
def headerName (raw : Text) : Option Text :=
  match lineKind raw with
  | .header name => some name
  | _ => none

theorem sectionsFrom_names (ls : List Text) (current : Option Section) :
    (sectionsFrom current ls).map (·.name) = (current.map (·.name)).toList ++ ls.filterMap headerName := by
  induction ls generalizing current with
  | nil => cases current <;> rfl
  | cons raw rest ih =>
    have same (key value : Text) :
        ((current.map fun s => { s with kv := s.kv.insert key value }).map (·.name)) = current.map (·.name) := by
      cases current <;> rfl
    unfold sectionsFrom
    cases kind : lineKind raw with
    | header name =>
      have named : headerName raw = some name := by rw [headerName, kind]
      rw [List.filterMap_cons_some named, List.map_append, ih]
      cases current <;> rfl
    | entry key value =>
      have none : headerName raw = none := by rw [headerName, kind]
      rw [List.filterMap_cons_none none]
      exact (ih _).trans (by rw [same])
    | skipped =>
      have none : headerName raw = none := by rw [headerName, kind]
      rw [List.filterMap_cons_none none]
      exact ih _
    | unexpected =>
      have none : headerName raw = none := by rw [headerName, kind]
      rw [List.filterMap_cons_none none]
      exact ih _

theorem headerName_none {c : Char} (solid : isSpace c = false) (other : c ≠ '[') (t : Text) :
    headerName (c :: t) = none := by
  unfold headerName
  split
  · rename_i name kind
    have bracket := (exactHeader_iff.mp (lineKind_header kind).1).1
    obtain ⟨rest, start⟩ := List.head?_eq_some_iff.mp bracket
    have front := trim_cons_prefix solid t
    rw [start] at front
    exact absurd (List.cons_prefix_cons.mp front).1.symm other
  · rfl

/-- What `save` writes of the secret. -/
def secretText (secret : Text) : Text := "[mesh]\n".toList ++ iniLine "shared_secret" secret

/-- The line of the secret, which may contain line breaks. -/
def secretEntry (secret : Text) : Text := entryLine ("shared_secret".toList, secret)

theorem secretText_eq (secret : Text) : secretText secret = block ['[' :: "mesh".toList ++ [']'], secretEntry secret] := by
  have heading : "[mesh]\n".toList = '[' :: "mesh".toList ++ [']', '\n'] := by decide
  have finished : block [] = [] := rfl
  unfold secretText
  rw [heading, block_cons, block_cons, finished, secretEntry, entryLine, iniLine]
  simp only [List.append_assoc, List.cons_append, List.nil_append]

theorem lines_secretText (secret : Text) :
    lines (secretText secret) = ('[' :: "mesh".toList ++ [']']) :: lines (secretEntry secret ++ ['\n']) := by
  have kept := dropCr_of_solid (solid_header "mesh".toList)
  rw [secretText_eq, block_cons, lines_append _ (by decide), kept, block_cons]
  rfl

theorem lines_secretEntry (secret : Text) :
    ∃ c t, isSpace c = false ∧ c ≠ '[' ∧ lines (secretEntry secret ++ ['\n']) = (c :: t) :: laterLines secret := by
  obtain ⟨x, first⟩ := linesFrom_first ("shared_secret".toList ++ ['=']) secret
  have whole : '\n' ∉ "shared_secret".toList ++ ['='] := by decide
  have same : secretEntry secret ++ ['\n'] = ("shared_secret".toList ++ ['=']) ++ (secret ++ ['\n']) := by
    simp only [secretEntry, entryLine, List.append_assoc, List.cons_append, List.nil_append]
  refine ⟨'s', dropCr ("hared_secret".toList ++ ['='] ++ x), by decide, by decide, ?_⟩
  rw [same, lines, linesFrom_skip _ _ whole, List.nil_append, first]
  exact congrArg (· :: _) (dropCr_cons 's' 'h' _)

/-- The header names among the later lines of a secret. -/
def carriedNames (secret : Text) : List Text := (laterLines secret).filterMap headerName

theorem secretText_names (secret : Text) :
    (sections (secretText secret)).map (·.name) = "mesh".toList :: carriedNames secret := by
  obtain ⟨c, t, solid, other, read⟩ := lines_secretEntry secret
  have header : headerName ('[' :: "mesh".toList ++ [']']) = some "mesh".toList := by
    rw [headerName, lineKind_headerLine]
  rw [sections, sectionsFrom_names, lines_secretText, read, List.filterMap_cons_some header,
    List.filterMap_cons_none (headerName_none solid other t)]
  rfl

theorem sections_saved (r : PeersRegistry) :
    sections (savedText r) = sections (secretText r.sharedSecret) ++ r.peers.toList.map writtenSection := by
  have kept := dropCr_of_solid (solid_header "mesh".toList)
  have peers : lines (block (r.peers.toList.flatMap peerLines)) = r.peers.toList.flatMap peerLines := by
    apply lines_good
    intro l member
    obtain ⟨p, _, inside⟩ := List.mem_flatMap.mp member
    exact peerLines_good inside
  have split : lines (savedText r) = lines (secretText r.sharedSecret) ++ r.peers.toList.flatMap peerLines := by
    rw [lines_secretText, savedText_eq, savedLines, block_cons, lines_append _ (by decide), kept, block_cons, lines,
      linesFrom_break, peers]
    rfl
  have appended (ls : List Text) (current : Option Section) :
      sectionsFrom current (ls ++ r.peers.toList.flatMap peerLines) =
        sectionsFrom current ls ++ r.peers.toList.map writtenSection := by
    induction ls generalizing current with
    | nil => exact sections_peerLines _ _
    | cons raw rest ih =>
      simp only [List.cons_append, sectionsFrom]
      split
      · rw [ih, List.append_assoc]
      · exact ih _
      · exact ih _
  rw [sections, split, appended]
  rfl

theorem saved_secret {r : PeersRegistry} {secret : Text} {peers : Peers}
    (h : parseIni (savedText r) = .ok (secret, peers)) :
    secret = ((sections (secretText r.sharedSecret)).filterMap Section.secret).getLast?.getD [] := by
  have others : (r.peers.toList.map writtenSection).filterMap Section.secret = [] := by
    rw [List.filterMap_map, List.filterMap_eq_nil_iff]
    exact fun p _ => secret_written p
  rw [(parseIni_loads h).1, sections_saved, List.filterMap_append, others, List.append_nil]

/-- The keys of a saved registry, once it is read, are its own exactly if each header that the secret carries
names `mesh` or one of its peers. The secret that is read depends on the saved one alone. -/
theorem saved_keys_iff {r : PeersRegistry} {secret : Text} {peers : Peers}
    (h : parseIni (savedText r) = .ok (secret, peers)) :
    ((∀ k ∈ peers, ∃ key ∈ r.peers, canonicalPeerName (sanitizeIniValue key) = some k) ∧
        ∀ (r' : PeersRegistry) (secret' : Text) (peers' : Peers), r'.sharedSecret = r.sharedSecret →
          parseIni (savedText r') = .ok (secret', peers') → secret' = secret) ↔
      ∀ name ∈ carriedNames r.sharedSecret, name = "mesh".toList ∨
        ∃ key ∈ r.peers, canonicalPeerName name = canonicalPeerName (sanitizeIniValue key) := by
  have named : ∀ name, name ∈ "mesh".toList :: carriedNames r.sharedSecret ↔
      ∃ s ∈ sections (secretText r.sharedSecret), s.name = name := by
    intro name
    rw [← secretText_names, List.mem_map]
  constructor
  · rintro ⟨own, _⟩ name carried
    obtain ⟨s, listed, rfl⟩ := (named name).mp (List.mem_cons_of_mem _ carried)
    refine or_iff_not_imp_left.mpr fun other => ?_
    have member : s ∈ sections (savedText r) := by
      rw [sections_saved]
      exact List.mem_append_left _ listed
    obtain ⟨p, read⟩ := (foldlM_flush_ok.mp (parseIni_ok_iff.mp h).2).1 s member other
    have canon := Section.read_canon read
    obtain ⟨key, held, same⟩ := own p.canon ((parseIni_keys h).mpr ⟨s, member, other, canon⟩)
    exact ⟨key, held, canon.trans same.symm⟩
  · intro known
    constructor
    · intro k key
      obtain ⟨s, member, other, canon⟩ := (parseIni_keys h).mp key
      rw [sections_saved, List.mem_append] at member
      rcases member with carried | written
      · rcases List.mem_cons.mp ((named s.name).mpr ⟨s, carried, rfl⟩) with mesh | carried
        · exact absurd mesh other
        obtain ⟨key, held, same⟩ := (known s.name carried).resolve_left other
        exact ⟨key, held, same.symm.trans canon⟩
      · obtain ⟨p, listed, rfl⟩ := List.mem_map.mp written
        exact ⟨p.1, key_of_listed listed, canon⟩
    · intro r' secret' peers' same h'
      rw [saved_secret h', saved_secret h, same]

/-- A secret on one line carries nothing. -/
theorem carriedNames_line {secret : Text} (whole : '\n' ∉ secret) : carriedNames secret = [] := by
  rw [carriedNames, laterLines, lines_append [] whole]
  rfl

def m5Registry (secret : Text) : PeersRegistry := ⟨secret, (∅ : Peers).insert "m5".toList samplePeer⟩

theorem m5Registry_keys {secret key : Text} (held : key ∈ (m5Registry secret).peers) : key = "m5".toList := by
  have member : key ∈ (∅ : Peers).insert "m5".toList samplePeer := held
  rw [Std.ExtTreeMap.mem_insert] at member
  exact (Std.compare_eq_iff_eq.mp (member.resolve_right Std.ExtTreeMap.not_mem_empty)).symm

/-- A secret that assigns another one below a second `[mesh]`. -/
def twoLineSecret : Text := "s\n[mesh]\nshared_secret=t".toList

set_option maxRecDepth 8000 in
theorem saved_keys_m5 :
    ∃ peers, parseIni (savedText (m5Registry twoLineSecret)) = .ok ("t".toList, peers) ∧
      (∀ name ∈ carriedNames twoLineSecret, name = "mesh".toList) ∧
      ∀ k ∈ peers, ∃ key ∈ (m5Registry twoLineSecret).peers, canonicalPeerName (sanitizeIniValue key) = some k := by
  obtain ⟨peers, parsed⟩ : ∃ peers, parseIni (savedText (m5Registry twoLineSecret)) = .ok ("t".toList, peers) := ⟨_, rfl⟩
  have carried : ∀ name ∈ carriedNames twoLineSecret, name = "mesh".toList := by decide
  exact ⟨peers, parsed, carried, ((saved_keys_iff parsed).mpr fun name member => .inl (carried name member)).1⟩

def hostileSecret : Text := "s\n".toList ++ peerText "evil"

set_option maxRecDepth 8000 in
/-- A line break in the secret opens a section of its own. -/
theorem secret_injects_peer :
    (∀ key ∈ (m5Registry hostileSecret).peers, IsAscii key) ∧
      ∃ secret peers, parseIni (savedText (m5Registry hostileSecret)) = .ok (secret, peers) ∧
        "evil".toList ∈ peers ∧
        ¬∃ key ∈ (m5Registry hostileSecret).peers, canonicalPeerName (sanitizeIniValue key) = some "evil".toList := by
  refine ⟨fun key held => ?_, _, _, rfl, by decide, ?_⟩
  · rw [m5Registry_keys held]
    simp [IsAscii]
  · rintro ⟨key, held, same⟩
    rw [m5Registry_keys held] at same
    exact absurd same (by decide)

end ConvergioMesh
