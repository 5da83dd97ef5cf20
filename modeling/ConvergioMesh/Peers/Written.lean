import ConvergioMesh.Peers.Sections

/-!
# Reading back what was written

The sections of a saved text, and what each of them is read back as.
-/

namespace ConvergioMesh

open Library

/-- What `peer_to_ini` writes below the header, in order; an absent field is `none`. -/
def PeerConfig.fields (p : PeerConfig) : List (String × Option Text) :=
  [("ssh_alias", some (sanitizeIniValue p.sshAlias)),
    ("user", some (sanitizeIniValue p.user)),
    ("os", some (sanitizeIniValue p.os)),
    ("tailscale_ip", some (sanitizeIniValue p.tailscaleIp)),
    ("dns_name", some (sanitizeIniValue p.dnsName)),
    ("capabilities", some (sanitizeIniValue (join p.capabilities))),
    ("role", some (sanitizeIniValue p.role)),
    ("status", some (sanitizeIniValue p.status)),
    ("thunderbolt_ip", p.thunderboltIp.map sanitizeIniValue),
    ("lan_ip", p.lanIp.map sanitizeIniValue),
    ("mac_address", p.macAddress.map sanitizeIniValue),
    ("gh_account", p.ghAccount.map sanitizeIniValue),
    ("runners", p.runners.map fun r => Nat.toDigits 10 r.toNat),
    ("runner_paths", p.runnerPaths.map sanitizeIniValue),
    ("repo_path", p.repoPath.map sanitizeIniValue),
    ("aliases", if p.aliases = [] then none else some (sanitizeIniValue (join p.aliases)))]

def fieldKeys : List String :=
  ["ssh_alias", "user", "os", "tailscale_ip", "dns_name", "capabilities", "role", "status", "thunderbolt_ip", "lan_ip",
    "mac_address", "gh_account", "runners", "runner_paths", "repo_path", "aliases"]

theorem fields_keys (p : PeerConfig) : p.fields.map Prod.fst = fieldKeys := rfl

def written (fs : List (String × Option Text)) : List (Text × Text) :=
  fs.filterMap fun f => f.2.map fun v => (f.1.toList, v)

def entryLine (e : Text × Text) : Text := e.1 ++ '=' :: e.2

def block (ls : List Text) : Text := ls.flatMap (· ++ ['\n'])

theorem block_cons (l : Text) (ls : List Text) : block (l :: ls) = l ++ '\n' :: block ls := by
  simp [block]

theorem block_append (ls ls' : List Text) : block (ls ++ ls') = block ls ++ block ls' := List.flatMap_append

theorem block_written (f : String × Option Text) (fs : List (String × Option Text)) :
    block ((written (f :: fs)).map entryLine) =
      (f.2.map (iniLine f.1)).getD [] ++ block ((written fs).map entryLine) := by
  unfold written
  rw [List.filterMap_cons]
  cases f.2 with
  | none => rfl
  | some v => simp [block, entryLine, iniLine]

theorem peerToIni_eq (name : Text) (p : PeerConfig) :
    peerToIni name p =
      block (('[' :: sanitizeIniValue name ++ [']']) :: (written p.fields).map entryLine) := by
  have aliases : (if p.aliases = [] then [] else sanitizedLine "aliases" (join p.aliases)) =
      ((if p.aliases = [] then none else some (sanitizeIniValue (join p.aliases))).map (iniLine "aliases")).getD [] := by
    split <;> rfl
  have optional (key : String) (v : Option Text) :
      optionalLine key v = ((v.map sanitizeIniValue).map (iniLine key)).getD [] := by
    cases v <;> rfl
  have finished : block ((written []).map entryLine) = [] := rfl
  rw [block_cons]
  unfold PeerConfig.fields peerToIni
  simp only [block_written, aliases, optional, finished]
  simp only [sanitizedLine, Option.map_some, Option.getD_some, Option.map_map, Function.comp_def, List.append_assoc,
    List.cons_append, List.nil_append, List.append_nil]

/-! ### Lines -/

/-- Letters and underscores, as in every key that is written. -/
def plainKey (key : Text) : Bool := key ≠ [] ∧ key.all fun c => c.isAlpha || c == '_'

theorem plainKey_mem {key : Text} (plain : plainKey key = true) {c : Char} (member : c ∈ key) :
    c.isAlpha = true ∨ c = '_' := by
  have all := (of_decide_eq_true plain).2
  simpa using List.all_eq_true.mp all c member

theorem isSpace_of_plain {c : Char} (h : c.isAlpha = true ∨ c = '_') : isSpace c = false := by
  rcases h with letter | rfl
  · have range : 65 ≤ c.toNat ∧ c.toNat ≤ 122 := by
      change (decide ('A'.val ≤ c.val ∧ c.val ≤ 'Z'.val) || (decide ('a'.val ≤ c.val) && decide (c.val ≤ 'z'.val))) =
        true at letter
      simp only [Bool.or_eq_true, Bool.and_eq_true, decide_eq_true_eq, UInt32.le_iff_toNat_le] at letter
      change (65 ≤ c.toNat ∧ c.toNat ≤ 90) ∨ (97 ≤ c.toNat ∧ c.toNat ≤ 122) at letter
      omega
    simp only [isSpace, Bool.or_eq_false_iff, Bool.and_eq_false_iff, decide_eq_false_iff_not, beq_eq_false_iff_ne]
    omega
  · decide

theorem plainKey_solid {key : Text} (plain : plainKey key = true) : Solid key := by
  constructor
  · intro c first
    exact isSpace_of_plain (plainKey_mem plain (List.mem_of_head? first))
  · intro c last
    exact isSpace_of_plain (plainKey_mem plain (List.mem_of_getLast? last))

theorem not_mem_plainKey {key : Text} (plain : plainKey key = true) {c : Char} (other : c.isAlpha = false)
    (other' : c ≠ '_') : c ∉ key := by
  intro member
  rcases plainKey_mem plain member with letter | same
  · rw [other] at letter
    cases letter
  · exact other' same

theorem plainKey_head {key : Text} (plain : plainKey key = true) {c : Char} (other : c.isAlpha = false)
    (other' : c ≠ '_') (rest : Text) : (key ++ rest).head? ≠ some c := by
  intro first
  rw [List.head?_append_of_ne_nil _ (of_decide_eq_true plain).1] at first
  exact not_mem_plainKey plain other other' (List.mem_of_head? first)

theorem solid_entryLine {e : Text × Text} (plain : plainKey e.1 = true) (solid : Solid e.2) : Solid (entryLine e) := by
  have start : e.1 ≠ [] := (of_decide_eq_true plain).1
  constructor
  · intro c first
    rw [entryLine, List.head?_append_of_ne_nil _ start] at first
    exact (plainKey_solid plain).1 c first
  · intro c last
    rw [entryLine, List.getLast?_append_of_ne_nil _ (List.cons_ne_nil _ _)] at last
    cases value : e.2 with
    | nil =>
      rw [value] at last
      obtain rfl : '=' = c := Option.some.inj last
      decide
    | cons d rest =>
      rw [value, List.getLast?_cons_cons, ← value] at last
      exact solid.2 c last

theorem lineKind_entryLine {e : Text × Text} (plain : plainKey e.1 = true) (solid : Solid e.2) :
    lineKind (entryLine e) = .entry e.1 e.2 := by
  have kept := trim_of_solid (solid_entryLine plain solid)
  have noComment : (entryLine e).head? ≠ some '#' := plainKey_head plain (by decide) (by decide) _
  have noHeader : (entryLine e).head? ≠ some '[' := plainKey_head plain (by decide) (by decide) _
  have nonempty : entryLine e ≠ [] := by simp [entryLine]
  unfold lineKind
  dsimp only
  rw [kept, if_neg (not_or.mpr ⟨nonempty, noComment⟩), if_neg fun header => noHeader header.1, entryLine,
    splitOnce_append _ (not_mem_plainKey plain (by decide) (by decide))]
  dsimp only
  rw [trim_of_solid (plainKey_solid plain), trim_of_solid solid]

theorem solid_header (name : Text) : Solid ('[' :: name ++ [']']) := by
  constructor
  · intro c first
    obtain rfl : '[' = c := Option.some.inj first
    decide
  · intro c last
    rw [List.getLast?_concat] at last
    obtain rfl : ']' = c := Option.some.inj last
    decide

theorem lineKind_headerLine (name : Text) : lineKind ('[' :: name ++ [']']) = .header name := by
  unfold lineKind
  dsimp only
  rw [trim_of_solid (solid_header name), if_neg (by simp), if_pos ⟨rfl, List.getLast?_concat⟩]
  change LineKind.header (name ++ [']']).dropLast = _
  rw [List.dropLast_concat]

/-! ### Sections -/

theorem lines_block {ls : List Text} (rest : Text) (whole : ∀ l ∈ ls, '\n' ∉ l) (solid : ∀ l ∈ ls, Solid l) :
    lines (block ls ++ rest) = ls ++ lines rest := by
  induction ls with
  | nil => rfl
  | cons l ls ih =>
    have later := ih (fun l' member => whole l' (List.mem_cons_of_mem _ member)) fun l' member =>
      solid l' (List.mem_cons_of_mem _ member)
    rw [block_cons, List.append_assoc, List.cons_append, lines_append _ (whole l List.mem_cons_self), later,
      dropCr_of_solid (solid l List.mem_cons_self)]
    rfl

def insertAll (kv : Kv) (es : List (Text × Text)) : Kv := es.foldl (fun kv e => kv.insert e.1 e.2) kv

theorem sectionsFrom_entries {es : List (Text × Text)} (good : ∀ e ∈ es, plainKey e.1 = true ∧ Solid e.2)
    (name : Text) (kv : Kv) (rest : List Text) :
    sectionsFrom (some ⟨name, kv⟩) (es.map entryLine ++ rest) = sectionsFrom (some ⟨name, insertAll kv es⟩) rest := by
  induction es generalizing kv with
  | nil => rfl
  | cons e es ih =>
    obtain ⟨plain, solid⟩ := good e List.mem_cons_self
    rw [List.map_cons, List.cons_append, sectionsFrom, lineKind_entryLine plain solid]
    exact ih (fun e' later => good e' (List.mem_cons_of_mem _ later)) _

theorem sectionsFrom_header (current : Option Section) (name : Text) (rest : List Text) :
    sectionsFrom current (('[' :: name ++ [']']) :: rest) = current.toList ++ sectionsFrom (some ⟨name, ∅⟩) rest := by
  rw [sectionsFrom, lineKind_headerLine]

theorem sectionsFrom_blank (current : Option Section) (rest : List Text) :
    sectionsFrom current ([] :: rest) = sectionsFrom current rest := rfl

/-! ### Values -/

/-- A value that fits on a line. -/
def Clean (v : Text) : Prop := Solid v ∧ '\n' ∉ v

theorem mem_sanitize {s : Text} {c : Char} (member : c ∈ sanitizeIniValue s) : c ∈ s ∧ c ≠ '\n' ∧ c ≠ '\r' := by
  have kept := mem_of_mem_trim member
  simpa using kept

theorem clean_sanitize (s : Text) : Clean (sanitizeIniValue s) :=
  ⟨solid_trim _, fun member => (mem_sanitize member).2.1 rfl⟩

theorem sanitize_eq_self_iff {v : Text} (clean : Clean v) : sanitizeIniValue v = v ↔ '\r' ∉ v := by
  constructor
  · intro same member
    rw [← same] at member
    exact (mem_sanitize member).2.2 rfl
  · intro absent
    have kept : v.filter (fun c => c ≠ '\n' ∧ c ≠ '\r') = v := by
      rw [List.filter_eq_self]
      intro c member
      apply decide_eq_true
      constructor
      · rintro rfl
        exact clean.2 member
      · rintro rfl
        exact absent member
    rw [sanitizeIniValue, kept, trim_of_solid clean.1]

theorem isSpace_of_digit {c : Char} (digit : c.isDigit = true) : isSpace c = false := by
  simp only [Char.isDigit, Bool.and_eq_true, decide_eq_true_eq, ge_iff_le, UInt32.le_iff_toNat_le] at digit
  change 48 ≤ c.toNat ∧ c.toNat ≤ 57 at digit
  simp only [isSpace, Bool.or_eq_false_iff, Bool.and_eq_false_iff, decide_eq_false_iff_not, beq_eq_false_iff_ne]
  omega

theorem isDigit_toDigits {n : Nat} {c : Char} (member : c ∈ Nat.toDigits 10 n) : c.isDigit = true :=
  Nat.isDigit_of_mem_toDigits (by decide) (by decide) member

theorem clean_digits (n : Nat) : Clean (Nat.toDigits 10 n) := by
  refine ⟨⟨fun c first => ?_, fun c last => ?_⟩, fun member => ?_⟩
  · exact isSpace_of_digit (isDigit_toDigits (List.mem_of_head? first))
  · exact isSpace_of_digit (isDigit_toDigits (List.mem_of_getLast? last))
  · exact absurd (isDigit_toDigits member) (by decide)

theorem parseU32_toDigits (r : UInt32) : parseU32 (Nat.toDigits 10 r.toNat) = some r := by
  have digits : (Nat.toDigits 10 r.toNat).all Char.isDigit = true :=
    List.all_eq_true.mpr fun c member => isDigit_toDigits member
  have unsigned : (Nat.toDigits 10 r.toNat).head? ≠ some '+' := by
    intro first
    exact absurd (isDigit_toDigits (List.mem_of_head? first)) (by decide)
  unfold parseU32
  dsimp only
  rw [if_neg unsigned, Nat.ofDigitChars_ten_toDigits, if_pos ⟨Nat.toDigits_ne_nil, digits, r.toNat_lt⟩]
  simp

theorem fields_good (p : PeerConfig) : ∀ f ∈ p.fields, plainKey f.1.toList = true ∧ ∀ v, f.2 = some v → Clean v := by
  have keys : fieldKeys.all (fun key => plainKey key.toList) = true := by decide
  have present (s : Text) : ∀ v, some (sanitizeIniValue s) = some v → Clean v := by
    rintro v ⟨⟩
    exact clean_sanitize s
  have optional (o : Option Text) : ∀ v, o.map sanitizeIniValue = some v → Clean v := by
    intro v some
    obtain ⟨s, _, rfl⟩ := Option.map_eq_some_iff.mp some
    exact clean_sanitize s
  have number : ∀ v, (p.runners.map fun r => Nat.toDigits 10 r.toNat) = some v → Clean v := by
    intro v some
    obtain ⟨r, _, rfl⟩ := Option.map_eq_some_iff.mp some
    exact clean_digits _
  have aliases : ∀ v, (if p.aliases = [] then none else some (sanitizeIniValue (join p.aliases))) = some v → Clean v := by
    intro v some
    split at some
    · cases some
    · exact present _ v some
  have values : ∀ f ∈ p.fields, ∀ v, f.2 = some v → Clean v := by
    simp only [PeerConfig.fields, List.forall_mem_cons]
    exact ⟨present _, present _, present _, present _, present _, present _, present _, present _, optional _, optional _,
      optional _, optional _, number, optional _, optional _, aliases, fun _ none => nomatch none⟩
  intro f member
  have key : f.1 ∈ fieldKeys := fields_keys p ▸ List.mem_map_of_mem member
  exact ⟨List.all_eq_true.mp keys f.1 key, values f member⟩

theorem written_good {p : PeerConfig} {e : Text × Text} (member : e ∈ written p.fields) :
    plainKey e.1 = true ∧ Clean e.2 := by
  obtain ⟨f, listed, entry⟩ := List.mem_filterMap.mp member
  obtain ⟨v, value, rfl⟩ := Option.map_eq_some_iff.mp entry
  exact ⟨(fields_good p f listed).1, (fields_good p f listed).2 v value⟩

/-! ### The saved text -/

/-- A written peer section. -/
def writtenSection (p : Text × PeerConfig) : Section := ⟨sanitizeIniValue p.1, insertAll ∅ (written p.2.fields)⟩

def peerLines (p : Text × PeerConfig) : List Text :=
  [] :: ('[' :: sanitizeIniValue p.1 ++ [']']) :: (written p.2.fields).map entryLine

def savedLines (r : PeersRegistry) : List Text :=
  ('[' :: "mesh".toList ++ [']']) :: entryLine ("shared_secret".toList, r.sharedSecret) ::
    r.peers.toList.flatMap peerLines

theorem savedText_eq (r : PeersRegistry) : savedText r = block (savedLines r) := by
  have peers (ps : List (Text × PeerConfig)) :
      ps.flatMap (fun p => '\n' :: peerToIni p.1 p.2) = block (ps.flatMap peerLines) := by
    induction ps with
    | nil => rfl
    | cons p ps ih =>
      rw [List.flatMap_cons, List.flatMap_cons, block_append, ih, peerToIni_eq, peerLines, block_cons [],
        List.nil_append]
  have heading : "[mesh]\n".toList = '[' :: "mesh".toList ++ [']', '\n'] := by decide
  unfold savedText savedLines
  rw [heading, peers, block_cons, block_cons, entryLine, iniLine]
  simp only [List.append_assoc, List.cons_append, List.nil_append]

theorem sections_peerLines (ps : List (Text × PeerConfig)) (current : Option Section) :
    sectionsFrom current (ps.flatMap peerLines) = current.toList ++ ps.map writtenSection := by
  induction ps generalizing current with
  | nil => simp [sectionsFrom]
  | cons p ps ih =>
    have good : ∀ e ∈ written p.2.fields, plainKey e.1 = true ∧ Solid e.2 := fun e member =>
      ⟨(written_good member).1, (written_good member).2.1⟩
    rw [List.flatMap_cons, peerLines, List.cons_append, sectionsFrom_blank, List.cons_append, sectionsFrom_header,
      sectionsFrom_entries good, ih]
    simp [writtenSection]

/-- A line that is read as it was written, and makes sense. -/
structure GoodLine (l : Text) : Prop where
  whole : '\n' ∉ l
  solid : Solid l
  expected : lineKind l ≠ .unexpected

theorem entryLine_good {e : Text × Text} (plain : plainKey e.1 = true) (clean : Clean e.2) : GoodLine (entryLine e) := by
  refine ⟨fun newline => ?_, solid_entryLine plain clean.1, ?_⟩
  · rcases List.mem_append.mp newline with key | value
    · exact not_mem_plainKey plain (by decide) (by decide) key
    · exact (List.mem_cons.mp value).elim (by decide) clean.2
  · rw [lineKind_entryLine plain clean.1]
    nofun

theorem headerLine_good {name : Text} (whole : '\n' ∉ name) : GoodLine ('[' :: name ++ [']']) := by
  refine ⟨by simp [whole], solid_header name, ?_⟩
  rw [lineKind_headerLine]
  nofun

theorem peerLines_good {p : Text × PeerConfig} {l : Text} (member : l ∈ peerLines p) : GoodLine l := by
  rcases List.mem_cons.mp member with rfl | inside
  · exact ⟨by simp, ⟨nofun, nofun⟩, nofun⟩
  rcases List.mem_cons.mp inside with rfl | inside
  · exact headerLine_good (clean_sanitize p.1).2
  · obtain ⟨e, listed, rfl⟩ := List.mem_map.mp inside
    exact entryLine_good (written_good listed).1 (written_good listed).2

theorem savedLines_good {r : PeersRegistry} (secret : Clean r.sharedSecret) {l : Text} (member : l ∈ savedLines r) :
    GoodLine l := by
  rcases List.mem_cons.mp member with rfl | member
  · exact headerLine_good (by decide)
  rcases List.mem_cons.mp member with rfl | member
  · exact entryLine_good (show plainKey "shared_secret".toList = true by decide) secret
  obtain ⟨p, _, inside⟩ := List.mem_flatMap.mp member
  exact peerLines_good inside

theorem lines_good {ls : List Text} (good : ∀ l ∈ ls, GoodLine l) : lines (block ls) = ls := by
  have read := lines_block [] (fun l member => (good l member).whole) fun l member => (good l member).solid
  rw [← List.append_nil (block ls), read]
  exact List.append_nil _

theorem lines_savedText {r : PeersRegistry} (secret : Clean r.sharedSecret) : lines (savedText r) = savedLines r := by
  rw [savedText_eq, lines_good fun l => savedLines_good secret]

theorem sections_savedText {r : PeersRegistry} (secret : Clean r.sharedSecret) :
    sections (savedText r) =
      ⟨"mesh".toList, insertAll ∅ [("shared_secret".toList, r.sharedSecret)]⟩ :: r.peers.toList.map writtenSection := by
  have entry : ∀ e ∈ [("shared_secret".toList, r.sharedSecret)], plainKey e.1 = true ∧ Solid e.2 := by
    intro e member
    rw [List.mem_singleton] at member
    subst e
    exact ⟨show plainKey "shared_secret".toList = true by decide, secret.1⟩
  rw [sections, lines_savedText secret, savedLines, sectionsFrom_header]
  exact (sectionsFrom_entries entry _ _ _).trans (sections_peerLines _ _)

/-! ### Reading a written peer -/

theorem getElem?_insertAll {fs : List (String × Option Text)} (distinct : (fs.map Prod.fst).Nodup) (kv : Kv)
    (key : String) : (insertAll kv (written fs))[key.toList]? = (fs.lookup key).join.or kv[key.toList]? := by
  induction fs generalizing kv with
  | nil => rfl
  | cons f fs ih =>
    obtain ⟨k, v⟩ := f
    rw [List.map_cons, List.nodup_cons] at distinct
    have step : insertAll kv (written ((k, v) :: fs)) =
        insertAll ((v.map fun x => kv.insert k.toList x).getD kv) (written fs) := by
      cases v <;> rfl
    rw [step, ih distinct.2]
    by_cases same : key = k
    · subst k
      have later : fs.lookup key = none := by
        rw [List.lookup_eq_none_iff]
        intro p member
        rw [bne_iff_ne]
        rintro rfl
        exact distinct.1 (List.mem_map.mpr ⟨p, member, rfl⟩)
      rw [later, List.lookup_cons_self]
      cases v with
      | none => rfl
      | some x => simp
    · have other : (key == k) = false := beq_eq_false_iff_ne.mpr same
      rw [List.lookup_cons, other]
      congr 1
      cases v with
      | none => rfl
      | some x =>
        change (kv.insert k.toList x)[key.toList]? = _
        have apart : k.toList ≠ key.toList := fun eq => same (String.toList_inj.mp eq).symm
        rw [Std.ExtTreeMap.getElem?_insert, if_neg (mt Std.compare_eq_iff_eq.mp apart)]

theorem getElem?_written (p : PeerConfig) (key : String) :
    (insertAll ∅ (written p.fields))[key.toList]? = (p.fields.lookup key).join := by
  have distinct : (p.fields.map Prod.fst).Nodup := by
    rw [fields_keys]
    decide
  rw [getElem?_insertAll distinct, Std.ExtTreeMap.getElem?_empty, Option.or_none]

/-- A configuration after one save and load. -/
def PeerConfig.reread (p : PeerConfig) : PeerConfig where
  sshAlias := sanitizeIniValue p.sshAlias
  user := sanitizeIniValue p.user
  os := sanitizeIniValue p.os
  tailscaleIp := sanitizeIniValue p.tailscaleIp
  dnsName := sanitizeIniValue p.dnsName
  capabilities := parseCapabilities (sanitizeIniValue (join p.capabilities))
  role := sanitizeIniValue p.role
  status := sanitizeIniValue p.status
  thunderboltIp := p.thunderboltIp.map sanitizeIniValue
  lanIp := p.lanIp.map sanitizeIniValue
  macAddress := p.macAddress.map sanitizeIniValue
  ghAccount := p.ghAccount.map sanitizeIniValue
  runners := p.runners
  runnerPaths := p.runnerPaths.map sanitizeIniValue
  repoPath := p.repoPath.map sanitizeIniValue
  aliases := parseCapabilities (sanitizeIniValue (join p.aliases))

theorem buildPeer_written (name : Text) (p : PeerConfig) :
    buildPeer name (insertAll ∅ (written p.fields)) = .ok p.reread := by
  have runners : (p.runners.map fun r => Nat.toDigits 10 r.toNat).bind parseU32 = p.runners := by
    cases p.runners with
    | none => rfl
    | some r => exact parseU32_toDigits r
  have aliases : ((if p.aliases = [] then none else some (sanitizeIniValue (join p.aliases))).map
      parseCapabilities).getD [] = parseCapabilities (sanitizeIniValue (join p.aliases)) := by
    split
    · rename_i empty
      rw [empty]
      rfl
    · rfl
  unfold buildPeer require
  simp only [getElem?_written]
  change Except.ok { p.reread with
    runners := (p.runners.map fun r : UInt32 => Nat.toDigits 10 r.toNat).bind parseU32
    aliases := ((if p.aliases = [] then none else some (sanitizeIniValue (join p.aliases))).map
      parseCapabilities).getD [] } = _
  rw [runners, aliases]
  rfl

/-- A written peer as it is read back, unless its name is taken for the section of the secret. -/
def rereadPeer (p : Text × PeerConfig) : ReadPeer :=
  let name := sanitizeIniValue p.1
  ⟨canonical name, name, withAlias (canonical name) name p.2.reread⟩

theorem IsAscii.sanitize {s : Text} (h : IsAscii s) : IsAscii (sanitizeIniValue s) :=
  fun c member => h c (mem_sanitize member).1

theorem read_written {p : Text × PeerConfig} (ascii : IsAscii (sanitizeIniValue p.1)) :
    (writtenSection p).read = .ok (rereadPeer p) := by
  unfold Section.read writtenSection
  dsimp only
  rw [ascii.canonicalPeerName, buildPeer_written]
  rfl

theorem secret_written (p : Text × PeerConfig) : (writtenSection p).secret = none := by
  have none : p.2.fields.lookup "shared_secret" = none := rfl
  rw [Section.secret, writtenSection, getElem?_written, none, Option.join_none, ite_self]

def rereadPeers (ps : List (Text × PeerConfig)) : List ReadPeer :=
  ps.filterMap fun p => if sanitizeIniValue p.1 = "mesh".toList then none else some (rereadPeer p)

theorem peers_written {ps : List (Text × PeerConfig)} (ascii : ∀ p ∈ ps, IsAscii p.1) :
    (ps.map writtenSection).filterMap Section.peer = rereadPeers ps := by
  rw [List.filterMap_map]
  apply List.filterMap_congr
  intro p member
  rw [Function.comp_apply, Section.peer, read_written (ascii p member).sanitize]
  rfl

theorem key_of_listed {peers : Peers} {p : Text × PeerConfig} (member : p ∈ peers.toList) : p.1 ∈ peers :=
  mem_peers.mpr ⟨p.2, Std.ExtTreeMap.mem_toList_iff_getElem?_eq_some.mp member⟩

theorem parseIni_savedText {r : PeersRegistry} (secret : Clean r.sharedSecret) (ascii : ∀ k ∈ r.peers, IsAscii k) :
    parseIni (savedText r) = .ok (r.sharedSecret, (rereadPeers r.peers.toList).foldl mergePeer ∅) := by
  have listed : ∀ p ∈ r.peers.toList, IsAscii p.1 := fun p member => ascii p.1 (key_of_listed member)
  have mesh : Section.secret ⟨"mesh".toList, insertAll ∅ [("shared_secret".toList, r.sharedSecret)]⟩ =
      some r.sharedSecret := by
    rw [Section.secret, if_pos rfl]
    exact Std.ExtTreeMap.getElem?_insert_self
  have others : (r.peers.toList.map writtenSection).filterMap Section.secret = [] := by
    rw [List.filterMap_map, List.filterMap_eq_nil_iff]
    exact fun p _ => secret_written p
  rw [parseIni_ok_iff, sections_savedText secret, foldlM_flush_ok]
  refine ⟨fun raw member => ?_, ?_, ?_⟩
  · rw [lines_savedText secret] at member
    exact (savedLines_good secret member).expected
  · rw [List.forall_mem_cons]
    refine ⟨fun other => absurd rfl other, fun s member _ => ?_⟩
    obtain ⟨p, inside, rfl⟩ := List.mem_map.mp member
    exact ⟨_, read_written (listed p inside).sanitize⟩
  · have noPeer : Section.peer ⟨"mesh".toList, insertAll ∅ [("shared_secret".toList, r.sharedSecret)]⟩ = none :=
      if_pos rfl
    rw [List.filterMap_cons_some mesh, others, List.filterMap_cons_none noPeer, peers_written listed]
    rfl

end ConvergioMesh
