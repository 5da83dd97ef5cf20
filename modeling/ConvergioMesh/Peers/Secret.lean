import ConvergioMesh.Peers.Sections
import ConvergioMesh.Transport.Auth

/-!
# The two readers of the shared secret

`parse_ini` takes the last value below an exact `[mesh]`; `load_shared_secret` takes the first
non-empty one below a header that is `[mesh]` up to case.
-/

namespace ConvergioMesh

open Library

def meshHeader : Text := "[mesh]".toList

/-- The loop of `load_shared_secret`. -/
def readSecret (inMeshSection : Bool) : List Text → Option Text
  | [] => none
  | raw :: rest =>
    let line := trim raw
    if eqIgnoreAsciiCase line meshHeader then readSecret true rest
    else if line.head? = some '[' then readSecret false rest
    else if inMeshSection then
      match splitOnce '=' line with
      | some (key, value) =>
        if trim key = "shared_secret".toList then
          let secret := trim value
          if secret ≠ [] then some secret else readSecret inMeshSection rest
        else readSecret inMeshSection rest
      | none => readSecret inMeshSection rest
    else readSecret inMeshSection rest

def textBytes (s : Text) : Bytes := utf8 (String.ofList s)

/-- `load_shared_secret`, given what reading the file returns. -/
def loadSharedSecret (content : Option Text) : Option Bytes :=
  content.bind fun c => (readSecret false (lines c)).map textBytes

/-- What a line assigns to `shared_secret`. -/
def secretValue (raw : Text) : Option Text :=
  match splitOnce '=' (trim raw) with
  | some (key, value) => if trim key = "shared_secret".toList then some (trim value) else none
  | none => none

/-- The lines whose nearest header above, by one notion of a header, is one of `mesh`. -/
def linesUnder (header mesh : Text → Bool) : Bool → List Text → List Text
  | _, [] => []
  | inside, raw :: rest =>
    if header (trim raw) then linesUnder header mesh (mesh (trim raw)) rest
    else if inside then raw :: linesUnder header mesh inside rest
    else linesUnder header mesh inside rest

def exactHeader (line : Text) : Bool := line.head? = some '[' ∧ line.getLast? = some ']'

def looseHeader (line : Text) : Bool := line.head? = some '['

/-- The values assigned below an exact `[mesh]`. -/
def exactValues (text : Text) : List Text :=
  (linesUnder exactHeader (· = meshHeader) false (lines text)).filterMap secretValue

/-- The values assigned below a `[mesh]` in any case, where every line with a leading bracket is a header. -/
def looseValues (text : Text) : List Text :=
  (linesUnder looseHeader (eqIgnoreAsciiCase · meshHeader) false (lines text)).filterMap secretValue

theorem exactHeader_iff {line : Text} :
    exactHeader line = true ↔ line.head? = some '[' ∧ line.getLast? = some ']' := decide_eq_true_iff

theorem looseHeader_iff {line : Text} : looseHeader line = true ↔ line.head? = some '[' := decide_eq_true_iff

theorem looseHeader_of_mesh {line : Text} (h : eqIgnoreAsciiCase line meshHeader = true) : looseHeader line = true := by
  unfold eqIgnoreAsciiCase asciiLower at h
  cases line with
  | nil => exact absurd h (by decide)
  | cons c rest =>
    have same := of_decide_eq_true h
    have first : c.toLower = '[' := (List.cons.inj same).1
    rw [eq_of_toLower first (by decide)]
    rfl

theorem readSecret_eq (ls : List Text) (inside : Bool) :
    readSecret inside ls =
      ((linesUnder looseHeader (eqIgnoreAsciiCase · meshHeader) inside ls).filterMap secretValue).find? (· ≠ []) := by
  induction ls generalizing inside with
  | nil => rfl
  | cons raw rest ih =>
    unfold readSecret linesUnder
    dsimp only
    by_cases mesh : eqIgnoreAsciiCase (trim raw) meshHeader
    · rw [if_pos mesh, if_pos (looseHeader_of_mesh mesh), mesh, ih]
    · rw [if_neg mesh]
      by_cases bracket : (trim raw).head? = some '['
      · rw [if_pos bracket, if_pos (looseHeader_iff.mpr bracket), ih, Bool.eq_false_iff.mpr mesh]
      · rw [if_neg bracket, if_neg (mt looseHeader_iff.mp bracket)]
        cases inside with
        | false => exact ih false
        | true =>
          rw [if_pos rfl, if_pos rfl, List.filterMap_cons, ih, secretValue]
          cases splitOnce '=' (trim raw) with
          | none => rfl
          | some p =>
            dsimp only
            split
            · rw [List.find?_cons]
              by_cases value : trim p.2 = [] <;> simp [value]
            · rfl

theorem eq_meshHeader_iff {line : Text} (header : exactHeader line = true) :
    line = meshHeader ↔ line.tail.dropLast = "mesh".toList := by
  obtain ⟨first, last⟩ := exactHeader_iff.mp header
  constructor
  · rintro rfl
    rfl
  · intro name
    obtain ⟨rest, rfl⟩ := List.head?_eq_some_iff.mp first
    cases rest with
    | nil => cases last
    | cons c rest =>
      rw [List.getLast?_cons_cons] at last
      obtain ⟨front, whole⟩ := List.getLast?_eq_some_iff.mp last
      rw [List.tail_cons, whole, List.dropLast_concat] at name
      rw [whole, name]
      rfl

theorem secretValue_of_comment {raw : Text} (comment : (trim raw).head? = some '#') : secretValue raw = none := by
  unfold secretValue
  cases found : splitOnce '=' (trim raw) with
  | none => rfl
  | some p =>
    have whole := eq_of_splitOnce found
    apply if_neg
    intro key
    rw [whole] at comment
    cases start : p.1 with
    | nil =>
      rw [start] at comment
      have other : '=' = '#' := Option.some.inj comment
      exact absurd other (by decide)
    | cons c rest =>
      rw [start] at comment key
      obtain rfl : c = '#' := Option.some.inj comment
      have front := trim_cons_prefix (c := '#') (by decide) rest
      rw [key] at front
      exact absurd (List.cons_prefix_cons.mp front).1 (by decide)

theorem lineKind_header {raw name : Text} (h : lineKind raw = .header name) :
    exactHeader (trim raw) = true ∧ name = (trim raw).tail.dropLast := by
  unfold lineKind at h
  dsimp only at h
  split at h
  · cases h
  split at h
  · rename_i header
    exact ⟨exactHeader_iff.mpr header, (LineKind.header.inj h).symm⟩
  · split at h <;> cases h

theorem lineKind_entry {raw key value : Text} (h : lineKind raw = .entry key value) :
    exactHeader (trim raw) = false ∧
      secretValue raw = if key = "shared_secret".toList then some value else none := by
  unfold lineKind at h
  dsimp only at h
  split at h
  · cases h
  split at h
  · cases h
  rename_i noHeader
  refine ⟨Bool.eq_false_iff.mpr (mt exactHeader_iff.mp noHeader), ?_⟩
  unfold secretValue
  cases found : splitOnce '=' (trim raw) with
  | none =>
    rw [found] at h
    cases h
  | some p =>
    rw [found] at h
    obtain ⟨rfl, rfl⟩ := LineKind.entry.inj h
    rfl

theorem lineKind_skipped {raw : Text} (h : lineKind raw = .skipped) :
    exactHeader (trim raw) = false ∧ secretValue raw = none := by
  unfold lineKind at h
  dsimp only at h
  split at h
  · rename_i skipped
    rcases skipped with empty | comment
    · unfold secretValue
      rw [empty]
      exact ⟨rfl, rfl⟩
    · refine ⟨Bool.eq_false_iff.mpr fun header => ?_, secretValue_of_comment comment⟩
      have bracket := (exactHeader_iff.mp header).1
      rw [comment] at bracket
      exact absurd bracket (by decide)
  · split at h
    · cases h
    · split at h <;> cases h

theorem lineKind_unexpected {raw : Text} (h : lineKind raw = .unexpected) :
    exactHeader (trim raw) = false ∧ secretValue raw = none := by
  unfold lineKind at h
  dsimp only at h
  split at h
  · cases h
  split at h
  · cases h
  rename_i noHeader
  refine ⟨Bool.eq_false_iff.mpr (mt exactHeader_iff.mp noHeader), ?_⟩
  unfold secretValue
  cases found : splitOnce '=' (trim raw) with
  | none => rfl
  | some p =>
    rw [found] at h
    cases h

/-- The lines below an exact `[mesh]`, from a section on. -/
def meshLines (current : Option Section) (ls : List Text) : List Text :=
  linesUnder exactHeader (· = meshHeader) (current.any (·.IsMesh)) ls

theorem meshLines_header {raw name : Text} (h : lineKind raw = .header name) (current : Option Section) (rest : List Text) :
    meshLines current (raw :: rest) = meshLines (some ⟨name, ∅⟩) rest := by
  obtain ⟨header, rfl⟩ := lineKind_header h
  rw [meshLines, linesUnder, if_pos header, meshLines]
  congr 1
  exact decide_eq_decide.mpr (eq_meshHeader_iff header)

theorem meshLines_values {raw : Text} (h : exactHeader (trim raw) = false) (current : Option Section)
    (rest : List Text) :
    (meshLines current (raw :: rest)).filterMap secretValue =
      (if current.any (·.IsMesh) then (secretValue raw).toList else []) ++
        (meshLines current rest).filterMap secretValue := by
  rw [meshLines, linesUnder, if_neg (by simp [h]), meshLines]
  split
  · rw [List.filterMap_cons]
    cases secretValue raw <;> rfl
  · rfl

theorem secret_insert (current : Option Section) (key value : Text) :
    (current.map fun s => { s with kv := s.kv.insert key value }).bind Section.secret =
      (if current.any (·.IsMesh) then if key = "shared_secret".toList then some value else none else none).or
        (current.bind Section.secret) := by
  cases current with
  | none => rfl
  | some s =>
    simp only [Option.map_some, Option.bind_some, Option.any_some, decide_eq_true_eq]
    unfold Section.secret
    by_cases mesh : s.IsMesh
    · rw [if_pos mesh, if_pos mesh, if_pos mesh, Std.ExtTreeMap.getElem?_insert]
      by_cases same : key = "shared_secret".toList
      · rw [if_pos same, if_pos (Std.compare_eq_iff_eq.mpr same)]
        rfl
      · rw [if_neg same, if_neg (mt Std.compare_eq_iff_eq.mp same)]
        rfl
    · rw [if_neg mesh, if_neg mesh, if_neg mesh]
      rfl

theorem secret_empty (name : Text) : Section.secret ⟨name, ∅⟩ = none := by
  unfold Section.secret
  split
  · exact Std.ExtTreeMap.getElem?_empty
  · rfl

theorem current_secret (current : Option Section) :
    (current.toList.filterMap Section.secret).getLast? = current.bind Section.secret := by
  cases current with
  | none => rfl
  | some s =>
    change ([s].filterMap Section.secret).getLast? = s.secret
    cases secret : s.secret <;> simp [secret]

/-- The last secret of the sections is the last value assigned below an exact header. -/
theorem last_secret (ls : List Text) (current : Option Section) :
    ((sectionsFrom current ls).filterMap Section.secret).getLast? =
      (((meshLines current ls).filterMap secretValue).getLast?).or (current.bind Section.secret) := by
  induction ls generalizing current with
  | nil => exact current_secret current
  | cons raw rest ih =>
    unfold sectionsFrom
    cases kind : lineKind raw with
    | header name =>
      have opened : ((some ⟨name, ∅⟩ : Option Section).bind Section.secret) = none := secret_empty name
      rw [meshLines_header kind, List.filterMap_append, List.getLast?_append, ih, opened, Option.or_none,
        current_secret]
    | entry key value =>
      obtain ⟨noHeader, assigned⟩ := lineKind_entry kind
      have same : meshLines (current.map fun s => { s with kv := s.kv.insert key value }) rest =
          meshLines current rest := by
        cases current <;> rfl
      dsimp only
      rw [ih, same, secret_insert, meshLines_values noHeader, List.getLast?_append, Option.or_assoc, assigned]
      congr 2
      split
      · split <;> rfl
      · rfl
    | skipped =>
      obtain ⟨noHeader, nothing⟩ := lineKind_skipped kind
      dsimp only
      rw [ih, meshLines_values noHeader, nothing]
      simp
    | unexpected =>
      obtain ⟨noHeader, nothing⟩ := lineKind_unexpected kind
      dsimp only
      rw [ih, meshLines_values noHeader, nothing]
      simp

theorem textBytes_injective {s t : Text} (h : textBytes s = textBytes t) : s = t :=
  String.ofList_injective (utf8_injective h)

theorem parseIni_secret {text secret : Text} {peers : Peers} (h : parseIni text = .ok (secret, peers)) :
    secret = (exactValues text).getLast?.getD [] := by
  rw [(parseIni_loads h).1, sections, last_secret, Option.bind_none, Option.or_none]
  rfl

theorem loadSharedSecret_values (text : Text) :
    (loadSharedSecret (some text)).getD [] = textBytes (((looseValues text).find? (· ≠ [])).getD []) := by
  have loose : readSecret false (lines text) = (looseValues text).find? (· ≠ []) := readSecret_eq _ _
  have empty : textBytes [] = [] := rfl
  rw [loadSharedSecret, Option.bind_some, loose, ← empty, Option.getD_map]

/-- The readers agree on an accepted text exactly if the last value below an exact `[mesh]` is the first
non-empty one below a `[mesh]` in any case. -/
theorem secrets_agree_iff {text secret : Text} {peers : Peers} (h : parseIni text = .ok (secret, peers)) :
    (loadSharedSecret (some text)).getD [] = textBytes secret ↔
      (exactValues text).getLast?.getD [] = ((looseValues text).find? (· ≠ [])).getD [] := by
  rw [loadSharedSecret_values, ← parseIni_secret h]
  constructor
  · exact fun same => (textBytes_injective same).symm
  · exact fun same => by rw [same]

theorem linesUnder_congr {header header' mesh mesh' : Text → Bool} {ls : List Text} (inside : Bool)
    (headers : ∀ raw ∈ ls, header (trim raw) = header' (trim raw))
    (meshes : ∀ raw ∈ ls, mesh (trim raw) = mesh' (trim raw)) :
    linesUnder header mesh inside ls = linesUnder header' mesh' inside ls := by
  induction ls generalizing inside with
  | nil => rfl
  | cons raw rest ih =>
    have later (inside : Bool) := ih inside (fun raw later => headers raw (.tail _ later))
      fun raw later => meshes raw (.tail _ later)
    rw [linesUnder, linesUnder, headers raw (.head _), meshes raw (.head _), later, later]

/-- The readers agree where each line with a leading bracket is a whole header, `[mesh]` is in lower case and
`shared_secret` is assigned at most once below it. -/
theorem secrets_agree_of_one {text secret : Text} {peers : Peers} (h : parseIni text = .ok (secret, peers))
    (closed : ∀ raw ∈ lines text, looseHeader (trim raw) = true → exactHeader (trim raw) = true)
    (lower : ∀ raw ∈ lines text, eqIgnoreAsciiCase (trim raw) meshHeader = true → trim raw = meshHeader)
    (once : (exactValues text).length ≤ 1) : (loadSharedSecret (some text)).getD [] = textBytes secret := by
  have headers : ∀ raw ∈ lines text, looseHeader (trim raw) = exactHeader (trim raw) := fun raw line =>
    Bool.eq_iff_iff.mpr ⟨closed raw line, fun header => looseHeader_iff.mpr (exactHeader_iff.mp header).1⟩
  have meshes : ∀ raw ∈ lines text, eqIgnoreAsciiCase (trim raw) meshHeader = decide (trim raw = meshHeader) := by
    refine fun raw line => Bool.eq_iff_iff.mpr ⟨fun mesh => decide_eq_true (lower raw line mesh), fun mesh => ?_⟩
    rw [of_decide_eq_true mesh]
    decide
  have values : looseValues text = exactValues text := by
    rw [looseValues, exactValues, @linesUnder_congr _ _ _ (· = meshHeader) _ false headers meshes]
  rw [loadSharedSecret_values, values, parseIni_secret h]
  match assigned : exactValues text, once with
  | [], _ => rfl
  | [value], _ => by_cases empty : value = [] <;> simp [empty]

def oneSecret : Text := "[mesh]\nshared_secret=a\n".toList

def twoSecrets : Text := "[mesh]\nshared_secret=a\nshared_secret=b\n".toList

theorem oneSecret_agrees :
    ∃ peers, parseIni oneSecret = .ok ("a".toList, peers) ∧
      (loadSharedSecret (some oneSecret)).getD [] = textBytes "a".toList := by
  obtain ⟨peers, parsed⟩ : ∃ peers, parseIni oneSecret = .ok ("a".toList, peers) := ⟨_, rfl⟩
  exact ⟨peers, parsed, (secrets_agree_iff parsed).mpr (by decide)⟩

/-- `parse_ini` keeps the last of two values and `load_shared_secret` returns the first. -/
theorem twoSecrets_disagree :
    ∃ secret peers, parseIni twoSecrets = .ok (secret, peers) ∧
      (loadSharedSecret (some twoSecrets)).getD [] ≠ textBytes secret :=
  ⟨"b".toList, _, rfl, by decide⟩

end ConvergioMesh
