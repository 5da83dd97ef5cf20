import ConvergioMesh.Peers.Loaded

/-!
# Slices by bytes

Which byte offsets `parse_ini` cuts at lie between two characters, and the texts it panics on.
-/

namespace ConvergioMesh

open Library

/-- `&s[i..j]`. -/
def sliceBytes (s : Text) (i j : Nat) : Option Text := do
  let (front, _) ← splitAtByte s j
  let (_, slice) ← splitAtByte front i
  return slice

@[simp] theorem byteLen_nil : byteLen [] = 0 := rfl

@[simp] theorem byteLen_cons (c : Char) (s : Text) : byteLen (c :: s) = c.utf8Size + byteLen s := rfl

@[simp] theorem byteLen_append (s t : Text) : byteLen (s ++ t) = byteLen s + byteLen t := by
  simp [byteLen]

theorem splitAtByte_append (s t : Text) : splitAtByte (s ++ t) (byteLen s) = some (s, t) := by
  induction s with
  | nil => simp [splitAtByte]
  | cons c s ih =>
    obtain ⟨k, size⟩ : ∃ k, byteLen (c :: s) = k + 1 := ⟨_, (Nat.succ_pred (by
      have := c.utf8Size_pos
      rw [byteLen_cons]
      omega)).symm⟩
    rw [size, List.cons_append, splitAtByte]
    rw [byteLen_cons] at size
    rw [if_pos (by omega), show k + 1 - c.utf8Size = byteLen s by omega, ih]
    rfl

/-- A character that covers the byte `n` without ending before it. -/
theorem splitAtByte_none_iff {s : Text} {n : Nat} (fits : n ≤ byteLen s) :
    splitAtByte s n = none ↔ ∃ a c b, s = a ++ c :: b ∧ byteLen a < n ∧ n < byteLen a + c.utf8Size := by
  induction s generalizing n with
  | nil =>
    obtain rfl : n = 0 := by simpa using fits
    simp [splitAtByte]
  | cons d s ih =>
    cases n with
    | zero => simp [splitAtByte]
    | succ n =>
      rw [byteLen_cons] at fits
      rw [splitAtByte]
      split
      · rename_i whole
        rw [Option.map_eq_none_iff, ih (by omega)]
        constructor
        · rintro ⟨a, c, b, rfl, low, high⟩
          refine ⟨d :: a, c, b, rfl, ?_, ?_⟩ <;> rw [byteLen_cons] <;> omega
        · rintro ⟨a, c, b, same, low, high⟩
          cases a with
          | nil =>
            obtain ⟨rfl, rfl⟩ := List.cons.inj same
            rw [byteLen_nil] at high
            omega
          | cons x a =>
            obtain ⟨rfl, rfl⟩ := List.cons.inj same
            rw [byteLen_cons] at low high
            exact ⟨a, c, b, rfl, by omega, by omega⟩
      · rename_i cut
        simp only [true_iff]
        refine ⟨[], d, s, rfl, by simp, ?_⟩
        rw [byteLen_nil]
        omega

/-- The sixth byte from the end and the one before it belong to one character. -/
def CutBeforeSuffix (s : Text) : Prop := ∃ a c b, s = a ++ c :: b ∧ byteLen b < 6 ∧ 6 < c.utf8Size + byteLen b

theorem canonicalPeerName_none_iff {raw : Text} : canonicalPeerName raw = none ↔ CutBeforeSuffix (trim raw) := by
  unfold canonicalPeerName CutBeforeSuffix
  dsimp only
  by_cases long : 6 ≤ byteLen (trim raw)
  · have panics : splitAtByte (trim raw) (byteLen (trim raw) - 6) = none ↔
        ∃ a c b, trim raw = a ++ c :: b ∧ byteLen b < 6 ∧ 6 < c.utf8Size + byteLen b := by
      rw [splitAtByte_none_iff (Nat.sub_le _ _)]
      refine exists₃_congr fun a c b => and_congr_right fun whole => ?_
      rw [whole, byteLen_append, byteLen_cons] at long ⊢
      omega
    rw [if_pos long, ← panics]
    cases splitAtByte (trim raw) (byteLen (trim raw) - 6) with
    | none => exact iff_of_true rfl rfl
    | some parts => exact iff_of_false nofun nofun
  · rw [if_neg long]
    refine iff_of_false nofun ?_
    rintro ⟨a, c, b, whole, _, high⟩
    rw [whole, byteLen_append, byteLen_cons] at long
    omega

/-! ### The other slices -/

theorem header_slice {line : Text} (first : line.head? = some '[') (last : line.getLast? = some ']') :
    sliceBytes line 1 (byteLen line - 1) = some line.tail.dropLast := by
  obtain ⟨rest, rfl⟩ := List.head?_eq_some_iff.mp first
  cases rest with
  | nil => cases last
  | cons d rest =>
    rw [List.getLast?_cons_cons] at last
    obtain ⟨name, whole⟩ := List.getLast?_eq_some_iff.mp last
    have front : byteLen ('[' :: d :: rest) - 1 = byteLen ('[' :: name) := by
      have bracket : byteLen [']'] = 1 := rfl
      rw [whole, byteLen_cons, byteLen_append, bracket, byteLen_cons]
      omega
    have cut := splitAtByte_append ('[' :: name) [']']
    have cut' := splitAtByte_append ['['] name
    rw [front, List.tail_cons, whole, List.dropLast_concat, sliceBytes]
    change (splitAtByte ('[' :: name ++ [']']) _).bind _ = _
    rw [cut]
    change (splitAtByte (['['] ++ name) (byteLen ['['])).bind _ = _
    rw [cut']
    rfl

theorem entry_slices {line key value : Text} (h : splitOnce '=' line = some (key, value)) :
    splitAtByte line (byteLen key) = some (key, '=' :: value) ∧
      splitAtByte line (byteLen key + 1) = some (key ++ ['='], value) := by
  rw [eq_of_splitOnce h]
  refine ⟨splitAtByte_append _ _, ?_⟩
  have cut := splitAtByte_append (key ++ ['=']) value
  rwa [byteLen_append, List.append_assoc] at cut

/-- The slices of a line: the name between the brackets of a header, and the two sides of the first `=`. -/
def SlicesLine (line : Text) : Prop :=
  (line.head? = some '[' → line.getLast? = some ']' →
      sliceBytes line 1 (byteLen line - 1) = some line.tail.dropLast) ∧
    ∀ key value, splitOnce '=' line = some (key, value) →
      splitAtByte line (byteLen key) = some (key, '=' :: value) ∧
        splitAtByte line (byteLen key + 1) = some (key ++ ['='], value)

theorem slicesLine (line : Text) : SlicesLine line := ⟨header_slice, fun _ _ => entry_slices⟩

/-! ### What the loop flushes -/

/-- The sections that are closed before the first line that makes no sense. -/
def closedFrom : Option Section → List Text → List Section
  | current, [] => current.toList
  | current, raw :: rest =>
    match lineKind raw with
    | .header name => current.toList ++ closedFrom (some ⟨name, ∅⟩) rest
    | .entry key value => closedFrom (current.map fun s => { s with kv := s.kv.insert key value }) rest
    | .skipped => closedFrom current rest
    | .unexpected => []

def closedSections (text : Text) : List Section := closedFrom none (lines text)

theorem parseLines_panics_iff (s : ParseState) (n : Nat) (ls : List Text) :
    (do let s ← parseLines s n ls
        flushSection s.currentSection s.currentKv s.sharedSecret s.peers) = .error .panicked ↔
      (closedFrom s.current ls).foldlM flush (s.sharedSecret, s.peers) = .error .panicked := by
  induction ls generalizing s n with
  | nil =>
    rw [closedFrom, flush_current]
    rfl
  | cons raw rest ih =>
    rw [parseLines, closedFrom, parseLine_eq]
    cases lineKind raw with
    | skipped => exact ih s (n + 1)
    | header name =>
      dsimp only
      rw [List.foldlM_append, flush_current]
      cases flushed : flushSection s.currentSection s.currentKv s.sharedSecret s.peers with
      | error stop => rfl
      | ok acc => exact ih ⟨acc.1, acc.2, some name, ∅⟩ (n + 1)
    | entry key value =>
      have opened : ParseState.current { s with currentKv := s.currentKv.insert key value } =
          s.current.map fun c => { c with kv := c.kv.insert key value } := by
        simp only [ParseState.current, Option.map_map]
        rfl
      dsimp only
      rw [← opened]
      exact ih { s with currentKv := s.currentKv.insert key value } (n + 1)
    | unexpected => simp [bind, Except.bind, pure, Except.pure]

theorem bind_not_panicked {α β : Type} {x : Except Stop α} {f : α → Except Stop β} (first : x ≠ .error .panicked)
    (next : ∀ a, f a ≠ .error .panicked) : x >>= f ≠ .error .panicked := by
  cases x with
  | error stop => simpa [bind, Except.bind] using first
  | ok a => exact next a

theorem require_not_panicked (kv : Kv) (key : String) (peer : Text) : require kv key peer ≠ .error .panicked := by
  unfold require
  split <;> simp

theorem buildPeer_not_panicked (name : Text) (kv : Kv) : buildPeer name kv ≠ .error .panicked := by
  unfold buildPeer
  iterate 7 refine bind_not_panicked (require_not_panicked _ _ _) fun _ => ?_
  nofun

theorem Section.read_panics_iff {s : Section} : s.read = .error .panicked ↔ CutBeforeSuffix (trim s.name) := by
  rw [← canonicalPeerName_none_iff]
  unfold Section.read
  cases canonicalPeerName s.name with
  | none => simp [orPanic, bind, Except.bind]
  | some k =>
    have built := buildPeer_not_panicked s.name s.kv
    cases same : buildPeer s.name s.kv with
    | error stop =>
      rw [same] at built
      simpa [orPanic, bind, Except.bind] using built
    | ok cfg => simp [orPanic, bind, Except.bind, pure, Except.pure]

/-- A monadic fold fails at the first element that its step fails on. -/
theorem foldlM_error_iff {α β : Type} {f : β → α → Except Stop β} {xs : List α} {b : β} {e : Stop} :
    xs.foldlM f b = .error e ↔
      ∃ before x after, xs = before ++ x :: after ∧ ∃ c, before.foldlM f b = .ok c ∧ f c x = .error e := by
  induction xs generalizing b with
  | nil => simp [pure, Except.pure]
  | cons x xs ih =>
    rw [List.foldlM_cons]
    constructor
    · intro fails
      cases step : f b x with
      | error stop =>
        rw [step] at fails
        exact ⟨[], x, xs, rfl, b, rfl, step.trans (congrArg _ (Except.error.inj fails))⟩
      | ok c =>
        rw [step] at fails
        obtain ⟨before, y, after, rfl, d, done, last⟩ := ih.mp fails
        exact ⟨x :: before, y, after, rfl, d, by rw [List.foldlM_cons, step]; exact done, last⟩
    · rintro ⟨before, y, after, whole, d, done, last⟩
      cases before with
      | nil =>
        obtain ⟨rfl, rfl⟩ := List.cons.inj whole
        obtain rfl := Except.ok.inj done
        rw [last]
        rfl
      | cons z before =>
        obtain ⟨rfl, rfl⟩ := List.cons.inj whole
        rw [List.foldlM_cons] at done
        obtain ⟨c, step, done⟩ := bind_ok done
        rw [step]
        exact ih.mpr ⟨before, y, after, rfl, d, done, last⟩

theorem flush_panics_iff {acc : Text × Peers} {s : Section} :
    flush acc s = .error .panicked ↔ ¬s.IsMesh ∧ CutBeforeSuffix (trim s.name) := by
  rw [flush_eq, ← Section.read_panics_iff]
  by_cases mesh : s.IsMesh
  · rw [if_pos mesh]
    exact iff_of_false nofun fun h => h.1 mesh
  · rw [if_neg mesh, and_iff_right mesh]
    cases s.read with
    | error stop => exact ⟨fun same => congrArg _ (Except.error.inj same), fun same => congrArg _ (Except.error.inj same)⟩
    | ok p => exact iff_of_false nofun nofun

theorem parseIni_panics_iff {text : Text} :
    parseIni text = .error .panicked ↔
      ∃ before s after, closedSections text = before ++ s :: after ∧
        (∀ x ∈ before, ¬x.IsMesh → ∃ p, x.read = .ok p) ∧ ¬s.IsMesh ∧ CutBeforeSuffix (trim s.name) := by
  unfold parseIni
  rw [parseLines_panics_iff {} 0 (lines text)]
  change (closedSections text).foldlM flush ([], ∅) = _ ↔ _
  rw [foldlM_error_iff]
  refine exists₃_congr fun before s after => and_congr_right fun _ => ?_
  constructor
  · rintro ⟨acc, done, last⟩
    exact ⟨(foldlM_flush_ok.mp done).1, flush_panics_iff.mp last⟩
  · rintro ⟨read, last⟩
    exact ⟨_, foldlM_flush_ok.mpr ⟨read, rfl⟩, flush_panics_iff.mpr last⟩

/-- Exactly when no slice panics: of the peer sections that are closed after readable ones, none has a
name that is cut within a character. -/
theorem parseIni_never_panics_iff (text : Text) :
    (parseIni text ≠ .error .panicked ∧ ∀ raw ∈ lines text, SlicesLine (trim raw)) ↔
      ∀ before s after, closedSections text = before ++ s :: after →
        (∀ x ∈ before, ¬x.IsMesh → ∃ p, x.read = .ok p) → ¬s.IsMesh → ¬CutBeforeSuffix (trim s.name) := by
  rw [and_iff_left fun raw _ => slicesLine (trim raw), ne_eq, parseIni_panics_iff]
  simp only [not_exists, not_and]

/-- A host name with an umlaut six bytes before its end. -/
def umlautText : Text := "[Zoë-mac1]\nssh_alias=zoe\n".toList

theorem umlaut_panics : parseIni umlautText = .error .panicked := by decide

end ConvergioMesh
