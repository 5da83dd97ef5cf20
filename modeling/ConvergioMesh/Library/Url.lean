import ConvergioMesh.Library.Text

/-!
# HTTP URLs

The basic URL parser of the URL standard for absolute `http` URLs. What it makes of the text of a
host (percent-decoding, IDNA, the number forms of addresses) is a parameter.
-/

namespace ConvergioMesh.Library

structure Url where
  host : Text
  port : Nat
  path : Text
  deriving DecidableEq

/-- Removed wherever it stands in a URL. -/
def isTabOrNewline (c : Char) : Bool := c = '\t' || c = '\n' || c = '\r'

/-- Removed from both ends of a URL. -/
def isC0OrSpace (c : Char) : Bool := c.toNat ≤ 0x20

def withoutTabs (s : Text) : Text := s.filter (!isTabOrNewline ·)

def isUrlSlash (c : Char) : Bool := c = '/' || c = '\\'

def endsAuthority (c : Char) : Bool := isUrlSlash c || c = '?' || c = '#'

def lower (s : Text) : Text := s.map Char.toLower

/-- A host parser, with what the standard says of every host that it returns. -/
structure HostParser where
  parse : Text → Option Text
  /-- No forbidden host code point. -/
  clean : ∀ {s host}, parse s = some host → ∀ c ∈ host, c ≠ '\\' ∧ isTabOrNewline c = false
  /-- A bracket opens an IPv6 address that ends with the text. -/
  closed : ∀ {s host}, parse s = some host → '[' ∈ s → s.getLast? = some ']'

/-- The text up to the first colon outside brackets, and the text after that colon. -/
def splitPort (bracketed : Bool) : Text → Text × Option Text
  | [] => ([], none)
  | c :: rest =>
    if c = ':' ∧ bracketed = false then ([], some rest)
    else
      let split := splitPort (c = '[' || bracketed && c ≠ ']') rest
      (c :: split.1, split.2)

def parsePort : Option Text → Option Nat
  | none | some [] => some 80
  | some digits =>
    if digits.all Char.isDigit = true ∧ Nat.ofDigitChars 10 digits 0 < 2 ^ 16 then some (Nat.ofDigitChars 10 digits 0)
    else none

def parseHostPort (hosts : HostParser) (s : Text) : Option (Text × Nat) :=
  let split := splitPort false s
  if split.1 = [] then none
  else
    match hosts.parse split.1, parsePort split.2 with
    | some host, some port => some (host, port)
    | _, _ => none

theorem parseHostPort_some {hosts : HostParser} {s : Text} {a : Text × Nat} (parsed : parseHostPort hosts s = some a) :
    hosts.parse (splitPort false s).1 = some a.1 ∧ parsePort (splitPort false s).2 = some a.2 := by
  unfold parseHostPort at parsed
  dsimp only at parsed
  split at parsed
  · cases parsed
  split at parsed
  · rename_i host port
    obtain rfl := Option.some.inj parsed
    exact ⟨host, port⟩
  · cases parsed

theorem parsePort_digits {c : Char} {s : Text} {n : Nat} (parsed : parsePort (some (c :: s)) = some n) :
    (∀ d ∈ c :: s, d.isDigit = true) ∧ Nat.ofDigitChars 10 (c :: s) 0 = n := by
  simp only [parsePort] at parsed
  split at parsed
  · rename_i digits
    exact ⟨List.all_eq_true.mp digits.1, Option.some.inj parsed⟩
  · cases parsed

theorem colon_not_mem_of_parsePort {s : Text} {n : Nat} (parsed : parsePort (some s) = some n) : ':' ∉ s := by
  intro colon
  cases s with
  | nil => cases colon
  | cons c s => exact absurd ((parsePort_digits parsed).1 ':' colon) (by decide)

/-- Without a split every colon is in brackets. -/
theorem splitPort_cases (bracketed : Bool) (s : Text) :
    (splitPort bracketed s = (s, none) ∧ (':' ∈ s → bracketed = true ∨ '[' ∈ s)) ∨
      ∃ host port, splitPort bracketed s = (host, some port) ∧ s = host ++ ':' :: port := by
  induction s generalizing bracketed with
  | nil => exact .inl ⟨rfl, fun colon => nomatch colon⟩
  | cons c rest ih =>
    unfold splitPort
    by_cases here : c = ':' ∧ bracketed = false
    · rw [if_pos here, here.1]
      exact .inr ⟨[], rest, rfl, rfl⟩
    rw [if_neg here]
    rcases ih (c = '[' || bracketed && c ≠ ']') with ⟨split, opened⟩ | ⟨host, port, split, whole⟩
    · refine .inl ⟨by rw [split], fun colon => ?_⟩
      rcases List.mem_cons.mp colon with first | later
      · exact .inl (by simpa [first.symm] using here)
      · rcases opened later with bracket | bracket
        · simp only [Bool.or_eq_true, Bool.and_eq_true, decide_eq_true_eq] at bracket
          rcases bracket with rfl | inside
          · exact .inr List.mem_cons_self
          · exact .inl inside.1
        · exact .inr (List.mem_cons_of_mem _ bracket)
    · exact .inr ⟨c :: host, port, by rw [split], by rw [whole, List.cons_append]⟩

theorem dropWhile_ne_cons {c : Char} {s : Text} (member : c ∈ s) :
    s.dropWhile (· ≠ c) = c :: (s.dropWhile (· ≠ c)).tail := by
  induction s with
  | nil => cases member
  | cons d s ih =>
    by_cases here : d = c
    · rw [here, List.dropWhile_cons_of_neg (by simp), List.tail_cons]
    · rw [List.dropWhile_cons_of_pos (by simpa using here)]
      exact ih ((List.mem_cons.mp member).resolve_left (Ne.symm here))

theorem append_cons_inj_of_last {α : Type*} {a : α} {s s' t t' : List α} (last : a ∉ t) (last' : a ∉ t')
    (same : s ++ a :: t = s' ++ a :: t') : s = s' ∧ t = t' := by
  rcases List.append_eq_append_iff.mp same with ⟨u, rfl, rest⟩ | ⟨u, rfl, rest⟩
  · cases u with
    | nil => exact ⟨by simp, (List.cons.inj rest).2⟩
    | cons b u =>
      rw [(List.cons.inj rest).2] at last
      simp at last
  · cases u with
    | nil => exact ⟨by simp, (List.cons.inj rest).2.symm⟩
    | cons b u =>
      rw [(List.cons.inj rest).2] at last'
      simp at last'

/-- A port that is no end of an IPv6 address is split off at the last colon, or nothing is parsed. -/
theorem parseHostPort_last_colon {hosts : HostParser} {host port : Text} {a : Text × Nat} (last : ':' ∉ port)
    (nonempty : port ≠ []) (open_end : port.getLast? ≠ some ']')
    (parsed : parseHostPort hosts (host ++ ':' :: port) = some a) :
    hosts.parse host = some a.1 ∧ parsePort (some port) = some a.2 := by
  obtain ⟨accepted, number⟩ := parseHostPort_some parsed
  rcases splitPort_cases false (host ++ ':' :: port) with ⟨split, opened⟩ | ⟨host', port', split, whole⟩
  · rw [split] at accepted
    have bracket : '[' ∈ host ++ ':' :: port := (opened (by simp)).resolve_left Bool.false_ne_true
    have closing := hosts.closed accepted bracket
    rw [List.getLast?_append_of_ne_nil _ (by simp), List.getLast?_cons_of_ne_nil nonempty] at closing
    exact absurd closing open_end
  · rw [split] at accepted number
    obtain ⟨rfl, rfl⟩ := append_cons_inj_of_last last (colon_not_mem_of_parsePort number) whole
    exact ⟨accepted, number⟩

/-! ### The path -/

/-- The path percent-encode set. -/
def isPathEncoded (c : Char) : Bool :=
  c.toNat ≤ 0x20 || 0x7E < c.toNat || [0x22, 0x23, 0x3C, 0x3E, 0x3F, 0x5E, 0x60, 0x7B, 0x7D].contains c.toNat

def percentEncode (c : Char) : Text :=
  (String.utf8EncodeChar c).flatMap fun b => ['%', (b.toNat / 16).digitChar.toUpper, (b.toNat % 16).digitChar.toUpper]

def isSingleDot (segment : Text) : Bool := [".", "%2e"].any (·.toList = lower segment)

def isDoubleDot (segment : Text) : Bool := ["..", ".%2e", "%2e.", "%2e%2e"].any (·.toList = lower segment)

/-- The segments after one is complete; `slash` if a slash follows it. -/
def closeSegment (slash : Bool) (path : List Text) (segment : Text) : List Text :=
  if isDoubleDot segment then if slash then path.dropLast else path.dropLast ++ [[]]
  else if isSingleDot segment then if slash then path else path ++ [[]]
  else path ++ [segment]

def pathFrom (path : List Text) (segment : Text) : Text → List Text
  | [] => closeSegment false path segment
  | c :: rest =>
    if isUrlSlash c then pathFrom (closeSegment true path segment) [] rest
    else if c = '?' ∨ c = '#' then closeSegment false path segment
    else pathFrom path (segment ++ if isPathEncoded c then percentEncode c else [c]) rest

def urlPath (s : Text) : Text :=
  (pathFrom [] [] (if s.head?.any isUrlSlash then s.tail else s)).flatMap ('/' :: ·)

/-! ### The parser -/

/-- The query and the fragment are left out. -/
def parseHttpUrl (hosts : HostParser) (s : Text) : Option Url :=
  let url := withoutTabs ((s.dropWhile isC0OrSpace).rdropWhile isC0OrSpace)
  if lower (url.take 5) ≠ "http:".toList then none
  else
    let rest := (url.drop 5).dropWhile isUrlSlash
    let authority := rest.takeWhile (!endsAuthority ·)
    (parseHostPort hosts (authority.rtakeWhile (· ≠ '@'))).map fun (host, port) =>
      ⟨host, port, urlPath (rest.dropWhile (!endsAuthority ·))⟩

theorem withoutTabs_eq_self {s : Text} (visible : ∀ c ∈ s, isTabOrNewline c = false) : withoutTabs s = s := by
  apply List.filter_eq_self.mpr
  intro c member
  simp [visible c member]

theorem isTabOrNewline_of_visible {c : Char} (visible : isC0OrSpace c = false) : isTabOrNewline c = false := by
  rw [← Bool.not_eq_true] at visible ⊢
  intro tab
  simp only [isTabOrNewline, Bool.or_eq_true, decide_eq_true_eq] at tab
  rcases tab with (rfl | rfl) | rfl <;> exact visible (by decide)

theorem trim_enclosed {a b : Text} (m : Text) (visible : ∀ c ∈ a ++ b, isC0OrSpace c = false) (start : a ≠ [])
    (finish : b ≠ []) : ((a ++ m ++ b).dropWhile isC0OrSpace).rdropWhile isC0OrSpace = a ++ m ++ b := by
  have head : (a ++ m ++ b).dropWhile isC0OrSpace = a ++ m ++ b := by
    cases a with
    | nil => exact absurd rfl start
    | cons c a => exact List.dropWhile_cons_of_neg (by simp [visible c])
  rw [head, List.rdropWhile_eq_self_iff]
  intro nonempty
  rw [List.getLast_append_of_right_ne_nil _ _ finish, visible _ (List.mem_append_right _ (List.getLast_mem finish))]
  exact Bool.false_ne_true

theorem dropWhile_slashes {c : Char} (s : Text) (first : isUrlSlash c = false) :
    ('/' :: '/' :: c :: s).dropWhile isUrlSlash = c :: s := by
  rw [List.dropWhile_cons_of_pos rfl, List.dropWhile_cons_of_pos rfl, List.dropWhile_cons_of_neg (by simp [first])]

theorem span_authority {authority : Text} (path : Text) (inside : ∀ c ∈ authority, endsAuthority c = false) :
    (authority ++ '/' :: path).takeWhile (!endsAuthority ·) = authority ∧
      (authority ++ '/' :: path).dropWhile (!endsAuthority ·) = '/' :: path := by
  have passes : ∀ c ∈ authority, (!endsAuthority c) = true := fun c member => by simp [inside c member]
  have none : ('/' :: path).takeWhile (!endsAuthority ·) = [] := List.takeWhile_cons_of_neg (by decide)
  have all : ('/' :: path).dropWhile (!endsAuthority ·) = '/' :: path := List.dropWhile_cons_of_neg (by decide)
  rw [List.takeWhile_append_of_pos passes, List.dropWhile_append_of_pos passes, none, all, List.append_nil]
  exact ⟨rfl, rfl⟩

/-- A URL whose authority has no delimiter in it. -/
theorem parseHttpUrl_of_plain {hosts : HostParser} {authority path : Text} (nonempty : authority ≠ [])
    (plain : ∀ c ∈ authority, endsAuthority c = false ∧ isTabOrNewline c = false ∧ c ≠ '@')
    (visible : ∀ c ∈ path, isC0OrSpace c = false) :
    parseHttpUrl hosts ("http://".toList ++ authority ++ '/' :: path) =
      (parseHostPort hosts authority).map fun (host, port) => ⟨host, port, urlPath ('/' :: path)⟩ := by
  have ends : ∀ c ∈ "http://".toList ++ '/' :: path, isC0OrSpace c = false := by
    have scheme : ∀ c ∈ "http://".toList, isC0OrSpace c = false := by simp [isC0OrSpace]
    intro c member
    rcases List.mem_append.mp member with before | after
    · exact scheme c before
    · rcases List.mem_cons.mp after with rfl | inside
      · rfl
      · exact visible c inside
  have whole : withoutTabs ("http://".toList ++ authority ++ '/' :: path) =
      "http://".toList ++ authority ++ '/' :: path := by
    apply withoutTabs_eq_self
    intro c member
    by_cases inside : c ∈ authority
    · exact (plain c inside).2.1
    · exact isTabOrNewline_of_visible (ends c (by simpa [inside] using member))
  have rest : (("http://".toList ++ authority ++ '/' :: path).drop 5).dropWhile isUrlSlash =
      authority ++ '/' :: path := by
    cases authority with
    | nil => exact absurd rfl nonempty
    | cons c authority =>
      have slash := (plain c List.mem_cons_self).1
      simp only [endsAuthority, Bool.or_eq_false_iff] at slash
      have slashes : ("http://".toList ++ c :: authority ++ '/' :: path).drop 5 =
          '/' :: '/' :: c :: (authority ++ '/' :: path) := by simp
      rw [slashes]
      exact dropWhile_slashes _ slash.1.1
  obtain ⟨front, back⟩ := span_authority path fun c member => (plain c member).1
  have kept : authority.rtakeWhile (· ≠ '@') = authority := by
    rw [List.rtakeWhile_eq_self_iff]
    intro c member
    simpa using (plain c member).2.2
  unfold parseHttpUrl
  rw [trim_enclosed _ ends (by simp) (by simp), whole]
  dsimp only
  rw [rest, if_neg (by simp [lower]), front, back, kept]

theorem parseHttpUrl_host_clean {hosts : HostParser} {s : Text} {u : Url} (parsed : parseHttpUrl hosts s = some u) :
    ∀ c ∈ u.host, c ≠ '\\' ∧ isTabOrNewline c = false := by
  unfold parseHttpUrl at parsed
  dsimp only at parsed
  split at parsed
  · cases parsed
  obtain ⟨⟨host, port⟩, authority, rfl⟩ := Option.map_eq_some_iff.mp parsed
  exact hosts.clean (parseHostPort_some authority).1

theorem toLower_eq_iff {c d : Char} (plain : d.isAlpha = false) : c.toLower = d ↔ c = d := by
  obtain ⟨upper, lower⟩ := Bool.or_eq_false_iff.mp plain
  have noUpper : ¬(65 ≤ d.toNat ∧ d.toNat ≤ 90) := of_decide_eq_false upper
  have noLower : ¬(97 ≤ d.toNat ∧ d.toNat ≤ 122) := fun h =>
    Bool.eq_false_iff.mp lower (Bool.and_eq_true_iff.mpr ⟨decide_eq_true h.1, decide_eq_true h.2⟩)
  rcases toLower_cases c with same | ⟨low, high, moved⟩
  · rw [same]
  · constructor
    · rintro rfl
      omega
    · rintro rfl
      omega

theorem mem_lower_iff {c : Char} {s : Text} (plain : c.isAlpha = false) : c ∈ lower s ↔ c ∈ s := by
  unfold lower
  rw [List.mem_map]
  constructor
  · rintro ⟨d, member, same⟩
    exact (toLower_eq_iff plain).mp same ▸ member
  · intro member
    exact ⟨c, member, (toLower_eq_iff plain).mpr rfl⟩

end ConvergioMesh.Library
