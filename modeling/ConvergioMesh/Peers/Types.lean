import Std.Data.ExtTreeMap
import ConvergioMesh.Library.Text

/-!
# The peers registry

Peers of `peers.conf` by name, and the canonical form of a name. Rust slices strings by bytes and
panics within a character; such calls return `none`.
-/

namespace ConvergioMesh

open Library

inductive PeersError where
  | io
  | missingField (peer field : Text)
  | notFound (name : Text)
  | parse (line : Nat) (msg : Text)
  deriving DecidableEq

structure PeerConfig where
  sshAlias : Text
  user : Text
  os : Text
  tailscaleIp : Text
  dnsName : Text
  capabilities : List Text
  role : Text
  status : Text
  thunderboltIp : Option Text := none
  lanIp : Option Text := none
  macAddress : Option Text := none
  ghAccount : Option Text := none
  runners : Option UInt32 := none
  runnerPaths : Option Text := none
  repoPath : Option Text := none
  aliases : List Text := []
  deriving DecidableEq

/-- `BTreeMap<String, PeerConfig>`: UTF-8 orders strings as their characters. -/
abbrev Peers := Std.ExtTreeMap Text PeerConfig

structure PeersRegistry where
  sharedSecret : Text
  peers : Peers

theorem mem_peers {peers : Peers} {k : Text} : k ∈ peers ↔ ∃ cfg, peers[k]? = some cfg := by
  rw [Std.ExtTreeMap.mem_iff_isSome_getElem?, Option.isSome_iff_exists]

def byteLen (s : Text) : Nat := (s.map Char.utf8Size).sum

/-- `split_at`. -/
def splitAtByte : Text → Nat → Option (Text × Text)
  | s, 0 => some ([], s)
  | [], _ + 1 => none
  | c :: rest, n + 1 =>
    if c.utf8Size ≤ n + 1 then (splitAtByte rest (n + 1 - c.utf8Size)).map fun p => (c :: p.1, p.2) else none

def asciiLower (s : Text) : Text := s.map Char.toLower

def eqIgnoreAsciiCase (s t : Text) : Bool := asciiLower s = asciiLower t

def canonicalPeerName (raw : Text) : Option Text := do
  let trimmed := trim raw
  let stripped ←
    if 6 ≤ byteLen trimmed then do
      let (head, tail) ← splitAtByte trimmed (byteLen trimmed - 6)
      pure (if eqIgnoreAsciiCase tail ".local".toList then head else trimmed)
    else pure trimmed
  return asciiLower stripped

example : canonicalPeerName "  M5Max.Local ".toList = some "m5max".toList := by decide

def IsAscii (s : Text) : Prop := ∀ c ∈ s, c.toNat < 128

instance (s : Text) : Decidable (IsAscii s) := List.decidableBAll _ s

/-! ### ASCII letters -/

theorem mem_asciiLower {s : Text} {d : Char} (other : d.toNat < 97 ∨ 122 < d.toNat) (member : d ∈ asciiLower s) :
    d ∈ s := by
  obtain ⟨c, inside, lower⟩ := List.mem_map.mp member
  rwa [← eq_of_toLower lower other]

@[simp] theorem asciiLower_asciiLower (s : Text) : asciiLower (asciiLower s) = asciiLower s := by
  unfold asciiLower
  rw [List.map_map]
  exact List.map_congr_left fun c _ => toLower_toLower c

@[simp] theorem length_asciiLower (s : Text) : (asciiLower s).length = s.length := List.length_map _

theorem IsAscii.lower {s : Text} (h : IsAscii s) : IsAscii (asciiLower s) := by
  intro d member
  obtain ⟨c, inside, rfl⟩ := List.mem_map.mp member
  have small := h c inside
  rcases toLower_cases c with same | ⟨_, high, moved⟩
  · rwa [same]
  · omega

theorem IsAscii.sublist {s t : Text} (h : IsAscii t) (part : s.Sublist t) : IsAscii s :=
  fun c member => h c (part.mem member)

/-! ### Canonical names of ASCII texts -/

theorem utf8Size_of_ascii {c : Char} (h : c.toNat < 128) : c.utf8Size = 1 := by
  apply Char.utf8Size_eq_one_iff.mpr
  apply UInt32.le_iff_toNat_le.mpr
  change c.toNat ≤ 127
  omega

theorem IsAscii.byteLen {s : Text} (h : IsAscii s) : byteLen s = s.length := by
  induction s with
  | nil => rfl
  | cons c s ih =>
    have small := utf8Size_of_ascii (h c List.mem_cons_self)
    have rest := ih fun d member => h d (List.mem_cons_of_mem _ member)
    unfold ConvergioMesh.byteLen at rest ⊢
    simp only [List.map_cons, List.sum_cons, List.length_cons, small, rest]
    omega

theorem IsAscii.splitAtByte {s : Text} (h : IsAscii s) {n : Nat} (fits : n ≤ s.length) :
    splitAtByte s n = some (s.take n, s.drop n) := by
  induction s generalizing n with
  | nil =>
    obtain rfl : n = 0 := by simpa using fits
    rfl
  | cons c s ih =>
    cases n with
    | zero => rfl
    | succ n =>
      have small := utf8Size_of_ascii (h c List.mem_cons_self)
      have rest := ih (fun d member => h d (List.mem_cons_of_mem _ member)) (n := n) (by simpa using fits)
      simp [ConvergioMesh.splitAtByte, small, rest]

/-- A text without a trailing `.local`. -/
def stripLocal (s : Text) : Text :=
  if 6 ≤ s.length ∧ eqIgnoreAsciiCase (s.drop (s.length - 6)) ".local".toList then s.take (s.length - 6) else s

def canonical (s : Text) : Text := asciiLower (stripLocal (trim s))

theorem IsAscii.canonicalPeerName {s : Text} (h : IsAscii s) : canonicalPeerName s = some (canonical s) := by
  have trimmed := h.sublist (trim_sublist s)
  unfold ConvergioMesh.canonicalPeerName canonical stripLocal
  dsimp only
  rw [trimmed.byteLen]
  by_cases long : 6 ≤ (trim s).length
  · rw [if_pos long, trimmed.splitAtByte (Nat.sub_le _ _)]
    change some (asciiLower (if eqIgnoreAsciiCase _ ".local".toList then _ else _)) = _
    simp only [long, true_and]
  · rw [if_neg long, if_neg fun both => long both.1]
    rfl

theorem stripLocal_initial (s : Text) : stripLocal s <+: s := by
  unfold stripLocal
  split
  · exact List.take_prefix _ _
  · exact List.prefix_rfl

theorem length_canonical (s : Text) : (canonical s).length ≤ s.length := by
  rw [canonical, length_asciiLower]
  exact (stripLocal_initial _).length_le.trans (trim_sublist s).length_le

theorem canonical_of_length {s : Text} (h : s.length ≤ (canonical s).length) :
    trim s = s ∧ canonical s = asciiLower s := by
  rw [canonical, length_asciiLower] at h
  have shorter := (stripLocal_initial (trim s)).length_le
  have trimmed := trim_eq_self_of_length (h.trans shorter)
  have stripped : stripLocal (trim s) = trim s :=
    (stripLocal_initial _).sublist.eq_of_length_le ((trim_sublist s).length_le.trans h)
  refine ⟨trimmed, ?_⟩
  rw [canonical, stripped, trimmed]

theorem mem_canonical {s : Text} {d : Char} (other : d.toNat < 97 ∨ 122 < d.toNat) (member : d ∈ canonical s) :
    d ∈ s :=
  mem_of_mem_trim ((stripLocal_initial _).subset (mem_asciiLower other member))

@[simp] theorem asciiLower_canonical (s : Text) : asciiLower (canonical s) = canonical s := asciiLower_asciiLower _

theorem IsAscii.canonical {s : Text} (h : IsAscii s) : IsAscii (canonical s) :=
  ((h.sublist (trim_sublist s)).sublist (stripLocal_initial _).sublist).lower

end ConvergioMesh
