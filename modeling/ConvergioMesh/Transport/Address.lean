import ConvergioMesh.Library.Url
import ConvergioMesh.Transport.Import

/-!
# Where a request goes

The URLs of both sync endpoints hold the peer's address as it is written. Among the delimiters of a
URL the address check lets a backslash, a tab and a line break through.
-/

namespace ConvergioMesh

open Library (HostParser Text Url endsAuthority isTabOrNewline isUrlSlash lower parseHttpUrl parsePort urlPath)

/-- Where a node sends its changes, and where it fetches those of a peer. -/
inductive SyncEndpoint where
  | importChanges
  | exportChanges

def SyncEndpoint.path : SyncEndpoint → String
  | .importChanges => importPath
  | .exportChanges => "/api/sync/export"

/-- The URL that `send_changes_to_peer` or `fetch_changes_from_peer` builds. The query of an export is
added once it is parsed. -/
def SyncEndpoint.url (endpoint : SyncEndpoint) (peerAddr : String) : String := "http://" ++ peerAddr ++ endpoint.path

/-- The part of an address before the last colon. -/
def addrHost (addr : String) : Text := (addr.toList.reverse.dropWhile (· ≠ ':')).tail.reverse

/-- The part after it. -/
def addrPort (addr : String) : Text := (addr.toList.reverse.takeWhile (· ≠ ':')).reverse

def portNumber (port : Text) : Option Int := digitsValue (if port.head? = some '+' then port.tail else port)

/-- The request goes to the host and the port of the address, and to the path of the endpoint. -/
structure SentTo (u : Url) (addr : String) (endpoint : SyncEndpoint) : Prop where
  host : lower u.host = lower (addrHost addr)
  port : portNumber (addrPort addr) = some (u.port : Int)
  path : u.path = endpoint.path.toList

/-- The host parser returns the text up to letter case. -/
def KeepsHost (hosts : HostParser) (s : Text) : Prop := ∃ host, hosts.parse s = some host ∧ lower host = lower s

/-- No character that ends the authority or is removed from a URL. -/
def NoDelimiter (s : Text) : Prop := ∀ c ∈ s, c ≠ '\\' ∧ isTabOrNewline c = false

variable {addr : String} {hosts : HostParser} {u : Url} {endpoint : SyncEndpoint}

theorem addr_split (colon : ':' ∈ addr.toList) : addr.toList = addrHost addr ++ ':' :: addrPort addr := by
  have split := (List.takeWhile_append_dropWhile (p := (· ≠ ':')) (l := addr.toList.reverse)).symm
  rw [Library.dropWhile_ne_cons (List.mem_reverse.mpr colon)] at split
  calc addr.toList = addr.toList.reverse.reverse := List.reverse_reverse _ |>.symm
    _ = addrHost addr ++ ':' :: addrPort addr := by
      rw [split, List.reverse_append, List.reverse_cons, addrHost, addrPort, List.append_assoc, List.singleton_append]

theorem colon_not_mem_addrPort : ':' ∉ addrPort addr := by
  intro colon
  simpa using List.mem_takeWhile_imp (List.mem_reverse.mp colon)

/-- What the check lets through. -/
structure AcceptedAddr (addr : String) : Prop where
  colon : ':' ∈ addr.toList
  port : isU16 (addrPort addr) = true
  host : ∀ c ∈ addrHost addr, c ≠ '/' ∧ c ≠ '@' ∧ c ≠ '?' ∧ c ≠ '#'

theorem acceptedAddr_of_ok (accepted : validatePeerAddr addr = .ok ()) : AcceptedAddr addr := by
  unfold validatePeerAddr at accepted
  split at accepted
  · cases accepted
  rename_i colon
  dsimp only at accepted
  split at accepted
  · cases accepted
  rename_i port
  split at accepted
  · cases accepted
  rename_i host
  refine ⟨not_not.mp colon, by simpa [addrPort] using port, fun c member => ?_⟩
  simp only [List.any_eq_true, not_exists, not_and, Bool.or_eq_true, decide_eq_true_eq] at host
  have plain := host c member
  push Not at plain
  exact ⟨plain.1.1.1, plain.1.1.2, plain.1.2, plain.2⟩

/-! ### The port -/

theorem isU16_digits {port : Text} (number : isU16 port = true) :
    port ≠ [] ∧ ∀ c ∈ port, c = '+' ∨ c.isDigit = true := by
  obtain ⟨n, value, _⟩ := (Option.any_eq_true _ _).mp number
  obtain ⟨nonempty, digits⟩ := digitsValue_some value
  split at nonempty
  · rename_i signed
    obtain ⟨rest, rfl⟩ := List.head?_eq_some_iff.mp signed
    rw [if_pos signed] at digits
    exact ⟨List.cons_ne_nil _ _, List.forall_mem_cons.mpr ⟨.inl rfl, fun c member => .inr (digits c member)⟩⟩
  · rename_i unsigned
    rw [if_neg unsigned] at digits
    exact ⟨nonempty, fun c member => .inr (digits c member)⟩

theorem portNumber_of_parsePort {port : Text} {n : Nat} (nonempty : port ≠ [])
    (parsed : parsePort (some port) = some n) : portNumber port = some (n : Int) := by
  cases port with
  | nil => exact absurd rfl nonempty
  | cons c port =>
    obtain ⟨digits, value⟩ := Library.parsePort_digits parsed
    have unsigned : ¬(c :: port).head? = some '+' := by
      intro signed
      obtain rfl : c = '+' := Option.some.inj signed
      exact absurd (digits '+' List.mem_cons_self) (by decide)
    rw [portNumber, if_neg unsigned, digitsValue, if_pos ⟨nonempty, List.all_eq_true.mpr digits⟩, value]

/-! ### The URL -/

theorem SyncEndpoint.path_plain (endpoint : SyncEndpoint) : ∃ rest, endpoint.path.toList = '/' :: rest ∧
    (∀ c ∈ rest, Library.isC0OrSpace c = false) ∧ urlPath ('/' :: rest) = '/' :: rest := by
  have visible (rest : Text) (all : rest.all (!Library.isC0OrSpace ·) = true) :
      ∀ c ∈ rest, Library.isC0OrSpace c = false := by
    simpa using all
  cases endpoint with
  | importChanges => exact ⟨"api/sync/import".toList, by decide, visible _ (by decide), by decide⟩
  | exportChanges => exact ⟨"api/sync/export".toList, by decide, visible _ (by decide), by decide⟩

theorem AcceptedAddr.authority (accepted : AcceptedAddr addr) (plain : NoDelimiter (addrHost addr)) :
    ∀ c ∈ addrHost addr ++ ':' :: addrPort addr, endsAuthority c = false ∧ isTabOrNewline c = false ∧ c ≠ '@' := by
  intro c member
  rcases List.mem_append.mp member with inHost | member
  · obtain ⟨slash, sign, query, fragment⟩ := accepted.host c inHost
    obtain ⟨backslash, visible⟩ := plain c inHost
    exact ⟨by simp [endsAuthority, isUrlSlash, slash, backslash, query, fragment], visible, sign⟩
  · rcases List.mem_cons.mp member with rfl | inPort
    · decide
    rcases (isU16_digits accepted.port).2 c inPort with rfl | digit
    · decide
    · have other (d : Char) (noDigit : d.isDigit = false) : c ≠ d := fun same => by simp [← same, digit] at noDigit
      simp [endsAuthority, isUrlSlash, isTabOrNewline, other]

/-- The URL of an address without a delimiter names its host, its port and the endpoint. -/
theorem parsed_of_noDelimiter (accepted : AcceptedAddr addr) (plain : NoDelimiter (addrHost addr))
    (parsed : parseHttpUrl hosts (endpoint.url addr).toList = some u) :
    hosts.parse (addrHost addr) = some u.host ∧ portNumber (addrPort addr) = some (u.port : Int) ∧
      u.path = endpoint.path.toList := by
  obtain ⟨rest, path, visible, kept⟩ := endpoint.path_plain
  obtain ⟨nonempty, digits⟩ := isU16_digits accepted.port
  have text : (endpoint.url addr).toList =
      "http://".toList ++ (addrHost addr ++ ':' :: addrPort addr) ++ '/' :: rest := by
    rw [SyncEndpoint.url, String.toList_append, String.toList_append, addr_split accepted.colon, path]
  rw [text, Library.parseHttpUrl_of_plain (by simp) (accepted.authority plain) visible] at parsed
  obtain ⟨⟨host, port⟩, split, rfl⟩ := Option.map_eq_some_iff.mp parsed
  have open_end : (addrPort addr).getLast? ≠ some ']' := by
    intro last
    exact absurd (digits ']' (List.mem_of_getLast? last)) (by decide)
  obtain ⟨host, port⟩ := Library.parseHostPort_last_colon colon_not_mem_addrPort nonempty open_end split
  exact ⟨host, portNumber_of_parsePort nonempty port, kept.trans path.symm⟩

theorem isAlpha_of_tab {c : Char} (tab : isTabOrNewline c = true) : c.isAlpha = false := by
  simp only [isTabOrNewline, Bool.or_eq_true, decide_eq_true_eq] at tab
  rcases tab with (rfl | rfl) | rfl <;> rfl

/-- Of the addresses that the check accepts, those whose request goes to their own host and port and to
the endpoint's path are the ones without a delimiter whose host the URL parser keeps. -/
theorem sentTo_iff (hosts : HostParser) (endpoint : SyncEndpoint) {addr : String} {u : Url}
    (accepted : validatePeerAddr addr = .ok ()) (parsed : parseHttpUrl hosts (endpoint.url addr).toList = some u) :
    SentTo u addr endpoint ↔ NoDelimiter (addrHost addr) ∧ KeepsHost hosts (addrHost addr) := by
  have accepted := acceptedAddr_of_ok accepted
  have clean := Library.parseHttpUrl_host_clean parsed
  constructor
  · intro sent
    have inside {c : Char} (other : c.isAlpha = false) (member : c ∈ addrHost addr) : c ∈ u.host := by
      rw [← Library.mem_lower_iff other, sent.host]
      exact (Library.mem_lower_iff other).mpr member
    have plain : NoDelimiter (addrHost addr) := by
      intro c member
      constructor
      · rintro rfl
        exact (clean _ (inside rfl member)).1 rfl
      · rw [Bool.eq_false_iff]
        intro tab
        rw [(clean c (inside (isAlpha_of_tab tab) member)).2] at tab
        cases tab
    exact ⟨plain, u.host, (parsed_of_noDelimiter accepted plain parsed).1, sent.host⟩
  · rintro ⟨plain, host, listed, kept⟩
    obtain ⟨found, port, path⟩ := parsed_of_noDelimiter accepted plain parsed
    obtain rfl : host = u.host := Option.some.inj (listed.symm.trans found)
    exact ⟨kept, port, path⟩

/-! ### An accepted address of another host -/

/-- The host parser on names of letters, the only ones it takes here. -/
def parseDomain (s : Text) : Option Text :=
  if s ≠ [] ∧ s.all (fun c => c.isAlpha || c = '.') = true then some (lower s) else none

theorem parseDomain_some {s host : Text} (accepted : parseDomain s = some host) :
    host = lower s ∧ ∀ c ∈ s, c.isAlpha = false → c = '.' := by
  obtain ⟨⟨_, all⟩, same⟩ := Option.ite_none_right_eq_some.mp accepted
  refine ⟨(Option.some.inj same).symm, fun c member other => ?_⟩
  simpa [other] using List.all_eq_true.mp all c member

def domainParser : HostParser where
  parse := parseDomain
  clean := by
    intro s host accepted c member
    obtain ⟨rfl, letters⟩ := parseDomain_some accepted
    have dot (other : c.isAlpha = false) : c = '.' := letters c ((Library.mem_lower_iff other).mp member) other
    constructor
    · rintro rfl
      exact absurd (dot rfl) (by decide)
    · rw [Bool.eq_false_iff]
      intro tab
      have other := isAlpha_of_tab tab
      rw [dot other] at tab
      cases tab
  closed := by
    intro s host accepted bracket
    exact absurd ((parseDomain_some accepted).2 '[' bracket rfl) (by decide)

/-- A host in capitals is kept, and the request goes to its port. -/
theorem capitals_kept :
    validatePeerAddr "Node.Example:8420" = .ok () ∧
      SentTo ⟨"node.example".toList, 8420, "/api/sync/import".toList⟩ "Node.Example:8420" .importChanges := by
  have plain : NoDelimiter (addrHost "Node.Example:8420") := by
    have all : (addrHost "Node.Example:8420").all (fun c => c ≠ '\\' && !isTabOrNewline c) = true := by decide
    simpa [NoDelimiter] using all
  exact ⟨by decide, (sentTo_iff domainParser .importChanges (by decide) (by decide)).mpr
    ⟨plain, "node.example".toList, by decide, by decide⟩⟩

/-- A backslash ends the authority: the changes for a host of the mesh go to port 80 of another one. -/
theorem backslash_redirects :
    ∃ u, validatePeerAddr "evil.example\\.mesh.local:8420" = .ok () ∧
      parseHttpUrl domainParser (SyncEndpoint.importChanges.url "evil.example\\.mesh.local:8420").toList = some u ∧
      u = ⟨"evil.example".toList, 80, "/.mesh.local:8420/api/sync/import".toList⟩ ∧
      ¬SentTo u "evil.example\\.mesh.local:8420" .importChanges := by
  refine ⟨_, by decide, by decide, rfl, fun sent => ?_⟩
  exact absurd sent.host (by decide)

end ConvergioMesh
