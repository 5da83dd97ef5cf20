import ConvergioMesh.Peers.Types

/-!
# peers.conf

The parser and the writer of the INI format. A call ends with an error of its own or in a panic.
-/

namespace ConvergioMesh

open Library

inductive Stop where
  | error (e : PeersError)
  | panicked
  deriving DecidableEq

abbrev Kv := Std.ExtTreeMap Text Text

def orPanic {α : Type} : Option α → Except Stop α
  | some a => .ok a
  | none => .error .panicked

def require (kv : Kv) (key : String) (peer : Text) : Except Stop Text :=
  match kv[key.toList]? with
  | some v => .ok v
  | none => .error (.error (.missingField peer key.toList))

def parseCapabilities (raw : Text) : List Text := ((raw.splitOn ',').map trim).filter (· ≠ [])

/-- `parse::<u32>`. -/
def parseU32 (s : Text) : Option UInt32 :=
  let digits := if s.head? = some '+' then s.tail else s
  if digits ≠ [] ∧ digits.all Char.isDigit ∧ Nat.ofDigitChars 10 digits 0 < 2 ^ 32 then
    some (.ofNat (Nat.ofDigitChars 10 digits 0))
  else none

def buildPeer (name : Text) (kv : Kv) : Except Stop PeerConfig := do
  let sshAlias ← require kv "ssh_alias" name
  let user ← require kv "user" name
  let os ← require kv "os" name
  let tailscaleIp ← require kv "tailscale_ip" name
  let dnsName ← require kv "dns_name" name
  let capabilities ← require kv "capabilities" name
  let role ← require kv "role" name
  return {
    sshAlias, user, os, tailscaleIp, dnsName
    capabilities := parseCapabilities capabilities
    role
    status := kv["status".toList]?.getD "active".toList
    thunderboltIp := kv["thunderbolt_ip".toList]?
    lanIp := kv["lan_ip".toList]?
    macAddress := kv["mac_address".toList]?
    ghAccount := kv["gh_account".toList]?
    runners := kv["runners".toList]?.bind parseU32
    runnerPaths := kv["runner_paths".toList]?
    repoPath := kv["repo_path".toList]?
    aliases := (kv["aliases".toList]?.map parseCapabilities).getD [] }

/-- The name of a section as an alias, if it is not the canonical one. -/
def withAlias (canon name : Text) (cfg : PeerConfig) : PeerConfig :=
  if name ≠ canon ∧ name ∉ cfg.aliases then { cfg with aliases := cfg.aliases ++ [name] } else cfg

/-- The loop that merges the aliases of a duplicate section. -/
def mergeAliases (canon : Text) : List Text → List Text → List Text
  | existing, [] => existing
  | existing, new :: rest =>
    if new ≠ canon ∧ new ∉ existing then mergeAliases canon (existing ++ [new]) rest
    else mergeAliases canon existing rest

/-- `flush_section`, on the secret and the peers. -/
def flushSection (current : Option Text) (kv : Kv) (secret : Text) (peers : Peers) : Except Stop (Text × Peers) :=
  match current with
  | none => .ok (secret, peers)
  | some name =>
    if name = "mesh".toList then .ok (kv["shared_secret".toList]?.getD secret, peers)
    else do
      let canon ← orPanic (canonicalPeerName name)
      let cfg ← buildPeer name kv
      let cfg := withAlias canon name cfg
      match peers[canon]? with
      | some existing =>
        let merged := mergeAliases canon existing.aliases (cfg.aliases ++ [name])
        return (secret, peers.insert canon { existing with aliases := merged })
      | none => return (secret, peers.insert canon cfg)

structure ParseState where
  sharedSecret : Text := []
  peers : Peers := ∅
  currentSection : Option Text := none
  currentKv : Kv := ∅

/-- One iteration of the loop of `parse_ini`. -/
def parseLine (s : ParseState) (lineno : Nat) (raw : Text) : Except Stop ParseState :=
  let line := trim raw
  if line = [] ∨ line.head? = some '#' then .ok s
  else if line.head? = some '[' ∧ line.getLast? = some ']' then do
    let (sharedSecret, peers) ← flushSection s.currentSection s.currentKv s.sharedSecret s.peers
    return { sharedSecret, peers, currentSection := some line.tail.dropLast, currentKv := ∅ }
  else
    match splitOnce '=' line with
    | some (key, val) => .ok { s with currentKv := s.currentKv.insert (trim key) (trim val) }
    | none => .error (.error (.parse (lineno + 1) ("unexpected content: ".toList ++ line)))

def parseLines (s : ParseState) (lineno : Nat) : List Text → Except Stop ParseState
  | [] => .ok s
  | raw :: rest => do
    let s ← parseLine s lineno raw
    parseLines s (lineno + 1) rest

def parseIni (text : Text) : Except Stop (Text × Peers) := do
  let s ← parseLines {} 0 (lines text)
  flushSection s.currentSection s.currentKv s.sharedSecret s.peers

def join (items : List Text) : Text := [','].intercalate items

def sanitizeIniValue (s : Text) : Text := trim (s.filter fun c => c ≠ '\n' ∧ c ≠ '\r')

def iniLine (key : String) (value : Text) : Text := key.toList ++ '=' :: value ++ ['\n']

def sanitizedLine (key : String) (value : Text) : Text := iniLine key (sanitizeIniValue value)

def optionalLine (key : String) (value : Option Text) : Text := (value.map (sanitizedLine key)).getD []

def peerToIni (name : Text) (p : PeerConfig) : Text :=
  '[' :: sanitizeIniValue name ++ [']', '\n'] ++
    sanitizedLine "ssh_alias" p.sshAlias ++ sanitizedLine "user" p.user ++ sanitizedLine "os" p.os ++
    sanitizedLine "tailscale_ip" p.tailscaleIp ++ sanitizedLine "dns_name" p.dnsName ++
    sanitizedLine "capabilities" (join p.capabilities) ++
    sanitizedLine "role" p.role ++ sanitizedLine "status" p.status ++
    optionalLine "thunderbolt_ip" p.thunderboltIp ++
    optionalLine "lan_ip" p.lanIp ++
    optionalLine "mac_address" p.macAddress ++
    optionalLine "gh_account" p.ghAccount ++
    ((p.runners.map fun r => iniLine "runners" (Nat.toDigits 10 r.toNat)).getD []) ++
    optionalLine "runner_paths" p.runnerPaths ++
    optionalLine "repo_path" p.repoPath ++
    (if p.aliases = [] then [] else sanitizedLine "aliases" (join p.aliases))

/-- The text that `PeersRegistry::save` writes. -/
def savedText (r : PeersRegistry) : Text :=
  "[mesh]\n".toList ++ iniLine "shared_secret" r.sharedSecret ++
    r.peers.toList.flatMap fun p => '\n' :: peerToIni p.1 p.2

/-- A peer section with the required fields. -/
def peerText (name : String) : Text :=
  '[' :: name.toList ++
    ("]\nssh_alias=m5\nuser=rob\nos=macos\ntailscale_ip=100.0.0.5\ndns_name=m5.ts.net\n" ++
      "capabilities=claude\nrole=worker\n").toList

def samplePeer : PeerConfig where
  sshAlias := "m5".toList
  user := "rob".toList
  os := "macos".toList
  tailscaleIp := "100.0.0.5".toList
  dnsName := "m5.ts.net".toList
  capabilities := ["claude".toList]
  role := "worker".toList
  status := "active".toList

end ConvergioMesh
