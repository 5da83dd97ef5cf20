import ConvergioMesh.Peers.Reference
import ConvergioMesh.Peers.Registry

/-!
# Lookup by name or alias

`get_peer` takes a name as it is written: a key, or else an alias, where the first entry in the order
of the keys wins.
-/

namespace ConvergioMesh

open Library

def PeersRegistry.getPeer (r : PeersRegistry) (name : Text) : Option (Text × PeerConfig) :=
  match r.peers[name]? with
  | some cfg => some (name, cfg)
  | none => r.peers.toList.find? fun p => p.2.aliases.any (· = name)

/-- In an ordered list, the first match is the match without one before it in the order. -/
theorem find?_ordered_iff {α : Type} {R : α → α → Prop} {l : List α} (ordered : l.Pairwise R)
    (asymm : ∀ a b, R a b → ¬R b a) {p : α → Bool} {a : α} :
    l.find? p = some a ↔ a ∈ l ∧ p a = true ∧ ∀ b ∈ l, R b a → p b = false := by
  constructor
  · intro found
    obtain ⟨holds, before, after, rfl, none⟩ := List.find?_eq_some_iff_append.mp found
    refine ⟨by simp, holds, fun b member less => ?_⟩
    rcases List.mem_append.mp member with earlier | later
    · simpa using none b earlier
    rcases List.mem_cons.mp later with rfl | later
    · exact absurd less (asymm b b less)
    · have greater := (List.pairwise_cons.mp (List.pairwise_append.mp ordered).2.1).1 b later
      exact absurd less (asymm a b greater)
  · rintro ⟨member, holds, least⟩
    obtain ⟨before, after, rfl⟩ := List.append_of_mem member
    refine List.find?_eq_some_iff_append.mpr ⟨holds, before, after, rfl, fun b earlier => ?_⟩
    have less := (List.pairwise_append.mp ordered).2.2 b earlier a List.mem_cons_self
    rw [least b (List.mem_append_left _ earlier) less]
    rfl

/-- An alias of the entry `k`: one that a stanza of that peer declares, or the name of one. -/
def Names (text k n : Text) : Prop := ∃ s ∈ stanzas text, s.Of k ∧ (n ∈ s.declared ∨ n = s.name)

theorem getPeer_iff {r : PeersRegistry} {n k : Text} {cfg : PeerConfig} :
    r.getPeer n = some (k, cfg) ↔
      r.peers[k]? = some cfg ∧
        (n = k ∨ n ∉ r.peers ∧ n ∈ cfg.aliases ∧
          ∀ k' cfg', r.peers[k']? = some cfg' → compare k' k = .lt → n ∉ cfg'.aliases) := by
  have asymm : ∀ a b : Text × PeerConfig, compare a.1 b.1 = .lt → ¬compare b.1 a.1 = .lt := by
    intro a b less greater
    have swapped : compare a.1 b.1 = (compare b.1 a.1).swap := Std.OrientedCmp.eq_swap
    rw [less, greater] at swapped
    cases swapped
  unfold PeersRegistry.getPeer
  cases exact : r.peers[n]? with
  | some own =>
    have key : n ∈ r.peers := mem_peers.mpr ⟨own, exact⟩
    dsimp only
    constructor
    · rintro ⟨⟩
      exact ⟨exact, .inl rfl⟩
    · rintro ⟨held, rfl | ⟨noKey, _⟩⟩
      · rw [exact] at held
        rw [Option.some.inj held]
      · exact absurd key noKey
  | none =>
    have noKey : n ∉ r.peers := by
      rw [mem_peers, exact]
      nofun
    dsimp only
    rw [find?_ordered_iff Std.ExtTreeMap.ordered_keys_toList asymm, Std.ExtTreeMap.mem_toList_iff_getElem?_eq_some]
    refine and_congr_right fun held => ?_
    have other : n ≠ k := by
      rintro rfl
      rw [exact] at held
      cases held
    simp only [List.any_eq_true, List.any_eq_false, decide_eq_true_eq, exists_eq_right, Prod.forall,
      Std.ExtTreeMap.mem_toList_iff_getElem?_eq_some, other, noKey, false_or, not_false_eq_true, true_and]
    refine and_congr_right fun _ => forall₄_congr fun k' cfg' _ _ => ?_
    exact ⟨fun absent listed => absent n listed rfl, fun absent a listed same => absent (same ▸ listed)⟩

/-- What a loaded registry finds under a name, read off from the text. A section name finds its own entry, if it
is no other key and no peer with a smaller key declares it. -/
theorem getPeer_loaded_iff {text : Text} {r : PeersRegistry} (ascii : ∀ s ∈ stanzas text, IsAscii s.name)
    (h : PeersRegistry.load (some text) = .ok r) :
    (∀ n k cfg, r.getPeer n = some (k, cfg) ↔
      r.peers[k]? = some cfg ∧
        (n = k ∨ n ∉ r.peers ∧ Names text k n ∧ ∀ k' ∈ r.peers, compare k' k = .lt → ¬Names text k' n)) ∧
    ∀ s ∈ stanzas text, ¬s.IsMesh →
      (s.name ∈ r.peers → s.name = canonical s.name) →
      (∀ k' ∈ r.peers, compare k' (canonical s.name) = .lt → ∀ s' ∈ stanzas text, s'.Of k' → s.name ∉ s'.declared) →
      ∃ cfg, r.peers[canonical s.name]? = some cfg ∧ r.getPeer s.name = some (canonical s.name, cfg) := by
  have reading := readsAs_of_ok ascii (parseIni_of_load h)
  have found (n k : Text) (cfg : PeerConfig) : r.getPeer n = some (k, cfg) ↔
      r.peers[k]? = some cfg ∧
        (n = k ∨ n ∉ r.peers ∧ Names text k n ∧ ∀ k' ∈ r.peers, compare k' k = .lt → ¬Names text k' n) := by
    have named {k' : Text} {cfg' : PeerConfig} (noKey : n ∉ r.peers) (held : r.peers[k']? = some cfg') :
        n ∈ cfg'.aliases ↔ Names text k' n := by
      refine reading.aliases k' cfg' held n ?_
      rintro rfl
      exact noKey (mem_peers.mpr ⟨cfg', held⟩)
    rw [getPeer_iff]
    refine and_congr_right fun held => or_congr_right (and_congr_right fun noKey => and_congr (named noKey held) ?_)
    simp only [mem_peers]
    constructor
    · rintro least k' ⟨cfg', held'⟩ less
      exact mt (named noKey held').mpr (least k' cfg' held' less)
    · exact fun least k' cfg' held' less => mt (named noKey held').mp (least k' ⟨cfg', held'⟩ less)
  refine ⟨found, fun s listed peer noOther undeclared => ?_⟩
  have isKey : canonical s.name ∈ r.peers := (reading.keys _).mpr ⟨s, listed, peer, rfl⟩
  obtain ⟨cfg, held⟩ := mem_peers.mp isKey
  refine ⟨cfg, held, (found _ _ _).mpr ⟨held, ?_⟩⟩
  by_cases same : s.name = canonical s.name
  · exact .inl same
  · refine .inr ⟨mt noOther same, ⟨s, listed, ⟨peer, rfl⟩, .inr rfl⟩, ?_⟩
    rintro k' key' less ⟨s', listed', of, declared | name⟩
    · exact undeclared k' key' less s' listed' of declared
    · rw [← of.2, name] at less
      rw [Std.compare_eq_iff_eq.mpr rfl] at less
      cases less

set_option maxRecDepth 8000 in
theorem getPeer_m5max :
    ∃ r cfg, PeersRegistry.load (some (peerText "M5Max.local")) = .ok r ∧ r.peers["m5max".toList]? = some cfg ∧
      r.getPeer "M5Max.local".toList = some ("m5max".toList, cfg) := by
  obtain ⟨r, loaded⟩ : ∃ r, PeersRegistry.load (some (peerText "M5Max.local")) = .ok r := ⟨_, rfl⟩
  obtain ⟨s, only, name, none⟩ : ∃ s, stanzas (peerText "M5Max.local") = [s] ∧ s.name = "M5Max.local".toList ∧
      s.declared = [] := ⟨_, rfl, rfl, rfl⟩
  have canon : canonical s.name = "m5max".toList := by
    rw [name]
    decide
  have ascii : ∀ s' ∈ stanzas (peerText "M5Max.local"), IsAscii s'.name := by
    rw [only, List.forall_mem_singleton, name]
    decide
  have own := (getPeer_loaded_iff ascii loaded).2 s (only ▸ List.mem_singleton_self s)
  obtain ⟨cfg, held, found⟩ := own (fun mesh => absurd (name.symm.trans mesh) (by decide))
    (fun isKey => by
      obtain ⟨s', listed, of⟩ := ((readsAs_of_ok ascii (parseIni_of_load loaded)).keys _).mp isKey
      rw [only, List.mem_singleton] at listed
      exact (listed ▸ of.2).symm)
    fun _ _ _ s' listed _ => by
      rw [only, List.mem_singleton] at listed
      rw [listed, none]
      exact List.not_mem_nil
  rw [canon] at held found
  rw [name] at found
  exact ⟨r, cfg, loaded, held, found⟩

/-- A peer that declares the name of another. -/
def aliasText : Text := peerText "alpha" ++ "aliases=Beta.local\n".toList ++ peerText "Beta.local"

set_option maxRecDepth 8000 in
/-- A spelling that is written nowhere finds nothing, and an alias of another peer hides the name of a
section. -/
theorem spelling_not_found :
    (∀ s ∈ stanzas aliasText, IsAscii s.name) ∧
      ∃ r, PeersRegistry.load (some aliasText) = .ok r ∧
        (canonicalPeerName "BETA".toList = some "beta".toList ∧ "beta".toList ∈ r.peers ∧
          r.getPeer "BETA".toList = none) ∧
        (∃ s ∈ stanzas aliasText, s.name = "Beta.local".toList) ∧
        canonicalPeerName "Beta.local".toList = some "beta".toList ∧
        (r.getPeer "Beta.local".toList).map Prod.fst = some "alpha".toList :=
  ⟨by decide, _, rfl, by decide, by decide, by decide, by decide⟩

end ConvergioMesh
