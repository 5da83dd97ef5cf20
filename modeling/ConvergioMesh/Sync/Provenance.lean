import ConvergioMesh.Sync.Exchange
import ConvergioMesh.Sync.Relay

/-!
# Where the rows of a node come from

A row of the table was there before, was written on the node, or arrived whole in a change: no step
forms a row out of two others.
-/

namespace ConvergioMesh

open Library

theorem Versioned.relayable {e : Engine} {sch : Schema} {r : Row} (h : Versioned e sch r) : Relayable e sch r where
  shape := h.shape
  id := h.id
  operand := h.operand
  dated := h.dated

/-- A version that a peer with the same schema stores as it is, after a trip over the wire. -/
structure Portable (e : Engine) (sch : Schema) (r : Row) : Prop extends Versioned e sch r where
  travels : Travels e r

theorem Portable.incoming {e : Engine} {t : Table} {r : Row} (h : Portable e t.schema r) (computed : Row) :
    incomingRow e computed t (wiredEntriesOf e r) = r := by
  rw [wiredEntriesOf_travels h.travels]
  exact h.toVersioned.incoming computed

/-- The changes are good rows of the table, exported whole, as the wire carries them. -/
def Whole (e : Engine) (name : String) (good : Row → Prop) (changes : List SyncChange) : Prop :=
  ∀ change ∈ changes, ∃ r, good r ∧ change = wiredChange e name r

structure Sourced (e : Engine) (sch : Schema) (name : String) (good : Row → Prop) (c : ApplyCall) : Prop where
  rest : Whole e name good c.rest
  pending : ∀ p, c.pending = some p → p.tableName = name ∧ ∃ r, good r ∧ Describes e sch p r

variable {e : Engine} {sch : Schema} {name table : String} {good : Row → Prop} {db : Database} {c : ApplyCall}

theorem Whole.sourced {changes : List SyncChange} (h : Whole e name good changes) :
    Sourced e sch name good ⟨changes, none, {}⟩ := ⟨h, fun _ waiting => nomatch waiting⟩

theorem Whole.mono {better : Row → Prop} {changes : List SyncChange} (h : Whole e name good changes)
    (imp : ∀ r, good r → better r) : Whole e name better changes := fun change listed =>
  have ⟨r, fine, same⟩ := h change listed
  ⟨r, imp r fine, same⟩

theorem export_whole {t : Table} {since : Option String} {changes : List SyncChange}
    (present : db.tables name = some t) (rows : ∀ r ∈ t.rows, good r)
    (exported : exportChangesSince e db name since = .ok changes) : Whole e name good (overWire e changes) := by
  intro change listed
  obtain ⟨sent, selected, rfl⟩ := List.mem_map.mp listed
  obtain ⟨r, member, _, rfl⟩ := (mem_export present exported).mp selected
  exact ⟨r, rows r member, rfl⟩

theorem Sourced.mono {better : Row → Prop} (h : Sourced e sch name good c) (imp : ∀ r, good r → better r) :
    Sourced e sch name better c where
  rest := h.rest.mono imp
  pending p waiting :=
    have ⟨aims, r, fine, describes⟩ := h.pending p waiting
    ⟨aims, r, imp r fine, describes⟩

theorem Sourced.next (h : Sourced e sch name good c) (there : db.HasTable name sch) {f : Faults}
    {n : Database × ApplyCall} (next : ApplyCall.Next e f db c n) : Sourced e sch name good n.2 := by
  cases next with
  | rejected change rest why idle first checked =>
    exact ⟨fun d listed => h.rest d (first ▸ List.mem_cons_of_mem _ listed), fun p waiting => nomatch waiting⟩
  | checked change rest p idle first checked =>
    refine ⟨fun d listed => h.rest d (first ▸ List.mem_cons_of_mem _ listed), fun q waiting => ?_⟩
    obtain rfl := Option.some.inj waiting
    obtain ⟨r, fine, rfl⟩ := h.rest change (first ▸ List.mem_cons_self)
    obtain ⟨_, t, entries, admitted, _, rfl⟩ := checkChange_ok.mp checked
    obtain ⟨u, present, rfl⟩ := there
    obtain rfl : u = t := Option.some.inj (present.symm.trans admitted.table)
    obtain rfl : wiredEntriesOf e r = entries := Json.object.inj admitted.data
    exact ⟨rfl, r, fine, fun computed t' same => pendingOf_row e computed _ _ same⟩
  | stored | failed => exact ⟨h.rest, fun p waiting => nomatch waiting⟩

/-- What a pending INSERT stores is the row its change was exported from. -/
theorem Sourced.row (h : Sourced e sch name good c) (portable : ∀ r, good r → Portable e sch r) {p : Pending}
    (waiting : c.pending = some p) {t : Table} (schema : t.schema = sch) (computed : Row) :
    good (p.row e computed t) := by
  obtain ⟨_, r, fine, describes⟩ := h.pending p waiting
  have whole := portable r fine
  subst sch
  rw [describes computed t rfl, whole.incoming]
  exact fine

theorem Sourced.accepted (h : Sourced e sch name good c) (portable : ∀ r, good r → Portable e sch r)
    (there : db.HasTable name sch) (f : Faults) : Accepted e f name db c := by
  intro p t waiting present
  obtain ⟨u, present', schema⟩ := there
  obtain rfl : t = u := Option.some.inj (present.symm.trans present')
  rw [schema]
  exact (portable _ (h.row portable waiting schema f.defaults)).accepted

/-- The changes that an event hands to a new call. -/
def Event.starts : Event → Option (List SyncChange)
  | .receive _ changes | .fetch changes => some changes
  | _ => none

namespace World

/-- The table, its rows and the rows on their way into it are good. -/
structure Genuine (e : Engine) (sch : Schema) (table : String) (good : Row → Prop) (w : World) : Prop where
  here : w.db.HasTable table sch
  rows : ∀ r, w.Holds table r → good r
  calls : ∀ c ∈ w.writers.calls, Sourced e sch table good c

variable {w w' : World} {a : Event}

theorem Genuine.mono {better : Row → Prop} (h : w.Genuine e sch table good) (imp : ∀ r, good r → better r) :
    w.Genuine e sch table better where
  here := h.here
  rows r held := imp r (h.rows r held)
  calls c member := (h.calls c member).mono imp

theorem Genuine.exported (h : w.Genuine e sch table good) {since : Option String} {changes : List SyncChange}
    (exported : exportChangesSince e w.db table since = .ok changes) : Whole e table good (overWire e changes) := by
  obtain ⟨t, present, _⟩ := h.here
  exact export_whole present (fun r member => h.rows r ⟨t, present, member⟩) exported

/-- The calls after a step: one has run its next statement, one has started, or all are as they were. -/
theorem step_calls (h : w.step e table a = some w') :
    (∃ i f c n, a = .run i f ∧ w.writers.calls[i]? = some c ∧ ApplyCall.Next e f w.db c n ∧
        w'.writers = ⟨n.1, w.writers.calls.set i n.2⟩) ∨
      (∃ changes, a.starts = some changes ∧ w'.writers = ⟨w.db, w.writers.calls ++ [⟨changes, none, {}⟩]⟩) ∨
        a.starts = none ∧ w'.writers.calls = w.writers.calls := by
  cases a with
  | run i f =>
    left
    obtain ⟨c, call, h⟩ := Option.bind_eq_some_iff.mp h
    obtain ⟨ws, ran, rfl⟩ := Option.map_eq_some_iff.mp h
    cases Writers.step_cases ran with
    | run _ _ c' n call' next =>
      refine ⟨i, f, c', n, rfl, call', next, ?_⟩
      split <;> rfl
  | receive peer changes =>
    obtain rfl := Option.some.inj h
    exact .inr (.inl ⟨changes, rfl, rfl⟩)
  | fetch changes =>
    cases step_cases h
    exact .inr (.inl ⟨changes, rfl, rfl⟩)
  | _ =>
    cases step_cases h
    exact .inr (.inr ⟨rfl, rfl⟩)

/-- Every step keeps a node genuine that writes good rows and starts calls with good rows. -/
theorem Genuine.step (portable : ∀ r, good r → Portable e sch r) (inv : w.Genuine e sch table good)
    (h : w.step e table a = some w') (writes : ∀ r, a = .write r → good r)
    (starts : ∀ changes, a.starts = some changes → Whole e table good changes) : w'.Genuine e sch table good := by
  have stepped := step_cases h
  refine ⟨stepped.hasTable inv.here, fun r held => ?_, ?_⟩
  · rcases stepped.holds held with ⟨old, _⟩ | ⟨write, _⟩ | ⟨i, f, c, _, call, stores, _⟩
    · exact inv.rows r old
    · exact writes r write
    · obtain ⟨p, t, waiting, _, present, rfl⟩ := ApplyCall.stores_eq_some stores
      obtain ⟨u, there, schema⟩ := inv.here
      obtain rfl : t = u := Option.some.inj (present.symm.trans there)
      exact (inv.calls c (List.mem_of_getElem? call)).row portable waiting schema f.defaults
  · rcases step_calls h with ⟨i, f, c, n, _, call, next, same⟩ | ⟨changes, start, same⟩ | ⟨_, same⟩ <;> rw [same]
    · exact forall_set inv.calls ((inv.calls c (List.mem_of_getElem? call)).next inv.here next)
    · exact forall_append inv.calls (starts changes start).sourced
    · exact inv.calls

end World

end ConvergioMesh
