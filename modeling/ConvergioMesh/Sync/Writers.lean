import ConvergioMesh.Library.Runs
import ConvergioMesh.Sync.Incoming

/-!
# Concurrent writers

Any number of `applyChanges` calls and local writes on one database, interleaved statement by
statement. A call alternates between the SELECT of a change and the INSERT it leads to.
-/

namespace ConvergioMesh

open Library

def Pending.row (e : Engine) (computed : Row) (t : Table) (p : Pending) : Row :=
  t.incoming e computed (p.columns.zip p.values)

theorem pendingOf_row (e : Engine) (computed : Row) (c : SyncChange) {t t' : Table} (entries : List (String × Json))
    (same : t'.schema = t.schema) :
    (pendingOf e c t entries).row e computed t' = incomingRow e computed t' entries := by
  rw [incomingRow, boundOf, same]
  rfl

theorem execInsert_fits {e : Engine} {f : Faults} {db : Database} {p : Pending} {t : Table} (writes : f.insert = false)
    (present : db.tables p.tableName = some t) (fits : t.schema.accepts (p.row e f.defaults t) = true) :
    execInsert e f db p =
      (db.setTable p.tableName (t.put (p.row e f.defaults t) (Table.names_build ..) fits), .stored p.updatedAt) := by
  have inserted : t.insertOrReplace e f.defaults (p.columns.zip p.values) =
      some (t.put (p.row e f.defaults t) (Table.names_build ..) fits) := dif_pos fits
  simp only [execInsert, writes, present, Option.bind_some, inserted, Bool.false_eq_true, if_false]

/-- An `applyChanges` call in progress: the changes not looked at yet, the INSERT its last check
led to, and its report so far. -/
structure ApplyCall where
  rest : List SyncChange
  pending : Option Pending := none
  report : ApplyReport := {}

namespace ApplyCall

def finished (c : ApplyCall) : Bool := c.rest.isEmpty && c.pending.isNone

def next (e : Engine) (f : Faults) (db : Database) (c : ApplyCall) : Option (Database × ApplyCall) :=
  match c.pending with
  | some p =>
    let done := execInsert e f db p
    some (done.1, ⟨c.rest, none, c.report.record done.2⟩)
  | none =>
    match c.rest with
    | [] => none
    | change :: rest =>
      match checkChange e f db change with
      | .error why => some (db, ⟨rest, none, c.report.record (.rejected why)⟩)
      | .ok p => some (db, ⟨rest, some p, c.report⟩)

inductive Next (e : Engine) (f : Faults) (db : Database) (c : ApplyCall) : Database × ApplyCall → Prop where
  | rejected (change : SyncChange) (rest : List SyncChange) (why : Rejection) (idle : c.pending = none)
      (first : c.rest = change :: rest) (checked : checkChange e f db change = .error why) :
      Next e f db c (db, ⟨rest, none, c.report.record (.rejected why)⟩)
  | checked (change : SyncChange) (rest : List SyncChange) (p : Pending) (idle : c.pending = none)
      (first : c.rest = change :: rest) (checked : checkChange e f db change = .ok p) :
      Next e f db c (db, ⟨rest, some p, c.report⟩)
  | stored (p : Pending) (t : Table) (waiting : c.pending = some p) (present : db.tables p.tableName = some t)
      (writes : f.insert = false) (fits : t.schema.accepts (p.row e f.defaults t) = true) :
      Next e f db c (db.setTable p.tableName (t.put (p.row e f.defaults t) (Table.names_build ..) fits),
        ⟨c.rest, none, c.report.record (.stored p.updatedAt)⟩)
  | failed (p : Pending) (waiting : c.pending = some p) (refused : execInsert e f db p = (db, .rejected .insertFailed)) :
      Next e f db c (db, ⟨c.rest, none, c.report.record (.rejected .insertFailed)⟩)

theorem next_cases {e : Engine} {f : Faults} {db : Database} {c : ApplyCall} {n : Database × ApplyCall}
    (h : c.next e f db = some n) : Next e f db c n := by
  unfold next at h
  split at h
  · rename_i p waiting
    obtain rfl := Option.some.inj h
    rcases execInsert_cases e f db p with ⟨t, u, writes, present, inserted, done⟩ | failed
    · obtain ⟨fits, rfl⟩ := Table.insertOrReplace_some inserted
      rw [done]
      exact .stored p t waiting present writes fits
    · rw [failed]
      exact .failed p waiting failed
  · rename_i idle
    split at h
    · cases h
    rename_i change rest first
    split at h
    · rename_i why checked
      obtain rfl := Option.some.inj h
      exact .rejected change rest why idle first checked
    · rename_i p checked
      obtain rfl := Option.some.inj h
      exact .checked change rest p idle first checked

theorem Next.syncMeta {e : Engine} {f : Faults} {db : Database} {c : ApplyCall} {n : Database × ApplyCall}
    (h : Next e f db c n) : n.1.syncMeta = db.syncMeta := by
  cases h <;> rfl

theorem finished_iff {c : ApplyCall} : c.finished = true ↔ c.rest = [] ∧ c.pending = none := by
  simp [finished]

def alone (e : Engine) (s : Database × ApplyCall) (f : Faults) : Option (Database × ApplyCall) := s.2.next e f s.1

theorem alone_run (e : Engine) (fs : List Faults) (db : Database) (changes : List SyncChange) (report : ApplyReport) :
    Run (alone e) (fun _ _ => True) (db, ⟨changes, none, report⟩)
      ((applyChangesInner e fs db changes report).1, ⟨[], none, (applyChangesInner e fs db changes report).2⟩) := by
  induction changes generalizing fs db report with
  | nil => exact .refl _
  | cons c rest ih =>
    refine Run.trans ?_ (ih fs.tail (applyChange e (fs.headD {}) db c).1
      (report.record (applyChange e (fs.headD {}) db c).2))
    cases checked : checkChange e (fs.headD {}) db c with
    | error why =>
      have outcome : applyChange e (fs.headD {}) db c = (db, .rejected why) := by rw [applyChange, checked]
      rw [outcome]
      exact .single (a := fs.headD {}) trivial (by simp only [alone, next, checked])
    | ok p =>
      have outcome : applyChange e (fs.headD {}) db c = execInsert e (fs.headD {}) db p := by rw [applyChange, checked]
      rw [outcome]
      have check : alone e (db, ⟨c :: rest, none, report⟩) (fs.headD {}) = some (db, ⟨rest, some p, report⟩) := by
        simp only [alone, next, checked]
      exact .snoc (.single trivial check) (a := fs.headD {}) trivial rfl

end ApplyCall

/-- A local INSERT or UPDATE of the row with this id; a clash with another row refuses it. -/
def Table.write (t : Table) (r : Row) : Option Table :=
  if h : r.names = t.schema.names ∧ t.schema.accepts r = true ∧
      ∀ s ∈ t.rows, t.schema.conflict r s = true → t.schema.same "id" (r.cell "id") (s.cell "id") = true then
    some (t.put r h.1 h.2.1)
  else none

theorem Table.write_some {t u : Table} {r : Row} (h : t.write r = some u) :
    ∃ shape fits, u = t.put r shape fits ∧
      ∀ s ∈ t.rows, t.schema.conflict r s = true → t.schema.same "id" (r.cell "id") (s.cell "id") = true := by
  unfold Table.write at h
  split at h
  · rename_i allowed
    exact ⟨allowed.1, allowed.2.1, (Option.some.inj h).symm, allowed.2.2⟩
  · cases h

structure Writers where
  db : Database
  calls : List ApplyCall := []

inductive Statement where
  | start (changes : List SyncChange)
  | run (call : Nat) (f : Faults)
  | write (table : String) (r : Row)

theorem forall_set {P : ApplyCall → Prop} {calls : List ApplyCall} {i : Nat} {c : ApplyCall}
    (all : ∀ c ∈ calls, P c) (changed : P c) : ∀ d ∈ calls.set i c, P d := by
  intro d member
  rcases List.mem_or_eq_of_mem_set member with old | rfl
  · exact all d old
  · exact changed

theorem forall_append {P : ApplyCall → Prop} {calls : List ApplyCall} {c : ApplyCall}
    (all : ∀ c ∈ calls, P c) (new : P c) : ∀ d ∈ calls ++ [c], P d := by
  intro d member
  rcases List.mem_append.mp member with old | added
  · exact all d old
  · exact List.mem_singleton.mp added ▸ new

namespace Writers

def step (e : Engine) (w : Writers) : Statement → Option Writers
  | .start changes => some ⟨w.db, w.calls ++ [⟨changes, none, {}⟩]⟩
  | .run i f => (w.calls[i]?).bind fun c => (c.next e f w.db).map fun n => ⟨n.1, w.calls.set i n.2⟩
  | .write table r => (w.db.tables table).bind fun t => (t.write r).map fun u => ⟨w.db.setTable table u, w.calls⟩

inductive Step (e : Engine) (w : Writers) : Statement → Writers → Prop where
  | start (changes : List SyncChange) : Step e w (.start changes) ⟨w.db, w.calls ++ [⟨changes, none, {}⟩]⟩
  | run (i : Nat) (f : Faults) (c : ApplyCall) (n : Database × ApplyCall) (call : w.calls[i]? = some c)
      (next : ApplyCall.Next e f w.db c n) : Step e w (.run i f) ⟨n.1, w.calls.set i n.2⟩
  | write (table : String) (r : Row) (t : Table) (shape : r.names = t.schema.names)
      (fits : t.schema.accepts r = true) (present : w.db.tables table = some t)
      (own : ∀ s ∈ t.rows, t.schema.conflict r s = true → t.schema.same "id" (r.cell "id") (s.cell "id") = true) :
      Step e w (.write table r) ⟨w.db.setTable table (t.put r shape fits), w.calls⟩

theorem step_cases {e : Engine} {w w' : Writers} {a : Statement} (h : w.step e a = some w') : Step e w a w' := by
  cases a with
  | start changes =>
    obtain rfl := Option.some.inj h
    exact .start changes
  | run i f =>
    obtain ⟨c, call, h⟩ := Option.bind_eq_some_iff.mp h
    obtain ⟨n, next, rfl⟩ := Option.map_eq_some_iff.mp h
    exact .run i f c n call (ApplyCall.next_cases next)
  | write table r =>
    obtain ⟨t, present, h⟩ := Option.bind_eq_some_iff.mp h
    obtain ⟨u, written, rfl⟩ := Option.map_eq_some_iff.mp h
    obtain ⟨shape, fits, rfl, own⟩ := Table.write_some written
    exact .write table r t shape fits present own

end Writers

end ConvergioMesh
