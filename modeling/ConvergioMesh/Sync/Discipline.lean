import ConvergioMesh.Library.Runs
import ConvergioMesh.Sync.Plans
import ConvergioMesh.Sync.Round

/-!
# Cursors over whole runs

Rounds with any peers and tables, one after the other, while the rows of the node change freely
between them.
-/

namespace ConvergioMesh

open Library

inductive SyncEvent where
  | call (io : RoundIo) (peer table : String)
  /-- Anything that writes rows: local writers, imports. -/
  | write (tables : String → Option Table)

def SyncEvent.step (e : Engine) (db : Database) : SyncEvent → Option Database
  | .call io peer table => some (syncTableWithPeer e io db peer table).1
  | .write tables => some { db with tables := tables }

/-- The read of the stored cursor is not among the statements that may fail. -/
def SyncEvent.ReadsCursor (_ : Database) : SyncEvent → Prop
  | .call io _ _ => io.metaFault = false
  | .write _ => True

/-- `u` is the normalised `updated_at` of a row that the round exported or applied. -/
def DateExchanged (e : Engine) (io : RoundIo) (db : Database) (l r : List SyncChange) (u : String) : Prop :=
  (∃ c ∈ l, c.date = some u) ∨ ∃ i ∈ callIterations e io.applyFaults db r, i.outcome e = .stored (some u)

/-- A successful round that exported or applied a row and may store this cursor. -/
structure Advances (e : Engine) (io : RoundIo) (db : Database) (peer table cursor : String) : Prop where
  succeeds : ∃ l r report, Completes e io db peer table l r report ∧ (l ≠ [] ∨ 0 < report.applied) ∧
    (cursor = io.roundStartAt ∨ DateExchanged e io db l r cursor)
  stored : io.upsertFault = false
  capped : cursor ≤ io.roundStartAt

/-- What a call does to the cursors: only that of its own pair changes, and only to one its round
may store. -/
def Disciplined (e : Engine) (io : RoundIo) (db : Database) (peer table : String) : Prop :=
  ∀ p n, (syncTableWithPeer e io db peer table).1.syncMeta p n ≠ db.syncMeta p n →
    p = peer ∧ n = table ∧ ∃ cursor, (syncTableWithPeer e io db peer table).1.syncMeta p n = some cursor ∧
      Advances e io db peer table cursor

/-- No stored cursor decreases or disappears. -/
def CursorsGrow (db db' : Database) : Prop :=
  ∀ peer table c, db.syncMeta peer table = some c → ∃ c', db'.syncMeta peer table = some c' ∧ c ≤ c'

theorem CursorsGrow.refl (db : Database) : CursorsGrow db db := fun _ _ c stored => ⟨c, stored, le_rfl⟩

theorem CursorsGrow.trans {db db' db'' : Database} (first : CursorsGrow db db') (second : CursorsGrow db' db'') :
    CursorsGrow db db'' := by
  intro peer table c stored
  obtain ⟨c', stored', grows⟩ := first peer table c stored
  obtain ⟨c'', stored'', grows'⟩ := second peer table c' stored'
  exact ⟨c'', stored'', grows.trans grows'⟩

theorem capAt_le (start c : String) : capAt start c ≤ start := by
  unfold capAt
  split
  · rename_i early
    exact early.le
  · exact le_rfl

theorem applied_pos_of_stored {outcomes : List Outcome} {report : ApplyReport} {ts : Option String}
    (stored : .stored ts ∈ outcomes) : 0 < (outcomes.foldl ApplyReport.record report).applied := by
  have counted : 0 < outcomes.countP (·.isStored) := List.countP_pos_iff.mpr ⟨_, stored, rfl⟩
  rw [foldl_record_applied]
  omega

variable {e : Engine} {io : RoundIo} {db : Database} {peer table : String}

theorem Completes.dateExchanged {l r : List SyncChange} {report : ApplyReport}
    (h : Completes e io db peer table l r report) {u : String}
    (candidate : cursorCandidate (maxUpdatedAt l) report.appliedMaxUpdatedAt = some u) :
    (l ≠ [] ∨ 0 < report.applied) ∧ DateExchanged e io db l r u := by
  rcases cursorCandidate_mem candidate with exported | applied
  · rw [maxUpdatedAt_eq] at exported
    obtain ⟨c, member, dated⟩ := List.mem_filterMap.mp (List.max?_eq_some_iff.mp exported).1
    exact ⟨.inl (List.ne_nil_of_mem member), .inl ⟨c, member, dated⟩⟩
  · rw [applyChangesDetailed_ok h.applied] at applied ⊢
    rcases report_mem applied with nothing | stored
    · cases nothing
    · obtain ⟨i, member, out⟩ := List.mem_map.mp stored
      exact ⟨.inr (applied_pos_of_stored stored), .inr ⟨i, member, out⟩⟩

/-- A call leaves the cursor of its pair as it was, or moves it up to one its round may store. -/
theorem syncTableWithPeer_cursor (e : Engine) (db : Database) (peer table : String) (reads : io.metaFault = false) :
    (syncTableWithPeer e io db peer table).1.syncMeta peer table = db.syncMeta peer table ∨
      ∃ cursor, (syncTableWithPeer e io db peer table).1.syncMeta peer table = some cursor ∧
        Advances e io db peer table cursor ∧ ∀ c, db.syncMeta peer table = some c → c ≤ cursor := by
  by_cases completes : ∃ l r report, Completes e io db peer table l r report
  swap
  · exact .inl (by rw [syncTableWithPeer_incomplete_syncMeta completes])
  obtain ⟨l, r, report, done⟩ := completes
  rw [syncTableWithPeer_syncMeta done]
  cases upsert : io.upsertFault with
  | true => exact .inl (if_pos rfl)
  | false =>
    have since : getSyncMeta io.metaFault db peer table = db.syncMeta peer table := by rw [reads]; rfl
    rw [if_neg Bool.false_ne_true, since]
    rcases computeNewCursor_cases (db.syncMeta peer table) (maxUpdatedAt l) report.appliedMaxUpdatedAt io.roundStartAt with
      ⟨_, kept⟩ | ⟨u, candidate, ⟨prev, taken⟩ | ⟨p, prev, _, kept⟩⟩
    · left
      rw [kept, Option.or_self]
    · right
      obtain ⟨exchanged, date⟩ := done.dateExchanged candidate
      refine ⟨capAt io.roundStartAt u, by rw [taken]; rfl, ⟨⟨l, r, report, done, exchanged, ?_⟩, upsert, capAt_le _ _⟩, ?_⟩
      · rcases capAt_eq io.roundStartAt u with same | same <;> rw [same]
        · exact .inr date
        · exact .inl rfl
      · intro c stored
        rcases prev with below | same
        · exact (below c stored).le
        · rw [stored] at same
          exact (Option.some.inj same).le
    · left
      rw [kept, prev]
      rfl

theorem syncTableWithPeer_disciplined (reads : io.metaFault = false) : Disciplined e io db peer table := by
  intro p n changed
  by_cases same : p = peer ∧ n = table
  · obtain ⟨rfl, rfl⟩ := same
    rcases syncTableWithPeer_cursor e db p n reads with kept | ⟨cursor, stored, advances, _⟩
    · exact absurd kept changed
    · exact ⟨rfl, rfl, cursor, stored, advances⟩
  · exact absurd (syncTableWithPeer_elsewhere same) changed

theorem syncTableWithPeer_grows (reads : io.metaFault = false) :
    CursorsGrow db (syncTableWithPeer e io db peer table).1 := by
  intro p n c stored
  by_cases same : p = peer ∧ n = table
  · obtain ⟨rfl, rfl⟩ := same
    rcases syncTableWithPeer_cursor e db p n reads with kept | ⟨cursor, stored', _, larger⟩
    · exact ⟨c, kept.trans stored, le_rfl⟩
    · exact ⟨cursor, stored', larger c stored⟩
  · exact ⟨c, (syncTableWithPeer_elsewhere same).trans stored, le_rfl⟩

theorem SyncEvent.step_grows {e : Engine} {db db' : Database} {a : SyncEvent} (reads : a.ReadsCursor db)
    (h : SyncEvent.step e db a = some db') : CursorsGrow db db' := by
  cases a with
  | call io peer table =>
    obtain rfl := Option.some.inj h
    exact syncTableWithPeer_grows reads
  | write tables =>
    obtain rfl := Option.some.inj h
    exact fun _ _ c stored => ⟨c, stored, le_rfl⟩

/-- Over any run no cursor decreases, and whatever state it reaches, the next call moves at most the
cursor of its own pair, and moves that only if its round succeeds. -/
theorem cursor_discipline {e : Engine} {db db' : Database}
    (run : Run (SyncEvent.step e) SyncEvent.ReadsCursor db db') :
    CursorsGrow db db' ∧ ∀ io peer table, io.metaFault = false → Disciplined e io db' peer table := by
  constructor
  · have always : ∀ (s : Database) (a : SyncEvent) (s' : Database), True → a.ReadsCursor s →
        SyncEvent.step e s a = some s' → True := fun _ _ _ _ _ _ => trivial
    exact run.relates CursorsGrow .refl (fun _ _ _ => .trans) always
      (fun _ _ _ _ reads h => SyncEvent.step_grows reads h) trivial
  · exact fun io peer table reads => syncTableWithPeer_disciplined reads

def nineOClock : Database := plansDb (plansTable [(1, "a", "2026-04-21T09:00:00")] (by decide))

def quietPeer : RoundIo where
  roundStartAt := "2026-04-21 10:00:00"
  send _ := .ok ()
  fetch _ := .ok []

theorem nineOClock_disciplined : ∃ db, db.syncMeta "peer-b" "plans" = some "2026-04-21 09:00:00" ∧
    CursorsGrow nineOClock db ∧
    ∀ io peer table, io.metaFault = false → Disciplined sampleEngine io db peer table :=
  ⟨(syncTableWithPeer sampleEngine quietPeer nineOClock "peer-b" "plans").1, by decide,
    cursor_discipline (.single (a := .call quietPeer "peer-b" "plans") rfl rfl)⟩

end ConvergioMesh
