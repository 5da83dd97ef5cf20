import ConvergioMesh.Sync.Frame

/-!
# Which rows a batch overwrites

A row of the table is followed through the iterations of the loop: an INSERT that shares a key with
it puts the stored row in its place. Each change that does so must be newer than the row was before
the call, and must carry the id it names. That is so when every change that describes a row with one
of the keys of that place is judged by its LWW comparison.
-/

namespace ConvergioMesh

/-- The change carries `pk` as its id, and a string `updated_at` newer than `l`. -/
def Supersedes (c : SyncChange) (l : String) : Prop :=
  ∃ entries, c.data = .object entries ∧ entries.lookup "id" = some c.pk ∧
    ∃ u, remoteUpdatedAt entries = some u ∧ l < u

/-- What the table holds in the place of a row: the row with one of its keys. -/
def Table.heir (t : Table) (s : Row) : Row := (t.rows.find? (t.schema.conflict · s)).getD s

namespace Iteration

def heir (e : Engine) (i : Iteration) (name : String) (s : Row) : Row :=
  ((applyChange e i.faults i.db i.change).1.tables name).elim s (·.heir s)

/-- The iteration keeps the row, or puts the row of a newer change in its place. -/
def ReplacesOlder (e : Engine) (name l : String) (i : Iteration) (s : Row) : Prop :=
  i.heir e name s = s ∨ i.change.tableName = name ∧ Supersedes i.change l

end Iteration

/-- Each iteration keeps what it finds in the place of the row, or replaces it with a newer change. -/
def AlongHeirs (e : Engine) (name l : String) : Row → List Iteration → Prop
  | _, [] => True
  | s, i :: rest => i.ReplacesOlder e name l s ∧ AlongHeirs e name l (i.heir e name s) rest

/-- The call replaces the rows it finds, if they have a text `updated_at`, only with newer changes. -/
def ReplacesOlder (e : Engine) (f : ApplyFaults) (db : Database) (changes : List SyncChange) : Prop :=
  ∀ name t, db.tables name = some t → ∀ s ∈ t.rows, ∀ l, s.stamp = some l →
    AlongHeirs e name l s (callIterations e f db changes)

theorem named_column {e : Engine} {t : Table} {pk : Json} {r : Row} (member : r ∈ t.rows)
    (h : named e t pk r = true) : "id" ∈ t.schema.names := by
  rw [← t.shaped r member]
  refine Row.mem_names_of_cell fun null => ?_
  unfold named at h
  cases param : pkParam pk with
  | none => rw [param] at h; cases h
  | some v =>
    rw [param, Option.any_some] at h
    exact Schema.same_null h null

theorem localUpdatedAt_named {e : Engine} {db : Database} {c : SyncChange} {t : Table} {s : Row} {l : String}
    (present : db.tables c.tableName = some t) (member : s ∈ t.rows) (names : named e t c.pk s = true)
    (dated : s.stamp = some l) : (localUpdatedAt e db c.tableName c.pk).map replaceT = some l := by
  obtain ⟨raw, _, text, rfl⟩ := Row.stamp_some dated
  have column := Schema.resolve_of_mem (Row.stamp_column member dated)
  have id := named_column member names
  unfold named at names
  cases param : pkParam c.pk with
  | none => rw [param] at names; cases names
  | some v =>
    rw [param, Option.any_some] at names
    simp only [localUpdatedAt, present, Option.bind_some, column, if_pos id, param, Table.find_eq member names]
    rw [show s.textAt "updated_at" = some raw from text, Option.map_some]

theorem localUpdatedAt_some {e : Engine} {db : Database} {name : String} {pk : Json} {t : Table} {u : String}
    (present : db.tables name = some t) (column : "updated_at" ∈ t.schema.names)
    (h : localUpdatedAt e db name pk = some u) : ∃ s ∈ t.rows, named e t pk s = true ∧ s.stamp = some (replaceT u) := by
  unfold localUpdatedAt at h
  rw [present, Option.bind_some, Schema.resolve_of_mem column, Option.bind_some] at h
  split at h
  · obtain ⟨v, param, h⟩ := Option.bind_eq_some_iff.mp h
    obtain ⟨s, found, text⟩ := Option.bind_eq_some_iff.mp h
    obtain ⟨member, same⟩ := Table.find_some found
    exact ⟨s, member, by rw [named, param, Option.any_some, same], by rw [Row.stamp, Row.updatedAt, text]; rfl⟩
  · cases h

theorem lt_of_not_stale {e : Engine} {f : Faults} {db : Database} {c : SyncChange} {t : Table} {s : Row}
    {l u : String} (present : db.tables c.tableName = some t) (member : s ∈ t.rows)
    (read : f.select = false) (names : named e t c.pk s = true) (dated : s.stamp = some l)
    (fresh : isStale (some u) (readLocal e f db c) = false) : l < u := by
  have found := localUpdatedAt_named present member names dated
  simp only [readLocal, read, Bool.false_eq_true, if_false] at fresh
  cases localTs : localUpdatedAt e db c.tableName c.pk with
  | none => rw [localTs] at found; cases found
  | some raw =>
    rw [localTs] at found fresh
    obtain rfl := Option.some.inj found
    simpa [isStale] using fresh

/-! ### What takes the place of a row -/

variable {e : Engine} {name l : String} {i : Iteration} {t : Table} {s : Row}

/-- The row that a change would store in a table of this name, if it gets to its INSERT. What an iteration
on the database before the call would refuse does not. -/
def offered (e : Engine) (f : Faults) (db : Database) (name : String) (t : Table) (c : SyncChange) : Option Row :=
  match screenChange f db c with
  | .ok (entries, _) =>
    let x := incomingRow e f.defaults t entries
    if c.tableName = name ∧ isStale (remoteUpdatedAt entries) (readLocal e f db c) = false ∧ f.insert = false ∧
        ((entries.lookup "id").isNone ∨ t.schema.accepts x) then
      some x
    else none
  | .error _ => none

/-- The comparison decides whether the change replaces the row: its SELECT finds the row by `pk`, and
the change is stored under that id with the timestamp it was compared by. -/
structure Judges (e : Engine) (f : Faults) (t : Table) (c : SyncChange) (x s : Row) : Prop where
  reads : f.select = false
  names : named e t c.pk s = true
  own : ∃ entries, c.data = .object entries ∧ entries.lookup "id" = some c.pk ∧
    ∃ u, remoteUpdatedAt entries = some u ∧ x.stamp = some u
  id : t.schema.same "id" (x.cell "id") (s.cell "id") = true

/-- The newer of a row and what a change offers under the id of the row. -/
def newest (t : Table) (s : Row) : Option Row → Row
  | some x => if t.schema.same "id" (x.cell "id") (s.cell "id") = true ∧ s.date < x.date then x else s
  | none => s

theorem named_congr {t₀ : Table} (same : t.schema = t₀.schema) (pk : Json) (s : Row) :
    named e t pk s = named e t₀ pk s := by
  rw [named, named, same]

/-- The table has come from `t₀` and lost none of its dated rows: in the place of each stands a version
that is no older, and whatever names the row names that one. -/
structure Tracks (t₀ t : Table) (version : Row → Row) : Prop where
  schema : t.schema = t₀.schema
  held : ∀ s ∈ t₀.rows, ∀ l, s.stamp = some l → version s ∈ t.rows ∧ ∃ now, (version s).stamp = some now ∧ l ≤ now
  names : ∀ s ∈ t₀.rows, ∀ v, t₀.schema.same "id" (s.cell "id") v = true →
    t₀.schema.same "id" ((version s).cell "id") v = true

theorem Tracks.refl (t : Table) : Tracks t t id := ⟨rfl, fun _ member l dated => ⟨member, l, dated, le_rfl⟩, fun _ _ _ => id⟩

theorem Tracks.named {t₀ : Table} {version : Row → Row} (tracks : Tracks t₀ t version) {pk : Json} (member : s ∈ t₀.rows)
    (names : named e t₀ pk s = true) : ConvergioMesh.named e t pk (version s) = true := by
  rw [named_congr tracks.schema]
  unfold ConvergioMesh.named at names ⊢
  cases param : pkParam pk with
  | none => rw [param] at names; cases names
  | some v =>
    rw [param, Option.any_some] at names
    exact tracks.names s member _ names

theorem readLocal_some {f : Faults} {db : Database} {c : SyncChange} {raw : String}
    (h : readLocal e f db c = some raw) : f.select = false ∧ localUpdatedAt e db c.tableName c.pk = some raw := by
  unfold readLocal at h
  split at h
  · cases h
  · rename_i reads
    exact ⟨by simpa using reads, h⟩

/-- What the comparison refuses before the call it refuses later. -/
theorem Tracks.stale {t₀ : Table} {version : Row → Row} (tracks : Tracks t₀ t version)
    (column : "updated_at" ∈ t₀.schema.names) {db db' : Database} {c : SyncChange}
    (present₀ : db.tables c.tableName = some t₀) (present : db'.tables c.tableName = some t) {f : Faults}
    {remote : Option String} (stale : isStale remote (readLocal e f db c) = true) :
    isStale remote (readLocal e f db' c) = true := by
  cases remote with
  | none => cases stale
  | some u =>
    cases read : readLocal e f db c with
    | none =>
      rw [read] at stale
      cases stale
    | some raw =>
      rw [read] at stale
      obtain ⟨reads, compared⟩ := readLocal_some read
      obtain ⟨s, member, names, dated⟩ := localUpdatedAt_some present₀ column compared
      obtain ⟨held, now, dated', newer⟩ := tracks.held s member _ dated
      obtain ⟨raw', read', rfl⟩ := Option.map_eq_some_iff.mp
        (localUpdatedAt_named present held (tracks.named member names) dated')
      rw [readLocal, reads, if_neg Bool.false_ne_true, read']
      exact decide_eq_true ((of_decide_eq_true stale).trans newer)

theorem offered_some {f : Faults} {db : Database} {t₀ : Table} {c : SyncChange} {x : Row}
    (h : offered e f db name t₀ c = some x) : c.tableName = name ∧ f.tableInfo = false ∧ f.insert = false ∧
      ∃ u entries, Admitted db c u entries ∧ x = incomingRow e f.defaults t₀ entries ∧
        (entries.lookup "id" ≠ none → t₀.schema.accepts x = true) := by
  unfold offered at h
  split at h
  · rename_i entries _ screened
    obtain ⟨info, u, admitted, _⟩ := screenChange_ok screened
    dsimp only at h
    split at h
    · rename_i allowed
      obtain rfl := Option.some.inj h
      refine ⟨allowed.1, info, allowed.2.2.1, u, entries, admitted, rfl, fun given => ?_⟩
      exact allowed.2.2.2.resolve_left (by simpa using given)
    · cases h
  · cases h

section Iterations

variable {db : Database} {t₀ : Table} {now : String} {x : Row} (present₀ : db.tables name = some t₀)
  (present : i.db.tables name = some t) (same : t.schema = t₀.schema) (member : s ∈ t.rows) (dated : s.stamp = some now)

include present same member dated in
/-- A judged change that stores its row is newer than the row its comparison has read. -/
theorem Judges.newer {entries : List (String × Json)} (here : i.change.tableName = name)
    (judges : Judges e i.faults t₀ i.change x s) (stores : Stores e i.faults i.db i.change t entries) :
    entries.lookup "id" = some i.change.pk ∧ ∃ u, remoteUpdatedAt entries = some u ∧ x.stamp = some u ∧ now < u := by
  subst name
  obtain ⟨entries', data, id, u, remote, stamp⟩ := judges.own
  obtain rfl : entries = entries' := Json.object.inj (stores.admitted.data.symm.trans data)
  have fresh := stores.fresh
  rw [remote] at fresh
  have names : named e t i.change.pk s = true := (named_congr same _ _).trans judges.names
  exact ⟨id, u, remote, stamp, lt_of_not_stale present member judges.reads names dated fresh⟩

include present₀ present same member dated in
/-- A judged change that is newer is stored. -/
theorem Judges.stores (offers : offered e i.faults db name t₀ i.change = some x)
    (judges : Judges e i.faults t₀ i.change x s) (newer : now < x.date) :
    ∃ entries, Stores e i.faults i.db i.change t entries := by
  obtain ⟨rfl, info, writes, u, entries, admitted, rfl, fits⟩ := offered_some offers
  obtain rfl : t₀ = u := Option.some.inj (present₀.symm.trans admitted.table)
  obtain ⟨entries', data, id, u, remote, stamp⟩ := judges.own
  obtain rfl : entries = entries' := Json.object.inj (admitted.data.symm.trans data)
  have names : named e t i.change.pk s = true := (named_congr same _ _).trans judges.names
  obtain ⟨raw, read, rfl⟩ := Option.map_eq_some_iff.mp (localUpdatedAt_named present member names dated)
  have given : entries.lookup "id" ≠ none := by rw [id]; simp
  refine ⟨entries, ⟨admitted.synced, data, present, same ▸ admitted.known, same ▸ admitted.safe⟩, info, ?_, writes, ?_⟩
  · rw [Row.date, stamp] at newer
    simp only [readLocal, judges.reads, Bool.false_eq_true, if_false, read, remote, isStale]
    exact decide_eq_false (not_le.mpr newer)
  · rw [incomingRow_congr same fun _ => given, same]
    exact fits given

end Iterations

end ConvergioMesh
