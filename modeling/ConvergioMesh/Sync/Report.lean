import ConvergioMesh.Sync.Guard

/-!
# The report of a call

What `apply_changes_detailed` reports is what the iterations of its loop did: how many INSERTs they
executed, how many changes they turned down, and the newest timestamp among the executed ones.
-/

namespace ConvergioMesh

open Library

/-- The iteration gets to its INSERT, and the INSERT succeeds. -/
def Iteration.executes (e : Engine) (i : Iteration) : Bool :=
  match checkChange e i.faults i.db i.change with
  | .error _ => false
  | .ok p => (execInsert e i.faults i.db p).2.isStored

def executed (e : Engine) (is : List Iteration) : List SyncChange := (is.filter (·.executes e)).map (·.change)

/-- A report accounts for every change, given the iterations of the call and the database before and after it. -/
structure Accounts (e : Engine) (is : List Iteration) (changes : List SyncChange) (db db' : Database)
    (report : ApplyReport) : Prop where
  visited : is.map (·.change) = changes
  counted : report.applied + report.rejected = changes.length
  applied : report.applied = (executed e is).length
  maximum : report.appliedMaxUpdatedAt = ((executed e is).filterMap (·.date)).max?
  untouched : report.applied = 0 → db' = db

variable {e : Engine} {f : ApplyFaults} {db : Database}

theorem Iteration.executes_eq (i : Iteration) : i.executes e = (i.outcome e).isStored := by
  unfold executes outcome applyChange
  cases checkChange e i.faults i.db i.change <;> rfl

theorem iterations_changes (fs : List Faults) (db : Database) (changes : List SyncChange) :
    (iterations e fs db changes).map (·.change) = changes := by
  induction changes generalizing fs db with
  | nil => rfl
  | cons c rest ih => exact congrArg (c :: ·) (ih _ _)

theorem foldl_record_counted (outcomes : List Outcome) (report : ApplyReport) :
    (outcomes.foldl ApplyReport.record report).applied + (outcomes.foldl ApplyReport.record report).rejected =
      report.applied + report.rejected + outcomes.length := by
  induction outcomes generalizing report with
  | nil => rfl
  | cons o rest ih =>
    rw [List.foldl_cons, ih, List.length_cons]
    cases o <;> simp only [ApplyReport.record] <;> omega

/-- The timestamp that a stored change brings. -/
def Outcome.date : Outcome → Option String
  | .rejected _ => none
  | .stored updatedAt => updatedAt

theorem mem_dates {outcomes : List Outcome} {u : String} :
    u ∈ outcomes.filterMap Outcome.date ↔ .stored (some u) ∈ outcomes := by
  rw [List.mem_filterMap]
  constructor
  · rintro ⟨o, member, dated⟩
    cases o with
    | rejected why => cases dated
    | stored ts => exact (show ts = some u from dated) ▸ member
  · exact fun member => ⟨_, member, rfl⟩

/-- The running maximum ends at the largest timestamp of a stored change. -/
theorem foldl_record_max (outcomes : List Outcome) :
    (outcomes.foldl ApplyReport.record {}).appliedMaxUpdatedAt = (outcomes.filterMap Outcome.date).max? := by
  have bound {u : String} : Below (outcomes.foldl ApplyReport.record {}).appliedMaxUpdatedAt u ↔ _ := report_below
  cases reported : (outcomes.foldl ApplyReport.record {}).appliedMaxUpdatedAt with
  | none =>
    rw [eq_comm, List.max?_eq_none_iff, List.eq_nil_iff_forall_not_mem]
    intro u member
    rw [reported] at bound
    exact not_lt_empty u ((bound.mp (below_none _)).2 u (mem_dates.mp member))
  | some m =>
    rw [eq_comm, List.max?_eq_some_iff]
    refine ⟨?_, fun u member => ?_⟩
    · rcases report_mem reported with initial | stored
      · cases initial
      · exact mem_dates.mpr stored
    · by_contra above
      rw [reported] at bound
      have below := (bound.mp (below_some.mpr (not_le.mp above))).2 u (mem_dates.mp member)
      exact lt_irrefl u below

theorem executed_cons (i : Iteration) (is : List Iteration) :
    executed e (i :: is) = if (i.outcome e).isStored then i.change :: executed e is else executed e is := by
  rw [executed, List.filter_cons, i.executes_eq]
  split <;> rfl

theorem dates_of_executed (is : List Iteration) :
    (is.map (·.outcome e)).filterMap Outcome.date = (executed e is).filterMap (·.date) := by
  induction is with
  | nil => rfl
  | cons i is ih =>
    rw [List.map_cons, List.filterMap_cons, ih, executed_cons]
    cases out : i.outcome e with
    | rejected why => rfl
    | stored ts =>
      have stored : (Outcome.stored ts).isStored = true := rfl
      rw [if_pos stored, List.filterMap_cons, i.outcome_date out]
      rfl

theorem length_executed (is : List Iteration) : (executed e is).length = (is.map (·.outcome e)).countP (·.isStored) := by
  rw [executed, List.length_map, List.countP_map, ← List.countP_eq_length_filter]
  exact List.countP_congr fun i _ => by rw [i.executes_eq, Function.comp_apply]

theorem callIterations_changes {changes : List SyncChange} {report : ApplyReport}
    (done : (applyChangesDetailed e f db changes).2 = .ok report) :
    (callIterations e f db changes).map (·.change) = changes := by
  unfold callIterations
  split
  · rename_i off
    unfold applyChangesDetailed at done
    split at done
    · rename_i empty
      exact (List.isEmpty_iff.mp empty).symm
    · cases done
  · exact iterations_changes _ _ _

/-- A report that is returned accounts for every change of the call. -/
theorem report_accounts {changes : List SyncChange} {report : ApplyReport}
    (done : (applyChangesDetailed e f db changes).2 = .ok report) :
    Accounts e (callIterations e f db changes) changes db (applyChangesDetailed e f db changes).1 report := by
  have visited := callIterations_changes done
  have folded := applyChangesDetailed_ok done
  have applied : report.applied = (executed e (callIterations e f db changes)).length := by
    rw [folded, foldl_record_applied, length_executed]
    exact Nat.zero_add _
  refine ⟨visited, ?_, applied, ?_, fun none => ?_⟩
  · rw [folded, foldl_record_counted, List.length_map, ← List.length_map (·.change), visited]
    exact Nat.zero_add _
  · rw [folded, foldl_record_max, dates_of_executed]
  · rw [none, eq_comm, length_executed, List.countP_eq_zero] at applied
    refine applyChangesDetailed_of_refused fun i member => ?_
    exact Bool.eq_false_iff.mpr (applied _ (List.mem_map_of_mem member))

/-- A plan that is stored, one with a text id whose INSERT fails, and one of no synced table. -/
def mixedChanges : List SyncChange :=
  [planChange 1 1 "a" "2026-04-21T10:00:00", ⟨"plans", .string "x", .object [("id", .string "x"), ("updated_at", .string "2026-04-22 10:00:00")]⟩,
    ⟨"users", .number (.posInt 1), .object [("id", .number (.posInt 1))]⟩]

theorem mixedChanges_accounted :
    Accounts sampleEngine (callIterations sampleEngine {} (plansDb noPlans) mixedChanges) mixedChanges (plansDb noPlans)
      (applyChangesDetailed sampleEngine {} (plansDb noPlans) mixedChanges).1 ⟨1, 2, some "2026-04-21 10:00:00"⟩ :=
  report_accounts (by decide +kernel)

end ConvergioMesh
