import ConvergioMesh.Library.Upsert

/-!
# Delegation progress

Of the steps of a delegation the table keeps the last one, and the last output summary that came
with any of them.
-/

namespace ConvergioMesh

open Library

/-- A row of `delegation_progress`. -/
structure DelegationProgress where
  delegationId : String
  status : String
  currentTask : Option String
  outputSummary : Option String
  updatedAt : String

/-- The table, with its UNIQUE column. -/
abbrev DelegationTable := KeyedRows DelegationProgress.delegationId

/-- The arguments of `record_step`, `datetime('now')`, and whether the statement fails. -/
structure StepCall where
  delegationId : String
  step : String
  status : String
  summary : Option String := none
  now : String
  fault : Bool := false

/-- `record_step`; a failure is only logged. -/
def recordStep (t : DelegationTable) (c : StepCall) : DelegationTable :=
  if c.fault then t
  else
    t.upsert ⟨c.delegationId, c.status, some c.step, c.summary, c.now⟩
      (fun r => { r with
        status := c.status
        currentTask := some c.step
        outputSummary := c.summary.or r.outputSummary
        updatedAt := c.now })
      fun _ same => same

structure ShownProgress where
  status : String
  currentTask : String
  outputSummary : Option String
  deriving DecidableEq

/-- A row whose `current_task` is NULL cannot be read. -/
def DelegationProgress.progress (r : DelegationProgress) : Option ShownProgress :=
  r.currentTask.map fun task => ⟨r.status, task, r.outputSummary⟩

/-- `get_progress`. -/
def getProgress (fault : Bool) (t : DelegationTable) (delegationId : String) : Option ShownProgress :=
  if fault then none else (t.find delegationId).bind (·.progress)

/-- The steps of a delegation that reach the table. -/
def recordedSteps (delegationId : String) (cs : List StepCall) : List StepCall :=
  cs.filter fun c => decide (c.delegationId = delegationId) && !c.fault

/-- The last step, and the last summary or else the one held before. -/
def expectedProgress (held : Option DelegationProgress) (cs : List StepCall) : Option ShownProgress :=
  match cs.getLast? with
  | none => held.bind (·.progress)
  | some last =>
    some ⟨last.status, last.step, (cs.filterMap (·.summary)).getLast?.or (held.bind (·.outputSummary))⟩

/-- A row shows this progress; its summary is also that of a row that cannot be read. -/
structure Shows (held : Option DelegationProgress) (cs : List StepCall) (row : Option DelegationProgress) : Prop where
  progress : row.bind (·.progress) = expectedProgress held cs
  summary : row.bind (·.outputSummary) = (cs.filterMap (·.summary)).getLast?.or (held.bind (·.outputSummary))

theorem Shows.record {held : Option DelegationProgress} {t : DelegationTable} {c : StepCall} {cs : List StepCall}
    (before : Shows held cs (t.find c.delegationId)) (works : c.fault = false) :
    Shows held (cs ++ [c]) ((recordStep t c).find c.delegationId) := by
  have found : (recordStep t c).find c.delegationId =
      some ⟨c.delegationId, c.status, some c.step, c.summary.or ((t.find c.delegationId).bind (·.outputSummary)), c.now⟩ := by
    rw [recordStep, works, if_neg Bool.false_ne_true]
    refine KeyedRows.find_upsert_same.trans ?_
    cases stored : t.find c.delegationId with
    | none => simp
    | some r =>
      have same : r.delegationId = c.delegationId := (KeyedRows.find_eq_some.mp stored).2
      simp [← same]
  -- COALESCE over the steps is the last summary there is.
  have summary : c.summary.or ((t.find c.delegationId).bind (·.outputSummary)) =
      ((cs ++ [c]).filterMap (·.summary)).getLast?.or (held.bind (·.outputSummary)) := by
    rw [before.summary, List.filterMap_append]
    cases given : c.summary <;> simp [given]
  rw [found, summary]
  refine ⟨?_, rfl⟩
  rw [expectedProgress, List.getLast?_concat]
  rfl

/-- Whatever steps of whatever delegations are recorded, in any order and with any failures, a delegation is shown at its
last recorded step, with the last summary that was recorded for it. -/
theorem progress_after (t : DelegationTable) (cs : List StepCall) (delegationId : String) :
    getProgress false (cs.foldl recordStep t) delegationId =
      expectedProgress (t.find delegationId) (recordedSteps delegationId cs) := by
  refine Shows.progress (KeyedRows.find_foldl_inv recordStep _ delegationId (Shows (t.find delegationId)) ⟨rfl, rfl⟩ ?_ ?_ cs)
  · intro t c cs selected before
    obtain ⟨rfl, works⟩ : c.delegationId = delegationId ∧ c.fault = false := by simpa using selected
    exact before.record works
  · intro t c skipped
    rw [recordStep]
    split
    · rfl
    · rename_i works
      have elsewhere : c.delegationId ≠ delegationId := by simpa [works] using skipped
      exact KeyedRows.find_upsert_other (Ne.symm elsewhere)

end ConvergioMesh
