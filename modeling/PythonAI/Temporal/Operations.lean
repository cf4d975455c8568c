import PythonAI.Temporal.Artifacts

/-!
# The rows of the operation ledger

A row is prepared, started at most once, and then ends as completed, uncertain or rejected; a row
that has ended never changes, and no row ever changes its kind or its fingerprint
(`OpChange.final`, `OpChange.keeps`).  A row is only ever inserted for the submission of its task,
so that its fingerprint is of the scope of that submission (`recorded_reachable`).
-/

namespace PythonAI

open Library

namespace Temporal

/-- `OpChange o u db k r r'` : one operation on `db` turns the ledger row `r` under `k` into `r'`. -/
inductive OpChange (o : Op) (u : Token) (db : Db) (k : OpKey) :
    Option Operation → Option Operation → Prop
  | step {r r' : Option Operation} (h : OpStep o u db k r r') : OpChange o u db k r r'
  | completed (row : Operation) (h : row.state = .running) (result evidence : Ref) :
      OpChange o u db k (some row)
        (some { row with
          state := .completed, resultRef := some result, evidenceRef := some evidence })

/-- The operation is not there or only prepared. -/
def Unstarted (r : Option Operation) : Prop := ∀ row, r = some row → row.state = .prepared

variable {u : Token} {db db' : Db} {k : OpKey} {r r' : Option Operation} {s s' : Sys} {o : Op}

theorem Unstarted.none : Unstarted none := fun _ h => by cases h

/-! ### One operation -/

/-- Every effect changes each row of the ledger by an `OpChange`. -/
theorem Effect.change (h : Effect o u db db') (k : OpKey) :
    OpChange o u db k (db.operations k) (db'.operations k) := by
  cases h with
  | ledger hops => exact .step (hops k)
  | completed l step row result evidence hrow hrunning _ hops _ =>
    rw [hops, Table.set_apply]
    split_ifs with hk
    · rw [hk, hrow]
      exact .completed row hrunning _ _
    · exact .step (.same _)
  | bootstrap _ _ _ _ _ _ _ hops _ | step _ _ _ _ _ hops _ _
  | commit _ _ _ _ _ _ _ _ _ _ _ _ _ _ _ _ _ hops _ _ =>
    rw [hops]; exact .step (.same _)

/-- **A row that has ended never changes.** -/
theorem OpChange.final (h : OpChange o u db k r r') {row : Operation} (hr : r = some row)
    (hf : row.state.final = true) : r' = some row := by
  cases h with
  | completed row' hrunning => cases hr; rw [hrunning] at hf; cases hf
  | step h =>
    cases h with
    | same => exact hr
    | prepared => cases hr
    | claimed row' h | uncertain row' h | rejected row' h => cases hr; rw [h] at hf; cases hf

/-- A row keeps its kind and its fingerprint. -/
theorem OpChange.keeps (h : OpChange o u db k r r') {row : Operation} (hr : r = some row) :
    ∃ row', r' = some row' ∧ row'.kind = row.kind ∧ row'.arguments = row.arguments := by
  cases h with
  | completed row' => cases hr; exact ⟨_, rfl, rfl, rfl⟩
  | step h =>
    cases h with
    | same => exact ⟨row, hr, rfl, rfl⟩
    | prepared => cases hr
    | claimed | uncertain | rejected => cases hr; exact ⟨_, rfl, rfl, rfl⟩

/-- No operation goes back to a start that has happened. -/
theorem OpChange.unstarted (h : OpChange o u db k r r') (hr' : Unstarted r') : Unstarted r := by
  intro row hr
  cases h with
  | completed row' => cases hr; cases hr' _ rfl
  | step h =>
    cases h with
    | same => exact hr' row hr
    | prepared => cases hr
    | claimed row' h | rejected row' h => cases hr; exact h
    | uncertain row' => cases hr; cases hr' _ rfl

/-- A row is opened by the operation, or it was there with its kind and its fingerprint. -/
theorem OpChange.origin (h : OpChange o u db k r r') {row' : Operation} (hr' : r' = some row') :
    Ledger.Opened db k row' ∨
      ∃ row, r = some row ∧ row'.kind = row.kind ∧ row'.arguments = row.arguments := by
  cases h with
  | completed row => cases hr'; exact .inr ⟨row, rfl, rfl, rfl⟩
  | step h =>
    cases h with
    | same => exact .inr ⟨row', hr', rfl, rfl⟩
    | prepared row h => cases hr'; exact .inl h
    | claimed row | uncertain row | rejected row => cases hr'; exact .inr ⟨row, rfl, rfl, rfl⟩

/-! ### Runs -/

theorem Sys.change (h : Sys.lts.step s o s') (k : OpKey) :
    OpChange o s.uuids s.db k (s.db.operations k) (s'.db.operations k) := by
  cases h
  exact commit_of (P := fun db : Db => OpChange o s.uuids s.db k (s.db.operations k)
    (db.operations k)) (.step (.same _)) fun db' hok => (Op.effect hok).change k

/-- What is recorded of an operation. -/
structure Recorded (s : Sys) (k : OpKey) (row : Operation) : Prop where
  /-- its step id is valid -/
  step : Ledger.checkStep k.2 = .ok ()
  /-- its kind is one of an operation -/
  io : row.kind.io = true
  /-- the fingerprint is of its kind -/
  kind : row.arguments.kind = row.kind
  /-- the fingerprint is of the scope of the submission of its task -/
  scope : ∃ key sub, s.db.submissions key = some sub ∧ sub.taskKey = k.1 ∧
    row.arguments.scope = sub.scope

theorem Recorded.step_of (hi : Indexed s) {row row' : Operation} (hr : Recorded s k row)
    (hkind : row'.kind = row.kind) (hargs : row'.arguments = row.arguments)
    (h : Sys.lts.step s o s') : Recorded s' k row' := by
  obtain ⟨key, sub, hsub, hkey, hscope⟩ := hr.scope
  obtain ⟨sub', hsub', hkept⟩ := hi.kept h hsub
  refine ⟨hr.step, hkind ▸ hr.io, by rw [hargs, hkind]; exact hr.kind, key, sub', hsub', ?_, ?_⟩
  · rw [hkept.taskKey, hkey]
  · rw [hargs, hscope, hkept.scope]

/-- Every row of a reachable ledger is recorded. -/
theorem recorded_reachable (h : Sys.lts.Reachable Sys.Initial s) {row : Operation}
    (hrow : s.db.operations k = some row) : Recorded s k row := by
  refine (h.invariant
    (I := fun s => Indexed s ∧ ∀ k row, s.db.operations k = some row → Recorded s k row)
    (fun s h₀ => ⟨.initial h₀, fun k row hrow => ?_⟩)
    (fun s o s' ⟨hi, hs⟩ hst => ⟨hi.step hst, fun k row' hrow' => ?_⟩)).2 k row hrow
  · obtain ⟨host, h⟩ := h₀
    rw [h] at hrow; cases hrow
  · rcases (Sys.change hst k).origin hrow' with hnew | ⟨row, hrow, hkind, hargs⟩
    · have hopened : Recorded s k row' := ⟨hnew.step, hnew.io, hnew.kind, hnew.scope⟩
      exact hopened.step_of hi rfl rfl hst
    · exact (hs k row hrow).step_of hi hkind hargs hst

end Temporal

end PythonAI
