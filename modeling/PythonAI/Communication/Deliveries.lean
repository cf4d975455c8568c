import PythonAI.Communication.Calls
import PythonAI.Library.Lts

/-!
# A platform message is sent at most once

Any number of workers run `deliver_pending`, one step at a time, beside any calls of the other
operations; a worker may die between any two steps, and the clocks are arbitrary.  `Host.sends`
lists the deliveries whose platform send was started.

* `Db.Spent` : the durable event was queued, and its delivery does not wait to be sent;
* `Outbox.Host.Inv` : a send was started, or is about to be, only for a spent event;
* `Outbox.Host.delivered` : **the platform send of a durable event is started at most once**, and a spent
  event stays spent; queuing it with other content or for another owner raises.
-/

namespace PythonAI

open Library

namespace Communication

namespace Outbox

/-- A worker inside `deliver_pending`. -/
inductive Sender
  /-- it is outside -/
  | idle
  /-- the expired rows are removed; it is going to list the deliveries, or the delivery `id` -/
  | cleaned (id : Option DeliveryKey)
  /-- the rows it has listed and not tried -/
  | listed (rows : List Delivery)
  /-- it has claimed `row` -/
  | claimed (row : Delivery) (rest : List Delivery)
  /-- the adapter is sending `row` -/
  | sending (row : Delivery) (rest : List Delivery)
  /-- the outcome of `row` is to be written: sent, or uncertain with an error -/
  | finishing (row : Delivery) (error : Option String) (rest : List Delivery)
  deriving Repr

/-- A step. -/
inductive Act
  /-- any process performs an operation -/
  | op (o : Op)
  /-- a worker enters `deliver_pending` -/
  | enter (w : ℕ) (id : Option DeliveryKey) (t₁ t₂ : Time)
  /-- it lists the pending deliveries -/
  | list (w : ℕ) (t : Time)
  /-- it claims the next row, or skips it -/
  | claim (w : ℕ) (t₁ t₂ : Time)
  /-- it calls the adapter -/
  | send (w : ℕ)
  /-- it fails before it calls the adapter -/
  | spoil (w : ℕ) (error : String)
  /-- the adapter returns, or raises -/
  | answer (w : ℕ) (error : Option String)
  /-- writing that the row was sent raises -/
  | retry (w : ℕ) (error : String)
  /-- it writes the outcome -/
  | finish (w : ℕ)
  /-- it dies, or leaves `deliver_pending` -/
  | crash (w : ℕ)

/-- The database, the workers, and the platform sends that were started. -/
structure Host where
  /-- the database -/
  db : Db
  /-- the workers -/
  senders : ℕ → Sender
  /-- the deliveries whose platform send was started, in order -/
  sends : List DeliveryKey

namespace Host

/-- The state after the worker `w` moves to `s`. -/
def goes (h : Host) (w : ℕ) (s : Sender) : Host :=
  { h with senders := Function.update h.senders w s }

/-- What a worker does; a step that does not apply changes nothing. -/
def act (h : Host) : Act → Host
  | .op o => { h with db := o.perform h.db }
  | .enter w id t₁ t₂ =>
    match h.senders w with
    | .idle => { h.goes w (.cleaned id) with db := cleanupExpired t₁ t₂ h.db }
    | _ => h
  | .list w t =>
    match h.senders w with
    | .cleaned id => h.goes w (.listed (pendingDeliveries id t h.db))
    | _ => h
  | .claim w t₁ t₂ =>
    match h.senders w with
    | .listed (row :: rest) =>
      { h.goes w (if (claimDelivery row.id t₁ t₂ h.db).2 then .claimed row rest else .listed rest)
        with db := (claimDelivery row.id t₁ t₂ h.db).1 }
    | _ => h
  | .send w =>
    match h.senders w with
    | .claimed row rest => { h.goes w (.sending row rest) with sends := h.sends ++ [row.id] }
    | _ => h
  | .spoil w error =>
    match h.senders w with
    | .claimed row rest => h.goes w (.finishing row (some error) rest)
    | _ => h
  | .answer w error =>
    match h.senders w with
    | .sending row rest => h.goes w (.finishing row error rest)
    | _ => h
  | .retry w error =>
    match h.senders w with
    | .finishing row none rest => h.goes w (.finishing row (some error) rest)
    | _ => h
  | .finish w =>
    match h.senders w with
    | .finishing row error rest =>
      { h.goes w (.listed rest) with
        db := finishDelivery row.id (if error.isNone then .sent else .uncertain) error h.db }
    | _ => h
  | .crash w => h.goes w .idle

/-- One step at a time. -/
def lts : Lts Host Act where
  step h a h' := h' = h.act a

/-- New tables, and no worker inside `deliver_pending`. -/
structure Initial (h : Host) : Prop where
  /-- the database -/
  db : h.db = .empty
  /-- the workers -/
  senders : ∀ w, h.senders w = .idle
  /-- nothing was sent -/
  sends : h.sends = []

end Host

end Outbox

/-! ### What a call does to the deliveries -/

/-- The durable event `id` is recorded. -/
def Db.recorded (db : Db) (id : DeliveryKey) : Prop := ∃ e ∈ db.eventKeys, e.id = id

/-- The durable event `id` was queued, and its delivery does not wait to be sent. -/
structure Db.Spent (db : Db) (id : DeliveryKey) : Prop where
  /-- it is recorded -/
  recorded : db.recorded id
  /-- its row, if it is still there, is not pending -/
  settled : ∀ d ∈ db.deliveries, d.id = id → d.state ≠ .pending

/-- The operation queues a delivery. -/
def Op.queues : Op → Bool
  | queueDelivery .. => true
  | _ => false

/-- Rows are removed, or leave the state `pending`; no event is recorded. -/
structure Thins (db db' : Db) : Prop where
  /-- the recorded events -/
  keys : db'.eventKeys = db.eventKeys
  /-- no row is added -/
  ids : (db'.deliveries.map Delivery.id).Sublist (db.deliveries.map Delivery.id)
  /-- no row becomes pending -/
  rows : ∀ d' ∈ db'.deliveries, ∃ d ∈ db.deliveries, d.id = d'.id ∧
    (d'.state = .pending → d.state = .pending)

/-- What a step does to the deliveries and to the recorded events. -/
inductive Traffic (db db' : Db) : Prop
  /-- rows are removed, or leave the state `pending` -/
  | thinned (hkeys : db'.eventKeys = db.eventKeys)
      (hids : (db'.deliveries.map Delivery.id).Sublist (db.deliveries.map Delivery.id))
      (hrows : ∀ d' ∈ db'.deliveries, ∃ d ∈ db.deliveries, d.id = d'.id ∧
        (d'.state = .pending → d.state = .pending))
  /-- a reply without a durable event is queued -/
  | replied (row : Delivery) (hrow : ∀ d ∈ db.deliveries, d.id ≠ row.id)
      (hid : ∀ c k, row.id ≠ .event c k) (hkeys : db'.eventKeys = db.eventKeys)
      (hd : db'.deliveries = db.deliveries ++ [row])
  /-- a durable event is recorded, and its delivery is queued -/
  | recorded (e : EventKey) (hnew : ¬ db.recorded e.id)
      (hkeys : db'.eventKeys = db.eventKeys ++ [e])
      (hd : db'.deliveries = db.deliveries ∨ ∃ row : Delivery, row.id = e.id ∧
        (∀ d ∈ db.deliveries, d.id ≠ row.id) ∧ db'.deliveries = db.deliveries ++ [row])

section

variable {db db' : Db} {id : DeliveryKey} {c : Command} {k : String}

theorem Thins.traffic (h : Thins db db') : Traffic db db' := .thinned h.keys h.ids h.rows

theorem Thins.refl : Thins db db := ⟨rfl, List.Sublist.refl _, fun d hd => ⟨d, hd, rfl, id⟩⟩

theorem Traffic.refl : Traffic db db := Thins.refl.traffic

/-- An operation on the jobs and the sessions leaves the deliveries alone. -/
theorem Thins.of_same (hkeys : db'.eventKeys = db.eventKeys)
    (hd : db'.deliveries = db.deliveries) : Thins db db' :=
  ⟨hkeys, by rw [hd], fun d hd' => ⟨d, hd ▸ hd', rfl, fun h => h⟩⟩

/-- An update that makes no row pending. -/
theorem Thins.of_update {p : Delivery → Bool} {f : Delivery → Delivery}
    (hkeys : db'.eventKeys = db.eventKeys)
    (hd : db'.deliveries = db.deliveries.map fun d => if p d then f d else d)
    (hid : ∀ d, (f d).id = d.id) (hf : ∀ d, (f d).state ≠ .pending) : Thins db db' := by
  have hkeep : ∀ d, (if p d then f d else d).id = d.id := fun d => by
    split_ifs
    · exact hid d
    · rfl
  refine ⟨hkeys, ?_, fun d' hd' => ?_⟩
  · rw [hd, Records.map_key fun d _ => hkeep d]
  · rw [hd] at hd'
    obtain ⟨d, hmem, rfl⟩ := List.mem_map.1 hd'
    refine ⟨d, hmem, (hkeep d).symm, fun hpending => ?_⟩
    by_cases hp : p d
    · rw [if_pos hp] at hpending
      exact absurd hpending (hf d)
    · rwa [if_neg hp] at hpending

/-- `addJob` touches the jobs and the sessions only. -/
theorem addJob_thins {duplicate : String} {m : Inbound} {bound : Except Error (Option String)}
    {recovery : Option String} {u : String} {new : Bool}
    (h : addJob duplicate m bound recovery u db = .ok (db', new)) : Thins db db' := by
  rcases addJob_ok h with rfl | ⟨b, session, heads, -, -, -, rfl⟩
  · exact .refl
  · exact .of_same rfl rfl

/-- What `queue_delivery` does to the deliveries. -/
theorem queueDelivery_traffic {env : Environment} {text context : String} {isError receipt : Bool}
    {minimal : Except Error Unit} {event : Option String} {t : Time} {key : DeliveryKey}
    (h : queueDelivery env c text context isError receipt minimal event t db = .ok (db', key)) :
    Traffic db db' := by
  simp only [queueDelivery, bind_eq_ok] at h
  obtain ⟨-, -, -, -, -, -, h⟩ := h
  cases event with
  | none =>
    obtain ⟨-, rfl | ⟨row, hrow, hnew, rfl⟩⟩ := insertDelivery_ok h
    · exact .refl
    · exact .replied row hnew (fun c' k' hk => by rw [hrow] at hk; cases hk) rfl rfl
  | some k =>
    simp only [Option.isNone_some, Bool.false_eq_true, if_false] at h
    split at h
    · simp only [bind_eq_ok, pure_eq_ok, Prod.mk.injEq] at h
      obtain ⟨-, -, rfl, -⟩ := h
      exact .refl
    case h_2 hnone =>
      simp only [bind_eq_ok] at h
      obtain ⟨-, -, -, -, h⟩ := h
      have hnew : ¬ db.recorded (deliveryKey c text isError (some k)) := fun ⟨e, he, hid⟩ => by
        simpa [hid] using List.find?_eq_none.1 hnone e he
      obtain ⟨-, rfl | ⟨row, hrow, hfree, rfl⟩⟩ := insertDelivery_ok h
      · exact .recorded _ hnew rfl (.inl rfl)
      · exact .recorded _ hnew rfl (.inr ⟨row, hrow, hfree, rfl⟩)

theorem cleanupExpired_thins (t₁ t₂ : Time) : Thins db (cleanupExpired t₁ t₂ db) := by
  have hupdate : Thins db (db.updateDeliveries
      (fun d => d.state = .sending && d.lease.any (· ≤ t₁)) fun d =>
        { d with
          state := .uncertain
          error := some "Delivery lease expired; verify platform before retry" }) :=
    .of_update rfl rfl (fun _ => rfl) fun _ h => by cases h
  exact ⟨hupdate.keys, (List.filter_sublist.map Delivery.id).trans hupdate.ids, fun d' hd' =>
    hupdate.rows d' (List.mem_of_mem_filter hd')⟩

/-- A call that queues no delivery adds no row and records no event. -/
theorem Op.thins (o : Op) (ho : o.queues = false) : Thins db (o.perform db) := by
  refine commit_of .refl fun db' h => ?_
  cases o with
  | ingest m recovery u =>
    obtain ⟨new, h⟩ := outcome_eq_ok.1 h
    exact addJob_thins h
  | enqueue m bound recovery u =>
    obtain ⟨new, h⟩ := outcome_eq_ok.1 h
    exact addJob_thins h
  | markCommandRunning id =>
    cases h
    unfold Communication.markCommandRunning
    split_ifs <;> exact .of_same rfl rfl
  | completeCommand id result =>
    cases h
    unfold Communication.completeCommand updateCommand
    split <;> [split_ifs; skip; skip] <;> exact .of_same rfl rfl
  | failCommand id error =>
    cases h
    unfold Communication.failCommand updateCommand
    split <;> [split_ifs; skip; skip] <;> exact .of_same rfl rfl
  | suspendCommand id state call =>
    cases h
    unfold Communication.suspendCommand
    split_ifs <;> exact .of_same rfl rfl
  | eraseSession s t =>
    obtain ⟨u, h⟩ := outcome_eq_ok.1 h
    simp only [Communication.eraseSession, bind_eq_ok, pure_eq_ok, Prod.mk.injEq] at h
    obtain ⟨-, -, rfl, -⟩ := h
    exact .of_update rfl rfl (fun _ => rfl) fun _ h => by cases h
  | queueDelivery => cases ho
  | cleanupExpired t₁ t₂ =>
    cases h
    exact cleanupExpired_thins t₁ t₂
  | release | setRecoveryState | cancelCommand | cancelSession | clearSuspendedCommand
  | beginSessionDeletion =>
    cases h
    exact .of_same rfl rfl

/-- **What a call does to the deliveries.** -/
theorem Op.traffic (o : Op) : Traffic db (o.perform db) := by
  cases ho : o.queues with
  | false => exact (o.thins ho).traffic
  | true =>
    cases o with
    | queueDelivery env c text context isError receipt minimal event t =>
      refine commit_of .refl fun db' h => ?_
      obtain ⟨key, h⟩ := outcome_eq_ok.1 h
      exact queueDelivery_traffic h
    | _ => cases ho

/-! ### Spent events -/

/-- The rows of the durable events belong to recorded events. -/
structure Db.Sound (db : Db) : Prop where
  /-- the primary key of the deliveries -/
  ids : (db.deliveries.map Delivery.id).Nodup
  /-- the event of a row is recorded -/
  recorded : ∀ d ∈ db.deliveries, ∀ c k, d.id = .event c k → db.recorded d.id

theorem recorded_append {e : EventKey} (hkeys : db'.eventKeys = db.eventKeys ++ [e])
    (h : db.recorded id) : db'.recorded id := by
  obtain ⟨e', he', hid⟩ := h
  exact ⟨e', hkeys ▸ List.mem_append_left _ he', hid⟩

theorem recorded_of_same (hkeys : db'.eventKeys = db.eventKeys) (h : db.recorded id) :
    db'.recorded id := by
  obtain ⟨e, he, hid⟩ := h
  exact ⟨e, hkeys ▸ he, hid⟩

/-- No call removes a recorded event. -/
theorem Traffic.keeps_recorded (ht : Traffic db db') (h : db.recorded id) : db'.recorded id := by
  cases ht with
  | thinned hkeys => exact recorded_of_same hkeys h
  | replied row hrow hid hkeys => exact recorded_of_same hkeys h
  | recorded e hnew hkeys => exact recorded_append hkeys h

theorem Traffic.sound (ht : Traffic db db') (h : db.Sound) : db'.Sound := by
  refine ⟨?_, fun d' hd' c k hid => ?_⟩
  · cases ht with
    | thinned hkeys hids => exact hids.nodup h.ids
    | replied row hrow _ _ hd =>
      rw [hd]
      exact Records.nodup_append h.ids hrow
    | recorded e _ _ hd =>
      rcases hd with hd | ⟨row, -, hrow, hd⟩
      · rw [hd]
        exact h.ids
      · rw [hd]
        exact Records.nodup_append h.ids hrow
  · cases ht with
    | thinned hkeys hids hrows =>
      obtain ⟨d, hd, hdid, -⟩ := hrows d' hd'
      rw [← hdid] at hid ⊢
      exact recorded_of_same hkeys (h.recorded d hd c k hid)
    | replied row _ hne hkeys hd =>
      rw [hd] at hd'
      rcases List.mem_append.1 hd' with hd' | hd'
      · exact recorded_of_same hkeys (h.recorded d' hd' c k hid)
      · rw [List.mem_singleton.1 hd'] at hid
        exact absurd hid (hne c k)
    | recorded e _ hkeys hd =>
      rcases hd with hd | ⟨row, hrow, -, hd⟩
      · rw [hd] at hd'
        exact recorded_append hkeys (h.recorded d' hd' c k hid)
      · rw [hd] at hd'
        rcases List.mem_append.1 hd' with hd' | hd'
        · exact recorded_append hkeys (h.recorded d' hd' c k hid)
        · rw [List.mem_singleton.1 hd', hrow]
          exact ⟨e, hkeys ▸ List.mem_append_right _ (List.mem_singleton_self e), rfl⟩

/-- **A spent event stays spent**, whatever is called. -/
theorem Traffic.spent {c : CommandId} (ht : Traffic db db') (h : db.Spent (.event c k)) :
    db'.Spent (.event c k) := by
  refine ⟨ht.keeps_recorded h.recorded, fun d' hd' hid hpending => ?_⟩
  cases ht with
  | thinned _ _ hrows =>
    obtain ⟨d, hd, hdid, hkeep⟩ := hrows d' hd'
    exact h.settled d hd (hdid.trans hid) (hkeep hpending)
  | replied row _ hne _ hd =>
    rw [hd] at hd'
    rcases List.mem_append.1 hd' with hd' | hd'
    · exact h.settled d' hd' hid hpending
    · rw [List.mem_singleton.1 hd'] at hid
      exact hne c k hid
  | recorded e hnew _ hd =>
    rcases hd with hd | ⟨row, hrow, -, hd⟩
    · exact h.settled d' (hd ▸ hd') hid hpending
    · rw [hd] at hd'
      rcases List.mem_append.1 hd' with hd' | hd'
      · exact h.settled d' hd' hid hpending
      · rw [List.mem_singleton.1 hd', hrow] at hid
        exact hnew (hid ▸ h.recorded)

/-! ### The steps of `deliver_pending` -/

theorem finishDelivery_thins {state : DeliveryState} {error : Option String}
    (hstate : state ≠ .pending) : Thins db (finishDelivery id state error db) :=
  .of_update rfl rfl (fun _ => rfl) fun _ => hstate

theorem claimDelivery_thins (t₁ t₂ : Time) : Thins db (claimDelivery id t₁ t₂ db).1 := by
  unfold claimDelivery
  split_ifs
  · exact .refl
  · exact .of_update rfl rfl (fun _ => rfl) fun _ h => by cases h

/-- A claim that succeeds finds a pending row, and leaves none. -/
theorem claimDelivery_ok {t₁ t₂ : Time} (hdb : db.Sound)
    (h : (claimDelivery id t₁ t₂ db).2 = true) :
    (∃ d ∈ db.deliveries, d.id = id ∧ d.state = .pending) ∧
      ∀ d ∈ (claimDelivery id t₁ t₂ db).1.deliveries, d.id = id → d.state ≠ .pending := by
  unfold claimDelivery at h ⊢
  split_ifs at h ⊢
  obtain ⟨d, hd, hclaim⟩ := (Option.any_eq_true _ _).1 h
  have hmem := Records.mem_of_find hd
  have hpending : d.id = id ∧ d.state = .pending := by
    simp only [claimable, Bool.and_eq_true, decide_eq_true_eq] at hclaim
    exact hclaim.1
  refine ⟨⟨d, hmem, hpending⟩, fun d' hd' hid => ?_⟩
  obtain ⟨d'', hd'', rfl⟩ := List.mem_map.1 hd'
  by_cases hc : claimable id t₂ d'' = true
  · rw [if_pos hc]
    nofun
  · rw [if_neg hc] at hid
    -- the row is the only one with its key
    have heq : d'' = d := List.inj_on_of_nodup_map hdb.ids hd'' hmem (hid.trans hpending.1.symm)
    exact absurd (heq ▸ hclaim) hc

end

namespace Outbox

/-- The delivery that a worker has claimed and is about to send. -/
def Sender.claim : Sender → Option DeliveryKey
  | claimed row _ => some row.id
  | _ => none

namespace Host

variable {h h' : Host} {a : Act} {w : ℕ} {c : CommandId} {k : String}

/-- The delivery that the worker `w` is about to send. -/
def claim (h : Host) (w : ℕ) : Option DeliveryKey := (h.senders w).claim

/-- What a step does to the deliveries, to the claims of the workers and to the sends. -/
inductive Move (h h' : Host) : Prop
  /-- no claim and no send is added -/
  | quiet (ht : Traffic h.db h'.db) (hs : h'.sends = h.sends)
      (hc : ∀ w id, h'.claim w = some id → h.claim w = some id)
  /-- a worker claims a pending row -/
  | claimed (w : ℕ) (id : DeliveryKey) (ht : Traffic h.db h'.db) (hs : h'.sends = h.sends)
      (hpending : ∃ d ∈ h.db.deliveries, d.id = id ∧ d.state = .pending)
      (hsettled : ∀ d ∈ h'.db.deliveries, d.id = id → d.state ≠ .pending)
      (hc : ∀ w' id', h'.claim w' = some id' →
        w' = w ∧ id' = id ∨ w' ≠ w ∧ h.claim w' = some id')
  /-- a worker starts to send the row it has claimed -/
  | sent (w : ℕ) (id : DeliveryKey) (hdb : h'.db = h.db) (hs : h'.sends = h.sends ++ [id])
      (hclaim : h.claim w = some id)
      (hc : ∀ w' id', h'.claim w' = some id' → w' ≠ w ∧ h.claim w' = some id')

theorem goes_claim (s : Sender) (w' : ℕ) :
    (h.goes w s).claim w' = if w' = w then s.claim else h.claim w' := by
  show Sender.claim (Function.update h.senders w s w') = _
  rw [Function.update_apply]
  split_ifs <;> rfl

theorem claim_of_goes {s : Sender} (hs : s.claim = none) (w' : ℕ) (id : DeliveryKey)
    (hc : (h.goes w s).claim w' = some id) : w' ≠ w ∧ h.claim w' = some id := by
  rw [goes_claim] at hc
  split_ifs at hc with hw
  · rw [hs] at hc
    cases hc
  · exact ⟨hw, hc⟩

theorem Move.refl : Move h h := .quiet .refl rfl fun _ _ hc => hc

/-- A worker that claims nothing new moves on, and the database changes. -/
theorem Move.of_goes {s : Sender} (hs : s.claim = none) {db : Db} (ht : Traffic h.db db) :
    Move h { h.goes w s with db := db } :=
  .quiet ht rfl fun w' id hc => (claim_of_goes hs w' id hc).2

/-- **What a step does.** -/
theorem act_move (hdb : h.db.Sound) : Move h (h.act a) := by
  cases a with
  | op o => exact .quiet o.traffic rfl fun _ _ hc => hc
  | enter w id t₁ t₂ =>
    simp only [act]
    split
    · exact .of_goes rfl (cleanupExpired_thins t₁ t₂).traffic
    · exact .refl
  | list w t =>
    simp only [act]
    split
    · exact .of_goes rfl .refl
    · exact .refl
  | claim w t₁ t₂ =>
    simp only [act]
    split
    · next row rest hw =>
      by_cases hok : (claimDelivery row.id t₁ t₂ h.db).2 = true
      · obtain ⟨hpending, hsettled⟩ := claimDelivery_ok hdb hok
        rw [if_pos hok]
        refine .claimed w row.id (claimDelivery_thins t₁ t₂).traffic rfl hpending hsettled
          fun w' id' hc => ?_
        have hc' : (h.goes w (.claimed row rest)).claim w' = some id' := hc
        rw [goes_claim] at hc'
        split_ifs at hc' with hw'
        · cases hc'
          exact .inl ⟨hw', rfl⟩
        · exact .inr ⟨hw', hc'⟩
      · rw [if_neg hok]
        exact .of_goes rfl (claimDelivery_thins t₁ t₂).traffic
    · exact .refl
  | send w =>
    simp only [act]
    split
    · next row rest hw =>
      refine .sent w row.id rfl rfl ?_ fun w' id' hc => claim_of_goes rfl w' id' hc
      rw [claim, hw]
      rfl
    · exact .refl
  | spoil w error | answer w error | retry w error =>
    simp only [act]
    split
    · exact .of_goes rfl .refl
    · exact .refl
  | finish w =>
    simp only [act]
    split
    · refine .of_goes rfl (finishDelivery_thins ?_).traffic
      split_ifs <;> nofun
    · exact .refl
  | crash w => exact .of_goes rfl .refl

theorem Move.traffic (hm : Move h h') : Traffic h.db h'.db := by
  cases hm with
  | quiet ht => exact ht
  | claimed _ _ ht => exact ht
  | sent _ _ hdb => rw [hdb]; exact .refl

/-- A send was started, or is about to be, only for a spent event, and by one worker. -/
structure Inv (h : Host) : Prop where
  /-- the database -/
  db : h.db.Sound
  /-- an event that a worker is about to send is spent, and was not sent -/
  claimed : ∀ w c k, h.claim w = some (.event c k) →
    h.db.Spent (.event c k) ∧ .event c k ∉ h.sends
  /-- one worker is about to send it -/
  alone : ∀ w w' c k, h.claim w = some (.event c k) → h.claim w' = some (.event c k) → w = w'
  /-- an event that was sent is spent -/
  sent : ∀ c k, .event c k ∈ h.sends → h.db.Spent (.event c k)
  /-- no event was sent twice -/
  once : ∀ c k, h.sends.count (.event c k) ≤ 1

/-- A spent event has no pending row. -/
theorem not_pending {db : Db} {id : DeliveryKey} (hs : db.Spent id) :
    ¬ ∃ d ∈ db.deliveries, d.id = id ∧ d.state = .pending :=
  fun ⟨d, hd, hid, hpending⟩ => hs.settled d hd hid hpending

theorem Inv.step (hi : h.Inv) (hst : lts.step h a h') : h'.Inv := by
  have hm : Move h h' := hst ▸ act_move hi.db
  have hdb := hm.traffic.sound hi.db
  cases hm with
  | quiet ht hs hc =>
    refine ⟨hdb, fun w c k hw => ?_, fun w w' c k hw hw' => hi.alone w w' c k (hc _ _ hw) (hc _ _ hw'),
      fun c k hsent => ht.spent (hi.sent c k (hs ▸ hsent)), fun c k => hs ▸ hi.once c k⟩
    obtain ⟨hspent, hnot⟩ := hi.claimed w c k (hc _ _ hw)
    exact ⟨ht.spent hspent, hs ▸ hnot⟩
  | claimed w id ht hs hpending hsettled hc =>
    -- the row was pending, so nobody had claimed or sent its event
    have hfree : ∀ w' c k, id = .event c k → h.claim w' ≠ some id := fun w' c k hid hw' => by
      subst hid
      exact not_pending (hi.claimed w' c k hw').1 hpending
    have hspent : ∀ c k, id = .event c k → h'.db.Spent id := fun c k hid => by
      obtain ⟨d, hd, hdid, -⟩ := hpending
      have hrec := hi.db.recorded d hd c k (hdid.trans hid)
      exact ⟨ht.keeps_recorded (hdid ▸ hrec), hsettled⟩
    refine ⟨hdb, fun w' c k hw' => ?_, fun w₁ w₂ c k h₁ h₂ => ?_,
      fun c k hsent => ht.spent (hi.sent c k (hs ▸ hsent)), fun c k => hs ▸ hi.once c k⟩
    · rcases hc w' _ hw' with ⟨-, hid⟩ | ⟨-, hw'⟩
      · refine ⟨hid ▸ hspent c k hid.symm, fun hsent => ?_⟩
        rw [hs] at hsent
        exact not_pending (hi.sent c k hsent) (hid ▸ hpending)
      · obtain ⟨hsp, hnot⟩ := hi.claimed w' c k hw'
        exact ⟨ht.spent hsp, hs ▸ hnot⟩
    · rcases hc w₁ _ h₁ with ⟨rfl, hid⟩ | ⟨-, h₁⟩
      · rcases hc w₂ _ h₂ with ⟨rfl, -⟩ | ⟨-, h₂⟩
        · rfl
        · exact absurd (hid ▸ h₂) (hfree w₂ c k hid.symm)
      · rcases hc w₂ _ h₂ with ⟨rfl, hid⟩ | ⟨-, h₂⟩
        · exact absurd (hid ▸ h₁) (hfree w₁ c k hid.symm)
        · exact hi.alone w₁ w₂ c k h₁ h₂
  | sent w id hdb' hs hclaim hc =>
    refine ⟨hdb, fun w' c k hw' => ?_, fun w₁ w₂ c k h₁ h₂ =>
      hi.alone w₁ w₂ c k (hc _ _ h₁).2 (hc _ _ h₂).2, fun c k hsent => ?_, fun c k => ?_⟩
    · obtain ⟨hne, hw'⟩ := hc w' _ hw'
      obtain ⟨hsp, hnot⟩ := hi.claimed w' c k hw'
      refine ⟨hdb' ▸ hsp, fun hsent => ?_⟩
      rw [hs] at hsent
      rcases List.mem_append.1 hsent with hsent | hsent
      · exact hnot hsent
      · rw [← List.mem_singleton.1 hsent] at hclaim
        exact hne (hi.alone w' w c k hw' hclaim)
    · rw [hs] at hsent
      rw [hdb']
      rcases List.mem_append.1 hsent with hsent | hsent
      · exact hi.sent c k hsent
      · rw [← List.mem_singleton.1 hsent] at hclaim
        exact (hi.claimed w c k hclaim).1
    · rw [hs, List.count_append]
      by_cases hid : id = .event c k
      · subst hid
        have hzero := List.count_eq_zero.2 (hi.claimed w c k hclaim).2
        rw [hzero]
        simp
      · have hone := hi.once c k
        rw [List.count_singleton, if_neg (by simpa using hid)]
        exact hone

theorem Initial.inv (h₀ : h.Initial) : h.Inv := by
  have hclaim : ∀ w, h.claim w = none := fun w => by rw [claim, h₀.senders w]; rfl
  refine ⟨⟨by rw [h₀.db]; exact List.nodup_nil, fun d hd => ?_⟩, fun w c k hw => ?_,
    fun w w' c k hw => ?_, fun c k hs => ?_, fun c k => ?_⟩
  · rw [h₀.db] at hd
    cases hd
  · rw [hclaim] at hw
    cases hw
  · rw [hclaim] at hw
    cases hw
  · rw [h₀.sends] at hs
    cases hs
  · rw [h₀.sends]
    exact Nat.zero_le 1

theorem inv (hr : lts.Reachable Initial h) : h.Inv :=
  hr.invariant (fun _ h₀ => h₀.inv) fun _ _ _ hi hst => hi.step hst

/-! ### Queuing an event again -/

/-- The durable event `id` is recorded with the fingerprint `f`. -/
def Recorded (db : Db) (id : DeliveryKey) (f : Fingerprint) : Prop :=
  ∃ e, Records.find EventKey.id id db.eventKeys = some e ∧ e.digest = f

theorem Recorded.traffic {db db' : Db} {id : DeliveryKey} {f : Fingerprint} (ht : Traffic db db')
    (hr : Recorded db id f) : Recorded db' id f := by
  obtain ⟨e, he, hf⟩ := hr
  refine ⟨e, ?_, hf⟩
  cases ht with
  | thinned hkeys => rw [hkeys, he]
  | replied _ _ _ hkeys => rw [hkeys, he]
  | recorded e' _ hkeys => rw [hkeys, Records.find_append_of_some he]

section

variable {db db' : Db} {env : Environment} {cmd : Command} {text context key : String}
  {isError receipt : Bool} {minimal : Except Error Unit} {t : Time} {id : DeliveryKey}

/-- A call that queues a durable event records its fingerprint. -/
theorem recorded_of_queue
    (hq : queueDelivery env cmd text context isError receipt minimal (some key) t db =
      .ok (db', id)) :
    Recorded db' (.event cmd.id key) (fingerprint cmd text isError) := by
  simp only [queueDelivery, bind_eq_ok, Option.isNone_some, Bool.false_eq_true, if_false] at hq
  obtain ⟨-, -, -, -, -, -, hq⟩ := hq
  split at hq
  case h_1 old hold =>
    simp only [bind_eq_ok, ensure_eq_ok, pure_eq_ok, Prod.mk.injEq, decide_eq_true_eq] at hq
    obtain ⟨-, hdigest, rfl, -⟩ := hq
    exact ⟨old, hold, hdigest⟩
  case h_2 hnone =>
    simp only [bind_eq_ok] at hq
    obtain ⟨-, -, -, -, hq⟩ := hq
    have hrec : ∀ db₁ : Db, db₁.eventKeys = db.eventKeys ++
        [⟨.event cmd.id key, fingerprint cmd text isError⟩] →
        Recorded db₁ (.event cmd.id key) (fingerprint cmd text isError) := fun db₁ h₁ => by
      refine ⟨⟨.event cmd.id key, fingerprint cmd text isError⟩, ?_, rfl⟩
      rw [h₁, Records.find_append, show Records.find EventKey.id (DeliveryKey.event cmd.id key)
        db.eventKeys = none from hnone, Option.none_or]
      simp [Records.find]
    obtain ⟨-, rfl | ⟨row, -, -, rfl⟩⟩ := insertDelivery_ok hq
    · exact hrec _ rfl
    · exact hrec _ rfl

/-- Queuing a recorded event with another fingerprint raises. -/
theorem queue_of_recorded {f : Fingerprint} (hr : Recorded db (.event cmd.id key) f)
    (hne : fingerprint cmd text isError ≠ f) :
    ∃ e, queueDelivery env cmd text context isError receipt minimal (some key) t db = .error e := by
  cases hq : queueDelivery env cmd text context isError receipt minimal (some key) t db with
  | error e => exact ⟨e, rfl⟩
  | ok x =>
    obtain ⟨e, he, hf⟩ := hr
    simp only [queueDelivery, bind_eq_ok, Option.isNone_some, Bool.false_eq_true, if_false] at hq
    obtain ⟨-, -, -, -, -, -, hq⟩ := hq
    split at hq
    case h_1 old hold =>
      simp only [bind_eq_ok, ensure_eq_ok, decide_eq_true_eq] at hq
      obtain ⟨-, hdigest, -⟩ := hq
      rw [show Records.find EventKey.id (DeliveryKey.event cmd.id key) db.eventKeys = some old
        from hold] at he
      cases he
      exact absurd (hdigest.symm.trans hf) hne
    case h_2 hnone =>
      rw [show Records.find EventKey.id (DeliveryKey.event cmd.id key) db.eventKeys = none
        from hnone] at he
      cases he

end

/-- What holds of the deliveries and the events in one state holds in every later one. -/
theorem run_keeps {P : Db → Prop} (hP : ∀ db db', Traffic db db' → P db → P db') {as : List Act}
    (hi : h.Inv) (hrun : lts.Run h as h') (hp : P h.db) : P h'.db :=
  hrun.preserves_under (I := Inv) (P := fun h => P h.db) (fun _ _ _ hi hst => hi.step hst)
    (fun _ _ _ hi hp hst => hP _ _ (hst ▸ (act_move hi.db).traffic) hp) hi hp

/-- **The platform send of a durable event is started at most once, for ever.**  A delivery that was
sent, or whose outcome is uncertain, never becomes pending again; an event that was queued once
cannot be queued with other content or for another owner. -/
theorem delivered (hr : lts.Reachable Initial h) :
    (∀ c k, h.sends.count (.event c k) ≤ 1) ∧
      (∀ as h', lts.Run h as h' → ∀ c k, (∃ d ∈ h.db.deliveries, d.id = .event c k ∧
          (d.state = .sent ∨ d.state = .uncertain)) →
        ∀ d ∈ h'.db.deliveries, d.id = .event c k → d.state ≠ .pending) ∧
      ∀ env cmd text context isError receipt minimal key t db id,
        queueDelivery env cmd text context isError receipt minimal (some key) t h.db =
            .ok (db, id) →
          ∀ as h', lts.Run { h with db := db } as h' →
            ∀ env' cmd' text' context' isError' receipt' minimal' t', cmd'.id = cmd.id →
              fingerprint cmd' text' isError' ≠ fingerprint cmd text isError →
              (∃ e, queueDelivery env' cmd' text' context' isError' receipt' minimal' (some key) t'
                h'.db = .error e) ∧
              (Op.queueDelivery env' cmd' text' context' isError' receipt' minimal' (some key)
                t').perform h'.db = h'.db := by
  have hi := inv hr
  refine ⟨hi.once, fun as h' hrun c k ⟨d, hd, hid, hstate⟩ => ?_,
    fun env cmd text context isError receipt minimal key t db id hq as h' hrun env' cmd' text'
      context' isError' receipt' minimal' t' hcmd hne => ?_⟩
  · have hspent : h.db.Spent (.event c k) := by
      refine ⟨hid ▸ hi.db.recorded d hd c k hid, fun d' hd' hid' hpending => ?_⟩
      rw [List.inj_on_of_nodup_map hi.db.ids hd' hd (hid'.trans hid.symm)] at hpending
      rcases hstate with hs | hs <;> rw [hs] at hpending <;> cases hpending
    exact (run_keeps (fun _ _ ht => ht.spent) hi hrun hspent).settled
  · have hop : lts.step h (.op (.queueDelivery env cmd text context isError receipt minimal
        (some key) t)) { h with db := db } := by
      show _ = { h with db := commit h.db (outcome _) }
      rw [hq]
      rfl
    have hrec : Recorded h'.db (.event cmd.id key) (fingerprint cmd text isError) :=
      run_keeps (fun _ _ ht hr => Recorded.traffic ht hr) (hi.step hop) hrun (recorded_of_queue hq)
    rw [← hcmd] at hrec
    obtain ⟨e, he⟩ : ∃ e, queueDelivery env' cmd' text' context' isError' receipt' minimal'
        (some key) t' h'.db = .error e := queue_of_recorded hrec hne
    refine ⟨⟨e, he⟩, ?_⟩
    show commit h'.db (outcome _) = h'.db
    rw [he]
    rfl

/-- A reply that is queued under a durable event, sent by one worker, and gone. -/
def sampleActs : List Act :=
  [.op (.queueDelivery (fun _ => none) ⟨"t:1", "t", "chat", "ann", "hi", "default", "s", none⟩
      "done" "{}" false false (.ok ()) (some (String.ofList (List.replicate 64 'a'))) 0),
    .enter 0 none 1 1, .list 0 1, .claim 0 1 1, .send 0, .answer 0 none, .finish 0]

/-- The state after `sampleActs`. -/
def sample : Host := sampleActs.foldl act ⟨.empty, fun _ => .idle, []⟩

theorem run_foldl (as : List Act) (h : Host) : lts.Run h as (as.foldl act h) := by
  induction as generalizing h with
  | nil => exact .nil h
  | cons a as ih => exact .cons rfl (ih (h.act a))

theorem delivered_sample : sample.sends.length = 1 ∧
    (∀ c k, sample.sends.count (.event c k) ≤ 1) ∧
      sample.db.deliveries.map Delivery.state = [.sent] := by
  have hr : lts.Reachable Initial sample := ⟨_, sampleActs, ⟨rfl, fun _ => rfl, rfl⟩, run_foldl _ _⟩
  exact ⟨by decide, (delivered hr).1, by decide⟩

end Host

end Outbox

end Communication

end PythonAI
