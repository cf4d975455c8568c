import PythonAI.Communication.Deliveries
import PythonAI.Communication.Live

/-!
# Every suspension is told to the user

A thread, or `recover_tasks`, suspends a job and then sends its question with `_send_reply`.  The
key of the delivery is made of the job and of the text, or of the event of the Temporal journal; a
key that has a row is a delivery that was queued before.

* `queueDelivery_row` : `queue_delivery` adds a row exactly if its key is new;
* `Worker.Host.suspensions` : the questions that a run sends, with the states they are sent in;
* `Worker.Host.suspensions_delivered` : **every suspension has a delivery of its own exactly if its
  key is new** each time, in any run;
* `Worker.Host.repeats_of_not_delivered` : a question without a delivery of its own repeats an
  earlier reply of the job, or of the event;
* `Worker.Host.suspensions_collide` : a job that asks the same question twice.
-/

namespace PythonAI

open Library

namespace Communication

/-- The key of a reply is new: it has no row, and its event was not recorded. -/
def Db.unsent (db : Db) (c : Command) (text : String) (isError : Bool) (event : Option String) :
    Bool :=
  (db.delivery (deliveryKey c text isError event)).isNone && (event.isNone ||
    (Records.find EventKey.id (deliveryKey c text isError event) db.eventKeys).isNone)

section

variable {env : Environment} {c : Command} {key key' : DeliveryKey} {text context : String}
  {isError receipt : Bool} {minimal : Except Error Unit} {event : Option String} {t : Time}
  {db db' : Db}

/-- `insertDelivery` adds the row under a key that has none. -/
theorem insertDelivery_row
    (h : insertDelivery env c key text context receipt t db = .ok (db', key')) :
    (∀ d, db.delivery key = some d → db' = db) ∧ (db.delivery key = none →
      ∃ row : Delivery, row.id = key ∧ row.text = text ∧
        db'.deliveries = db.deliveries ++ [row]) := by
  unfold insertDelivery at h
  cases hd : db.delivery key with
  | some d =>
    rw [hd, if_pos Option.isSome_some] at h
    cases h
    exact ⟨fun _ _ => rfl, fun h => by cases h⟩
  | none =>
    rw [hd, if_neg (by simp)] at h
    simp only [bind_eq_ok, pure_eq_ok, Prod.mk.injEq] at h
    obtain ⟨-, -, -, -, -, -, -, -, -, -, ttl, -, rfl, -⟩ := h
    exact ⟨fun _ h => (by cases h), fun _ => ⟨_, rfl, rfl, rfl⟩⟩

/-- **`queue_delivery` adds a row exactly if the key is new.** -/
theorem queueDelivery_row (h : queueDelivery env c text context isError receipt minimal event t db =
      .ok (db', key)) :
    if db.unsent c text isError event then
      ∃ row : Delivery, row.id = deliveryKey c text isError event ∧ row.text = text ∧
        db'.deliveries = db.deliveries ++ [row]
    else db'.deliveries = db.deliveries := by
  simp only [queueDelivery, bind_eq_ok] at h
  obtain ⟨-, -, -, -, -, -, h⟩ := h
  cases event with
  | none =>
    have hrow := insertDelivery_row h
    cases hd : db.delivery (deliveryKey c text isError none) with
    | some d => rw [if_neg (by simp [Db.unsent, hd]), hrow.1 d hd]
    | none =>
      rw [if_pos (by simp [Db.unsent, hd])]
      exact hrow.2 hd
  | some k =>
    simp only [Option.isNone_some, Bool.false_eq_true, if_false] at h
    split at h
    · next old hold =>
      simp only [bind_eq_ok, pure_eq_ok, Prod.mk.injEq] at h
      obtain ⟨-, -, rfl, -⟩ := h
      rw [if_neg (by simp [Db.unsent, hold])]
    · next hnone =>
      simp only [bind_eq_ok] at h
      obtain ⟨-, -, -, -, h⟩ := h
      have hrow := insertDelivery_row h
      cases hd : db.delivery (deliveryKey c text isError (some k)) with
      | some d => rw [if_neg (by simp [Db.unsent, hd]), hrow.1 d hd]
      | none =>
        rw [if_pos (by simp [Db.unsent, hd, hnone])]
        exact hrow.2 hd

/-- The key has a row, or its event was recorded. -/
def Db.used (db : Db) (key : DeliveryKey) : Prop :=
  (∃ d ∈ db.deliveries, d.id = key) ∨ db.recorded key

theorem Db.used_of_not_unsent (h : db.unsent c text isError event = false) :
    db.used (deliveryKey c text isError event) := by
  cases hd : db.delivery (deliveryKey c text isError event) with
  | some d => exact .inl ⟨d, Records.mem_of_find hd, Records.key_of_find hd⟩
  | none =>
    cases he : Records.find EventKey.id (deliveryKey c text isError event) db.eventKeys with
    | some e => exact .inr ⟨e, Records.mem_of_find he, Records.key_of_find he⟩
    | none =>
      rw [Db.unsent, hd, he] at h
      simp at h

theorem Thins.used (h : Thins db db') (hu : db'.used key) : db.used key := by
  rcases hu with ⟨d', hd', rfl⟩ | ⟨e, he, rfl⟩
  · obtain ⟨d, hd, hid, -⟩ := h.rows d' hd'
    exact .inl ⟨d, hd, hid⟩
  · exact .inr ⟨e, h.keys ▸ he, rfl⟩

theorem insertDelivery_used {k : DeliveryKey}
    (h : insertDelivery env c key text context receipt t db = .ok (db', key')) (hu : db'.used k) :
    db.used k ∨ k = key := by
  obtain ⟨-, rfl | ⟨row, hrow, -, rfl⟩⟩ := insertDelivery_ok h
  · exact .inl hu
  · rcases hu with ⟨d, hd, rfl⟩ | hrec
    · rcases List.mem_append.1 hd with hold | hnew
      · exact .inl (.inl ⟨d, hold, rfl⟩)
      · exact .inr ((congrArg Delivery.id (List.mem_singleton.1 hnew)).trans hrow)
    · exact .inl (.inr hrec)

/-- `queue_delivery` uses the key of its reply only. -/
theorem queueDelivery_used {k : DeliveryKey}
    (h : queueDelivery env c text context isError receipt minimal event t db = .ok (db', key))
    (hu : db'.used k) : db.used k ∨ k = deliveryKey c text isError event := by
  simp only [queueDelivery, bind_eq_ok] at h
  obtain ⟨-, -, -, -, -, -, h⟩ := h
  cases event with
  | none => exact insertDelivery_used h hu
  | some e =>
    simp only [Option.isNone_some, Bool.false_eq_true, if_false] at h
    split at h
    · simp only [bind_eq_ok, pure_eq_ok, Prod.mk.injEq] at h
      obtain ⟨-, -, rfl, -⟩ := h
      exact .inl hu
    · simp only [bind_eq_ok] at h
      obtain ⟨-, -, -, -, h⟩ := h
      rcases insertDelivery_used h hu with (hrow | ⟨x, hx, hid⟩) | hkey
      · exact .inl (.inl hrow)
      · rcases List.mem_append.1 hx with hold | hnew
        · exact .inl (.inr ⟨x, hold, hid⟩)
        · exact .inr (hid.symm.trans (congrArg EventKey.id (List.mem_singleton.1 hnew)))
      · exact .inr hkey

end

namespace Worker

/-- A thread is about to suspend the job. -/
def Pc.suspends : Pc → Bool
  | reporting _ (.suspended ..) => true
  | _ => false

/-- The reply that a thread is about to send. -/
def Pc.reply : Pc → Option (Command × String)
  | replying c text false => some (c, text)
  | _ => none

/-- A poller is about to suspend a job. -/
def Poller.suspends : Poller → Bool
  | .suspending .. => true
  | _ => false

/-- The reply that `recover_tasks` is about to send. -/
def Poller.reply : Poller → Option (Command × String)
  | .replying c text (some _) => some (c, text)
  | _ => none

/-- Who has suspended a job, and has not sent its question yet. -/
structure Asking where
  /-- the threads -/
  threads : ℕ → Bool
  /-- the pollers -/
  pollers : ℕ → Bool

/-- Nobody. -/
def Asking.nobody : Asking := ⟨fun _ => false, fun _ => false⟩

/-- A question that a step sends. -/
structure Suspension where
  /-- the state before the step -/
  host : Host
  /-- the step -/
  step : Act
  /-- the command of the job -/
  command : Command
  /-- the question -/
  text : String
  /-- what `_send_reply` reads -/
  reply : Reply

namespace Suspension

/-- `_send_reply` returns, and the conversation is active. -/
def Returns (x : Suspension) : Prop :=
  x.host.db.lifecycle x.command = .active ∧
    ∃ y, x.reply.outcome x.command x.text false x.host.db = .ok y

/-- The step creates the delivery of the question. -/
def Delivered (owner : Command → Owner) (x : Suspension) : Prop :=
  ∃ row : Delivery, row.id = deliveryKey x.command x.text false x.reply.event ∧ row.text = x.text ∧
    (x.host.act owner x.step).db.deliveries = x.host.db.deliveries ++ [row]

/-- The question has a new key. -/
def unsent (x : Suspension) : Bool := x.host.db.unsent x.command x.text false x.reply.event

/-- The step `a` queues a reply of the same job with the same text, or for the same event. -/
def Repeats (owner : Command → Owner) (x : Suspension) (h : Host) (a : Act) : Prop :=
  ∃ env c text context isError receipt minimal event t,
    h.effect owner a = some (.store
      (.queueDelivery env c text context isError receipt minimal event t)) ∧
    c.id = x.command.id ∧ event = x.reply.event ∧
    (event = none → text = x.text ∧ isError = false)

end Suspension

namespace Host

variable (owner : Command → Owner)

/-- Who has a question to send after a step: whoever has suspended a job, until the reply is sent. -/
def asking (h : Host) (q : Asking) (a : Act) : Asking where
  threads i := ((h.act owner a).threads[i]?.any fun th => th.pc.reply.isSome) &&
    (q.threads i || h.threads[i]?.any fun th => th.pc.suspends)
  pollers w := ((h.act owner a).pollers w).reply.isSome && (q.pollers w || (h.pollers w).suspends)

/-- The question that a step sends. -/
def suspension (h : Host) (q : Asking) : Act → Option (Command × String × Reply)
  | .run i (.notify r) =>
    if q.threads i then (h.threads[i]?.bind fun th => th.pc.reply).map fun x => (x.1, x.2, r)
    else none
  | .poll w (.notify r) =>
    if q.pollers w then (h.pollers w).reply.map fun x => (x.1, x.2, r) else none
  | _ => none

/-- The questions that a run sends. -/
def suspensions (q : Asking) : Host → List Act → List Suspension
  | _, [] => []
  | h, a :: as =>
    ((h.suspension q a).map fun x => ⟨h, a, x.1, x.2.1, x.2.2⟩).toList ++
      suspensions (h.asking owner q a) (h.act owner a) as

/-- Who has a question to send after a run. -/
def askingAfter (q : Asking) : Host → List Act → Asking
  | _, [] => q
  | h, a :: as => askingAfter (h.asking owner q a) (h.act owner a) as

variable {owner} {h : Host} {q : Asking} {a : Act} {as bs : List Act} {x : Suspension}

theorem suspensions_append : suspensions owner q h (as ++ bs) = suspensions owner q h as ++
    suspensions owner (askingAfter owner q h as) (as.foldl (act owner) h) bs := by
  induction as generalizing h q with
  | nil => rfl
  | cons a as ih =>
    rw [List.cons_append, suspensions, ih, suspensions, List.append_assoc]
    rfl

theorem mem_suspensions (hx : x ∈ suspensions owner q h as) :
    ∃ q, x.host.suspension q x.step = some (x.command, x.text, x.reply) := by
  induction as generalizing h q with
  | nil => cases hx
  | cons a as ih =>
    rcases List.mem_append.1 hx with hx | hx
    · obtain ⟨y, hy, rfl⟩ := Option.map_eq_some_iff.1 (Option.mem_toList.1 hx)
      exact ⟨q, hy⟩
    · exact ih hx

theorem suspension_run {i : ℕ} {c : Command} {text : String} {r : Reply}
    (hq : q.threads i = true)
    (hth : (h.threads[i]?.bind fun th => th.pc.reply) = some (c, text)) :
    h.suspension q (.run i (.notify r)) = some (c, text, r) := by
  rw [suspension, if_pos hq, hth]
  rfl

/-- The operation of a step that sends a question in an active conversation. -/
theorem suspension_effect {c : Command} {text : String} {r : Reply}
    (hs : h.suspension q a = some (c, text, r)) (hl : h.db.lifecycle c = .active) :
    h.effect owner a = some (.store (r.queue c text false)) := by
  unfold suspension at hs
  split at hs
  · next i r' =>
    split_ifs at hs
    obtain ⟨⟨c', text'⟩, hreply, heq⟩ := Option.map_eq_some_iff.1 hs
    cases heq
    obtain ⟨th, hth, hpc⟩ := Option.bind_eq_some_iff.1 hreply
    unfold Pc.reply at hpc
    split at hpc
    · next c' text' hpc' =>
      cases hpc
      rw [effect, hth, Option.bind_some, hpc']
      exact if_pos hl
    · cases hpc
  · next w r' =>
    split_ifs at hs
    obtain ⟨⟨c', text'⟩, hreply, heq⟩ := Option.map_eq_some_iff.1 hs
    cases heq
    unfold Poller.reply at hreply
    split at hreply
    · next c' text' rest hp =>
      cases hreply
      rw [effect, hp]
      exact if_pos hl
    · cases hreply
  · cases hs

/-- A question is delivered exactly if its key is new. -/
theorem suspension_delivered (hx : x ∈ suspensions owner q h as) (hr : x.Returns) :
    x.Delivered owner ↔ x.unsent = true := by
  obtain ⟨q, hq⟩ := mem_suspensions hx
  obtain ⟨hl, ⟨db', key⟩, hok⟩ := hr
  have hdb : (x.host.act owner x.step).db = db' := by
    show storeAfter x.host.db (x.host.effect owner x.step) = db'
    rw [suspension_effect hq hl]
    show commit x.host.db (Library.outcome (x.reply.outcome x.command x.text false x.host.db)) = db'
    rw [hok]
    rfl
  have hrow := queueDelivery_row hok
  rw [Suspension.Delivered, hdb, Suspension.unsent]
  split_ifs at hrow with hnew
  · exact ⟨fun _ => hnew, fun _ => hrow⟩
  · refine ⟨fun ⟨row, _, _, hrows⟩ => ?_, fun hnew' => absurd hnew' hnew⟩
    have hlength := congrArg List.length (hrow.symm.trans hrows)
    rw [List.length_append, List.length_singleton] at hlength
    omega

/-- **Every suspension has a delivery of its own exactly if its key is new each time.**  In any run,
the step that sends a question creates the row of its delivery, unless the job has asked with the
same text (or with the same event) before and the row, or the event, is still recorded. -/
theorem suspensions_delivered (owner : Command → Owner) (h : Host) (as : List Act) :
    (∀ x ∈ suspensions owner .nobody h as, x.Returns → x.Delivered owner) ↔
      ∀ x ∈ suspensions owner .nobody h as, x.Returns → x.unsent = true :=
  forall₂_congr fun _ hx => forall_congr' fun hr => suspension_delivered hx hr

/-- Only a reply uses its key. -/
theorem storeAfter_used {db : Db} {e : Option Effect} {key : DeliveryKey}
    (hu : (storeAfter db e).used key) (hno : ¬ db.used key) :
    ∃ env c text context isError receipt minimal event t,
      e = some (.store (.queueDelivery env c text context isError receipt minimal event t)) ∧
        key = deliveryKey c text isError event := by
  unfold storeAfter at hu
  split at hu
  · next o =>
    cases ho : o.queues with
    | false => exact absurd ((o.thins ho).used hu) hno
    | true =>
      cases o with
      | queueDelivery env c text context isError receipt minimal event t =>
        refine ⟨env, c, text, context, isError, receipt, minimal, event, t, rfl, ?_⟩
        have hdb : (commit db (Library.outcome (queueDelivery env c text context isError receipt
            minimal event t db))).used key := hu
        cases hq : queueDelivery env c text context isError receipt minimal event t db with
        | error e => exact absurd (by rw [hq] at hdb; exact hdb) hno
        | ok y =>
          rw [hq] at hdb
          exact (queueDelivery_used hq hdb).resolve_left hno
      | _ => cases ho
  · next id t₁ t₂ => exact absurd ((claimDelivery_thins t₁ t₂).used hu) hno
  · next id sent error =>
    refine absurd ((finishDelivery_thins ?_).used hu) hno
    split_ifs <;> exact nofun
  · exact absurd hu hno

/-- A key that is used has been used by a reply of the run. -/
theorem exists_queue {key : DeliveryKey} (hno : ¬ h.db.used key)
    (hu : (as.foldl (act owner) h).db.used key) :
    ∃ bs a cs, as = bs ++ a :: cs ∧ ¬ (bs.foldl (act owner) h).db.used key ∧
      ((bs.foldl (act owner) h).act owner a).db.used key := by
  induction as generalizing h with
  | nil => exact absurd hu hno
  | cons a as ih =>
    by_cases hnow : (h.act owner a).db.used key
    · exact ⟨[], a, as, rfl, hno, hnow⟩
    · obtain ⟨bs, b, cs, rfl, hbefore, hafter⟩ := ih hnow hu
      exact ⟨a :: bs, b, cs, rfl, hbefore, hafter⟩

/-- A question of a run is sent in a state of the run. -/
theorem host_of_mem_suspensions (hx : x ∈ suspensions owner q h as) :
    ∃ bs cs, as = bs ++ x.step :: cs ∧ x.host = bs.foldl (act owner) h := by
  induction as generalizing h q with
  | nil => cases hx
  | cons a as ih =>
    rcases List.mem_append.1 hx with hx | hx
    · obtain ⟨y, -, rfl⟩ := Option.map_eq_some_iff.1 (Option.mem_toList.1 hx)
      exact ⟨[], as, rfl, rfl⟩
    · obtain ⟨bs, cs, rfl, hhost⟩ := ih hx
      exact ⟨a :: bs, cs, rfl, hhost⟩

/-- **A question without a delivery of its own repeats an earlier reply** of the run: one of the same
job with the same text, or one for the same event. -/
theorem repeats_of_not_delivered (hinit : Initial h) (hx : x ∈ suspensions owner q h as)
    (hr : x.Returns) (hno : ¬ x.Delivered owner) : ∃ bs a cs ds,
      as = bs ++ a :: (cs ++ x.step :: ds) ∧ x.Repeats owner (bs.foldl (act owner) h) a := by
  obtain ⟨es, ds, rfl, hhost⟩ := host_of_mem_suspensions hx
  have hused := Db.used_of_not_unsent
    (Bool.eq_false_iff.2 (mt (suspension_delivered hx hr).2 hno) : x.unsent = false)
  have hnew : ¬ h.db.used (deliveryKey x.command x.text false x.reply.event) := by
    rw [hinit.db]
    rintro (⟨d, hd, -⟩ | ⟨e, he, -⟩)
    · cases hd
    · cases he
  obtain ⟨bs, a, cs, rfl, hbefore, hafter⟩ := exists_queue hnew (hhost ▸ hused)
  obtain ⟨env, c, text, context, isError, receipt, minimal, event, t, heffect, hkey⟩ :=
    storeAfter_used hafter hbefore
  refine ⟨bs, a, cs, ds, by simp, env, c, text, context, isError, receipt, minimal, event, t,
    heffect, ?_⟩
  cases hevent : x.reply.event with
  | none =>
    rw [hevent] at hkey
    cases event with
    | none =>
      simp only [deliveryKey, DeliveryKey.content.injEq] at hkey
      exact ⟨hkey.1.symm, rfl, fun _ => ⟨hkey.2.2.symm, hkey.2.1.symm⟩⟩
    | some k => cases hkey
  | some k =>
    rw [hevent] at hkey
    cases event with
    | none => cases hkey
    | some k' =>
      simp only [deliveryKey, DeliveryKey.event.injEq] at hkey
      exact ⟨hkey.1.symm, congrArg some hkey.2.symm, nofun⟩

/-- A job asks, is answered, and asks with the same text again. -/
def repeatedActs : List Act :=
  resumedActs ++ [.run 1 (.turn (.suspended ⟨[], none⟩ "again" "Which?")), .run 1 .go, .run 1 .go,
    .run 1 .go]

/-- The state in which the second question is to be sent. -/
def repeated : Host := repeatedActs.foldl (act fun _ => "") new

/-- The command of that job. -/
def repeatedCommand : Command := ⟨"t:1", "t", "chat", "ann", "hi", "default", "t:chat", none⟩

/-- The second question is taken for the delivery of the first one. -/
theorem suspensions_collide : ∃ h as x, Initial h ∧ x ∈ suspensions (fun _ => "") .nobody h as ∧
    x.Returns ∧ ¬ x.Delivered fun _ => "" := by
  have hsend : repeated.suspension (askingAfter (fun _ => "") .nobody new repeatedActs)
      (.run 1 (.notify {})) = some (repeatedCommand, "Which?", {}) :=
    suspension_run (by decide) (by decide)
  have hmem : (⟨repeated, .run 1 (.notify {}), repeatedCommand, "Which?", {}⟩ : Suspension) ∈
      suspensions (fun _ => "") .nobody new (repeatedActs ++ [.run 1 (.notify {})]) := by
    rw [suspensions_append, List.mem_append]
    refine .inr ?_
    show _ ∈ ((repeated.suspension _ _).map _).toList ++ []
    rw [hsend]
    exact List.mem_singleton_self _
  have hreturns : (⟨repeated, .run 1 (.notify {}), repeatedCommand, "Which?", {}⟩ :
      Suspension).Returns := by
    refine ⟨by decide, ?_⟩
    have hok : (({} : Reply).outcome repeatedCommand "Which?" false repeated.db).isOk = true := by
      decide
    cases hy : ({} : Reply).outcome repeatedCommand "Which?" false repeated.db with
    | error e =>
      rw [hy] at hok
      cases hok
    | ok y => exact ⟨y, rfl⟩
  refine ⟨new, _, _, new_initial, hmem, hreturns, fun hdelivered => ?_⟩
  have hunsent := (suspension_delivered hmem hreturns).1 hdelivered
  exact absurd hunsent (by decide)

end Host

end Worker

end Communication

end PythonAI
