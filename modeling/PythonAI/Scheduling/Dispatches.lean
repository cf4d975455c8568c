import Mathlib.Data.List.Nodup
import PythonAI.Scheduling.Notifications

/-!
# A notification is sent at most once, and not after its job is disabled

* `Desk.Advances` : what a step does to a delivery: it is kept, or it is `sending` and becomes
  `sent` or `uncertain`;
* `Desk.Inv` : a notification that is claimed, or was sent, has a delivery, and no cancelled one;
* `sent_at_most_once` : **the platform send of a notification starts at most once, a delivery
  never becomes `sending` again, and an unclaimed notification of a disabled job is never sent**.
-/

namespace PythonAI

open Library

namespace Scheduling

/-! ### The calls of the scheduler -/

/-- The jobs keep their owners, and the new notifications belong to the owners of their jobs. -/
structure Told (db db' : Db) : Prop where
  /-- the jobs -/
  jobs : ∀ k row, db.jobs k = some row → ∃ row', db'.jobs k = some row' ∧ row'.owner = row.owner
  /-- the notifications -/
  notes : ∀ n ∈ db'.notifications, n ∈ db.notifications ∨
    ∃ row, db.jobs n.job = some row ∧ row.owner = n.owner

section

variable {cal : Calendar} {db db' : Db} {key : JobId} {owner : Owner}

theorem Told.refl (db : Db) : Told db db := ⟨fun _ row h => ⟨row, h, rfl⟩, fun _ h => .inl h⟩

/-- The statement rewrites the row of one job, and not its owner. -/
theorem owner_update {p : Job → Bool} {f : Job → Job} (hf : ∀ row, (f row).owner = row.owner)
    (k : JobId) (row : Job) (h : db.jobs k = some row) :
    ∃ row', (db.jobs.update key p f) k = some row' ∧ row'.owner = row.owner := by
  rcases Table.update_cases db.jobs key p f k with hsame | ⟨row₀, -, hr, -, hset⟩
  · exact ⟨row, hsame.trans h, rfl⟩
  · rw [h] at hr
    cases hr
    exact ⟨_, hset, hf row⟩

/-- One notification is added, of the owner of its job. -/
theorem Told.of_one {n : Notification} {row : Job}
    (hjobs : ∀ k row, db.jobs k = some row → ∃ row', db'.jobs k = some row' ∧ row'.owner = row.owner)
    (hnotes : db'.notifications = db.notifications ++ [n]) (hrow : db.jobs n.job = some row)
    (howner : row.owner = n.owner) : Told db db' := by
  refine ⟨hjobs, fun n' hn' => ?_⟩
  rw [hnotes] at hn'
  rcases List.mem_append.1 hn' with hn' | hn'
  · exact .inl hn'
  · rw [List.mem_singleton.1 hn']
    exact .inr ⟨row, hrow, howner⟩

theorem Store.Claim.told {row : Job} {token run note : Token} {t : Time} {out : Option Token}
    (h : Claim key row token run note t db db' out) (hrow : db.jobs key = some row) :
    Told db db' := by
  cases h with
  | quarantined text =>
    exact .of_one (owner_update fun _ => rfl) rfl hrow rfl
  | refused db' _ hadm =>
    cases hadm with
    | repeated => exact ⟨owner_update fun _ => rfl, fun _ h => .inl h⟩
    | elsewhere => exact ⟨fun _ row h => ⟨row, h, rfl⟩, fun _ h => .inl h⟩
  | started db₁ _ hadm =>
    have hsame : db₁.jobs = db.jobs ∧ db₁.notifications = db.notifications := by
      cases hadm <;> exact ⟨rfl, rfl⟩
    refine ⟨fun k row h => ?_, fun n hn => .inl (hsame.2 ▸ hn)⟩
    exact owner_update (f := fun row : Job => { row with retryCount := row.retryCount + 1 })
      (fun _ => rfl) k row (hsame.1 ▸ h)

/-- **What a call does to the jobs and the notifications.** -/
theorem Call.told (c : Call) (u : Token) (db : Db) : Told db (c.perform cal u db) := by
  cases c with
  | addJob spec caller room t =>
    refine settle_of (.refl db) fun db' a h => ?_
    obtain ⟨due, rfl, hnone, -⟩ := Store.addJob_ok h
    refine ⟨fun k row hk => ⟨row, ?_, rfl⟩, fun _ h => .inl h⟩
    have hne : k ≠ u := fun he => by
      rw [he, hnone] at hk
      cases hk
    exact (Table.set_of_ne _ _ _ hne).trans hk
  | disable key owner =>
    show Told db (Store.disable key owner db).1
    unfold Store.disable
    split_ifs
    · exact ⟨owner_update fun _ => rfl, fun _ h => .inl h⟩
    · exact .refl db
  | claimDue key seen t₁ t₂ t₃ =>
    refine settle_of (.refl db) fun db' a h => ?_
    rcases Store.claimDue_ok h with ⟨rfl, -⟩ | ⟨row, hrow, -, -, -, hclaim⟩
    · exact .refl db'
    · exact hclaim.told hrow
  | renew | alive => exact ⟨fun _ row h => ⟨row, h, rfl⟩, fun _ h => .inl h⟩
  | complete w state output error t₁ t₂ =>
    refine settle_of (.refl db) fun db' a h => ?_
    rcases Store.complete_ok h with ⟨-, rfl, -⟩ | ⟨row, due, extra, -, hrow, -, -, rfl, -, hextra⟩
    · exact .refl db'
    · have hjobs : ∀ k r, db.jobs k = some r → ∃ r', (db.jobs.set w.job (Store.advance row
          (Store.verdict row state error) (cut 65536 output) due)) k = some r' ∧
          r'.owner = r.owner := fun k r hk => by
        by_cases he : k = w.job
        · rw [he] at hk ⊢
          rw [hrow] at hk
          cases hk
          exact ⟨_, Table.set_same .., rfl⟩
        · exact ⟨r, (Table.set_of_ne _ _ _ he).trans hk, rfl⟩
      rcases hextra with rfl | ⟨text, rfl⟩
      · exact ⟨hjobs, fun n hn => .inl (by simpa [Store.completed] using hn)⟩
      · exact .of_one hjobs rfl hrow rfl

end

/-! ### Deliveries -/

namespace Deliveries

/-- Every delivery is kept, or it was `sending` and is `sent` or `uncertain` now. -/
def Advances (deliveries deliveries' : Deliveries) : Prop :=
  ∀ id x, deliveries id = some x → ∃ x', deliveries' id = some x' ∧
    (x'.status = x.status ∨ x.status = .sending ∧ (x'.status = .sent ∨ x'.status = .uncertain))

variable {deliveries deliveries' : Deliveries}

theorem Advances.refl (deliveries : Deliveries) : Advances deliveries deliveries :=
  fun _ x h => ⟨x, h, .inl rfl⟩

theorem Advances.trans {deliveries'' : Deliveries} (h : Advances deliveries deliveries')
    (h' : Advances deliveries' deliveries'') : Advances deliveries deliveries'' := by
  intro id x hx
  obtain ⟨x', hx', hstep⟩ := h id x hx
  obtain ⟨x'', hx'', hstep'⟩ := h' id x' hx'
  refine ⟨x'', hx'', ?_⟩
  rcases hstep with hsame | ⟨hsending, hended⟩
  · rw [hsame] at hstep'
    exact hstep'
  · rcases hstep' with hsame | ⟨hsending', -⟩
    · exact .inr ⟨hsending, hsame ▸ hended⟩
    · rw [hsending'] at hended
      rcases hended with hended | hended <;> cases hended

/-- A delivery that is not cancelled does not become so. -/
theorem Advances.live (h : Advances deliveries deliveries') {id : Token}
    (hx : ∃ x, deliveries id = some x ∧ x.status ≠ .cancelled) :
    ∃ x, deliveries' id = some x ∧ x.status ≠ .cancelled := by
  obtain ⟨x, hx, hne⟩ := hx
  obtain ⟨x', hx', hsame | ⟨-, hended⟩⟩ := h id x hx
  · exact ⟨x', hx', hsame ▸ hne⟩
  · refine ⟨x', hx', fun hc => ?_⟩
    rw [hc] at hended
    rcases hended with hended | hended <;> cases hended

/-- A cancelled delivery stays so. -/
theorem Advances.cancelled (h : Advances deliveries deliveries') {id : Token} {x : Delivery}
    (hx : deliveries id = some x) (hc : x.status = .cancelled) :
    ∃ x', deliveries' id = some x' ∧ x'.status = .cancelled := by
  obtain ⟨x', hx', hsame | ⟨hsending, -⟩⟩ := h id x hx
  · exact ⟨x', hx', hsame.trans hc⟩
  · rw [hc] at hsending
    cases hsending

/-- Insertions keep what there is. -/
theorem offer_advances (ids : List Token) (x : Delivery) :
    Advances deliveries (deliveries.offer ids x) :=
  fun _ y hy => ⟨y, Table.offer_of_some _ _ _ hy, .inl rfl⟩

/-- A statement that ends deliveries that are `sending`. -/
theorem advances_updateWhere {p : Token → Delivery → Bool} {f : Delivery → Delivery}
    (h : ∀ id x, p id x = true →
      x.status = .sending ∧ ((f x).status = .sent ∨ (f x).status = .uncertain)) :
    Advances deliveries (deliveries.updateWhere p f) := by
  intro id x hx
  refine ⟨if p id x = true then f x else x, by rw [Table.updateWhere_apply, hx]; rfl, ?_⟩
  by_cases hp : p id x = true
  · rw [if_pos hp]
    exact .inr (h id x hp)
  · rw [if_neg hp]
    exact .inl rfl

theorem expire_advances (t : Time) : Advances deliveries (deliveries.expire t) := by
  refine advances_updateWhere fun id x hp => ?_
  simp only [Bool.and_eq_true, decide_eq_true_eq] at hp
  exact ⟨hp.1, .inr rfl⟩

theorem report_advances {id token : Token} {error : Option String} {t : Time} :
    Advances deliveries (deliveries.report id token error t) := by
  intro id' x hx
  rcases Table.update_cases deliveries id (fun x => x.token = some token && x.status = .sending)
    (fun x => { x with
      status := if error.isNone then .sent else .uncertain
      errorType := error
      completed := some t }) id' with hsame | ⟨x₀, -, hx₀, hp, hset⟩
  · exact ⟨x, hsame.trans hx, .inl rfl⟩
  · rw [hx] at hx₀
    cases hx₀
    simp only [Bool.and_eq_true, decide_eq_true_eq] at hp
    refine ⟨_, hset, .inr ⟨hp.2, ?_⟩⟩
    by_cases he : error.isNone = true
    · exact .inl (if_pos he)
    · exact .inr (if_neg he)

end Deliveries

/-! ### The dispatchers -/

/-- The notification that a process has claimed and not yet sent. -/
def Process.waits (x : Process) : Option Token :=
  match x.stage with
  | .claimed y _ _ _ => some y.note.id
  | _ => none

namespace Desk

open Deliveries

/-- The notification that the process `p` has claimed and not yet sent. -/
def waiting (s : Desk) (p : ℕ) : Option Token := (s.processes p).bind Process.waits

/-- The notifications that were sent. -/
def sent (s : Desk) : List Token := s.sends.map Prod.fst

/-- Every notification belongs to the owner of its job. -/
def Noted (db : Db) : Prop :=
  ∀ n ∈ db.notifications, ∃ row, db.jobs n.job = some row ∧ row.owner = n.owner

/-- What was claimed or sent has a delivery that is not cancelled, is claimed by one process and
was sent once. -/
structure Inv (s : Desk) : Prop where
  /-- the notifications -/
  noted : Noted s.sys.db
  /-- a claimed notification -/
  claimed : ∀ p id, s.waiting p = some id →
    id ∉ s.sent ∧ ∃ x, s.deliveries id = some x ∧ x.status ≠ .cancelled
  /-- it has one process -/
  unique : ∀ p q id, s.waiting p = some id → s.waiting q = some id → p = q
  /-- a sent notification -/
  sent : ∀ id ∈ s.sent, ∃ x, s.deliveries id = some x ∧ x.status ≠ .cancelled
  /-- it was sent once -/
  once : s.sent.Nodup

variable {json : Json} {cal : Calendar} {s s' : Desk} {a : DeskAct} {p q : ℕ} {x : Process}

theorem waiting_put : (s.put p x).waiting q = if q = p then x.waits else s.waiting q := by
  show (s.processes.set p x q).bind Process.waits = _
  rw [Table.set_apply]
  split_ifs <;> rfl

theorem waiting_drop {id : Token} (h : (s.drop p).waiting q = some id) : s.waiting q = some id := by
  obtain ⟨y, hy, hw⟩ := Option.bind_eq_some_iff.1 h
  exact Option.bind_eq_some_iff.2 ⟨y, (Table.erase_eq_some hy).2, hw⟩

/-- A process that goes on without a claim. -/
theorem waiting_put_none (hx : x.waits = none) {id : Token} (h : (s.put p x).waiting q = some id) :
    s.waiting q = some id := by
  rw [waiting_put] at h
  split_ifs at h
  · rw [hx] at h
    cases h
  · exact h

/-- A step that makes no claim and sends nothing. -/
theorem Inv.of_fewer (hi : s.Inv) (hnoted : Noted s'.sys.db)
    (hd : Advances s.deliveries s'.deliveries)
    (hw : ∀ p id, s'.waiting p = some id → s.waiting p = some id) (hs : s'.sends = s.sends) :
    s'.Inv := by
  have hsent : s'.sent = s.sent := congrArg (List.map Prod.fst) hs
  refine ⟨hnoted, fun p id h => ?_, fun p q id h h' => ?_, fun id h => ?_, ?_⟩
  · rw [hsent]
    exact ⟨(hi.claimed p id (hw p id h)).1, hd.live (hi.claimed p id (hw p id h)).2⟩
  · exact hi.unique p q id (hw p id h) (hw q id h')
  · exact hd.live (hi.sent id (hsent ▸ h))
  · rw [hsent]
    exact hi.once

theorem noted_of_told {db db' : Db} (h : Told db db') (hn : Noted db) : Noted db' := by
  intro n hmem
  have hold : ∃ row, db.jobs n.job = some row ∧ row.owner = n.owner := by
    rcases h.notes n hmem with hmem | hrow
    · exact hn n hmem
    · exact hrow
  obtain ⟨row, hrow, howner⟩ := hold
  obtain ⟨row', hrow', hsame⟩ := h.jobs n.job row hrow
  exact ⟨row', hrow', hsame.trans howner⟩

theorem called_advances (c : Call) : Advances s.deliveries (s.called c) := by
  cases c with
  | disable key owner =>
    show Advances s.deliveries (if _ then _ else _)
    split_ifs
    · exact offer_advances _ _
    · exact .refl _
  | addJob | claimDue | renew | alive | complete => exact .refl _

theorem insert_advances {id : Token} {status : DeliveryStatus} {t : Time} :
    Advances s.deliveries (s.insert id status t).deliveries := offer_advances _ _

/-- What a step of a process does. -/
inductive Moves (s : Desk) : Desk → Prop
  /-- it makes no claim and sends nothing -/
  | still {s' : Desk} (hdb : s'.sys.db = s.sys.db) (hd : Advances s.deliveries s'.deliveries)
      (hw : ∀ p id, s'.waiting p = some id → s.waiting p = some id) (hs : s'.sends = s.sends) :
      Moves s s'
  /-- it claims a notification without a delivery -/
  | claimed (p : ℕ) (x : Process) (id : Token) (t : Time) (hnone : s.deliveries id = none)
      (hx : x.waits = some id) : Moves s ((s.insert id .sending t).put p x)
  /-- it sends what it has claimed -/
  | sending (p : ℕ) (x : Process) (id : Token) (out : Outbound) (hw : s.waiting p = some id)
      (hx : x.waits = none) : Moves s (put { s with sends := s.sends ++ [(id, out)] } p x)

theorem act_moves (h : s.act json a = some s') : Moves s s' := by
  cases a with
  | call c => cases h
  | select p d t =>
    simp only [act, select] at h
    split_ifs at h
    split at h
    · cases h
      exact .still rfl (.refl _) (fun _ _ h => h) rfl
    · next deliveries rows hsel =>
      cases h
      simp only [Dispatcher.select] at hsel
      split_ifs at hsel
      cases hsel
      exact .still rfl (expire_advances t) (fun _ _ h => waiting_put_none rfl h) rfl
  | claim p t =>
    simp only [act, claim] at h
    split at h
    · next d x rows n hp =>
      split at h
      · cases h
        exact .still rfl (.refl _) (fun _ _ h => waiting_put_none rfl h) rfl
      · cases h
        exact .still rfl (.refl _) (fun _ _ h => waiting_drop h) rfl
      · cases h
        exact .still rfl insert_advances
          (fun _ _ h => waiting_put_none (s := s.insert x.note.id .cancelled t) rfl h) rfl
      · split_ifs at h with hnone
        · cases h
          exact .claimed p _ x.note.id t (Option.isNone_iff_eq_none.1 hnone) rfl
        · cases h
          exact .still rfl (.refl _) (fun _ _ h => waiting_put_none (s := s.tick) rfl h) rfl
    · cases h
  | send p =>
    simp only [act, send] at h
    split at h
    · next d rows x token platform conversation n hp =>
      cases h
      refine .sending p _ x.note.id _ ?_ rfl
      rw [waiting, hp]
      rfl
    · cases h
  | report p error t =>
    simp only [act, report] at h
    split at h
    · cases h
      exact .still rfl report_advances (fun _ _ h => waiting_put_none (s := { s with
        deliveries := _ }) rfl h) rfl
    · cases h
  | stop p =>
    cases h
    exact .still rfl (.refl _) (fun _ _ h => waiting_drop h) rfl

/-- **What a step does to the deliveries.** -/
theorem step_advances (hst : (lts json cal).step s a s') : Advances s.deliveries s'.deliveries := by
  rcases hst with ⟨c, sys, -, -, rfl⟩ | h
  · exact called_advances c
  · cases act_moves h with
    | still _ hd => exact hd
    | claimed => exact insert_advances
    | sending => exact .refl _

theorem run_advances {as : List DeskAct} (hr : (lts json cal).Run s as s') :
    Advances s.deliveries s'.deliveries := by
  induction hr with
  | nil s => exact .refl _
  | cons hst _ ih => exact (step_advances hst).trans ih

/-! ### The invariant -/

theorem Inv.initial (hi : s.Initial) : s.Inv := by
  have hw : ∀ p, s.waiting p = none := fun p => by
    rw [waiting, hi.processes]
    rfl
  have hs : s.sent = [] := by rw [Desk.sent, hi.sends]; rfl
  refine ⟨hi.notes, fun p id h => ?_, fun p q id h => ?_, fun id h => ?_, by rw [hs]; exact .nil⟩
  · rw [hw] at h
    cases h
  · rw [hw] at h
    cases h
  · rw [hs] at h
    cases h

/-- A claim of a notification without a delivery. -/
theorem Inv.claim (hi : s.Inv) {id : Token} {t : Time} (hnone : s.deliveries id = none)
    (hx : x.waits = some id) : ((s.insert id .sending t).put p x).Inv := by
  have hfresh : id ∉ s.sent := fun hmem => by
    obtain ⟨y, hy, -⟩ := hi.sent id hmem
    rw [hnone] at hy
    cases hy
  have hfree : ∀ q, s.waiting q ≠ some id := fun q hq => by
    obtain ⟨y, hy, -⟩ := (hi.claimed q id hq).2
    rw [hnone] at hy
    cases hy
  have hw : ∀ q id', ((s.insert id .sending t).put p x).waiting q = some id' →
      q = p ∧ id' = id ∨ q ≠ p ∧ s.waiting q = some id' := fun q id' h => by
    rw [waiting_put] at h
    split_ifs at h with hq
    · rw [hx] at h
      exact .inl ⟨hq, (Option.some.inj h).symm⟩
    · exact .inr ⟨hq, h⟩
  refine ⟨hi.noted, fun q id' h => ?_, fun q q' id' h h' => ?_, fun id' h => ?_, hi.once⟩
  · rcases hw q id' h with ⟨-, rfl⟩ | ⟨-, h⟩
    · exact ⟨hfresh, _,
        (Table.offer_of_none _ _ _ hnone).trans (if_pos (List.mem_singleton.2 rfl)), nofun⟩
    · exact ⟨(hi.claimed q id' h).1, insert_advances.live (hi.claimed q id' h).2⟩
  · rcases hw q id' h with ⟨hq, rfl⟩ | ⟨hq, hold⟩
    · rcases hw q' id' h' with ⟨hq', -⟩ | ⟨-, hold'⟩
      · exact hq.trans hq'.symm
      · exact absurd hold' (hfree q')
    · rcases hw q' id' h' with ⟨-, rfl⟩ | ⟨-, hold'⟩
      · exact absurd hold (hfree q)
      · exact hi.unique q q' id' hold hold'
  · exact insert_advances.live (hi.sent id' h)

/-- A send of what was claimed. -/
theorem Inv.send (hi : s.Inv) {id : Token} {out : Outbound} (hw : s.waiting p = some id)
    (hx : x.waits = none) : (put { s with sends := s.sends ++ [(id, out)] } p x).Inv := by
  obtain ⟨hfresh, hlive⟩ := hi.claimed p id hw
  have hsent : (put { s with sends := s.sends ++ [(id, out)] } p x).sent = s.sent ++ [id] :=
    List.map_append
  have hold : ∀ q id', (put { s with sends := s.sends ++ [(id, out)] } p x).waiting q = some id' →
      q ≠ p ∧ s.waiting q = some id' := fun q id' h => by
    rw [waiting_put] at h
    split_ifs at h with hq
    · rw [hx] at h
      cases h
    · exact ⟨hq, h⟩
  refine ⟨hi.noted, fun q id' h => ?_, fun q q' id' h h' => ?_, fun id' h => ?_, ?_⟩
  · obtain ⟨hq, h⟩ := hold q id' h
    refine ⟨fun hmem => ?_, (hi.claimed q id' h).2⟩
    rw [hsent] at hmem
    rcases List.mem_append.1 hmem with hmem | hmem
    · exact (hi.claimed q id' h).1 hmem
    · rw [List.mem_singleton.1 hmem] at h
      exact hq (hi.unique q p id h hw)
  · exact hi.unique q q' id' (hold q id' h).2 (hold q' id' h').2
  · rw [hsent] at h
    rcases List.mem_append.1 h with h | h
    · exact hi.sent id' h
    · rw [List.mem_singleton.1 h]
      exact hlive
  · rw [hsent]
    exact List.nodup_append'.2 ⟨hi.once, List.nodup_singleton id, by
      rw [List.disjoint_singleton]
      exact hfresh⟩

theorem Inv.step (hi : s.Inv) (hst : (lts json cal).step s a s') : s'.Inv := by
  rcases hst with ⟨c, sys, -, hcall, rfl⟩ | h
  · obtain ⟨-, -, -, hdb, -⟩ := hcall
    refine hi.of_fewer ?_ (called_advances c) (fun _ _ h => h) rfl
    show Noted sys.db
    rw [hdb]
    exact noted_of_told (c.told s.sys.uuids s.sys.db) hi.noted
  · cases act_moves h with
    | still hdb hd hw hs => exact hi.of_fewer (by rw [hdb]; exact hi.noted) hd hw hs
    | claimed p x id t hnone hx => exact hi.claim hnone hx
    | sending p x id out hw hx => exact hi.send hw hx

theorem inv (hr : (lts json cal).Reachable Initial s) : s.Inv :=
  hr.invariant (fun _ h => .initial h) fun _ _ _ hi hst => hi.step hst

/-- A notification with a cancelled delivery is never sent. -/
theorem Inv.not_sent (hi : s.Inv) {id : Token} {y : Delivery} (hy : s.deliveries id = some y)
    (hc : y.status = .cancelled) : id ∉ s.sent := fun hmem => by
  obtain ⟨z, hz, hne⟩ := hi.sent id hmem
  rw [hy] at hz
  cases hz
  exact hne hc

end Desk

open Desk in
/-- **A notification is sent at most once, and not after its job is disabled.**  No notification is
in the log of the sends twice; a delivery that is sent, uncertain or cancelled stays so, and one that
is sending becomes sent or uncertain only; and what was unclaimed when its job was disabled is never
sent. -/
theorem sent_at_most_once {json : Json} {cal : Calendar} {s : Desk}
    (hr : (Desk.lts json cal).Reachable Desk.Initial s) :
    s.sent.Nodup ∧
      (∀ as s' id x, (Desk.lts json cal).Run s as s' → s.deliveries id = some x →
        ∃ x', s'.deliveries id = some x' ∧ (x'.status = x.status ∨
          x.status = .sending ∧ (x'.status = .sent ∨ x'.status = .uncertain))) ∧
      ∀ key owner s' n as s'', (Desk.lts json cal).step s (.call (.disable key owner)) s' →
        s.sys.db.jobs.selects key (Store.owned owner) = true → n ∈ s.sys.db.notifications →
        n.job = key → s.deliveries n.id = none → (Desk.lts json cal).Run s' as s'' →
        n.id ∉ s''.sent := by
  have hi := Desk.inv hr
  refine ⟨hi.once, fun as s' id x hrun hx => run_advances hrun id x hx, ?_⟩
  intro key owner s' n as s'' hst hsel hn hkey hnone hrun
  have hr' : (Desk.lts json cal).Reachable Desk.Initial s'' := (hr.step hst).run hrun
  rcases hst with ⟨c, sys, hc, -, rfl⟩ | h
  swap
  · cases h
  cases hc
  obtain ⟨row, hrow, howner⟩ := hi.noted n hn
  obtain ⟨row', hrow', howned⟩ := (Table.selects_eq_true _ _ _).1 hsel
  rw [hkey, hrow'] at hrow
  cases hrow
  have hnote : n.owner = owner := howner.symm.trans (of_decide_eq_true howned)
  have hmem : n.id ∈ (s.sys.db.notifications.filter fun n => n.job = key && n.owner = owner).map
      Notification.id :=
    List.mem_map.2 ⟨n, List.mem_filter.2 ⟨hn, by simp [hkey, hnote]⟩, rfl⟩
  have hcancelled : (s.called (.disable key owner)) n.id = some ⟨.cancelled, none, 0, none, none⟩ := by
    show (if s.sys.db.jobs.selects key (Store.owned owner) then _ else _ : Deliveries) n.id = _
    rw [if_pos hsel]
    exact (Table.offer_of_none _ _ _ hnone).trans (if_pos hmem)
  obtain ⟨y, hy, hyc⟩ := (run_advances hrun).cancelled hcancelled rfl
  exact (Desk.inv hr').not_sent hy hyc

/-- A row that names a connected platform is claimed. -/
theorem Desk.claim_ok {s : Desk} {p : ℕ} {d : Dispatcher} {x : Selected} {rows : List Selected}
    {n : ℕ} {t : Time} {platform conversation : String}
    (hp : s.processes p = some ⟨d, x :: rows, .next, n⟩)
    (hroute : d.route json x.note.owner x.context = .ok (platform, conversation))
    (hnone : (s.deliveries x.note.id).isNone = true) :
    s.claim json p t = some ((s.insert x.note.id .sending t).put p
      ⟨d, rows, .claimed x s.sys.uuids platform conversation, n⟩) := by
  rw [Desk.claim, hp]
  simp only [hroute, hnone, if_true]

namespace Sample

/-- The job of a request in the chat `42`. -/
def asked : Job :=
  newJob { name := "tea", cron := "0 17 * * *", jobType := .agent, payload := "" }
    ((request "telegram:42").caller .plain) 0

/-- What it has to tell. -/
def told : Selected := ⟨⟨7, 0, asked.owner, .completed, "done"⟩, asked.context⟩

/-- A notification waits. -/
def waiting : Desk :=
  ⟨⟨{ Db.empty with jobs := Table.empty.set 0 asked, notifications := [told.note] }, 0, 8, []⟩,
    .empty, .empty, []⟩

/-- A dispatcher has selected it. -/
def selected : Desk :=
  Desk.put { waiting with deliveries := waiting.deliveries.expire 0 } 0 ⟨telegram, [told], .next, 0⟩

/-- The dispatcher has claimed it. -/
def claimed : Desk :=
  (selected.insert 7 .sending 0).put 0 ⟨telegram, [], .claimed told 8 "telegram" "42", 0⟩

/-- The dispatcher sends it. -/
def sending : Desk :=
  Desk.put { claimed with sends := [(7, ⟨"telegram", "42", told.note.text⟩)] } 0
    ⟨telegram, [], .sending told 8, 0⟩

theorem told_loads : Json.plain.loads told.context = some (request "telegram:42").scope :=
  Json.plain.loads_dumps _

theorem select_told : telegram.select .plain 0 waiting.sys.db waiting.deliveries =
    some (waiting.deliveries.expire 0, [told]) := by
  have hpending : pending waiting.sys.db (waiting.deliveries.expire 0) = [told] := rfl
  have hreaches : telegram.reaches .plain told = true := by
    rw [Dispatcher.reaches, told_loads]
    rfl
  rw [Dispatcher.select, hpending]
  simp only [List.any_cons, List.any_nil, told_loads, Option.isNone_some, Bool.or_false,
    Bool.false_eq_true, if_false, List.filter_cons, hreaches, if_true, List.filter_nil]
  rfl

theorem route_told : telegram.route .plain told.note.owner told.context = .ok ("telegram", "42") :=
  (Dispatcher.route_ok_iff ⟨rfl, rfl⟩).2
    ⟨⟨by decide, ⟨by decide, by decide⟩, by decide, by decide⟩, rfl⟩

theorem waiting_initial : waiting.Initial :=
  ⟨rfl, rfl, rfl, fun n hn => ⟨asked, by
    rw [List.mem_singleton.1 hn]
    exact ⟨rfl, rfl⟩⟩⟩

theorem waiting_selects : waiting.act .plain (.select 0 telegram 0) = some selected := by
  have hfree : ((waiting.processes 0).isSome || decide (telegram.adapters = [])) = false := rfl
  rw [Desk.act, Desk.select, hfree, if_neg Bool.false_ne_true, select_told]
  rfl

theorem selected_claims : selected.act .plain (.claim 0 0) = some claimed := by
  have hp : selected.processes 0 = some ⟨telegram, [told], .next, 0⟩ := rfl
  have hnone : (selected.deliveries told.note.id).isNone = true := rfl
  rw [Desk.act, Desk.claim_ok hp route_told hnone]
  rfl

theorem claimed_sends : claimed.act .plain (.send 0) = some sending := rfl

theorem sending_reachable (cal : Calendar) :
    (Desk.lts .plain cal).Reachable Desk.Initial sending :=
  ⟨waiting, [.select 0 telegram 0, .claim 0 0, .send 0], waiting_initial,
    .cons (.inr waiting_selects) (.cons (.inr selected_claims) (.cons (.inr claimed_sends) (.nil _)))⟩

end Sample

theorem sent_at_most_once_sample : Sample.sending.sent = [7] ∧ Sample.sending.sent.Nodup ∧
    ∀ key owner s' n as s'', (Desk.lts .plain Sample.cal).step Sample.sending
        (.call (.disable key owner)) s' →
      Sample.sending.sys.db.jobs.selects key (Store.owned owner) = true →
      n ∈ Sample.sending.sys.db.notifications → n.job = key →
      Sample.sending.deliveries n.id = none → (Desk.lts .plain Sample.cal).Run s' as s'' →
      n.id ∉ s''.sent :=
  have h := sent_at_most_once (Sample.sending_reachable Sample.cal)
  ⟨rfl, h.1, h.2.2⟩

end Scheduling

end PythonAI
