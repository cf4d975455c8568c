import PythonAI.Extensions.Calls

/-!
# Revocation and the exchanges that are running

`revoke` deletes the states and the credential of a client.  A call that has taken a state, or has
deleted an expired credential, has nothing in the database that a revocation could delete; when its
request is answered, it stores the credential.

* `Host.revocation_final` : **a revocation is final in the runs in which no call stores a credential
  after a revocation that was committed since its first transaction**
* `Host.revocation_undone` : a login that is exchanging its code undoes a revocation

The *birth* of a credential is the number of revocations of its client before its authorization
began; it is invalid when there have been more.
-/

namespace PythonAI

open Library

namespace OAuth

namespace Host

variable {trusted : String → Bool} {h h' : Host} {a : Act}

/-- No credential is stored that stems from an authorization before a revocation, and no call of
`access_token` returns one that stems from an authorization before a revocation before the call. -/
structure Final (h : Host) : Prop where
  /-- the credentials that were stored -/
  stored : ∀ x ∈ h.stored, x.revoked ≤ x.born
  /-- the access tokens that were returned -/
  returned : ∀ x ∈ h.returned, x.began ≤ x.born

/-- The call that stores a credential has begun after the last revocation. -/
def Sound (h : Host) : Act → Prop
  | .save i _ | .refreshed i _ _ =>
    ∀ call, h.calls i = some call → call.began = h.revoked call.client
  | _ => True

/-- The births of the states, of the credentials and of the calls. -/
structure Births (h : Host) : Prop where
  /-- a stored state began after the last revocation -/
  states : ∀ {k row}, h.db.states k = some row →
    row.state = k ∧ k < h.uuids ∧ h.born k = h.revoked row.client
  /-- so did a stored credential -/
  tokens : ∀ {c row}, h.db.tokens c = some row → h.stems c = h.revoked c
  /-- the credential of a call stems from an authorization after the last revocation before the
  call -/
  calls : ∀ {i call}, h.calls i = some call →
    call.born = call.began ∧ call.began ≤ h.revoked call.client

theorem Births.of_initial (h₀ : h.Initial) : h.Births := by
  refine ⟨fun hrow => ?_, fun hrow => ?_, fun hcall => ?_⟩
  · rw [h₀.states] at hrow
    cases hrow
  · rw [h₀.tokens] at hrow
    cases hrow
  · rw [h₀.calls] at hcall
    cases hcall

theorem Final.of_initial (h₀ : h.Initial) : h.Final := by
  refine ⟨fun x hx => ?_, fun x hx => ?_⟩
  · rw [h₀.stored] at hx
    cases hx
  · rw [h₀.returned] at hx
    cases hx

/-- A step that only ends calls or goes on with them. -/
theorem Births.frame (hi : h.Births) (hu : h'.uuids = h.uuids) (hb : h'.born = h.born)
    (hr : h'.revoked = h.revoked) (hm : h'.stems = h.stems)
    (hs : ∀ {k row}, h'.db.states k = some row → h.db.states k = some row)
    (ht : ∀ {c row}, h'.db.tokens c = some row → ∃ row', h.db.tokens c = some row')
    (hc : ∀ {i call}, h'.calls i = some call → ∃ call', h.calls i = some call' ∧
      call.born = call'.born ∧ call.began = call'.began ∧ call.client = call'.client) :
    h'.Births := by
  refine ⟨fun hrow => ?_, fun hrow => ?_, fun hcall => ?_⟩
  · rw [hu, hb, hr]
    exact hi.states (hs hrow)
  · rw [hm, hr]
    obtain ⟨row', hrow'⟩ := ht hrow
    exact hi.tokens hrow'
  · obtain ⟨call', hcall', hborn, hbegan, hclient⟩ := hc hcall
    rw [hr, hborn, hbegan, hclient]
    exact hi.calls hcall'

theorem goes_births {i j : ℕ} {call call' : Call} {phase : Phase} (hcall : h.calls i = some call)
    (hj : (h.goes i call phase).calls j = some call') : ∃ call₀, h.calls j = some call₀ ∧
      call'.born = call₀.born ∧ call'.began = call₀.began ∧ call'.client = call₀.client := by
  by_cases hij : j = i
  · rw [hij, show (h.goes i call phase).calls i = some { call with phase := phase } from
      Table.set_same ..] at hj
    obtain rfl := Option.some.inj hj
    exact ⟨call, hij ▸ hcall, rfl, rfl, rfl⟩
  · rw [show (h.goes i call phase).calls j = h.calls j from Table.set_of_ne _ _ _ hij] at hj
    exact ⟨call', hj, rfl, rfl, rfl⟩

/-- A call that begins. -/
theorem Births.begins_call (hi : h.Births) {i j : ℕ} {call call' : Call}
    (hcall : call.born = call.began ∧ call.began ≤ h.revoked call.client)
    (hj : (h.calls.set i call) j = some call') :
    call'.born = call'.began ∧ call'.began ≤ h.revoked call'.client := by
  by_cases hij : j = i
  · rw [hij, Table.set_same] at hj
    obtain rfl := Option.some.inj hj
    exact hcall
  · rw [Table.set_of_ne _ _ _ hij] at hj
    exact hi.calls hj

/-- A credential is stored by a call that has begun after the last revocation. -/
theorem Births.saves (hi : h.Births) {i : ℕ} {call : Call} {credential : Credential}
    (hcall : h.calls i = some call) (hnow : call.began = h.revoked call.client) :
    ((h.saves call.client call.born
      { h.db with tokens := h.db.tokens.set call.client credential }).ends i).Births := by
  refine ⟨hi.states, fun {c row} hrow => ?_, fun hj => hi.calls (ends_calls hj)⟩
  have hrow : (h.db.tokens.set call.client credential) c = some row := hrow
  show Function.update h.stems call.client call.born c = h.revoked c
  by_cases hc : c = call.client
  · rw [hc, Function.update_self, (hi.calls hcall).1, hnow]
  · rw [Table.set_of_ne _ _ _ hc] at hrow
    rw [Function.update_of_ne hc, hi.tokens hrow]

theorem Births.step (hi : h.Births) (hst : Step trusted h a h') (ha : h.Sound a) : h'.Births := by
  cases hst with
  | @begin c endpoint room t₁ t₂ db hl hx =>
    obtain ⟨htokens, hnew, hold⟩ := Store.begin_ok hx
    refine ⟨fun {k row} hrow => ?_, fun {c row} hrow => ?_, hi.calls⟩
    · have hrow : db.states k = some row := hrow
      show row.state = k ∧ k < h.uuids + 2 ∧
        Function.update h.born h.uuids (h.revoked c) k = h.revoked row.client
      by_cases hk : k = h.uuids
      · rw [hk] at hrow ⊢
        obtain rfl := Option.some.inj (hnew.symm.trans hrow)
        exact ⟨rfl, Nat.lt_add_of_pos_right (by decide), Function.update_self ..⟩
      · obtain ⟨hstate, hlt, hborn⟩ := hi.states (hold k row hk hrow)
        exact ⟨hstate, Nat.lt_add_right 2 hlt, by rw [Function.update_of_ne hk, hborn]⟩
    · exact hi.tokens (htokens ▸ hrow)
  | @take i c state t db row hl hnone hx =>
    obtain ⟨hrow, hclient, -, rfl⟩ := Store.take_ok hx
    obtain ⟨hstate, -, hborn⟩ := hi.states hrow
    refine ⟨fun {k row'} hk => ?_, hi.tokens, hi.begins_call ⟨?_, le_rfl⟩⟩
    · exact hi.states (Table.erase_eq_some (t := h.db.states) hk).2
    · rw [hstate, hborn, hclient]
  | send hcall | answer hcall =>
    exact hi.frame rfl rfl rfl rfl id (fun hrow => ⟨_, hrow⟩) (goes_births hcall)
  | save hl hcall hp hx =>
    obtain rfl := Store.save_ok hx
    exact hi.saves hcall (ha _ hcall)
  | valid hl hnone hx =>
    exact hi.frame rfl rfl rfl rfl id (fun hrow => ⟨_, hrow⟩) fun hj => ⟨_, hj, rfl, rfl, rfl⟩
  | @expired i c t db data hl hnone hx =>
    obtain ⟨rfl, row, hrow, -⟩ := Store.access_expired hx
    exact ⟨hi.states, fun hd => hi.tokens (Table.erase_eq_some (t := h.db.tokens) hd).2,
      hi.begins_call ⟨hi.tokens hrow, le_rfl⟩⟩
  | newer | fail =>
    exact hi.frame rfl rfl rfl rfl id (fun hrow => ⟨_, hrow⟩)
      fun hj => ⟨_, ends_calls hj, rfl, rfl, rfl⟩
  | refresh hl hcall =>
    exact hi.frame rfl rfl rfl rfl id (fun hrow => ⟨_, hrow⟩) (goes_births hcall)
  | @refreshed i call data no result t credential hcall hp hx =>
    have hs : ((h.saves call.client call.born
        { h.db with tokens := h.db.tokens.set call.client credential }).ends i).Births :=
      hi.saves hcall (ha _ hcall)
    exact ⟨hs.states, hs.tokens, hs.calls⟩
  | @revoke c hl =>
    refine ⟨fun {k row} hk => ?_, fun {d row} hd => ?_, fun {i call} hcall => ?_⟩
    · obtain ⟨hrow, hne⟩ := Store.revoke_states hk
      obtain ⟨hstate, hlt, hborn⟩ := hi.states hrow
      exact ⟨hstate, hlt, by rw [hborn]; exact (Function.update_of_ne hne ..).symm⟩
    · obtain ⟨he, hd⟩ := Table.erase_eq_some (t := h.db.tokens) hd
      exact (hi.tokens hd).trans (Function.update_of_ne he ..).symm
    · obtain ⟨hborn, hbegan⟩ := hi.calls hcall
      refine ⟨hborn, ?_⟩
      show call.began ≤ Function.update h.revoked c (h.revoked c + 1) call.client
      by_cases he : call.client = c
      · rw [he, Function.update_self]
        rw [he] at hbegan
        exact Nat.le_succ_of_le hbegan
      · rw [Function.update_of_ne he]
        exact hbegan
  | cancelState hl =>
    exact hi.frame rfl rfl rfl rfl Store.cancelState_states (fun hrow => ⟨_, hrow⟩)
      fun hj => ⟨_, hj, rfl, rfl, rfl⟩

/-- A step keeps the finality if and only if no call stores a credential after a revocation that was
committed since its first transaction. -/
theorem final_step (hi : h.Births) (hf : h.Final) (hst : Step trusted h a h') :
    h'.Final ↔ h.Sound a := by
  have hsame : h'.stored = h.stored → h'.returned = h.returned → h'.Final := fun hs hr =>
    ⟨fun x hx => hf.stored x (hs ▸ hx), fun x hx => hf.returned x (hr ▸ hx)⟩
  -- a credential that is stored
  have hsave : ∀ {i call}, h.calls i = some call →
      h'.stored = h.stored ++ [⟨call.client, call.born, h.revoked call.client⟩] →
      (∀ x ∈ h'.returned, x.began ≤ x.born) →
      (h'.Final ↔ ∀ call', h.calls i = some call' → call'.began = h.revoked call'.client) := by
    intro i call hcall hs hr
    obtain ⟨hborn, hbegan⟩ := hi.calls hcall
    constructor
    · intro hf' call' hcall'
      obtain rfl := Option.some.inj (hcall.symm.trans hcall')
      have hle := hf'.stored ⟨call.client, call.born, h.revoked call.client⟩ (by rw [hs]; simp)
      exact le_antisymm hbegan (hborn ▸ hle)
    · intro hnow
      refine ⟨fun x hx => ?_, hr⟩
      rw [hs] at hx
      rcases List.mem_append.1 hx with hold | hnew
      · exact hf.stored x hold
      · obtain rfl := List.mem_singleton.1 hnew
        show h.revoked call.client ≤ call.born
        rw [hborn, hnow call hcall]
  -- an access token that is returned
  have hreturn : ∀ {c : Client} {born began : ℕ}, began ≤ born →
      ∀ x ∈ h.returned ++ [⟨c, born, began⟩], x.began ≤ x.born := by
    intro c born began hle x hx
    rcases List.mem_append.1 hx with hold | hnew
    · exact hf.returned x hold
    · obtain rfl := List.mem_singleton.1 hnew
      exact hle
  cases hst with
  | begin | take | send | answer | expired | refresh | fail | revoke | cancelState =>
    exact iff_of_true (hsame rfl rfl) trivial
  | save hl hcall hp hx => exact hsave hcall rfl hf.returned
  | valid hl hnone hx =>
    obtain ⟨-, row, hrow⟩ := Store.access_valid hx
    exact iff_of_true ⟨hf.stored, hreturn (hi.tokens hrow).ge⟩ trivial
  | newer hl hcall hp hrow =>
    exact iff_of_true ⟨hf.stored, hreturn ((hi.calls hcall).2.trans (hi.tokens hrow).ge)⟩ trivial
  | refreshed hcall hp hx => exact hsave hcall rfl (hreturn (hi.calls hcall).1.ge)

/-- **A revocation is final** in the runs in which no call stores a credential after a revocation
that was committed since its first transaction; and every such store breaks it. -/
theorem revocation_final (hr : ((lts trusted).restrict Sound).Reachable Initial h) :
    h.Final ∧ ∀ a h', (lts trusted).step h a h' → (h'.Final ↔ h.Sound a) := by
  obtain ⟨hi, hf⟩ := hr.invariant (I := fun h => h.Births ∧ h.Final)
    (fun _ h₀ => ⟨.of_initial h₀, .of_initial h₀⟩) fun _ _ _ hi hst =>
      ⟨hi.1.step hst.1 hst.2, (final_step hi.1 hi.2 hst.1).2 hst.2⟩
  exact ⟨hf, fun _ _ hst => final_step hi hf hst⟩

namespace Sample

/-- The credential that is stored is revoked. -/
def cleared : Host :=
  { saved with
    db := Store.revoke client saved.db
    revoked := Function.update saved.revoked client 1 }

/-- The state of the next login. -/
def nextRow : StateRow := ⟨2, client, 3, "https://issuer/token", 600⟩

/-- The next login begins. -/
def nextBegun : Host :=
  cleared.begins client "https://issuer/token" 0
    { cleared.db with
      states := (cleared.db.states.deleteWhere fun _ row => row.expires < 0).set 2 nextRow }

/-- Its state is taken. -/
def nextTaken : Host :=
  nextBegun.takes 1 client nextRow 0 { nextBegun.db with states := nextBegun.db.states.erase 2 }

/-- Its call of `finish`. -/
def nextFinish : Call := ⟨client, .taken nextRow 0, 1, 1⟩

/-- Its code is sent. -/
def nextSent : Host := nextTaken.sends 1 nextFinish nextRow 0

/-- Its answer is valid. -/
def nextAnswered : Host :=
  (nextSent.goes 1 { nextFinish with phase := .exchanging nextRow } (.answered credential)).issues
    client credential

/-- Its credential is stored. -/
def nextSaved : Host :=
  (nextAnswered.saves client 1
    { nextAnswered.db with tokens := nextAnswered.db.tokens.set client credential }).ends 1

/-- The first login. -/
theorem saved_run : ((lts fun _ => true).restrict Sound).Run start
    [.begin client "https://issuer/token" true 0 0, .take 0 client 0 0, .send 0, .answer 0 answer 0,
      .save 0 true] saved := by
  have hsound : answered.Sound (.save 0 true) := fun call hcall => by
    obtain rfl := Option.some.inj hcall
    rfl
  exact .cons ⟨begun_step, trivial⟩ (.cons ⟨taken_step, trivial⟩ (.cons ⟨sent_step rfl, trivial⟩
    (.cons ⟨answered_step, trivial⟩ (.single ⟨saved_step, hsound⟩))))

/-- The login after the revocation. -/
theorem nextSaved_run : ((lts fun _ => true).restrict Sound).Run cleared
    [.begin client "https://issuer/token" true 0 0, .take 1 client 2 0, .send 1, .answer 1 answer 0,
      .save 1 true] nextSaved := by
  have hbegun : Step (fun _ => true) cleared (.begin client "https://issuer/token" true 0 0)
      nextBegun := .begin rfl rfl
  have htaken : Step (fun _ => true) nextBegun (.take 1 client 2 0) nextTaken := by
    have hx : Store.take client 2 0 nextBegun.db =
        .ok ({ nextBegun.db with states := nextBegun.db.states.erase 2 }, nextRow) := rfl
    exact .take rfl rfl hx
  have hsent : Step (fun _ => true) nextTaken (.send 1) nextSent := by
    have hcall : nextTaken.calls 1 = some nextFinish := rfl
    exact .send hcall rfl rfl
  have hanswered : Step (fun _ => true) nextSent (.answer 1 answer 0) nextAnswered := by
    have hx : tokenData answer nextRow.endpoint none 0 = .ok credential := by decide +kernel
    have hcall : nextSent.calls 1 = some { nextFinish with phase := .exchanging nextRow } := rfl
    exact .answer hcall rfl hx
  have hsaved : Step (fun _ => true) nextAnswered (.save 1 true) nextSaved := by
    have hx : Store.save client credential true nextAnswered.db =
        .ok { nextAnswered.db with tokens := nextAnswered.db.tokens.set client credential } := rfl
    have hcall : nextAnswered.calls 1 = some { nextFinish with phase := .answered credential } := rfl
    exact .save rfl hcall rfl hx
  have hsound : nextAnswered.Sound (.save 1 true) := fun call hcall => by
    obtain rfl := Option.some.inj hcall
    rfl
  exact .cons ⟨hbegun, trivial⟩ (.cons ⟨htaken, trivial⟩ (.cons ⟨hsent, trivial⟩
    (.cons ⟨hanswered, trivial⟩ (.single ⟨hsaved, hsound⟩))))

end Sample

/-- A login, its revocation, and a login after it: nothing is left after the revocation, and the
second credential stems from an authorization after it. -/
theorem revocation_final_sample : Sample.nextSaved.Final ∧
    Sample.cleared.db.tokens Sample.client = none ∧
    Sample.nextSaved.stored = [⟨Sample.client, 0, 0⟩, ⟨Sample.client, 1, 1⟩] := by
  have hcleared : ((lts fun _ => true).restrict Sound).Reachable Initial Sample.cleared :=
    ((Lts.Reachable.of_init Sample.start_initial).run Sample.saved_run).step
      (l := .revoke Sample.client) ⟨.revoke rfl, trivial⟩
  exact ⟨(revocation_final (hcleared.run Sample.nextSaved_run)).1, rfl, rfl⟩

namespace Sample

/-- The client is revoked while the code is exchanged. -/
def revoked : Host :=
  { answered with
    db := Store.revoke client answered.db
    revoked := Function.update answered.revoked client 1 }

/-- The credential is stored nevertheless. -/
def undone : Host :=
  (revoked.saves client 0 { revoked.db with tokens := revoked.db.tokens.set client credential }).ends
    0

end Sample

/-- A login that is exchanging its code undoes a revocation. -/
theorem revocation_undone :
    ∃ h, (lts fun _ => true).Reachable Initial h ∧ ¬ h.Final := by
  have hrevoked : Step (fun _ => true) Sample.answered (.revoke Sample.client) Sample.revoked :=
    .revoke rfl
  have hundone : Step (fun _ => true) Sample.revoked (.save 0 true) Sample.undone := by
    have hx : Store.save Sample.client Sample.credential true Sample.revoked.db =
        .ok { Sample.revoked.db with
          tokens := Sample.revoked.db.tokens.set Sample.client Sample.credential } := rfl
    have hcall : Sample.revoked.calls 0 =
        some { Sample.finish with phase := .answered Sample.credential } := rfl
    exact .save rfl hcall rfl hx
  have hrun : (lts fun _ => true).Run Sample.start _ Sample.undone :=
    .cons Sample.begun_step (.cons Sample.taken_step (.cons (Sample.sent_step rfl)
      (.cons Sample.answered_step (.cons hrevoked (.single hundone)))))
  refine ⟨Sample.undone, (Lts.Reachable.of_init Sample.start_initial).run hrun, fun hf => ?_⟩
  have hle := hf.stored ⟨Sample.client, 0, 1⟩ (List.mem_singleton_self _)
  exact absurd hle (by decide)

end Host

end OAuth

end PythonAI
