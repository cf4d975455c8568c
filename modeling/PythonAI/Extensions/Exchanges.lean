import Mathlib.Data.List.Nodup
import PythonAI.Extensions.Calls

/-!
# No exchange is replayed

A state is consumed before its code is sent, and the row of a credential is deleted before its
refresh token is sent; what the request does is then unknown until it is answered.

* `Host.never_replayed` : **each state leads to at most one exchange, and a refresh token that was
  sent is sent again only if the exchange has returned and has kept it**

A refresh token is held by a *source*: the stored credential of a client, or a call.  No two sources
hold the same token (`Tokens.apart`), and a token that was sent and not kept is held by none but the
call that is exchanging it (`Tokens.kept`).
-/

namespace PythonAI

open Library

namespace OAuth

namespace Phase

/-- The refresh token of a credential that is not stored. -/
def token : Phase → Option String
  | answered credential => credential.data.refresh
  | fenced data | refreshing data _ => data.refresh
  | taken _ _ | exchanging _ => none

/-- The number of the exchange of the refresh token. -/
def no : Phase → Option ℕ
  | refreshing _ no => some no
  | taken _ _ | exchanging _ | answered _ | fenced _ => none

end Phase

/-- The refresh token of a call, with the client. -/
def Call.held (call : Call) : Option (Client × String) :=
  call.phase.token.map fun r => (call.client, r)

/-- The refresh token of a stored credential, with the client. -/
def Credential.held (c : Client) (row : Credential) : Option (Client × String) :=
  row.data.refresh.map fun r => (c, r)

/-- Where a refresh token can be. -/
inductive Source
  /-- the stored credential -/
  | row (c : Client)
  /-- a call -/
  | call (i : ℕ)
  deriving DecidableEq

/-- The refresh token of a source, with the client. -/
def heldIn (tokens : Table Client Credential) (calls : Table ℕ Call) :
    Source → Option (Client × String)
  | .row c => (tokens c).bind (·.held c)
  | .call i => (calls i).bind (·.held)

/-- The number of the exchange of the token of a source. -/
def currentIn (calls : Table ℕ Call) : Source → Option ℕ
  | .row _ => none
  | .call i => (calls i).bind (·.phase.no)

namespace Host

variable {trusted : String → Bool} {h h' : Host} {a : Act}

/-! ### The states -/

/-- What is known of the states and the codes. -/
structure Codes (h : Host) : Prop where
  /-- the states so far -/
  fresh : ∀ row ∈ h.begun, row.state < h.uuids
  /-- they differ -/
  begun : (h.begun.map (·.state)).Nodup
  /-- a stored state -/
  rows : ∀ {k row}, h.db.states k = some row → row.state = k ∧ row ∈ h.begun
  /-- a state that was taken and whose code was not sent yet -/
  taken : ∀ {i call row t}, h.calls i = some call → call.phase = .taken row t →
    row ∈ h.begun ∧ row.client = call.client ∧ t < row.expires ∧ h.db.states row.state = none ∧
      ∀ x ∈ h.codes, x.state ≠ row.state
  /-- two calls take two states -/
  apart : ∀ {i j call call' row row' t t'}, h.calls i = some call → h.calls j = some call' →
    call.phase = .taken row t → call'.phase = .taken row' t' → row.state = row'.state → i = j
  /-- a state whose code was sent -/
  codes : ∀ x ∈ h.codes, h.db.states x.state = none ∧
    ∃ row ∈ h.begun, row.state = x.state ∧ row.client = x.client ∧ x.taken < row.expires
  /-- each code was sent once -/
  nodup : (h.codes.map (·.state)).Nodup

/-- A step that takes no state and sends no code. -/
theorem Codes.frame (hi : h.Codes) (hu : h'.uuids = h.uuids) (hb : h'.begun = h.begun)
    (hc : h'.codes = h.codes)
    (hs : ∀ {k row}, h'.db.states k = some row → h.db.states k = some row)
    (ht : ∀ {i call row t}, h'.calls i = some call → call.phase = .taken row t →
      h.calls i = some call) : h'.Codes := by
  have hnone : ∀ {k}, h.db.states k = none → h'.db.states k = none := by
    intro k hk
    cases hk' : h'.db.states k with
    | none => rfl
    | some row =>
      rw [hs hk'] at hk
      cases hk
  refine ⟨fun row hrow => ?_, ?_, fun hrow => ?_, fun hcall hp => ?_, fun hcall hcall' hp hp' => ?_,
    fun x hx => ?_, ?_⟩
  · rw [hu]
    exact hi.fresh row (hb ▸ hrow)
  · rw [hb]
    exact hi.begun
  · rw [hb]
    exact hi.rows (hs hrow)
  · rw [hb, hc]
    obtain ⟨hrow, hclient, hexp, hst, hx⟩ := hi.taken (ht hcall hp) hp
    exact ⟨hrow, hclient, hexp, hnone hst, hx⟩
  · exact hi.apart (ht hcall hp) (ht hcall' hp') hp hp'
  · rw [hb]
    rw [hc] at hx
    exact ⟨hnone (hi.codes x hx).1, (hi.codes x hx).2⟩
  · rw [hc]
    exact hi.nodup

/-- A new state. -/
theorem Codes.begins (hi : h.Codes) {c : Client} {endpoint : String} {t₂ : Time} {db : Db}
    (hnew : db.states h.uuids = some ⟨h.uuids, c, h.uuids + 1, endpoint, t₂ + 600⟩)
    (hold : ∀ k row, k ≠ h.uuids → db.states k = some row → h.db.states k = some row) :
    (h.begins c endpoint t₂ db).Codes := by
  have hnone : ∀ {k}, k ≠ h.uuids → h.db.states k = none → db.states k = none := by
    intro k hk hst
    cases hk' : db.states k with
    | none => rfl
    | some row =>
      rw [hold k row hk hk'] at hst
      cases hst
  refine ⟨fun row hrow => ?_, ?_, fun {k row} hrow => ?_, fun hcall hp => ?_, hi.apart,
    fun x hx => ?_, hi.nodup⟩
  · show row.state < h.uuids + 2
    rcases List.mem_append.1 hrow with hmem | hmem
    · exact Nat.lt_add_right 2 (hi.fresh row hmem)
    · obtain rfl := List.mem_singleton.1 hmem
      exact Nat.lt_add_of_pos_right (by decide)
  · show ((h.begun ++ _).map _).Nodup
    rw [List.map_append]
    refine List.nodup_append'.2 ⟨hi.begun, List.nodup_singleton _, fun s hs hs' => ?_⟩
    obtain ⟨row, hrow, rfl⟩ := List.mem_map.1 hs
    have hlt := hi.fresh row hrow
    rw [List.mem_singleton.1 hs'] at hlt
    exact absurd hlt (Nat.lt_irrefl _)
  · have hrow : db.states k = some row := hrow
    by_cases hk : k = h.uuids
    · subst hk
      obtain rfl := Option.some.inj (hnew.symm.trans hrow)
      exact ⟨rfl, List.mem_append_right _ (List.mem_singleton_self _)⟩
    · obtain ⟨hstate, hmem⟩ := hi.rows (hold k row hk hrow)
      exact ⟨hstate, List.mem_append_left _ hmem⟩
  · obtain ⟨hrow, hclient, hexp, hst, hx⟩ := hi.taken hcall hp
    exact ⟨List.mem_append_left _ hrow, hclient, hexp,
      hnone (Nat.ne_of_lt (hi.fresh _ hrow)) hst, hx⟩
  · obtain ⟨hst, row, hrow, hstate, hclient, hexp⟩ := hi.codes x hx
    refine ⟨hnone ?_ hst, row, List.mem_append_left _ hrow, hstate, hclient, hexp⟩
    exact hstate ▸ Nat.ne_of_lt (hi.fresh _ hrow)

/-- A state is taken. -/
theorem Codes.takes (hi : h.Codes) {i : ℕ} {c : Client} {state : Token} {row : StateRow} {t : Time}
    (hrow : h.db.states state = some row) (hclient : row.client = c) (hexp : t < row.expires) :
    (h.takes i c row t { h.db with states := h.db.states.erase state }).Codes := by
  obtain ⟨rfl, hbegun⟩ := hi.rows hrow
  have hcalls : ∀ j, (h.takes i c row t { h.db with states := h.db.states.erase row.state }).calls j =
      if j = i then some ⟨c, .taken row t, h.born row.state, h.revoked c⟩ else h.calls j :=
    fun j => Table.set_apply ..
  have hgone : ∀ {k}, h.db.states k = none → (h.db.states.erase row.state) k = none := by
    intro k hk
    cases hk' : (h.db.states.erase row.state) k with
    | none => rfl
    | some row' =>
      rw [(Table.erase_eq_some hk').2] at hk
      cases hk
  have hothers : ∀ {j call row' t'}, h.calls j = some call → call.phase = .taken row' t' →
      row'.state ≠ row.state := by
    intro j call row' t' hj hp he
    have hst := (hi.taken hj hp).2.2.2.1
    rw [he, hrow] at hst
    cases hst
  refine ⟨hi.fresh, hi.begun, fun hk => hi.rows (Table.erase_eq_some (t := h.db.states) hk).2, fun {j call row' t'} hj hp => ?_,
    fun {j j' call call' row' row'' t' t''} hj hj' hp hp' he => ?_, fun x hx => ?_, hi.nodup⟩
  · rw [hcalls] at hj
    by_cases hij : j = i
    · rw [if_pos hij] at hj
      obtain rfl := Option.some.inj hj
      cases hp
      refine ⟨hbegun, hclient, hexp, Table.erase_same .., fun x hx he => ?_⟩
      have hst := (hi.codes x hx).1
      rw [he, hrow] at hst
      cases hst
    · rw [if_neg hij] at hj
      obtain ⟨hmem, hcl, hex, hst, hx⟩ := hi.taken hj hp
      exact ⟨hmem, hcl, hex, hgone hst, hx⟩
  · rw [hcalls] at hj hj'
    by_cases hij : j = i
    · rw [if_pos hij] at hj
      obtain rfl := Option.some.inj hj
      cases hp
      by_cases hij' : j' = i
      · rw [hij, hij']
      · rw [if_neg hij'] at hj'
        exact absurd he.symm (hothers hj' hp')
    · rw [if_neg hij] at hj
      by_cases hij' : j' = i
      · rw [if_pos hij'] at hj'
        obtain rfl := Option.some.inj hj'
        cases hp'
        exact absurd he (hothers hj hp)
      · rw [if_neg hij'] at hj'
        exact hi.apart hj hj' hp hp' he
  · exact ⟨hgone (hi.codes x hx).1, (hi.codes x hx).2⟩

/-- A code is sent. -/
theorem Codes.sends (hi : h.Codes) {i : ℕ} {call : Call} {row : StateRow} {t : Time}
    (hcall : h.calls i = some call) (hp : call.phase = .taken row t) :
    (h.sends i call row t).Codes := by
  obtain ⟨hmem, hclient, hexp, hst, hnew⟩ := hi.taken hcall hp
  have hcalls : ∀ {j call' row' t'}, (h.sends i call row t).calls j = some call' →
      call'.phase = .taken row' t' → j ≠ i ∧ h.calls j = some call' := by
    intro j call' row' t' hj hp'
    have hj : (h.goes i call (.exchanging row)).calls j = some call' := hj
    rw [goes_calls] at hj
    by_cases hij : j = i
    · rw [if_pos hij] at hj
      obtain rfl := Option.some.inj hj
      cases hp'
    · rw [if_neg hij] at hj
      exact ⟨hij, hj⟩
  refine ⟨hi.fresh, hi.begun, hi.rows, fun hj hp' => ?_, fun hj hj' hp' hp'' =>
    hi.apart (hcalls hj hp').2 (hcalls hj' hp'').2 hp' hp'', fun x hx => ?_, ?_⟩
  · obtain ⟨hij, hj⟩ := hcalls hj hp'
    obtain ⟨hmem', hcl, hex, hst', hx⟩ := hi.taken hj hp'
    refine ⟨hmem', hcl, hex, hst', fun x hx' he => ?_⟩
    rcases List.mem_append.1 hx' with hold | hadd
    · exact hx x hold he
    · obtain rfl := List.mem_singleton.1 hadd
      exact hij (hi.apart hcall hj hp hp' he).symm
  · rcases List.mem_append.1 hx with hold | hadd
    · exact hi.codes x hold
    · obtain rfl := List.mem_singleton.1 hadd
      exact ⟨hst, row, hmem, rfl, hclient, hexp⟩
  · show ((h.codes ++ _).map _).Nodup
    rw [List.map_append]
    refine List.nodup_append'.2 ⟨hi.nodup, List.nodup_singleton _, fun s hs hs' => ?_⟩
    obtain ⟨x, hx, rfl⟩ := List.mem_map.1 hs
    exact hnew x hx (List.mem_singleton.1 hs')

/-- A call goes on, and takes no state. -/
theorem set_taken (calls : Table ℕ Call) (i : ℕ) (call : Call) {j : ℕ} {call' : Call}
    {row : StateRow} {t : Time} (hphase : ∀ row t, call.phase ≠ .taken row t)
    (hj : (calls.set i call) j = some call') (hp : call'.phase = .taken row t) :
    calls j = some call' := by
  rw [Table.set_apply] at hj
  by_cases hij : j = i
  · rw [if_pos hij] at hj
    obtain rfl := Option.some.inj hj
    exact absurd hp (hphase row t)
  · rwa [if_neg hij] at hj

theorem Codes.step (hi : h.Codes) (hst : Step trusted h a h') : h'.Codes := by
  cases hst with
  | begin hl hx =>
    obtain ⟨-, hnew, hold⟩ := Store.begin_ok hx
    exact hi.begins hnew hold
  | take hl hnone hx =>
    obtain ⟨hrow, hclient, hexp, rfl⟩ := Store.take_ok hx
    exact hi.takes hrow hclient hexp
  | send hcall hp ht => exact hi.sends hcall hp
  | @answer i call row result t credential hcall hp hx =>
    exact hi.frame rfl rfl rfl id (set_taken h.calls i { call with phase := .answered credential }
      fun _ _ he => by cases he)
  | save hl hcall hp hx =>
    obtain rfl := Store.save_ok hx
    exact hi.frame rfl rfl rfl id fun hj _ => ends_calls hj
  | valid hl hnone hx => exact hi.frame rfl rfl rfl id fun hj _ => hj
  | @expired i c t db data hl hnone hx =>
    obtain ⟨rfl, -⟩ := Store.access_expired hx
    exact hi.frame rfl rfl rfl id (set_taken h.calls i
      ⟨c, .fenced data, h.stems c, h.revoked c⟩ fun _ _ he => by cases he)
  | @refresh i call data token hl hcall hp hnone ht hr =>
    exact hi.frame rfl rfl rfl id (set_taken h.calls i
      { call with phase := .refreshing data h.exchanges.length } fun _ _ he => by cases he)
  | newer | refreshed | fail => exact hi.frame rfl rfl rfl id fun hj _ => ends_calls hj
  | revoke hl => exact hi.frame rfl rfl rfl (fun hk => (Store.revoke_states hk).1) fun hj _ => hj
  | cancelState hl => exact hi.frame rfl rfl rfl Store.cancelState_states fun hj _ => hj

end Host

/-! ### The refresh tokens -/

/-- What is known of the refresh tokens that the sources hold, of those that are being exchanged,
of those that were sent and of those that were issued. -/
structure Tokens (held : Source → Option (Client × String)) (current : Source → Option ℕ)
    (exchanges : List Exchange) (issued : List (Client × String)) : Prop where
  /-- a token that is held was issued -/
  known : ∀ {s x}, held s = some x → x ∈ issued
  /-- it is held once -/
  apart : ∀ {s s' x}, held s = some x → held s' = some x → s = s'
  /-- a token that was sent was issued -/
  sent : ∀ e ∈ exchanges, (e.client, e.token) ∈ issued
  /-- a token that is held was kept by its exchanges, but for the present one -/
  kept : ∀ {s x e}, held s = some x → e ∈ exchanges → (e.client, e.token) = x →
    e.kept = true ∨ current s = some e.no
  /-- a token that was sent again was kept -/
  once : exchanges.Pairwise fun e e' =>
    (e.client, e.token) = (e'.client, e'.token) → e.kept = true

namespace Tokens

variable {held held' : Source → Option (Client × String)} {current current' : Source → Option ℕ}
  {exchanges : List Exchange} {issued issued' : List (Client × String)} {d : Source}
  {f : Exchange → Exchange}

/-- The sources keep what they hold or lose it, but for the source `d`: it holds a new token, or one
that another source has given up and that was kept by all its exchanges. -/
theorem move (hi : Tokens held current exchanges issued)
    (hf : ∀ e, (f e).no = e.no ∧ (f e).client = e.client ∧ (f e).token = e.token ∧
      (e.kept = true → (f e).kept = true))
    (his : ∀ x ∈ issued, x ∈ issued')
    (hheld : ∀ s x, held' s = some x → held s = some x ∧ current' s = current s ∨
      s = d ∧ x ∈ issued' ∧ (x ∉ issued ∨ ∃ s₀, held s₀ = some x ∧ (s₀ ≠ d → held' s₀ = none) ∧
        ∀ e ∈ exchanges, (e.client, e.token) = x → (f e).kept = true)) :
    Tokens held' current' (exchanges.map f) issued' := by
  have hpair : ∀ e, ((f e).client, (f e).token) = (e.client, e.token) := fun e => by
    rw [(hf e).2.1, (hf e).2.2.1]
  -- a token of `d` that another source holds as before is the one it was given up by
  have hd : ∀ {s x}, held' s = some x → held s = some x → (x ∉ issued ∨ ∃ s₀, held s₀ = some x ∧
      (s₀ ≠ d → held' s₀ = none) ∧ ∀ e ∈ exchanges, (e.client, e.token) = x → (f e).kept = true) →
      s = d := by
    intro s x hs' hs hx
    rcases hx with hnew | ⟨s₀, hs₀, hgone, -⟩
    · exact absurd (hi.known hs) hnew
    · by_contra hne
      obtain rfl := hi.apart hs hs₀
      rw [hgone hne] at hs'
      cases hs'
  refine ⟨fun {s x} hs => ?_, fun {s s' x} hs hs' => ?_, fun e he => ?_, fun {s x e} hs he hx => ?_,
    ?_⟩
  · rcases hheld s x hs with ⟨hold, -⟩ | ⟨-, hx, -⟩
    · exact his x (hi.known hold)
    · exact hx
  · rcases hheld s x hs with ⟨hold, -⟩ | ⟨rfl, -, hx⟩
    · rcases hheld s' x hs' with ⟨hold', -⟩ | ⟨rfl, -, hx'⟩
      · exact hi.apart hold hold'
      · exact hd hs hold hx'
    · rcases hheld s' x hs' with ⟨hold', -⟩ | ⟨rfl, -, -⟩
      · exact (hd hs' hold' hx).symm
      · rfl
  · obtain ⟨e₀, he₀, rfl⟩ := List.mem_map.1 he
    rw [hpair]
    exact his _ (hi.sent e₀ he₀)
  · obtain ⟨e₀, he₀, rfl⟩ := List.mem_map.1 he
    rw [hpair] at hx
    rcases hheld s x hs with ⟨hold, hcur⟩ | ⟨-, -, hnew | ⟨s₀, -, -, hkept⟩⟩
    · rw [(hf e₀).1, hcur]
      exact (hi.kept hold he₀ hx).imp_left (hf e₀).2.2.2
    · exact absurd (hx ▸ hi.sent e₀ he₀) hnew
    · exact .inl (hkept e₀ he₀ hx)
  · refine List.pairwise_map.2 (hi.once.imp fun {e e'} hkept hsame => ?_)
    rw [hpair, hpair] at hsame
    exact (hf e).2.2.2 (hkept hsame)

/-- The same, where no exchange has returned. -/
theorem shift (hi : Tokens held current exchanges issued) (his : ∀ x ∈ issued, x ∈ issued')
    (hheld : ∀ s x, held' s = some x → held s = some x ∧ current' s = current s ∨
      s = d ∧ x ∈ issued' ∧ (x ∉ issued ∨ ∃ s₀, held s₀ = some x ∧ (s₀ ≠ d → held' s₀ = none) ∧
        ∀ e ∈ exchanges, (e.client, e.token) = x → e.kept = true)) :
    Tokens held' current' exchanges issued' := by
  have hmove := hi.move (f := id) (fun e => ⟨rfl, rfl, rfl, id⟩) his hheld
  rwa [List.map_id] at hmove

/-- The sources keep what they hold, or lose it. -/
theorem lose (hi : Tokens held current exchanges issued)
    (hheld : ∀ s x, held' s = some x → held s = some x ∧ current' s = current s) :
    Tokens held' current' exchanges issued :=
  hi.shift (d := .call 0) (fun _ hx => hx) fun s x hs => .inl (hheld s x hs)

/-- The source `d` sends its token. -/
theorem send (hi : Tokens held current exchanges issued) {c : Client} {r : String} {n : ℕ}
    (hd : held d = some (c, r)) (hcur : current d = none)
    (hcur' : ∀ s, current' s = if s = d then some n else current s) :
    Tokens held current' (exchanges ++ [⟨n, c, r, false⟩]) issued := by
  have hkept : ∀ e ∈ exchanges, (e.client, e.token) = (c, r) → e.kept = true := by
    intro e he hx
    rcases hi.kept hd he hx with hk | hno
    · exact hk
    · rw [hcur] at hno
      cases hno
  refine ⟨hi.known, hi.apart, fun e he => ?_, fun {s x e} hs he hx => ?_, ?_⟩
  · rcases List.mem_append.1 he with hold | hadd
    · exact hi.sent e hold
    · obtain rfl := List.mem_singleton.1 hadd
      exact hi.known hd
  · by_cases hsd : s = d
    · subst hsd
      rcases List.mem_append.1 he with hold | hadd
      · obtain rfl := Option.some.inj (hs.symm.trans hd)
        exact .inl (hkept e hold hx)
      · obtain rfl := List.mem_singleton.1 hadd
        rw [hcur', if_pos rfl]
        exact .inr rfl
    · rw [hcur', if_neg hsd]
      rcases List.mem_append.1 he with hold | hadd
      · exact hi.kept hs hold hx
      · obtain rfl := List.mem_singleton.1 hadd
        subst hx
        exact absurd (hi.apart hs hd) hsd
  · refine List.pairwise_append.2 ⟨hi.once, List.pairwise_singleton .., fun e he e' he' hsame => ?_⟩
    rw [List.mem_singleton.1 he'] at hsame
    exact hkept e he hsame

end Tokens

section

variable {tokens : Table Client Credential} {calls : Table ℕ Call} {i : ℕ} {call : Call} {c : Client}
  {row : Credential} {s : Source} {x : Client × String}

theorem heldIn_call (hcall : calls i = some call) : heldIn tokens calls (.call i) = call.held := by
  rw [heldIn, hcall]
  rfl

theorem currentIn_call (hcall : calls i = some call) :
    currentIn calls (.call i) = call.phase.no := by
  rw [currentIn, hcall]
  rfl

theorem heldIn_set_call : heldIn tokens (calls.set i call) s =
    if s = .call i then call.held else heldIn tokens calls s := by
  cases s with
  | row c => rfl
  | call j =>
    by_cases hj : j = i
    · subst hj
      rw [if_pos rfl, heldIn_call (Table.set_same ..)]
    · rw [if_neg fun he => hj (Source.call.inj he), heldIn, heldIn, Table.set_of_ne _ _ _ hj]

theorem currentIn_set : currentIn (calls.set i call) s =
    if s = .call i then call.phase.no else currentIn calls s := by
  cases s with
  | row c => rfl
  | call j =>
    by_cases hj : j = i
    · subst hj
      rw [if_pos rfl, currentIn_call (Table.set_same ..)]
    · rw [if_neg fun he => hj (Source.call.inj he), currentIn, currentIn,
        Table.set_of_ne _ _ _ hj]

theorem heldIn_erase_call :
    heldIn tokens (calls.erase i) s = if s = .call i then none else heldIn tokens calls s := by
  cases s with
  | row c => rfl
  | call j =>
    by_cases hj : j = i
    · subst hj
      rw [if_pos rfl, heldIn, Table.erase_same]
      rfl
    · rw [if_neg fun he => hj (Source.call.inj he), heldIn, heldIn, Table.erase_of_ne _ _ hj]

theorem currentIn_erase (h : s ≠ .call i) :
    currentIn (calls.erase i) s = currentIn calls s := by
  cases s with
  | row c => rfl
  | call j =>
    rw [currentIn, currentIn, Table.erase_of_ne _ _ fun hj => h (congrArg Source.call hj)]

theorem heldIn_set_row : heldIn (tokens.set c row) calls s =
    if s = .row c then row.held c else heldIn tokens calls s := by
  cases s with
  | row d =>
    by_cases hd : d = c
    · subst hd
      rw [if_pos rfl, heldIn, Table.set_same]
      rfl
    · rw [if_neg fun he => hd (Source.row.inj he), heldIn, heldIn, Table.set_of_ne _ _ _ hd]
  | call j => rfl

theorem heldIn_erase_row :
    heldIn (tokens.erase c) calls s = if s = .row c then none else heldIn tokens calls s := by
  cases s with
  | row d =>
    by_cases hd : d = c
    · subst hd
      rw [if_pos rfl, heldIn, Table.erase_same]
      rfl
    · rw [if_neg fun he => hd (Source.row.inj he), heldIn, heldIn, Table.erase_of_ne _ _ hd]
  | call j => rfl

end

namespace Host

variable {trusted : String → Bool} {h h' : Host} {a : Act}

/-- The authorization server issues each refresh token once: the answer for a code has a new one,
and the answer for a refresh token a new one or the same. -/
def Issues (h : Host) : Act → Prop
  | .answer i result _ => ∀ call r, h.calls i = some call →
      result.refreshToken = some (.text r) → (call.client, r) ∉ h.issued
  | .refreshed i result _ => ∀ call data no r, h.calls i = some call →
      call.phase = .refreshing data no → result.refreshToken = some (.text r) →
        data.refresh = some r ∨ (call.client, r) ∉ h.issued
  | _ => True

/-- What is known of the refresh tokens. -/
def Tokens (h : Host) : Prop :=
  OAuth.Tokens (heldIn h.db.tokens h.calls) (currentIn h.calls) h.exchanges h.issued

/-- The call `i` goes on without a refresh token. -/
theorem Tokens.empty (hi : h.Tokens) {i : ℕ} {call : Call} (hcall : call.held = none) :
    OAuth.Tokens (heldIn h.db.tokens (h.calls.set i call)) (currentIn (h.calls.set i call))
      h.exchanges h.issued := by
  refine OAuth.Tokens.lose hi fun s x hs => ?_
  rw [heldIn_set_call] at hs
  by_cases he : s = .call i
  · rw [if_pos he, hcall] at hs
    cases hs
  · rw [if_neg he] at hs
    exact ⟨hs, by rw [currentIn_set, if_neg he]⟩

/-- The call `i` ends. -/
theorem Tokens.ends (hi : h.Tokens) {i : ℕ} :
    OAuth.Tokens (heldIn h.db.tokens (h.calls.erase i)) (currentIn (h.calls.erase i))
      h.exchanges h.issued := by
  refine OAuth.Tokens.lose hi fun s x hs => ?_
  rw [heldIn_erase_call] at hs
  by_cases he : s = .call i
  · rw [if_pos he] at hs
    cases hs
  · rw [if_neg he] at hs
    exact ⟨hs, currentIn_erase he⟩

/-- The call `i` ends, and the row of its client gets its credential: it has a new refresh token, or
the one of the call, which all its exchanges have kept. -/
theorem Tokens.saves (hi : h.Tokens) {i : ℕ} {call : Call} {credential : Credential}
    {f : Exchange → Exchange} {issued : List (Client × String)} (hcall : h.calls i = some call)
    (hf : ∀ e, (f e).no = e.no ∧ (f e).client = e.client ∧ (f e).token = e.token ∧
      (e.kept = true → (f e).kept = true))
    (his : ∀ x ∈ h.issued, x ∈ issued)
    (hr : ∀ r, credential.data.refresh = some r → (call.client, r) ∈ issued ∧
      ((call.client, r) ∉ h.issued ∨ call.phase.token = some r ∧
        ∀ e ∈ h.exchanges, (e.client, e.token) = (call.client, r) → (f e).kept = true)) :
    OAuth.Tokens (heldIn (h.db.tokens.set call.client credential) (h.calls.erase i))
      (currentIn (h.calls.erase i)) (h.exchanges.map f) issued := by
  refine OAuth.Tokens.move (d := .row call.client) hi hf his fun s x hs => ?_
  rw [heldIn_set_row] at hs
  by_cases hrow : s = .row call.client
  · rw [if_pos hrow] at hs
    obtain ⟨r, href, rfl⟩ := Option.map_eq_some_iff.1 hs
    obtain ⟨hmem, hcase⟩ := hr r href
    refine .inr ⟨hrow, hmem, hcase.imp_right ?_⟩
    rintro ⟨htoken, hkept⟩
    refine ⟨.call i, ?_, fun _ => ?_, hkept⟩
    · rw [heldIn_call hcall, Call.held, htoken]
      rfl
    · rw [heldIn_set_row, if_neg (by rintro ⟨⟩), heldIn_erase_call, if_pos rfl]
  · rw [if_neg hrow, heldIn_erase_call] at hs
    by_cases he : s = .call i
    · rw [if_pos he] at hs
      cases hs
    · rw [if_neg he] at hs
      exact .inl ⟨hs, currentIn_erase he⟩

/-- A valid answer for a code. -/
theorem Tokens.answers (hi : h.Tokens) {i : ℕ} {call : Call} {credential : Credential}
    (hnew : ∀ r, credential.data.refresh = some r → (call.client, r) ∉ h.issued) :
    ((h.goes i call (.answered credential)).issues call.client credential).Tokens := by
  refine OAuth.Tokens.shift (d := .call i) hi (fun x hx => List.mem_append_left _ hx)
    fun s x hs => ?_
  have hs : heldIn h.db.tokens (h.calls.set i { call with phase := .answered credential }) s =
      some x := hs
  rw [heldIn_set_call] at hs
  by_cases he : s = .call i
  · rw [if_pos he] at hs
    obtain ⟨r, hr, rfl⟩ := Option.map_eq_some_iff.1 hs
    have hr : credential.data.refresh = some r := hr
    refine .inr ⟨he, List.mem_append_right _ ?_, .inl (hnew r hr)⟩
    rw [hr]
    exact List.mem_singleton_self _
  · rw [if_neg he] at hs
    refine .inl ⟨hs, ?_⟩
    show currentIn (h.calls.set i _) s = currentIn h.calls s
    rw [currentIn_set, if_neg he]

/-- A credential that has expired leaves its row. -/
theorem Tokens.fences (hi : h.Tokens) {i : ℕ} {c : Client} {row : Credential}
    (hrow : h.db.tokens c = some row) :
    (h.fences i c row.data { h.db with tokens := h.db.tokens.erase c }).Tokens := by
  have hheld : heldIn h.db.tokens h.calls (.row c) = row.held c := by
    rw [heldIn, hrow]
    rfl
  refine OAuth.Tokens.shift (d := .call i) hi (fun x hx => hx) fun s x hs => ?_
  have hs : heldIn (h.db.tokens.erase c)
      (h.calls.set i ⟨c, .fenced row.data, h.stems c, h.revoked c⟩) s = some x := hs
  rw [heldIn_set_call] at hs
  by_cases he : s = .call i
  · rw [if_pos he] at hs
    have hs : heldIn h.db.tokens h.calls (.row c) = some x := hheld.trans hs
    refine .inr ⟨he, hi.known hs, .inr ⟨.row c, hs, fun _ => ?_, fun e he hx => ?_⟩⟩
    · show heldIn (h.db.tokens.erase c) (h.calls.set i _) (.row c) = none
      rw [heldIn_set_call, if_neg (by rintro ⟨⟩), heldIn_erase_row, if_pos rfl]
    · exact (hi.kept hs he hx).resolve_right fun hno => by cases hno
  · rw [if_neg he, heldIn_erase_row] at hs
    by_cases hc : s = .row c
    · rw [if_pos hc] at hs
      cases hs
    · rw [if_neg hc] at hs
      refine .inl ⟨hs, ?_⟩
      show currentIn (h.calls.set i _) s = currentIn h.calls s
      rw [currentIn_set, if_neg he]

/-- A refresh token is sent. -/
theorem Tokens.refreshes (hi : h.Tokens) {i : ℕ} {call : Call} {data : Data} {token : String}
    (hcall : h.calls i = some call) (hp : call.phase = .fenced data)
    (hr : data.refresh = some token) : (h.refreshes i call data token).Tokens := by
  have hheld : heldIn h.db.tokens (h.calls.set i
      { call with phase := .refreshing data h.exchanges.length }) = heldIn h.db.tokens h.calls := by
    funext s
    rw [heldIn_set_call]
    by_cases he : s = .call i
    · rw [if_pos he, he, heldIn_call hcall, Call.held, Call.held, hp]
      rfl
    · rw [if_neg he]
  show OAuth.Tokens (heldIn h.db.tokens (h.calls.set i _)) (currentIn (h.calls.set i _)) _ _
  rw [hheld]
  refine OAuth.Tokens.send (d := .call i) hi ?_ ?_ fun s => currentIn_set
  · rw [heldIn_call hcall, Call.held, hp]
    show data.refresh.map _ = _
    rw [hr]
    rfl
  · rw [currentIn_call hcall, hp]
    rfl

theorem Tokens.step (hi : h.Tokens) (hst : Step trusted h a h') (ha : h.Issues a) : h'.Tokens := by
  cases hst with
  | @begin c endpoint room t₁ t₂ db hl hx =>
    obtain ⟨htokens, -, -⟩ := Store.begin_ok hx
    show OAuth.Tokens (heldIn db.tokens h.calls) _ _ _
    rw [htokens]
    exact hi
  | take hl hnone hx =>
    obtain ⟨-, -, -, rfl⟩ := Store.take_ok hx
    exact hi.empty rfl
  | send hcall hp ht => exact hi.empty rfl
  | answer hcall hp hx =>
    refine hi.answers fun r hr => ?_
    rcases tokenData_refresh hx hr with hresult | ⟨-, hold⟩
    · exact ha _ r hcall hresult
    · cases hold
  | @save i call credential room db hl hcall hp hx =>
    obtain rfl := Store.save_ok hx
    have hsaves : OAuth.Tokens (heldIn (h.db.tokens.set call.client credential) (h.calls.erase i))
        (currentIn (h.calls.erase i)) (h.exchanges.map id) h.issued := by
      refine hi.saves hcall (fun e => ⟨rfl, rfl, rfl, id⟩) (fun x hx => hx) ?_
      intro r hr
      have htoken : call.phase.token = some r := by rw [hp]; exact hr
      have hheld : heldIn h.db.tokens h.calls (.call i) = some (call.client, r) := by
        rw [heldIn_call hcall, Call.held, htoken]
        rfl
      refine ⟨hi.known hheld, .inr ⟨htoken, fun e he hx => ?_⟩⟩
      refine (hi.kept hheld he hx).resolve_right fun hno => ?_
      rw [currentIn_call hcall, hp] at hno
      cases hno
    rwa [List.map_id] at hsaves
  | valid hl hnone hx => exact hi
  | expired hl hnone hx =>
    obtain ⟨rfl, row, hrow, rfl⟩ := Store.access_expired hx
    exact hi.fences hrow
  | newer | fail => exact hi.ends
  | refresh hl hcall hp hnone ht hr => exact hi.refreshes hcall hp hr
  | @refreshed i call data no result t credential hcall hp hx =>
    refine hi.saves (f := fun e => { e with
      kept := e.kept || (decide (e.no = no) && decide (credential.data.refresh = data.refresh)) })
      hcall (fun e => ⟨rfl, rfl, rfl, fun hk => by simp [hk]⟩)
      (fun x hx => List.mem_append_left _ hx) fun r hr => ⟨List.mem_append_right _ ?_, ?_⟩
    · rw [hr]
      exact List.mem_singleton_self _
    · by_cases hsame : data.refresh = some r
      · have htoken : call.phase.token = some r := by rw [hp]; exact hsame
        have hheld : heldIn h.db.tokens h.calls (.call i) = some (call.client, r) := by
          rw [heldIn_call hcall, Call.held, htoken]
          rfl
        refine .inr ⟨htoken, fun e he hx => ?_⟩
        rcases hi.kept hheld he hx with hk | hno
        · simp [hk]
        · rw [currentIn_call hcall, hp] at hno
          have hno : no = e.no := Option.some.inj hno
          simp [hno, hr, hsame]
      · refine .inl ?_
        rcases tokenData_refresh hx hr with hresult | ⟨-, hold⟩
        · exact (ha call data no r hcall hp hresult).resolve_left hsame
        · exact absurd hold hsame
  | @revoke c hl =>
    refine OAuth.Tokens.lose hi fun s x hs => ?_
    have hs : heldIn (h.db.tokens.erase c) h.calls s = some x := hs
    rw [heldIn_erase_row] at hs
    by_cases he : s = .row c
    · rw [if_pos he] at hs
      cases hs
    · rw [if_neg he] at hs
      exact ⟨hs, rfl⟩
  | cancelState hl => exact hi

/-! ### The lock -/

/-- The call that is exchanging a refresh token has locked the database. -/
def Locked (h : Host) : Prop :=
  ∀ i call data no, h.calls i = some call → call.phase = .refreshing data no → h.lock = some i

theorem Locked.set (hi : h.Locked) (i : ℕ) (call : Call)
    (hphase : ∀ data no, call.phase ≠ .refreshing data no) {j : ℕ} {call' : Call} {data : Data}
    {no : ℕ} (hj : (h.calls.set i call) j = some call') (hp : call'.phase = .refreshing data no) :
    h.lock = some j := by
  rw [Table.set_apply] at hj
  by_cases hij : j = i
  · rw [if_pos hij] at hj
    obtain rfl := Option.some.inj hj
    exact absurd hp (hphase data no)
  · rw [if_neg hij] at hj
    exact hi _ _ _ _ hj hp

theorem Locked.ends (hi : h.Locked) {i : ℕ} : (h.ends i).Locked := by
  intro j call data no hj hp
  have hne : j ≠ i := by
    rintro rfl
    rw [show (h.ends j).calls j = none from Table.erase_same ..] at hj
    cases hj
  have hlock := hi _ _ _ _ (ends_calls hj) hp
  show (if h.lock = some i then none else h.lock) = some j
  rw [if_neg (by rw [hlock]; exact fun he => hne (Option.some.inj he)), hlock]

theorem Locked.step (hi : h.Locked) (hst : Step trusted h a h') : h'.Locked := by
  cases hst with
  | begin | valid | revoke | cancelState => exact hi
  | @take i c state t db row hl hnone hx =>
    exact fun _ _ _ _ hj hp => hi.set i ⟨c, .taken row t, h.born row.state, h.revoked c⟩
      (fun _ _ he => by cases he) hj hp
  | @expired i c t db data hl hnone hx =>
    exact fun _ _ _ _ hj hp => hi.set i ⟨c, .fenced data, h.stems c, h.revoked c⟩
      (fun _ _ he => by cases he) hj hp
  | @send i call row t =>
    exact fun _ _ _ _ hj hp => hi.set i { call with phase := .exchanging row }
      (fun _ _ he => by cases he) hj hp
  | @answer i call row result t credential =>
    exact fun _ _ _ _ hj hp => hi.set i { call with phase := .answered credential }
      (fun _ _ he => by cases he) hj hp
  | @refresh i call data token hl hcall hp hnone ht hr =>
    intro j call' data' no hj hp'
    have hj : (h.goes i call (.refreshing data h.exchanges.length)).calls j = some call' := hj
    rw [goes_calls] at hj
    by_cases hij : j = i
    · rw [hij]
      rfl
    · rw [if_neg hij] at hj
      rw [hi _ _ _ _ hj hp'] at hl
      cases hl
  | @save i call _ _ db =>
    exact Locked.ends (h := h.saves call.client call.born db) hi
  | @newer i call =>
    exact Locked.ends (h := h.returns call.client (h.stems call.client) call.began) hi
  | @refreshed i call data no result t credential =>
    exact Locked.ends (h := ((((h.settled no (credential.data.refresh = data.refresh)).issues
      call.client credential).saves call.client call.born
        { h.db with tokens := h.db.tokens.set call.client credential }).returns call.client
          call.born call.began)) hi
  | fail => exact hi.ends

/-! ### No replay -/

/-- Each state leads to at most one exchange, for its client and taken before its expiry; a refresh
token that was sent is sent again only if the exchange has kept it, and one call at a time exchanges
a refresh token. -/
structure Unreplayed (h : Host) : Prop where
  /-- at most one exchange for a state -/
  codes : (h.codes.map (·.state)).Nodup
  /-- the states differ -/
  begun : (h.begun.map (·.state)).Nodup
  /-- the exchange is for the client of the state, which was taken before it expired -/
  client : ∀ x ∈ h.codes, ∃ row ∈ h.begun,
    row.state = x.state ∧ row.client = x.client ∧ x.taken < row.expires
  /-- an exchange that is repeated has returned and has kept the token -/
  refreshes : h.exchanges.Pairwise fun e e' =>
    e.client = e'.client → e.token = e'.token → e.kept = true
  /-- one exchange at a time -/
  alone : ∀ {i j call call' data data' no no'}, h.calls i = some call → h.calls j = some call' →
    call.phase = .refreshing data no → call'.phase = .refreshing data' no' → i = j

theorem Codes.of_initial (h₀ : h.Initial) : h.Codes := by
  have hcalls : ∀ {i call}, h.calls i ≠ some call := fun hcall => by
    rw [h₀.calls] at hcall
    cases hcall
  refine ⟨fun row hrow => ?_, ?_, fun hrow => ?_, fun hcall _ => absurd hcall hcalls,
    fun hcall _ _ _ _ => absurd hcall hcalls, fun x hx => ?_, ?_⟩
  · rw [h₀.begun] at hrow
    cases hrow
  · rw [h₀.begun]
    exact List.nodup_nil
  · rw [h₀.states] at hrow
    cases hrow
  · rw [h₀.codes] at hx
    cases hx
  · rw [h₀.codes]
    exact List.nodup_nil

theorem Tokens.of_initial (h₀ : h.Initial) : h.Tokens := by
  have hheld : ∀ {s x}, heldIn h.db.tokens h.calls s ≠ some x := by
    intro s x hs
    cases s with
    | row c =>
      rw [heldIn, h₀.tokens] at hs
      cases hs
    | call i =>
      rw [heldIn, h₀.calls] at hs
      cases hs
  refine ⟨fun hs => absurd hs hheld, fun hs => absurd hs hheld, fun e he => ?_,
    fun hs => absurd hs hheld, ?_⟩
  · rw [h₀.exchanges] at he
    cases he
  · rw [h₀.exchanges]
    exact .nil

theorem Locked.of_initial (h₀ : h.Initial) : h.Locked := by
  intro i call data no hcall
  rw [h₀.calls] at hcall
  cases hcall

/-- **No exchange is replayed**, when the authorization server issues each refresh token once. -/
theorem never_replayed (hr : ((lts trusted).restrict Issues).Reachable Initial h) :
    h.Unreplayed := by
  obtain ⟨hcodes, htokens, hlocked⟩ := hr.invariant (I := fun h => h.Codes ∧ h.Tokens ∧ h.Locked)
    (fun _ h₀ => ⟨.of_initial h₀, .of_initial h₀, .of_initial h₀⟩) fun _ _ _ hi hst =>
      ⟨hi.1.step hst.1, hi.2.1.step hst.1 hst.2, hi.2.2.step hst.1⟩
  refine ⟨hcodes.nodup, hcodes.begun, fun x hx => (hcodes.codes x hx).2,
    htokens.once.imp fun hk hc ht => hk (Prod.ext hc ht), fun hi hj hp hp' => ?_⟩
  exact Option.some.inj ((hlocked _ _ _ _ hi hp).symm.trans (hlocked _ _ _ _ hj hp'))

namespace Sample

/-- The call of `access_token`. -/
def access : Call := ⟨client, .fenced credential.data, 0, 0⟩

/-- The access token has expired. -/
def fenced : Host :=
  saved.fences 1 client credential.data
    { saved.db with tokens := saved.db.tokens.erase client }

/-- The refresh token is sent. -/
def refreshing : Host := fenced.refreshes 1 access credential.data "refresh"

end Sample

/-- A code and a refresh token are exchanged. -/
theorem never_replayed_sample : Sample.refreshing.Unreplayed ∧
    Sample.refreshing.codes.length = 1 ∧ Sample.refreshing.exchanges.length = 1 := by
  have hfenced : Step (fun _ => true) Sample.saved (.access 1 Sample.client 0) Sample.fenced := by
    have hx : Store.access Sample.client 0 Sample.saved.db =
        .ok ({ Sample.saved.db with tokens := Sample.saved.db.tokens.erase Sample.client },
          .expired Sample.credential.data) := rfl
    exact .expired rfl rfl hx
  have hrefreshing : Step (fun _ => true) Sample.fenced (.refresh 1) Sample.refreshing := by
    have hcall : Sample.fenced.calls 1 = some Sample.access := rfl
    exact .refresh rfl hcall rfl rfl rfl rfl
  have hissues : Sample.sent.Issues (.answer 0 Sample.answer 0) :=
    fun _ _ _ _ hmem => absurd hmem List.not_mem_nil
  have hrun : ((lts fun _ => true).restrict Issues).Run Sample.start _ Sample.refreshing :=
    .cons ⟨Sample.begun_step, trivial⟩ (.cons ⟨Sample.taken_step, trivial⟩
      (.cons ⟨Sample.sent_step rfl, trivial⟩ (.cons ⟨Sample.answered_step, hissues⟩
        (.cons ⟨Sample.saved_step, trivial⟩ (.cons ⟨hfenced, trivial⟩
          (.single ⟨hrefreshing, trivial⟩))))))
  exact ⟨never_replayed ((Lts.Reachable.of_init Sample.start_initial).run hrun), rfl, rfl⟩

end Host

end OAuth

end PythonAI
