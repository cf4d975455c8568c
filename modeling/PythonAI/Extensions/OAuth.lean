import PythonAI.Library.Table
import PythonAI.Library.Txn
import PythonAI.Tasks.Types

/-!
# `OAuthClient`

An authorization *begins* with a row of `oauth_states` and is *finished* with a code: `finish` takes
the row, exchanges the code at the token endpoint and stores the credential in `oauth_tokens`.
`access_token` returns the access token of the credential; when it has expired, it deletes the row,
exchanges the refresh token in a second transaction, which keeps the database locked, and stores
what it gets.  `revoke` deletes the rows of the client.
-/

namespace PythonAI

open Library

namespace OAuth

/-- The owner and the key of a client, in whose name its calls are made. -/
structure Client where
  owner : Owner
  /-- `key`: the digest of the resource and the configuration -/
  key : String
  deriving DecidableEq, Repr

/-- A row of `oauth_states`. -/
structure StateRow where
  state : Token
  /-- `owner` and `key` -/
  client : Client
  verifier : Token
  /-- `metadata`: the token endpoint -/
  endpoint : String
  expires : Time
  deriving DecidableEq, Repr

/-- `oauth_tokens.data`. -/
structure Data where
  /-- `access_token` -/
  access : String
  /-- `refresh_token` -/
  refresh : Option String
  /-- `token_endpoint` -/
  endpoint : String
  deriving DecidableEq, Repr

/-- A row of `oauth_tokens`. -/
structure Credential where
  data : Data
  expires : Time
  deriving DecidableEq, Repr

/-- The OAuth database. -/
structure Db where
  /-- `oauth_states` -/
  states : Table Token StateRow
  /-- `oauth_tokens` -/
  tokens : Table Client Credential

/-! ### The answer of the token endpoint -/

/-- A JSON value. -/
inductive Value
  | null
  | text (s : String)
  | number (n : ℤ)
  | other
  deriving DecidableEq, Repr

/-- The fields of an answer that `token_data` reads; `none` is a missing field. -/
structure Response where
  accessToken : Option Value
  refreshToken : Option Value := none
  tokenType : Option Value
  expiresIn : Option Value := none
  deriving DecidableEq, Repr

/-- The text of an access token. -/
def Value.accessToken : Option Value → Except Error String
  | some (text s) => do
    ensure (1 ≤ s.length && s.length ≤ 8192 && s.toList.all fun c => 33 ≤ c.toNat && c.toNat ≤ 126)
      (.value "Invalid access token")
    pure s
  | _ => .error (.value "Invalid access token")

/-- `value.lower()`. -/
def Value.lower : Value → Except Error String
  | text s => .ok s.toLower
  | _ => .error (.type "object has no attribute 'lower'")

/-- The text of a refresh token; `old` is what a missing field stands for. -/
def Value.refreshToken (old : Option String) : Option Value → Except Error (Option String)
  | none => pure old
  | some null => pure none
  | some (text s) => do
    ensure (1 ≤ s.length && s.length ≤ 8192) (.value "Invalid refresh token")
    pure (some s)
  | some _ => .error (.value "Invalid refresh token")

/-- The lifetime of a token. -/
def Value.lifetime : Value → Except Error Time
  | number n => do
    ensure (1 ≤ n && n ≤ 86400) (.value "Invalid token lifetime")
    pure n.toNat
  | _ => .error (.value "Invalid token lifetime")

/-- `token_data` at `t`: `old` is the refresh token that was exchanged. -/
def tokenData (result : Response) (endpoint : String) (old : Option String) (t : Time) :
    Except Error Credential := do
  let token ← Value.accessToken result.accessToken
  let type ← (result.tokenType.getD (.text "")).lower
  ensure (type = "bearer") (.value "Expected Bearer token")
  let refresh ← Value.refreshToken old result.refreshToken
  let lifetime ← (result.expiresIn.getD (.number 300)).lifetime
  pure ⟨⟨token, refresh, endpoint⟩, t + lifetime⟩

/-! ### The transactions -/

namespace Store

/-- The transaction of `begin`: `room` is whether fewer than 100 states are stored. -/
def begin (c : Client) (state verifier : Token) (endpoint : String) (room : Bool) (t₁ t₂ : Time)
    (db : Db) : Except Error Db := do
  let states := db.states.deleteWhere fun _ row => row.expires < t₁
  ensure room (.value "Too many pending authorizations")
  ensure (states state).isNone (.integrity "oauth_states.state")
  pure { db with states := states.set state ⟨state, c, verifier, endpoint, t₂ + 600⟩ }

/-- The first transaction of `finish`. -/
def take (c : Client) (state : Token) (t : Time) (db : Db) : Except Error (Db × StateRow) := do
  let row ← require ((db.states state).filter fun row => row.client = c && t < row.expires)
    (.permission "OAuth state expired, consumed or wrong owner")
  pure ({ db with states := db.states.erase state }, row)

/-- The second transaction of `finish`: `room` is whether fewer than 1000 credentials are stored. -/
def save (c : Client) (credential : Credential) (room : Bool) (db : Db) : Except Error Db := do
  ensure (room || (db.tokens c).isSome) (.value "OAuth token capacity reached")
  pure { db with tokens := db.tokens.set c credential }

/-- What the first transaction of `access_token` finds. -/
inductive Access
  /-- the access token is valid -/
  | valid (token : String)
  /-- it has expired, and its row is deleted -/
  | expired (data : Data)

/-- The first transaction of `access_token`. -/
def access (c : Client) (t : Time) (db : Db) : Except Error (Db × Access) := do
  let row ← require (db.tokens c) (.permission "Human MCP OAuth authorization required")
  if row.expires ≤ t + 30 then
    ensure (row.data.refresh.any (· ≠ "")) (.permission "OAuth login expired; authorize again")
    pure ({ db with tokens := db.tokens.erase c }, .expired row.data)
  else pure (db, .valid row.data.access)

/-- `revoke`. -/
def revoke (c : Client) (db : Db) : Db where
  states := db.states.deleteWhere fun _ row => row.client = c
  tokens := db.tokens.erase c

/-- `cancel_state`. -/
def cancelState (c : Client) (state : Token) (db : Db) : Db :=
  { db with states := db.states.deleteWhere fun k row => k = state && row.client = c }

end Store

/-! ### What the transactions do -/

section

variable {c : Client} {state verifier : Token} {endpoint : String} {room : Bool} {t t₁ t₂ : Time}
  {db db' : Db} {row : StateRow} {credential : Credential} {old : Option String} {result : Response}

/-- The refresh token of a credential is the one in the answer, or the old one. -/
theorem tokenData_refresh (h : tokenData result endpoint old t = .ok credential) {r : String}
    (hr : credential.data.refresh = some r) :
    result.refreshToken = some (.text r) ∨ result.refreshToken = none ∧ old = some r := by
  simp only [tokenData, bind_eq_ok, pure_eq_ok] at h
  obtain ⟨_, -, _, -, _, -, refresh, hrefresh, _, -, rfl⟩ := h
  obtain rfl : refresh = some r := hr
  cases hv : result.refreshToken with
  | none =>
    rw [hv, Value.refreshToken, pure_eq_ok] at hrefresh
    exact .inr ⟨rfl, hrefresh⟩
  | some v =>
    rw [hv] at hrefresh
    cases v with
    | null | number | other => cases hrefresh
    | text s =>
      simp only [Value.refreshToken, bind_eq_ok, pure_eq_ok, Option.some.injEq] at hrefresh
      obtain ⟨_, -, rfl⟩ := hrefresh
      exact .inl rfl

/-- The other states are kept or deleted. -/
theorem Store.begin_ok (h : begin c state verifier endpoint room t₁ t₂ db = .ok db') :
    db'.tokens = db.tokens ∧
      db'.states state = some ⟨state, c, verifier, endpoint, t₂ + 600⟩ ∧
      ∀ k row, k ≠ state → db'.states k = some row → db.states k = some row := by
  simp only [begin, bind_eq_ok, pure_eq_ok] at h
  obtain ⟨_, -, _, -, rfl⟩ := h
  refine ⟨rfl, Table.set_same _ _ _, fun k row hk hrow => ?_⟩
  have hfilter := (Table.set_of_ne _ _ _ hk).symm.trans hrow
  exact ((Table.deleteWhere_eq_some _ _).1 hfilter).1

theorem Store.take_ok (h : take c state t db = .ok (db', row)) :
    db.states state = some row ∧ row.client = c ∧ t < row.expires ∧
      db' = { db with states := db.states.erase state } := by
  simp only [take, bind_eq_ok, require_eq_ok, pure_eq_ok, Prod.mk.injEq] at h
  obtain ⟨row', hrow, rfl, rfl⟩ := h
  obtain ⟨hrow, hw⟩ := Option.filter_eq_some_iff.1 hrow
  simp only [Bool.and_eq_true, decide_eq_true_eq] at hw
  exact ⟨hrow, hw.1, hw.2, rfl⟩

theorem Store.save_ok (h : save c credential room db = .ok db') :
    db' = { db with tokens := db.tokens.set c credential } := by
  simp only [save, bind_eq_ok, pure_eq_ok] at h
  obtain ⟨_, -, rfl⟩ := h
  rfl

theorem Store.access_valid {token : String} (h : access c t db = .ok (db', .valid token)) :
    db' = db ∧ ∃ row, db.tokens c = some row := by
  simp only [access, bind_eq_ok, require_eq_ok] at h
  obtain ⟨row, hrow, h⟩ := h
  by_cases he : row.expires ≤ t + 30
  · simp only [if_pos he, bind_eq_ok, pure_eq_ok, Prod.mk.injEq] at h
    obtain ⟨_, -, -, h⟩ := h
    cases h
  · simp only [if_neg he, pure_eq_ok, Prod.mk.injEq] at h
    exact ⟨h.1.symm, row, hrow⟩

theorem Store.access_expired {data : Data} (h : access c t db = .ok (db', .expired data)) :
    db' = { db with tokens := db.tokens.erase c } ∧
      ∃ row, db.tokens c = some row ∧ row.data = data := by
  simp only [access, bind_eq_ok, require_eq_ok] at h
  obtain ⟨row, hrow, h⟩ := h
  by_cases he : row.expires ≤ t + 30
  · simp only [if_pos he, bind_eq_ok, pure_eq_ok, Prod.mk.injEq] at h
    obtain ⟨_, -, rfl, h⟩ := h
    cases h
    exact ⟨rfl, row, hrow, rfl⟩
  · simp only [if_neg he, pure_eq_ok, Prod.mk.injEq] at h
    cases h.2

theorem Store.revoke_states {k : Token} (h : (revoke c db).states k = some row) :
    db.states k = some row ∧ row.client ≠ c := by
  have h : db.states.deleteWhere (fun _ row => row.client = c) k = some row := h
  obtain ⟨hrow, hne⟩ := (Table.deleteWhere_eq_some _ _).1 h
  exact ⟨hrow, by simpa using hne⟩

theorem Store.cancelState_states {k : Token} (h : (cancelState c state db).states k = some row) :
    db.states k = some row := by
  have h : db.states.deleteWhere (fun k row => k = state && row.client = c) k = some row := h
  exact ((Table.deleteWhere_eq_some _ _).1 h).1

end

end OAuth

end PythonAI
