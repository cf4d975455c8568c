import PythonAI.Extensions.OAuth
import PythonAI.Library.Lts

/-!
# The calls of `OAuthClient`

`Host.lts` runs any number of calls at once; each transaction and each request is a step of its own,
and a call can end at every point (`fail`): its request fails or times out, or its process dies.
The second transaction of `access_token` contains its request, and locks the database meanwhile.

The host counts the revocations of each client, and remembers how many there were when an
authorization began and when a call began.
-/

namespace PythonAI

open Library

namespace OAuth

/-- A call that has committed its first transaction. -/
inductive Phase
  /-- `finish` has taken the state, at `t` -/
  | taken (row : StateRow) (t : Time)
  /-- it has sent the code -/
  | exchanging (row : StateRow)
  /-- it has a valid answer -/
  | answered (credential : Credential)
  /-- `access_token` has deleted the row of an expired token -/
  | fenced (data : Data)
  /-- it has opened its second transaction and has sent the refresh token, as the exchange `no` -/
  | refreshing (data : Data) (no : ℕ)

/-- A call of `finish` or `access_token`. -/
structure Call where
  /-- the client -/
  client : Client
  /-- how far it is -/
  phase : Phase
  /-- the number of revocations before the authorization that the credential stems from -/
  born : ℕ
  /-- the number of revocations before the first transaction of the call -/
  began : ℕ

/-- A code that was sent. -/
structure CodeSent where
  /-- the state -/
  state : Token
  /-- the client -/
  client : Client
  /-- when the state was taken -/
  taken : Time

/-- A refresh token that was sent. -/
structure Exchange where
  /-- the number of the exchange -/
  no : ℕ
  /-- the client -/
  client : Client
  /-- the refresh token -/
  token : String
  /-- the exchange has returned, and the credential that was stored has the same refresh token -/
  kept : Bool := false

/-- A credential that was stored. -/
structure Stored where
  /-- the client -/
  client : Client
  /-- the number of revocations before its authorization -/
  born : ℕ
  /-- the number of revocations before it was stored -/
  revoked : ℕ

/-- An access token that `access_token` has returned. -/
structure Returned where
  /-- the client -/
  client : Client
  /-- the number of revocations before its authorization -/
  born : ℕ
  /-- the number of revocations before the call -/
  began : ℕ

/-- The database with the calls, and what has happened so far. -/
structure Host where
  /-- the database -/
  db : Db
  /-- the call whose transaction is open -/
  lock : Option ℕ
  /-- the calls that have not ended -/
  calls : Table ℕ Call
  /-- the next random text; every one so far is smaller -/
  uuids : Token
  /-- the states that were inserted -/
  begun : List StateRow
  /-- the codes that were sent -/
  codes : List CodeSent
  /-- the refresh tokens that were sent -/
  exchanges : List Exchange
  /-- the refresh tokens in the answers -/
  issued : List (Client × String)
  /-- the number of revocations -/
  revoked : Client → ℕ
  /-- the number of revocations when a state was inserted -/
  born : Token → ℕ
  /-- the number of revocations before the authorization that the credential stems from -/
  stems : Client → ℕ
  /-- the credentials that were stored -/
  stored : List Stored
  /-- the access tokens that were returned -/
  returned : List Returned

/-- A transaction, a request or the end of a call. -/
inductive Act
  /-- `begin` -/
  | begin (c : Client) (endpoint : String) (room : Bool) (t₁ t₂ : Time)
  /-- the first transaction of `finish` -/
  | take (i : ℕ) (c : Client) (state : Token) (t : Time)
  /-- the request of `finish` -/
  | send (i : ℕ)
  /-- the answer -/
  | answer (i : ℕ) (result : Response) (t : Time)
  /-- the second transaction of `finish` -/
  | save (i : ℕ) (room : Bool)
  /-- the first transaction of `access_token` -/
  | access (i : ℕ) (c : Client) (t : Time)
  /-- the beginning of its second transaction, up to the request -/
  | refresh (i : ℕ)
  /-- the answer, and the end of the transaction -/
  | refreshed (i : ℕ) (result : Response) (t : Time)
  /-- the end of a call: it raises, its request is never answered, or its process dies -/
  | fail (i : ℕ)
  /-- `revoke` -/
  | revoke (c : Client)
  /-- `cancel_state` -/
  | cancelState (c : Client) (state : Token)

namespace Host

/-- A new database without calls. -/
structure Initial (h : Host) : Prop where
  /-- no state -/
  states : h.db.states = .empty
  /-- no credential -/
  tokens : h.db.tokens = .empty
  /-- no open transaction -/
  lock : h.lock = none
  /-- no call -/
  calls : h.calls = .empty
  /-- nothing has happened -/
  begun : h.begun = []
  /-- no code was sent -/
  codes : h.codes = []
  /-- no refresh token was sent -/
  exchanges : h.exchanges = []
  /-- none was issued -/
  issued : h.issued = []
  /-- no credential was stored -/
  stored : h.stored = []
  /-- no access token was returned -/
  returned : h.returned = []

/-- The call goes on. -/
def goes (h : Host) (i : ℕ) (call : Call) (phase : Phase) : Host :=
  { h with calls := h.calls.set i { call with phase := phase } }

/-- The call ends; an open transaction is rolled back. -/
def ends (h : Host) (i : ℕ) : Host :=
  { h with calls := h.calls.erase i, lock := if h.lock = some i then none else h.lock }

/-- `access_token` returns the access token of a credential. -/
def returns (h : Host) (c : Client) (born began : ℕ) : Host :=
  { h with returned := h.returned ++ [⟨c, born, began⟩] }

/-- The refresh token of an answer. -/
def issues (h : Host) (c : Client) (credential : Credential) : Host :=
  { h with issued := h.issued ++ (credential.data.refresh.toList.map fun r => (c, r)) }

/-- A credential of an authorization is stored. -/
def saves (h : Host) (c : Client) (born : ℕ) (db : Db) : Host :=
  { h with
    db := db
    stems := Function.update h.stems c born
    stored := h.stored ++ [⟨c, born, h.revoked c⟩] }

/-- `begin`. -/
def begins (h : Host) (c : Client) (endpoint : String) (t₂ : Time) (db : Db) : Host :=
  { h with
    db := db
    uuids := h.uuids + 2
    begun := h.begun ++ [⟨h.uuids, c, h.uuids + 1, endpoint, t₂ + 600⟩]
    born := Function.update h.born h.uuids (h.revoked c) }

/-- `finish` has taken a state. -/
def takes (h : Host) (i : ℕ) (c : Client) (row : StateRow) (t : Time) (db : Db) : Host :=
  { h with
    db := db
    calls := h.calls.set i ⟨c, .taken row t, h.born row.state, h.revoked c⟩ }

/-- The code is sent. -/
def sends (h : Host) (i : ℕ) (call : Call) (row : StateRow) (t : Time) : Host :=
  { h.goes i call (.exchanging row) with codes := h.codes ++ [⟨row.state, call.client, t⟩] }

/-- The row of an expired token is deleted. -/
def fences (h : Host) (i : ℕ) (c : Client) (data : Data) (db : Db) : Host :=
  { h with db := db, calls := h.calls.set i ⟨c, .fenced data, h.stems c, h.revoked c⟩ }

/-- The refresh token is sent, and the database stays locked. -/
def refreshes (h : Host) (i : ℕ) (call : Call) (data : Data) (token : String) : Host :=
  { h.goes i call (.refreshing data h.exchanges.length) with
    lock := some i
    exchanges := h.exchanges ++ [⟨h.exchanges.length, call.client, token, false⟩] }

/-- What is known of the exchange `no` when it has returned. -/
def settled (h : Host) (no : ℕ) (kept : Bool) : Host :=
  { h with
    exchanges := h.exchanges.map fun e =>
      { e with kept := e.kept || (decide (e.no = no) && kept) } }

/-- One transaction, one request or the end of a call. -/
inductive Step (trusted : String → Bool) (h : Host) : Act → Host → Prop
  | begin {c : Client} {endpoint : String} {room : Bool} {t₁ t₂ : Time} {db : Db} :
      h.lock = none →
      Store.begin c h.uuids (h.uuids + 1) endpoint room t₁ t₂ h.db = .ok db →
      Step trusted h (.begin c endpoint room t₁ t₂) (h.begins c endpoint t₂ db)
  | take {i : ℕ} {c : Client} {state : Token} {t : Time} {db : Db} {row : StateRow} :
      h.lock = none → h.calls i = none → Store.take c state t h.db = .ok (db, row) →
      Step trusted h (.take i c state t) (h.takes i c row t db)
  | send {i : ℕ} {call : Call} {row : StateRow} {t : Time} :
      h.calls i = some call → call.phase = .taken row t → trusted row.endpoint = true →
      Step trusted h (.send i) (h.sends i call row t)
  | answer {i : ℕ} {call : Call} {row : StateRow} {result : Response} {t : Time}
      {credential : Credential} :
      h.calls i = some call → call.phase = .exchanging row →
      tokenData result row.endpoint none t = .ok credential →
      Step trusted h (.answer i result t)
        ((h.goes i call (.answered credential)).issues call.client credential)
  | save {i : ℕ} {call : Call} {credential : Credential} {room : Bool} {db : Db} :
      h.lock = none → h.calls i = some call → call.phase = .answered credential →
      Store.save call.client credential room h.db = .ok db →
      Step trusted h (.save i room) ((h.saves call.client call.born db).ends i)
  | valid {i : ℕ} {c : Client} {t : Time} {db : Db} {token : String} :
      h.lock = none → h.calls i = none → Store.access c t h.db = .ok (db, .valid token) →
      Step trusted h (.access i c t) (h.returns c (h.stems c) (h.revoked c))
  | expired {i : ℕ} {c : Client} {t : Time} {db : Db} {data : Data} :
      h.lock = none → h.calls i = none → Store.access c t h.db = .ok (db, .expired data) →
      Step trusted h (.access i c t) (h.fences i c data db)
  | newer {i : ℕ} {call : Call} {data : Data} {row : Credential} :
      h.lock = none → h.calls i = some call → call.phase = .fenced data →
      h.db.tokens call.client = some row →
      Step trusted h (.refresh i)
        ((h.returns call.client (h.stems call.client) call.began).ends i)
  | refresh {i : ℕ} {call : Call} {data : Data} {token : String} :
      h.lock = none → h.calls i = some call → call.phase = .fenced data →
      h.db.tokens call.client = none → trusted data.endpoint = true → data.refresh = some token →
      Step trusted h (.refresh i) (h.refreshes i call data token)
  | refreshed {i : ℕ} {call : Call} {data : Data} {no : ℕ} {result : Response} {t : Time}
      {credential : Credential} :
      h.calls i = some call → call.phase = .refreshing data no →
      tokenData result data.endpoint data.refresh t = .ok credential →
      Step trusted h (.refreshed i result t)
        ((((((h.settled no (credential.data.refresh = data.refresh)).issues call.client
          credential).saves call.client call.born
            { h.db with tokens := h.db.tokens.set call.client credential }).returns call.client
              call.born call.began)).ends i)
  | fail {i : ℕ} : Step trusted h (.fail i) (h.ends i)
  | revoke {c : Client} : h.lock = none →
      Step trusted h (.revoke c)
        { h with
          db := Store.revoke c h.db
          revoked := Function.update h.revoked c (h.revoked c + 1) }
  | cancelState {c : Client} {state : Token} : h.lock = none →
      Step trusted h (.cancelState c state) { h with db := Store.cancelState c state h.db }

/-- The calls of any number of processes; the endpoints with a `trusted` origin are used. -/
def lts (trusted : String → Bool) : Lts Host Act := ⟨Step trusted⟩

variable {h : Host}

theorem goes_calls {i j : ℕ} {call : Call} {phase : Phase} :
    (h.goes i call phase).calls j = if j = i then some { call with phase := phase } else h.calls j :=
  Table.set_apply ..

theorem ends_calls {i j : ℕ} {call : Call} (hj : (h.ends i).calls j = some call) :
    h.calls j = some call :=
  (Table.erase_eq_some (t := h.calls) hj).2

namespace Sample

/-- A client. -/
def client : Client := ⟨"owner", "key"⟩

/-- A new database. -/
def start : Host where
  db := ⟨.empty, .empty⟩
  lock := none
  calls := .empty
  uuids := 0
  begun := []
  codes := []
  exchanges := []
  issued := []
  revoked := fun _ => 0
  born := fun _ => 0
  stems := fun _ => 0
  stored := []
  returned := []

theorem start_initial : start.Initial := ⟨rfl, rfl, rfl, rfl, rfl, rfl, rfl, rfl, rfl, rfl⟩

/-- The state of an authorization. -/
def row : StateRow := ⟨0, client, 1, "https://issuer/token", 600⟩

/-- An authorization has begun. -/
def begun : Host :=
  start.begins client "https://issuer/token" 0
    { start.db with states := (start.db.states.deleteWhere fun _ row => row.expires < 0).set 0 row }

/-- Its state is taken. -/
def taken : Host :=
  begun.takes 0 client row 0 { begun.db with states := begun.db.states.erase 0 }

/-- The call of `finish`. -/
def finish : Call := ⟨client, .taken row 0, 0, 0⟩

/-- Its code is sent. -/
def sent : Host := taken.sends 0 finish row 0

/-- The answer. -/
def answer : Response where
  accessToken := some (.text "access")
  refreshToken := some (.text "refresh")
  tokenType := some (.text "Bearer")
  expiresIn := some (.number 1)

/-- The credential of the answer. -/
def credential : Credential := ⟨⟨"access", some "refresh", "https://issuer/token"⟩, 1⟩

/-- The answer is valid. -/
def answered : Host :=
  (sent.goes 0 { finish with phase := .exchanging row } (.answered credential)).issues client
    credential

/-- The credential is stored. -/
def saved : Host :=
  (answered.saves client 0 { answered.db with tokens := answered.db.tokens.set client credential
    }).ends 0

theorem begun_step {trusted : String → Bool} :
    Step trusted start (.begin client "https://issuer/token" true 0 0) begun := .begin rfl rfl

theorem taken_step {trusted : String → Bool} : Step trusted begun (.take 0 client 0 0) taken := by
  have hx : Store.take client 0 0 begun.db =
      .ok ({ begun.db with states := begun.db.states.erase 0 }, row) := rfl
  exact .take rfl rfl hx

theorem sent_step {trusted : String → Bool} (ht : trusted row.endpoint = true) :
    Step trusted taken (.send 0) sent := by
  have hcall : taken.calls 0 = some finish := rfl
  exact .send hcall rfl ht

theorem answered_step {trusted : String → Bool} :
    Step trusted sent (.answer 0 answer 0) answered := by
  have hx : tokenData answer row.endpoint none 0 = .ok credential := by
    decide +kernel
  have hcall : sent.calls 0 = some { finish with phase := .exchanging row } := rfl
  exact .answer hcall rfl hx

theorem saved_step {trusted : String → Bool} : Step trusted answered (.save 0 true) saved := by
  have hx : Store.save client credential true answered.db =
      .ok { answered.db with tokens := answered.db.tokens.set client credential } := rfl
  have hcall : answered.calls 0 = some { finish with phase := .answered credential } := rfl
  exact .save rfl hcall rfl hx

end Sample

end Host

end OAuth

end PythonAI
