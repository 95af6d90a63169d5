import Nsmt.Core.Tree
import Nsmt.Lib.Runs
import Nsmt.Lib.Text
import Nsmt.Server.Tenants

/-!
# The control API

The endpoints of `admin.rs` and the users' database behind them, as far as they
touch users and tenants. Two endpoints do not ask for the admin token, and both
end in `upsert_tenant`: `keys_kept_iff` says which of their requests leave the
keys of the tenants alone.
-/

namespace Nsmt.Server

open Nsmt.Lib Nsmt.Core

structure UserRow where
  passwordHash : String
  plan : String
  deriving DecidableEq, Repr

abbrev UserDb := String → Option UserRow

/-- `NSMT_ADMIN_TOKEN` and the password hashes; `uniqueViolation` is what the
database says about a name it has. -/
structure AdminConfig where
  adminToken : Option String
  sha256 : Bytes → Digest
  hashPassword : (password : String) → Except String String
  verifyPassword : (hash password : String) → Except String Bool
  uniqueViolation : String

/-- The endpoints that only ask for the token; what they do leaves the tables of
users and tenants as they are. -/
inductive GuardedEndpoint
  | status | listTenants | listOnline | listLocks | logs | listUsers | restart | backup | restore
  deriving DecidableEq, Repr

inductive ApiRequest
  | guarded (endpoint : GuardedEndpoint)
  | addTenant (domain pubkey : String)
  | registerUser (username password : String)
  | loginUser (username password : String)
  | setTenantKey (domain pubkey : String)
  | upgradeUser (username plan : String)
  deriving DecidableEq, Repr

/-- A request with its token, and how the database and the disk fare. -/
structure ApiCall where
  token : Option String
  now : Nat
  dbError : Option String
  persistError : Option String
  request : ApiRequest
  deriving DecidableEq, Repr

inductive ApiReply
  | error (message : String)
  | served (endpoint : GuardedEndpoint)
  | tenantAdded (tenant : String)
  | registered (token domain : String) (quotaBytes : Nat)
  | loggedIn (token : String)
  | keySet (domain : String)
  | upgraded (username plan : String) (quotaBytes : Nat)
  deriving DecidableEq, Repr

/-- `db` is there if `NSMT_DB_URL` leads to a database. -/
structure AdminState where
  tenants : TenantStore
  db : Option UserDb

-- ---------------------------------------------------------------------------
-- The users' database
-- ---------------------------------------------------------------------------

def freeQuotaBytes : Nat := 50 * 1024 * 1024

def proQuotaBytes : Nat := 1024 * 1024 * 1024

def quotaForPlan (plan : String) : Nat := if plan = "pro" then proQuotaBytes else freeQuotaBytes

def issueToken (cfg : AdminConfig) (now : Nat) (username : String) : String :=
  "t-" ++ username ++ "-" ++ (cfg.sha256 (utf8 (username ++ ":" ++ toString now))).hex

namespace UserDb

variable (cfg : AdminConfig) (call : ApiCall) (db : UserDb)

def register (username password : String) : Except String (String × UserDb) :=
  match cfg.hashPassword password with
  | .error e => .error ("hash: " ++ e)
  | .ok passwordHash =>
    let failed (e : String) := .error ("注册失败（可能用户名已存在）: " ++ e)
    match call.dbError, db username with
    | some e, _ => failed e
    | none, some _ => failed cfg.uniqueViolation
    | none, none =>
      .ok (issueToken cfg call.now username,
        Function.update db username (some { passwordHash, plan := "free" }))

def login (username password : String) : Except String String :=
  match call.dbError with
  | some e => .error ("db: " ++ e)
  | none =>
    match db username with
    | none => .error "用户不存在"
    | some row =>
      match cfg.verifyPassword row.passwordHash password with
      | .error e => .error ("hash parse: " ++ e)
      | .ok true => .ok (issueToken cfg call.now username)
      | .ok false => .error "密码错误"

def setPlan (username plan : String) : Except String (String × UserDb) :=
  if plan ≠ "free" ∧ plan ≠ "pro" then .error ("unknown plan: " ++ plan)
  else
    match call.dbError with
    | some e => .error ("db: " ++ e)
    | none =>
      match db username with
      | none => .error "用户不存在"
      | some row => .ok (plan, Function.update db username (some { row with plan }))

end UserDb

-- ---------------------------------------------------------------------------
-- The handlers
-- ---------------------------------------------------------------------------

namespace AdminState

variable (cfg : AdminConfig) (call : ApiCall) (s : AdminState)

def authorized (token : Option String) : Bool :=
  match cfg.adminToken with
  | some t => token = some t
  | none => true

/-- The reply behind `upsert_tenant`, which has changed the table in any case. -/
def persisted (reply : ApiReply) : ApiReply :=
  match call.persistError with
  | some e => .error e
  | none => reply

def addTenant (domain pubkey : String) : AdminState × ApiReply :=
  ({ s with tenants := s.tenants.upsertTenant domain pubkey }, persisted call (.tenantAdded domain))

/-- The user is the tenant of that name, for now without a key. -/
def registerUser (username password : String) : AdminState × ApiReply :=
  match s.db with
  | none => (s, .error "user db not enabled (set NSMT_DB_URL)")
  | some db =>
    let username := trim username
    if username = "" ∨ (utf8 username).length > 64 ∨ (utf8 password).length < 6 then
      (s, .error "username 1-64 chars, password >= 6")
    else
      match db.register cfg call username password with
      | .error e => (s, .error e)
      | .ok (token, db) =>
        ({ tenants := s.tenants.upsertTenant username "", db := some db },
          .registered token username (quotaForPlan "free"))

def loginUser (username password : String) : ApiReply :=
  match s.db with
  | none => .error "user db not enabled"
  | some db =>
    match db.login cfg call username password with
    | .error e => .error e
    | .ok token => .loggedIn token

def setTenantKey (domain pubkey : String) : AdminState × ApiReply :=
  if (utf8 pubkey).length ≠ 64 then (s, .error "pubkey must be 64 hex chars")
  else ({ s with tenants := s.tenants.upsertTenant domain pubkey }, persisted call (.keySet domain))

def upgradeUser (username plan : String) : AdminState × ApiReply :=
  match s.db with
  | none => (s, .error "user db not enabled")
  | some db =>
    match db.setPlan call username plan with
    | .error e => (s, .error e)
    | .ok (plan, db) => ({ s with db := some db }, .upgraded username plan (quotaForPlan plan))

def handle : AdminState × ApiReply :=
  let guarded (answer : AdminState × ApiReply) :=
    if authorized cfg call.token then answer else (s, .error "unauthorized")
  match call.request with
  | .guarded endpoint => guarded (s, .served endpoint)
  | .addTenant domain pubkey => guarded (addTenant call s domain pubkey)
  | .registerUser username password => registerUser cfg call s username password
  | .loginUser username password => (s, loginUser cfg call s username password)
  | .setTenantKey domain pubkey => setTenantKey call s domain pubkey
  | .upgradeUser username plan => guarded (upgradeUser call s username plan)

def step (s : AdminState) (call : ApiCall) : AdminState := (handle cfg call s).1

-- ---------------------------------------------------------------------------
-- Keys that stay
-- ---------------------------------------------------------------------------

/-- No key that is not empty has changed. -/
def KeysKept (s s' : AdminState) : Prop :=
  ∀ domain key, key ≠ "" → s.tenants.keyOf domain = some key → s'.tenants.keyOf domain = some key

/-- The database takes the user in. -/
def Registers (username password : String) : Prop :=
  ∃ db token db', s.db = some db ∧
    ¬ (trim username = "" ∨ (utf8 (trim username)).length > 64 ∨ (utf8 password).length < 6) ∧
    db.register cfg call (trim username) password = .ok (token, db')

/-- A request without the token that spares the keys: a key is set only for a
tenant that has none or has this one, and no user takes the name of a tenant
that has one. -/
def SparesKeys (s : AdminState) (call : ApiCall) : Prop :=
  match call.request with
  | .setTenantKey domain pubkey =>
    (utf8 pubkey).length = 64 → ∀ key, s.tenants.keyOf domain = some key → key = "" ∨ key = pubkey
  | .registerUser username password =>
    Registers cfg call s username password →
      ∀ key, s.tenants.keyOf (trim username) = some key → key = ""
  | _ => True

section
variable {cfg call s}

theorem KeysKept.refl (s : AdminState) : KeysKept s s := fun _ _ _ h => h

theorem KeysKept.trans (h : KeysKept s t) (h' : KeysKept t u) : KeysKept s u :=
  fun domain key hkey hs => h' domain key hkey (h domain key hkey hs)

theorem keysKept_upsert {db : Option UserDb} :
    KeysKept s { tenants := s.tenants.upsertTenant domain pubkey, db } ↔
      ∀ key, s.tenants.keyOf domain = some key → key = "" ∨ key = pubkey := by
  simp only [KeysKept, TenantStore.keyOf_upsertTenant]
  constructor
  · intro h key hkey
    by_cases hempty : key = ""
    · exact .inl hempty
    · have hsame := h domain key hempty hkey
      rw [if_pos rfl] at hsame
      exact .inr (Option.some.inj hsame).symm
  · intro h other key hne hkey
    split
    · rename_i heq
      subst heq
      rw [(h key hkey).resolve_left hne]
    · exact hkey

theorem registerUser_keysKept :
    KeysKept s (registerUser cfg call s username password).1 ↔
      (Registers cfg call s username password →
        ∀ key, s.tenants.keyOf (trim username) = some key → key = "") := by
  unfold registerUser
  split
  · rename_i hdb
    refine iff_of_true (.refl s) ?_
    rintro ⟨db, -, -, hsome, -⟩
    rw [hdb] at hsome
    cases hsome
  · rename_i db hdb
    simp only
    split
    · rename_i hbad
      refine iff_of_true (.refl s) ?_
      rintro ⟨-, -, -, -, hgood, -⟩
      exact absurd hbad hgood
    · rename_i hgood
      split
      · rename_i e herror
        refine iff_of_true (.refl s) ?_
        rintro ⟨db', token, db'', hsome, -, hok⟩
        rw [hdb] at hsome
        obtain rfl := Option.some.inj hsome
        rw [herror] at hok
        cases hok
      · rename_i token db' hok
        have hregisters : Registers cfg call s username password := ⟨db, token, db', hdb, hgood, hok⟩
        simp only [keysKept_upsert, or_self, hregisters, true_implies]

/-- A request without the token spares the keys of the tenants exactly if
`SparesKeys`. -/
theorem step_keysKept (h : authorized cfg call.token = false) :
    KeysKept s (step cfg s call) ↔ SparesKeys cfg s call := by
  unfold step handle SparesKeys
  cases call.request with
  | guarded endpoint =>
    simp only [h, Bool.false_eq_true, if_false]
    exact iff_of_true (.refl s) trivial
  | addTenant domain pubkey =>
    simp only [h, Bool.false_eq_true, if_false]
    exact iff_of_true (.refl s) trivial
  | upgradeUser username plan =>
    simp only [h, Bool.false_eq_true, if_false]
    exact iff_of_true (.refl s) trivial
  | loginUser username password => exact iff_of_true (.refl s) trivial
  | registerUser username password => exact registerUser_keysKept
  | setTenantKey domain pubkey =>
    simp only [setTenantKey]
    by_cases hlen : (utf8 pubkey).length = 64
    · simp only [hlen, ne_eq, not_true, if_false, true_implies]
      exact keysKept_upsert
    · simp only [hlen, ne_eq, not_false_eq_true, if_true, false_implies, iff_true]
      exact .refl s

/-- Without the token: between any two states of the run every key that is not
empty is unchanged, exactly if every request spares the keys. -/
theorem keys_kept_iff {calls : List ApiCall} (htoken : cfg.adminToken = some token)
    (hcalls : ∀ call ∈ calls, call.token ≠ some token) :
    (∀ before between after, calls = before ++ (between ++ after) →
      KeysKept (run (step cfg) s before) (run (step cfg) (run (step cfg) s before) between)) ↔
    AllSteps (step cfg) (SparesKeys cfg) s calls := by
  rw [← AllSteps.iff_between KeysKept.refl fun _ _ _ => KeysKept.trans]
  refine AllSteps.congr fun call hcall s => step_keysKept ?_
  simp only [authorized, htoken, decide_eq_false_iff_not]
  exact hcalls call hcall

end

def tokenConfig : AdminConfig where
  adminToken := some "s3cret"
  sha256 := Digest.sha256
  hashPassword := fun _ => .ok "$argon2id$v=19$m=19456,t=2,p=1$c2FsdA$aGFzaA"
  verifyPassword := fun _ _ => .ok true
  uniqueViolation := "UNIQUE constraint failed: users.username"

/-- The tenant `acme` with a key; no users yet. -/
def acmeState : AdminState where
  tenants := TenantStore.upsertTenant (fun _ => none) "acme" (hexEncode (List.replicate 32 7))
  db := some fun _ => none

def anonymous (request : ApiRequest) : ApiCall :=
  { token := none, now := 1770000000000, dbError := none, persistError := none, request }

/-- A new user registers and sets a key. -/
theorem keys_kept_iff_new_user :
    KeysKept acmeState (run (step tokenConfig) acmeState [anonymous (.registerUser "beta" "hunter2"),
      anonymous (.setTenantKey "beta" (hexEncode (List.replicate 32 9)))]) := by
  have hfresh : acmeState.tenants.keyOf (trim "beta") = none := by decide +kernel
  have hempty : (step tokenConfig acmeState (anonymous (.registerUser "beta" "hunter2"))).tenants.keyOf
      "beta" = some "" := by decide +kernel
  have hspares : AllSteps (step tokenConfig) (SparesKeys tokenConfig) acmeState
      [anonymous (.registerUser "beta" "hunter2"),
        anonymous (.setTenantKey "beta" (hexEncode (List.replicate 32 9)))] := by
    refine ⟨fun _ key hkey => ?_, fun _ key hkey => ?_, trivial⟩
    · rw [hfresh] at hkey
      cases hkey
    · rw [hempty] at hkey
      exact .inl (Option.some.inj hkey).symm
  exact (keys_kept_iff rfl (by decide)).mpr hspares [] _ [] rfl

/-- Anybody sets the key of `acme`. -/
theorem anonymous_key_replaced : ¬ ∀ (cfg : AdminConfig) (token : String) (s : AdminState)
    (calls : List ApiCall), cfg.adminToken = some token →
    (∀ call ∈ calls, call.token ≠ some token) → KeysKept s (run (step cfg) s calls) := by
  intro h
  have hkept := h tokenConfig "s3cret" acmeState
    [anonymous (.setTenantKey "acme" (hexEncode (List.replicate 32 9)))] rfl (by decide) "acme"
    (hexEncode (List.replicate 32 7)) (by decide) (by decide +kernel)
  revert hkept
  decide +kernel

end AdminState

end Nsmt.Server
