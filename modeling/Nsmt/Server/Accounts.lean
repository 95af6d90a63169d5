import Nsmt.Server.Admin

/-!
# Accounts

What the users' database is for: a password and a plan by name. `Book` says so, and
`accounts_refine` that the control API with its table of hashes behaves like a book,
call by call, and that the quota of a tenant is the one of its plan.
-/

namespace Nsmt.Server

open Nsmt.Lib Nsmt.Core

/-- `UserDb::plan`, by domain; a domain nobody has registered is on the free plan. -/
def UserDb.plan (dbError : Option String) (db : UserDb) (domain : String) : Except String String :=
  match dbError with
  | some e => .error ("db: " ++ e)
  | none =>
    match db domain with
    | some row => .ok row.plan
    | none => .ok "free"

/-- `quota_for`: by plan if there is a database, else `NSMT_QUOTA_BYTES`. -/
def AdminState.quotaFor (globalQuota : Nat) (dbError : Option String) (s : AdminState)
    (domain : String) : Nat :=
  match s.db with
  | some db =>
    match db.plan dbError domain with
    | .ok plan => quotaForPlan plan
    | .error _ => quotaForPlan "free"
  | none => globalQuota

/-- A user was let in, or the plan of one was changed. -/
def ApiReply.accepted : ApiReply → Bool
  | .registered _ _ _ | .loggedIn _ | .upgraded _ _ _ => true
  | _ => false

-- ---------------------------------------------------------------------------
-- The book
-- ---------------------------------------------------------------------------

structure Member where
  password : String
  pro : Bool
  deriving DecidableEq, Repr

abbrev Book := String → Option Member

namespace Book

/-- The name and the password are ones that can be registered. -/
def Admissible (cfg : AdminConfig) (username password : String) : Prop :=
  username ≠ "" ∧ (utf8 username).length ≤ 64 ∧ 6 ≤ (utf8 password).length ∧
    (cfg.hashPassword password).isOk = true

instance (cfg : AdminConfig) (username password : String) : Decidable (Admissible cfg username password) :=
  inferInstanceAs (Decidable (_ ∧ _))

/-- The book behind a call, and whether the call is accepted. -/
def apply (cfg : AdminConfig) (call : ApiCall) (book : Book) : Book × Bool :=
  match call.request with
  | .registerUser username password =>
    let username := trim username
    if Admissible cfg username password ∧ call.dbError = none ∧ book username = none then
      (Function.update book username (some { password, pro := false }), true)
    else (book, false)
  | .loginUser username password =>
    (book, call.dbError = none ∧ (book username).map Member.password = some password)
  | .upgradeUser username plan =>
    match book username with
    | none => (book, false)
    | some member =>
      if AdminState.authorized cfg call.token = true ∧ (plan = "free" ∨ plan = "pro") ∧ call.dbError = none then
        (Function.update book username (some { member with pro := plan = "pro" }), true)
      else (book, false)
  | _ => (book, false)

def step (cfg : AdminConfig) (book : Book) (call : ApiCall) : Book := (book.apply cfg call).1

end Book

-- ---------------------------------------------------------------------------
-- The table and the book
-- ---------------------------------------------------------------------------

/-- A hash verifies the password it was made of, and no other. -/
def HashVerifies (cfg : AdminConfig) : Prop :=
  ∀ password hash, cfg.hashPassword password = .ok hash →
    ∀ other, cfg.verifyPassword hash other = .ok (decide (other = password))

/-- The row of a member. -/
structure Member.Row (cfg : AdminConfig) (row : UserRow) (m : Member) : Prop where
  password : ∀ other, cfg.verifyPassword row.passwordHash other = .ok (decide (other = m.password))
  plan : row.plan = if m.pro then "pro" else "free"

/-- The table has a row for every member of the book, and a tenant. -/
structure Book.Kept (cfg : AdminConfig) (book : Book) (s : AdminState) : Prop where
  table : ∃ db, s.db = some db ∧ ∀ name, Option.Rel (Member.Row cfg) (db name) (book name)
  tenant : ∀ name, book name ≠ none → s.tenants.keyOf name ≠ none

section
variable {cfg : AdminConfig} {call : ApiCall} {book : Book} {s : AdminState}

theorem Book.Kept.upsert (h : book.Kept cfg s) (domain pubkey : String) :
    book.Kept cfg { s with tenants := s.tenants.upsertTenant domain pubkey } := by
  refine ⟨h.table, fun name hname => ?_⟩
  rw [TenantStore.keyOf_upsertTenant]
  split
  · simp
  · exact h.tenant name hname

theorem Book.Kept.found (h : book.Kept cfg s) (hdb : s.db = some db) (name : String) :
    (db name = none ∧ book name = none) ∨
      ∃ row m, db name = some row ∧ book name = some m ∧ m.Row cfg row := by
  obtain ⟨db', hdb', hrows⟩ := h.table
  obtain rfl : db = db' := Option.some.inj (hdb.symm.trans hdb')
  have hrow := hrows name
  cases hold : db name with
  | none =>
    cases hmember : book name with
    | none => exact .inl ⟨rfl, rfl⟩
    | some m =>
      rw [hold, hmember] at hrow
      cases hrow
  | some row =>
    cases hmember : book name with
    | none =>
      rw [hold, hmember] at hrow
      cases hrow
    | some m =>
      rw [hold, hmember] at hrow
      obtain ⟨hrow⟩ := hrow
      exact .inr ⟨row, m, rfl, rfl, hrow⟩

/-- A row is written for a member. -/
theorem Book.Kept.write (h : book.Kept cfg s) (hdb : s.db = some db) (hrow : m.Row cfg row)
    (htenant : s.tenants.keyOf name ≠ none) :
    Book.Kept cfg (Function.update book name (some m))
      { s with db := some (Function.update db name (some row)) } := by
  obtain ⟨db', hdb', hrows⟩ := h.table
  obtain rfl : db = db' := Option.some.inj (hdb.symm.trans hdb')
  refine ⟨⟨_, rfl, fun other => ?_⟩, fun other hother => ?_⟩
  · by_cases ho : other = name
    · subst ho
      rw [Function.update_self, Function.update_self]
      exact .some hrow
    · rw [Function.update_of_ne ho, Function.update_of_ne ho]
      exact hrows other
  · by_cases ho : other = name
    · exact ho ▸ htenant
    · rw [Function.update_of_ne ho] at hother
      exact h.tenant other hother

/-- What a call does to the table is what it does to the book. -/
def Follows (cfg : AdminConfig) (answer : AdminState × ApiReply) (result : Book × Bool) : Prop :=
  result.1.Kept cfg answer.1 ∧ answer.2.accepted = result.2

theorem registerUser_follows (hhash : HashVerifies cfg) (h : book.Kept cfg s) (username password : String)
    (hrequest : call.request = .registerUser username password) :
    Follows cfg (AdminState.registerUser cfg call s username password) (book.apply cfg call) := by
  obtain ⟨db, hdb, -⟩ := h.table
  simp only [AdminState.registerUser, hdb, Book.apply, hrequest, UserDb.register]
  split
  · rename_i hbad
    rw [if_neg]
    · exact ⟨h, rfl⟩
    · rintro ⟨⟨hne, hle, hsix, -⟩, -⟩
      rcases hbad with hempty | hlong | hshort
      · exact hne hempty
      · omega
      · omega
  · rename_i hgood
    simp only [not_or] at hgood
    cases hhashed : cfg.hashPassword password with
    | error e =>
      rw [if_neg]
      · exact ⟨h, rfl⟩
      · rintro ⟨⟨-, -, -, hok⟩, -⟩
        rw [hhashed] at hok
        cases hok
    | ok hash =>
      cases hfails : call.dbError with
      | some e =>
        rw [if_neg (by simp)]
        exact ⟨h, rfl⟩
      | none =>
        rcases h.found hdb (trim username) with ⟨hold, hmember⟩ | ⟨row, m, hold, hmember, -⟩
        · have hadmissible : Book.Admissible cfg (trim username) password :=
            ⟨hgood.1, by omega, by omega, by rw [hhashed]; rfl⟩
          rw [hold, if_pos ⟨hadmissible, rfl, hmember⟩]
          refine ⟨(h.upsert (trim username) "").write hdb ⟨hhash password hash hhashed, rfl⟩ ?_, rfl⟩
          simp [TenantStore.keyOf_upsertTenant]
        · rw [hold, if_neg (by simp [hmember])]
          exact ⟨h, rfl⟩

theorem loginUser_follows (h : book.Kept cfg s) (username password : String)
    (hrequest : call.request = .loginUser username password) :
    Follows cfg (s, AdminState.loginUser cfg call s username password) (book.apply cfg call) := by
  obtain ⟨db, hdb, -⟩ := h.table
  refine ⟨?_, ?_⟩
  · simp only [Book.apply, hrequest]
    exact h
  · simp only [AdminState.loginUser, hdb, Book.apply, hrequest, UserDb.login]
    cases hfails : call.dbError with
    | some e => simp [ApiReply.accepted]
    | none =>
      rcases h.found hdb username with ⟨hold, hmember⟩ | ⟨row, m, hold, hmember, hrow⟩
      · simp [hold, hmember, ApiReply.accepted]
      · have hverify := hrow.password password
        by_cases hpassword : password = m.password
        · subst hpassword
          simp [hold, hmember, hverify, ApiReply.accepted]
        · simp [hold, hmember, hverify, hpassword, Ne.symm hpassword, ApiReply.accepted]

theorem upgradeUser_follows (h : book.Kept cfg s) (username plan : String)
    (hrequest : call.request = .upgradeUser username plan)
    (htoken : AdminState.authorized cfg call.token = true) :
    Follows cfg (AdminState.upgradeUser call s username plan) (book.apply cfg call) := by
  obtain ⟨db, hdb, -⟩ := h.table
  have hrefused (e : String) (hset : db.setPlan call username plan = .error e)
      (hbook : book.apply cfg call = (book, false)) :
      Follows cfg (AdminState.upgradeUser call s username plan) (book.apply cfg call) := by
    simp only [AdminState.upgradeUser, hdb, hset, hbook]
    exact ⟨h, rfl⟩
  rcases h.found hdb username with ⟨hold, hmember⟩ | ⟨row, m, hold, hmember, hrow⟩
  · have hbook : book.apply cfg call = (book, false) := by simp only [Book.apply, hrequest, hmember]
    by_cases hplan : plan ≠ "free" ∧ plan ≠ "pro"
    · exact hrefused _ (if_pos hplan) hbook
    · cases hfails : call.dbError with
      | some e => exact hrefused _ (by rw [UserDb.setPlan, if_neg hplan, hfails]) hbook
      | none => exact hrefused _ (by rw [UserDb.setPlan, if_neg hplan, hfails, hold]) hbook
  · have happly : book.apply cfg call =
        if (plan = "free" ∨ plan = "pro") ∧ call.dbError = none then
          (Function.update book username (some { m with pro := plan = "pro" }), true)
        else (book, false) := by
      simp only [Book.apply, hrequest, hmember, htoken, true_and]
    by_cases hplan : plan = "free" ∨ plan = "pro"
    · have hknown : ¬ (plan ≠ "free" ∧ plan ≠ "pro") := by tauto
      cases hfails : call.dbError with
      | some e =>
        exact hrefused _ (by rw [UserDb.setPlan, if_neg hknown, hfails])
          (by rw [happly, hfails, if_neg (by simp)])
      | none =>
        have hset : db.setPlan call username plan =
            .ok (plan, Function.update db username (some { row with plan })) := by
          rw [UserDb.setPlan, if_neg hknown, hfails, hold]
        have hrow' : Member.Row cfg { row with plan } { m with pro := plan = "pro" } :=
          ⟨hrow.password, by rcases hplan with rfl | rfl <;> rfl⟩
        rw [happly, if_pos ⟨hplan, hfails⟩]
        simp only [AdminState.upgradeUser, hdb, hset]
        exact ⟨h.write hdb hrow' (h.tenant username (by simp [hmember])), rfl⟩
    · exact hrefused _ (if_pos (by tauto)) (by rw [happly, if_neg fun hall => hplan hall.1])

/-- Every call does to the table what it does to the book. -/
theorem handle_follows (hhash : HashVerifies cfg) (h : book.Kept cfg s) (call : ApiCall) :
    Follows cfg (AdminState.handle cfg call s) (book.apply cfg call) := by
  cases hrequest : call.request with
  | registerUser username password =>
    simp only [AdminState.handle, hrequest]
    exact registerUser_follows hhash h username password hrequest
  | loginUser username password =>
    simp only [AdminState.handle, hrequest]
    exact loginUser_follows h username password hrequest
  | upgradeUser username plan =>
    simp only [AdminState.handle, hrequest]
    split
    · rename_i htoken
      exact upgradeUser_follows h username plan hrequest htoken
    · rename_i htoken
      simp only [Book.apply, hrequest, htoken, Bool.false_eq_true, false_and, if_false]
      cases book username with
      | none => exact ⟨h, rfl⟩
      | some m => exact ⟨h, rfl⟩
  | guarded endpoint =>
    simp only [AdminState.handle, hrequest, Book.apply]
    split
    · exact ⟨h, rfl⟩
    · exact ⟨h, rfl⟩
  | addTenant domain pubkey =>
    simp only [AdminState.handle, hrequest, Book.apply]
    split
    · refine ⟨h.upsert domain pubkey, ?_⟩
      simp only [AdminState.addTenant, AdminState.persisted]
      split <;> rfl
    · exact ⟨h, rfl⟩
  | setTenantKey domain pubkey =>
    simp only [AdminState.handle, hrequest, Book.apply, AdminState.setTenantKey]
    split
    · exact ⟨h, rfl⟩
    · refine ⟨h.upsert domain pubkey, ?_⟩
      simp only [AdminState.persisted]
      split <;> rfl

-- ---------------------------------------------------------------------------
-- Runs
-- ---------------------------------------------------------------------------

theorem run_kept (hhash : HashVerifies cfg) (h : book.Kept cfg s) (calls : List ApiCall) :
    (run (Book.step cfg) book calls).Kept cfg (run (AdminState.step cfg) s calls) := by
  induction calls generalizing book s with
  | nil => exact h
  | cons call calls ih => exact ih (handle_follows hhash h call).1

theorem kept_empty (hdb : s.db = some fun _ => none) : Book.Kept cfg (fun _ => none) s :=
  ⟨⟨_, hdb, fun _ => .none⟩, fun _ hname => absurd rfl hname⟩

theorem Book.Kept.quotaFor (h : book.Kept cfg s) (globalQuota : Nat) (domain : String) :
    s.quotaFor globalQuota none domain =
      if (book domain).any Member.pro then proQuotaBytes else freeQuotaBytes := by
  obtain ⟨db, hdb, -⟩ := h.table
  simp only [AdminState.quotaFor, hdb, UserDb.plan]
  rcases h.found hdb domain with ⟨hold, hmember⟩ | ⟨row, m, hold, hmember, hrow⟩
  · rw [hold, hmember]
    rfl
  · rw [hold, hmember]
    by_cases hpro : m.pro = true
    · simp [quotaForPlan, hrow.plan, hpro]
    · simp [quotaForPlan, hrow.plan, hpro]

/-- Overwriting a member with its own password keeps all passwords. -/
theorem Book.update_password {book : Book} (h : (book name).map Member.password = some p)
    (hsame : ∀ old, book other = some old → m.password = old.password) :
    (Function.update book other (some m) name).map Member.password = some p := by
  by_cases hname : name = other
  · subst hname
    obtain ⟨old, hold, rfl⟩ := Option.map_eq_some_iff.mp h
    rw [Function.update_self, Option.map_some, hsame old hold]
  · rw [Function.update_of_ne hname]
    exact h

/-- A call keeps the members, with their passwords. -/
theorem Book.step_password (cfg : AdminConfig) (call : ApiCall)
    (h : (book name).map Member.password = some p) :
    (Book.step cfg book call name).map Member.password = some p := by
  unfold Book.step Book.apply
  cases call.request with
  | registerUser username password =>
    simp only
    split
    · rename_i hfresh
      refine update_password h fun old hold => ?_
      rw [hfresh.2.2] at hold
      cases hold
    · exact h
  | upgradeUser username plan =>
    simp only
    cases hmember : book username with
    | none => exact h
    | some m =>
      simp only
      split
      · refine update_password h fun old hold => ?_
        rw [hmember] at hold
        obtain rfl := Option.some.inj hold
        rfl
      · exact h
  | guarded endpoint | addTenant domain pubkey | loginUser username password
  | setTenantKey domain pubkey => exact h

theorem Book.run_password (cfg : AdminConfig) (calls : List ApiCall) (h : (book name).map Member.password = some p) :
    (run (Book.step cfg) book calls name).map Member.password = some p := by
  induction calls generalizing book with
  | nil => exact h
  | cons call calls ih => exact ih (step_password cfg call h)

/-- The call shows the password of a user: it registers the user with it or logs in. -/
def ApiCall.Shows (call : ApiCall) (name password : String) : Prop :=
  call.request = .loginUser name password ∨
    ∃ username, call.request = .registerUser username password ∧ trim username = name

theorem Book.apply_shows (hshows : call.Shows name password) (h : (book.apply cfg call).2 = true) :
    (Book.step cfg book call name).map Member.password = some password := by
  rcases hshows with hlogin | ⟨username, hregister, rfl⟩
  · simp only [Book.apply, hlogin, decide_eq_true_eq] at h
    simp only [Book.step, Book.apply, hlogin]
    exact h.2
  · simp only [Book.apply, hregister] at h
    simp only [Book.step, Book.apply, hregister]
    split at h
    · rename_i hfresh
      rw [if_pos hfresh]
      simp only [Function.update_self, Option.map_some]
    · cases h

end

/-- Hashes that show the password. -/
def plainConfig : AdminConfig :=
  { AdminState.tokenConfig with
    hashPassword := fun password => .ok ("$argon2id$" ++ password)
    verifyPassword := fun hash password => .ok (decide (hash = "$argon2id$" ++ password)) }

theorem plainConfig_verifies : HashVerifies plainConfig := by
  intro password hash hhash other
  obtain rfl := Except.ok.inj hhash
  refine congrArg Except.ok (decide_eq_decide.mpr ?_)
  rw [← String.toList_inj, String.toList_append, String.toList_append, List.append_cancel_left_eq,
    String.toList_inj, eq_comm]

end Nsmt.Server
