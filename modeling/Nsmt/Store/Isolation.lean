import Nsmt.Core.Identity
import Nsmt.Store.ObjectStore

/-!
# Tenants on a shared bucket

Every tenant has a prefix of its own in front of one bucket. Keys are arbitrary
strings; slashes in front are trimmed by the store and doubled ones collapse in
the bucket. `prefixed_isolated` says that no tenant sees another one.
-/

namespace Nsmt.Store

open Nsmt.Lib Nsmt.Lib.Paths Nsmt.Core

variable {κ ι : Type} [DecidableEq κ]

/-- What an action does to the object under its key. -/
def cell : Action → Option Bytes → Answer × Option Bytes
  | .put bytes, _ => (.done (.ok ()), some bytes)
  | .get, object => (.bytes object, object)
  | .exists_, object => (.exists_ object.isSome, object)
  | .delete, _ => (.done (.ok ()), none)

/-- The action on the object at `path`. -/
def onCell (bucket : Bucket κ) (path : List κ) (action : Action) : Answer × Bucket κ :=
  ((cell action (bucket path)).1, Function.update bucket path (cell action (bucket path)).2)

section
variable (encode : Piece → κ) (domain : ι → UserDomain)

/-- The store of a tenant, as `from_env_tenant` makes it for S3. -/
def tenantStore (i : ι) : ObjectStore (Bucket κ) :=
  PrefixedObjectStore.new (bucketStore encode) (tenantPrefix (domain i).asStr)

def sharedRun (bucket : Bucket κ) (e : ι × Op) : Answer × Bucket κ :=
  (tenantStore encode domain e.1).run bucket e.2

/-- Where the objects of a tenant lie. -/
def tenantPath (i : ι) : List κ := (tenantSegments (domain i).asStr).map encode

end

/-- The part of a bucket below a path, as a bucket. -/
def below (path : List κ) (bucket : Bucket κ) : Bucket κ := fun rest => bucket (path ++ rest)

-- ---------------------------------------------------------------------------
-- Operations by the paths of their keys
-- ---------------------------------------------------------------------------

section
variable {encode : Piece → κ} {domain : ι → UserDomain}

theorem bucketStore_run (encode : Piece → κ) (bucket : Bucket κ) (op : Op) :
    (bucketStore encode).run bucket op = onCell bucket (objPath encode op.key) op.action := by
  cases haction : op.action with
  | _ => simp [ObjectStore.run, haction, bucketStore, onCell, cell]

omit [DecidableEq κ] in
theorem objPath_key (userDomain k : String) :
    objPath encode (PrefixedObjectStore.key (tenantPrefix userDomain) k) =
      (tenantSegments userDomain).map encode ++ objPath encode k := by
  rw [objPath, segments_key, List.map_append]
  rfl

theorem tenantStore_run (i : ι) (bucket : Bucket κ) (op : Op) :
    (tenantStore encode domain i).run bucket op =
      onCell bucket (tenantPath encode domain i ++ objPath encode op.key) op.action := by
  rw [tenantStore, PrefixedObjectStore.new_run, bucketStore_run, objPath_key]
  rfl

omit [DecidableEq κ] in
/-- A domain has no slash, so it is one segment. -/
theorem tenantSegments_eq (d : UserDomain) :
    tenantSegments d.asStr = ["t".toList, d.asStr.toList, "objects".toList] := by
  have hd : d.asStr ≠ "" := fun h => d.ne_empty (by rw [h]; rfl)
  have hsplit : tenantPrefix d.asStr = "t" ++ "/" ++ d.asStr ++ "/" ++ "objects" := by
    apply String.toList_inj.mp
    simp [tenantPrefix]
  rw [tenantSegments, hsplit, segments_slash, segments_slash, segments_name (by decide) (by decide),
    segments_name hd d.no_slash, segments_name (by decide) (by decide)]
  rfl

omit [DecidableEq κ] in
theorem tenantPath_disjoint (hencode : Function.Injective encode) (hdomain : Function.Injective domain)
    {i j : ι} {a b : List κ} (h : tenantPath encode domain i ++ a = tenantPath encode domain j ++ b) :
    i = j := by
  simp only [tenantPath, tenantSegments_eq, List.map_cons, List.map_nil, List.cons_append,
    List.cons.injEq, true_and] at h
  have hname := String.toList_inj.mp (hencode h.1)
  apply hdomain
  cases hi : domain i
  cases hj : domain j
  simpa [hi, hj] using hname

-- ---------------------------------------------------------------------------
-- One tenant beside the others
-- ---------------------------------------------------------------------------

/-- The private bucket has under `f path` what the shared one has of the tenant
at `path`. -/
def Mirrors (root : List κ) (f : List κ → List κ) (bucket priv : Bucket κ) : Prop :=
  ∀ path, bucket (root ++ path) = priv (f path)

theorem Mirrors.own (h : Mirrors root f bucket priv) (hf : Function.Injective f) (path : List κ)
    (action : Action) : (onCell bucket (root ++ path) action).1 = (onCell priv (f path) action).1 ∧
      Mirrors root f (onCell bucket (root ++ path) action).2 (onCell priv (f path) action).2 := by
  simp only [onCell, h path, true_and]
  intro q
  by_cases hq : q = path
  · subst hq
    simp
  · rw [Function.update_of_ne (by simpa using hq), Function.update_of_ne (hf.ne hq)]
    exact h q

theorem Mirrors.other (h : Mirrors root f bucket priv) {path : List κ}
    (hne : ∀ q, root ++ q ≠ path) (action : Action) :
    Mirrors root f (onCell bucket path action).2 priv := by
  intro q
  exact (Function.update_of_ne (hne q) ..).trans (h q)

/-- A tenant observes what a private bucket answers, whatever path that keeps
its objects under. -/
theorem observed_private [DecidableEq ι] (hencode : Function.Injective encode)
    (hdomain : Function.Injective domain) {i : ι} {f : List κ → List κ} (hf : Function.Injective f)
    {own : Bucket κ → Op → Answer × Bucket κ}
    (hown : ∀ priv op, own priv op = onCell priv (f (objPath encode op.key)) op.action)
    {bucket priv : Bucket κ} (h : Mirrors (tenantPath encode domain i) f bucket priv)
    (events : List (ι × Op)) :
    observed (sharedRun encode domain) (fun e => e.1 = i) bucket events =
      answers own priv ((events.filter fun e => e.1 = i).map Prod.snd) := by
  refine observed_eq (Mirrors (tenantPath encode domain i) f) Prod.snd ?_ ?_ h events
  · rintro bucket priv ⟨j, op⟩ h he
    obtain rfl : j = i := by simpa using he
    rw [sharedRun, tenantStore_run, hown]
    exact h.own hf _ _
  · rintro bucket priv ⟨j, op⟩ h he
    have hij : i ≠ j := fun hij => by simp [hij] at he
    rw [sharedRun, tenantStore_run]
    exact h.other (fun q hq => hij (tenantPath_disjoint hencode hdomain hq)) _

/-- Whatever the others do in between, a tenant observes what its store answers in
front of a bucket of its own, and what that bucket answers without a prefix. -/
theorem prefixed_isolated [DecidableEq ι] (hencode : Function.Injective encode)
    (hdomain : Function.Injective domain) (bucket : Bucket κ) (events : List (ι × Op)) (i : ι) :
    observed (sharedRun encode domain) (fun e => e.1 = i) bucket events =
        answers (tenantStore encode domain i).run bucket
          ((events.filter fun e => e.1 = i).map Prod.snd) ∧
      observed (sharedRun encode domain) (fun e => e.1 = i) bucket events =
        answers (bucketStore encode).run (below (tenantPath encode domain i) bucket)
          ((events.filter fun e => e.1 = i).map Prod.snd) := by
  constructor
  · exact observed_private hencode hdomain (List.append_right_injective _)
      (fun priv op => tenantStore_run i priv op) (fun path => rfl) events
  · exact observed_private hencode hdomain Function.injective_id
      (fun priv op => bucketStore_run encode priv op) (fun path => rfl) events

def twoDomains (first : Bool) : UserDomain :=
  if first then { asStr := "acme", valid := by decide } else { asStr := "beta", valid := by decide }

/-- `beta` looks for an object that `acme` has put. -/
theorem prefixed_isolated_two :
    observed (sharedRun id twoDomains) (fun e => e.1 = false) (fun _ => none)
        [(true, { key := "x", action := .put [1] }), (false, { key := "//x", action := .get })] =
      answers (tenantStore id twoDomains false).run (fun _ => none)
        [{ key := "//x", action := .get }] := by
  have hdomain : Function.Injective twoDomains := by
    intro i j h
    cases i <;> cases j <;> simp [twoDomains] at h ⊢
  exact (prefixed_isolated Function.injective_id hdomain (fun _ => none)
    [(true, { key := "x", action := .put [1] }), (false, { key := "//x", action := .get })] false).1

end

end Nsmt.Store
