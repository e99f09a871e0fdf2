import Mathlib.Data.Char
import Mathlib.Data.List.AList
import Mathlib.Data.List.Lex
import Mathlib.Data.List.Sort
import IscsiS3.Calls

/-! The object service: a bucket maps keys to bodies, and a request gets, puts, deletes or lists. A
listing is one request, whatever the number of its pages. -/

namespace IscsiS3.S3

open Request

abbrev Key : Type := Str

/-- What the client library reports instead of a result: the service's `NoSuchKey`, another failure
with its text, a body that breaks off, or no answer in time. -/
inductive S3Error where
  | noSuchKey
  | failed (msg : String)
  | body (msg : String)
  | timeout
  deriving DecidableEq, Repr

def S3Error.toStore : S3Error → StoreError
  | .noSuchKey => .s3 "service error"
  | .failed msg => .s3 msg
  | .body msg => .s3 msg
  | .timeout => .s3 "timed out waiting for S3 operation"

/-- The requests; `ifMatch` of a put is the etag that the object must have. -/
inductive Req where
  | get (key : Key)
  | put (key : Key) (body : Bytes) (ifMatch : Option Str)
  | delete (key : Key)
  | list (front : Key)
  deriving DecidableEq, Repr

abbrev Reply : Req → Type
  | .get _ => Except S3Error (Bytes × Option Str)
  | .put _ _ _ => Except S3Error Unit
  | .delete _ => Except S3Error Unit
  | .list _ => Except S3Error (List Key)

abbrev Bucket : Type := AList fun _ : Key => Bytes

/-- The keys with a common front, in the order in which the service lists them. -/
def Bucket.listed (b : Bucket) (front : Key) : List Key :=
  (b.keys.filter fun k => front.isPrefixOf k).insertionSort (· ≤ ·)

theorem Bucket.mem_listed {b : Bucket} {front k : Key} :
    k ∈ b.listed front ↔ k ∈ b ∧ front <+: k := by
  simp [Bucket.listed, List.mem_insertionSort, AList.mem_keys]

/-- Whether a put with this condition goes through. -/
def Bucket.matches (etag : Bytes → Str) (b : Bucket) (key : Key) : Option Str → Bool
  | none => true
  | some e => match b.lookup key with
    | none => false
    | some body => etag body = e

/-- The service at its best: every request is answered and none fails, except a put whose condition
does not hold; the client library has no other text for it. The etag of an object is a function of
its body. -/
def answer (etag : Bytes → Str) : (r : Req) → Bucket → Reply r × Bucket
  | .get key, b => match b.lookup key with
    | none => (.error .noSuchKey, b)
    | some body => (.ok (body, some (etag body)), b)
  | .put key body ifMatch, b =>
    if b.matches etag key ifMatch then (.ok (), b.insert key body)
    else (.error (.failed "service error"), b)
  | .delete key, b => (.ok (), b.erase key)
  | .list front, b => (.ok (b.listed front), b)

/-- A request that can change the bucket: it succeeds, or it fails, with or without its effect. -/
def Changes {α : Type} (ok : α) (effect : Bucket) (b : Bucket) (x : Except S3Error α)
    (b' : Bucket) : Prop :=
  (x = .ok ok ∧ b' = effect) ∨ ∃ e, x = .error e ∧ (b' = b ∨ b' = effect)

/-- The service when puts and deletes can fail; gets and lists succeed. -/
def Unreliable : Env Req Reply Bucket
  | .get key, b, x, b' => b' = b ∧ match b.lookup key with
    | none => x = .error .noSuchKey
    | some body => ∃ etag, x = .ok (body, etag)
  | .put key body _, b, x, b' => Changes () (b.insert key body) b x b'
  | .delete key, b, x, b' => Changes () (b.erase key) b x b'
  | .list front, b, x, b' => b' = b ∧ ∃ keys, x = .ok keys ∧ ∀ k, k ∈ keys ↔ k ∈ b ∧ front <+: k

theorem unreliable_answer (etag : Bytes → Str) (r : Req) (b : Bucket) :
    Unreliable r b (answer etag r b).1 (answer etag r b).2 := by
  cases r with
  | get key =>
    simp only [Unreliable, answer]
    cases b.lookup key with
    | none => exact ⟨rfl, rfl⟩
    | some body => exact ⟨rfl, _, rfl⟩
  | put key body ifMatch =>
    simp only [Unreliable, answer]
    split
    · exact .inl ⟨rfl, rfl⟩
    · exact .inr ⟨_, rfl, .inl rfl⟩
  | delete key => exact .inl ⟨rfl, rfl⟩
  | list front => exact ⟨rfl, _, rfl, fun k => Bucket.mem_listed⟩

theorem runs_answer {α : Type} (etag : Bytes → Str) (p : Prog Req Reply α) (b : Bucket) :
    p.Runs Unreliable b (p.run (answer etag) b).1 (p.run (answer etag) b).2 :=
  Prog.runs_run (unreliable_answer etag) p b

end IscsiS3.S3
