import Mathlib.Logic.Basic
import Mathlib.Tactic.Simps.Basic

/-! The wire records of `api/raft.proto` and the Go primitives the node relies
on. An `int64` is an `Int`; the only place where its wrap-around shows is the
term increment, so `wrap64` is applied there and nowhere else. Indexing and
slicing panic in Go; here they return `none`. -/
namespace LeifDb

/-- The largest `int64`. -/
def maxInt64 : Int := 9223372036854775807

/-- Two's-complement reduction to 64 bits: what Go's `int64` arithmetic stores. -/
def wrap64 (x : Int) : Int := (x + 9223372036854775808) % 18446744073709551616 - 9223372036854775808

theorem wrap64_of_le {x : Int} (lo : -9223372036854775808 ≤ x) (hi : x ≤ maxInt64) :
    wrap64 x = x := by
  unfold wrap64 maxInt64 at *
  rw [Int.emod_eq_of_lt (by omega) (by omega)]
  omega

/-- A value Go can store in an `int64`. -/
def IsInt64 (x : Int) : Prop := -9223372036854775808 ≤ x ∧ x ≤ maxInt64

theorem wrap64_succ {x : Int} (hx : IsInt64 x) (h : x < maxInt64) : wrap64 (x + 1) = x + 1 :=
  wrap64_of_le (by unfold IsInt64 at hx; omega) (by omega)

/-- The one increment that wraps: `maxInt64 + 1` is the least `int64`. -/
theorem wrap64_maxInt64_succ : wrap64 (maxInt64 + 1) = -9223372036854775808 := by decide

/-- `xs[i]`: a negative index or one past the end panics. -/
def entryAt (xs : List α) (i : Int) : Option α :=
  if i < 0 then none else xs[i.toNat]?

/-- `xs[lo:hi]` with `hi` at most the length: panics unless `0 ≤ lo ≤ hi`. -/
def slice (xs : List α) (lo hi : Int) : Option (List α) :=
  if 0 ≤ lo ∧ lo ≤ hi ∧ hi ≤ xs.length then some ((xs.take hi.toNat).drop lo.toNat) else none

theorem slice_eq_some {xs ys : List α} {lo hi : Int} :
    slice xs lo hi = some ys ↔ 0 ≤ lo ∧ lo ≤ hi ∧ hi ≤ xs.length ∧ ys = (xs.take hi.toNat).drop lo.toNat := by
  unfold slice
  split <;> simp_all [eq_comm]

theorem slice_eq_drop {xs : List α} {lo : Int} {k : Nat} (h : lo = k) (hk : k ≤ xs.length) :
    slice xs lo xs.length = some (xs.drop k) := by
  rw [slice_eq_some, List.take_of_length_le (by omega)]
  exact ⟨by omega, by omega, Int.le_refl _, by congr; omega⟩

theorem slice_zero_eq_take {xs : List α} {hi : Int} {k : Nat} (h : hi = k) (hk : k ≤ xs.length) :
    slice xs 0 hi = some (xs.take k) := by
  rw [slice_eq_some]
  exact ⟨Int.le_refl _, by omega, by omega, by simp only [Int.toNat_zero, List.drop_zero]; congr; omega⟩

theorem entryAt_eq_none {xs : List α} {i : Int} :
    entryAt xs i = none ↔ i < 0 ∨ xs.length ≤ i := by
  unfold entryAt
  split
  · simp only [true_iff]; omega
  · rw [List.getElem?_eq_none_iff]; omega

theorem entryAt_eq_some {xs : List α} {i : Int} {a : α} :
    entryAt xs i = some a ↔ 0 ≤ i ∧ xs[i.toNat]? = some a := by
  unfold entryAt
  split
  · simp only [reduceCtorEq, false_iff, not_and]; omega
  · simp only [iff_and_self]; omega

/-- A member of the cluster, `raft.Node`: the RPC endpoint `id` and the client address. -/
structure Peer where
  id : String
  clientAddr : String
deriving DecidableEq, Repr

inductive Action
  | set
  | del
deriving DecidableEq, Repr

structure LogRecord where
  term : Int
  action : Action
  key : String
  value : String
deriving DecidableEq, Repr

/-- A `VoteRequest` whose `candidate` is not nil. -/
structure VoteRequest where
  term : Int
  candidate : Peer
  lastLogIndex : Int
  lastLogTerm : Int
deriving DecidableEq, Repr

structure VoteReply where
  term : Int
  voteGranted : Bool
  node : Peer
deriving DecidableEq, Repr

/-- An `AppendRequest` whose `leader` is not nil. -/
structure AppendRequest where
  term : Int
  leader : Peer
  prevLogIndex : Int
  prevLogTerm : Int
  leaderCommit : Int
  entries : List LogRecord
deriving DecidableEq, Repr

structure AppendReply where
  term : Int
  success : Bool
deriving DecidableEq, Repr

/-- The content of the term file; a missing file reads as term 0 and no vote. -/
structure TermRecord where
  term : Int
  votedFor : Option Peer
deriving DecidableEq, Repr

inductive Role
  | leader
  | follower
deriving DecidableEq, Repr

/-- Modelled from the spec: the key-value store `db.Database`, whose source is
not in the repository. `Set` and `Delete` never fail. -/
def Database := String → Option String

def Database.empty : Database := fun _ => none

def Database.set (db : Database) (key value : String) : Database :=
  fun k => if k = key then some value else db k

def Database.delete (db : Database) (key : String) : Database :=
  fun k => if k = key then none else db k

/-- The store update of one log entry, as both apply loops perform it. -/
def Database.apply (db : Database) (r : LogRecord) : Database :=
  match r.action with
  | .set => db.set r.key r.value
  | .del => db.delete r.key

end LeifDb
