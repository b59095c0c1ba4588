import LeifDb.Handlers
import LeifDb.Ops
import LeifDb.Cluster
import Mathlib.Tactic.SplitIfs
import Mathlib.Tactic.Set

/-! The commit bookkeeping of a node: how `CommitIndex`, `lastApplied`, the
log and the store move under each operation. The store is always the committed
prefix of the log applied in order, even though `applyCommittedLogs` leaves
`lastApplied` behind and `commitRecords` then applies entries a second time:
applying a run of `SET`/`DEL` entries twice is applying it once.
`commitRecords`, like `SendAppend`, counts a majority as `len(otherNodes)/2 + 1`
members besides the node itself, which in a cluster of two is the Leader alone
(`leader_commits_without_ack`). -/
namespace LeifDb

namespace Database

/-- The value an entry leaves at its key. -/
def written (r : LogRecord) : Option String :=
  match r.action with
  | .set => some r.value
  | .del => none

@[simp] theorem apply_at (db : Database) (r : LogRecord) (k : String) :
    db.apply r k = if k = r.key then written r else db k := by
  cases h : r.action <;> simp [apply, set, delete, written, h]

theorem foldl_apply_of_not_mem {xs : List LogRecord} {k : String} (hk : k ∉ xs.map (·.key))
    (db : Database) : xs.foldl apply db k = db k := by
  induction xs generalizing db with
  | nil => rfl
  | cons r rs ih =>
    simp only [List.map_cons, List.mem_cons, not_or] at hk
    rw [List.foldl_cons, ih hk.2, apply_at, if_neg hk.1]

theorem foldl_apply_of_mem {xs : List LogRecord} {k : String} (hk : k ∈ xs.map (·.key))
    (d1 d2 : Database) : xs.foldl apply d1 k = xs.foldl apply d2 k := by
  induction xs generalizing d1 d2 with
  | nil => simp at hk
  | cons r rs ih =>
    simp only [List.foldl_cons]
    by_cases hr : k ∈ rs.map (·.key)
    · exact ih hr _ _
    · have hkr : k = r.key := by simpa [hr] using hk
      rw [foldl_apply_of_not_mem hr, foldl_apply_of_not_mem hr, apply_at, apply_at, if_pos hkr, if_pos hkr]

/-- Applying a run of entries a second time changes nothing: each entry sets
its key to a value that depends on the entry only. -/
theorem foldl_apply_idem (xs : List LogRecord) (db : Database) :
    xs.foldl apply (xs.foldl apply db) = xs.foldl apply db := by
  funext k
  by_cases hk : k ∈ xs.map (·.key)
  · exact foldl_apply_of_mem hk _ _
  · exact foldl_apply_of_not_mem hk _

end Database

namespace Node

variable {n n' n0 : Node}

theorem scanCommit_cases (ms : List Int) (maj : Nat) (ci : Int) (k : Nat) (last : Int) :
    scanCommit ms maj ci k last = ci ∨
      (last - k < scanCommit ms maj ci k last ∧ scanCommit ms maj ci k last ≤ last) := by
  induction k generalizing last with
  | zero => exact .inl rfl
  | succ k ih =>
    unfold scanCommit
    split
    · exact .inr ⟨by omega, Int.le_refl _⟩
    · rcases ih (last - 1) with h | h
      · exact .inl h
      · exact .inr ⟨by omega, by omega⟩

/-- `commitRecords` sets `CommitIndex` to itself or to an index of the log
above it, then applies the entries after `lastApplied` up to it. -/
theorem commitRecords_spec (h : n.commitRecords = some n') :
    (n'.commitIndex = n.commitIndex ∨ n.commitIndex < n'.commitIndex ∧ n'.commitIndex < n.log.length) ∧
      n' = { n with
        commitIndex := n'.commitIndex
        lastApplied := n.lastApplied + (n'.commitIndex - n.lastApplied).toNat
        store := n'.store } ∧
      applyEntries n.log n.store n.lastApplied (n'.commitIndex - n.lastApplied).toNat = some n'.store := by
  unfold commitRecords at h
  obtain ⟨db, hdb, rfl⟩ := Option.map_eq_some'.mp h
  refine ⟨?_, rfl, hdb⟩
  dsimp only
  rcases scanCommit_cases (n.otherNodes.map (·.2.matchIndex)) (n.otherNodes.length / 2 + 1)
    n.commitIndex ((n.log.length - 1 : Int) - n.commitIndex).toNat (n.log.length - 1) with h | h
  · exact .inl h
  · exact .inr ⟨by omega, by omega⟩

/-- The members `commitRecords` counts at index `i`: the node itself, and each
peer whose `MatchIndex` reaches `i`. -/
def replicas (matchIndexes : List Int) (i : Int) : Nat := 1 + (matchIndexes.filter (decide <| · ≥ i)).length

/-- The scan finds the highest index in `(last - k, last]` that `maj` members
hold, or returns `commitIndex` when there is none. -/
theorem scanCommit_eq (ms : List Int) (maj : Nat) (ci : Int) (k : Nat) (last : Int) :
    (scanCommit ms maj ci k last = ci ∧ ∀ i, last - k < i → i ≤ last → replicas ms i < maj) ∨
    (last - k < scanCommit ms maj ci k last ∧ scanCommit ms maj ci k last ≤ last ∧
      maj ≤ replicas ms (scanCommit ms maj ci k last) ∧
      ∀ i, scanCommit ms maj ci k last < i → i ≤ last → replicas ms i < maj) := by
  induction k generalizing last with
  | zero => exact .inl ⟨rfl, fun i h1 h2 => absurd h2 (by omega)⟩
  | succ k ih =>
    unfold scanCommit
    split
    next hl => exact .inr ⟨by omega, Int.le_refl _, hl, fun i h1 h2 => absurd h2 (by omega)⟩
    next hl =>
      -- `last` is short of a majority, so what holds up to `last - 1` holds up to `last`
      have hbelow {b : Int} (hb : ∀ i, b < i → i ≤ last - 1 → replicas ms i < maj) :
          ∀ i, b < i → i ≤ last → replicas ms i < maj := fun i hi1 hi2 =>
        (show i = last ∨ i ≤ last - 1 by omega).elim (· ▸ Nat.lt_of_not_le hl) (hb i hi1)
      rcases ih (last - 1) with ⟨he, hall⟩ | ⟨h1, h2, h3, h4⟩
      · exact .inl ⟨he, hbelow fun i hi1 => hall i (by omega)⟩
      · exact .inr ⟨by omega, by omega, h3, hbelow h4⟩

/-- `commitRecords`, exactly, on a node with `lastApplied ≥ -1` and
`CommitIndex < len(Log)`: it returns, with `CommitIndex` at the highest index of
the log above it that `len(otherNodes)/2 + 1` members hold by `MatchIndex`, the
node counted, or where it was when no index is; `lastApplied` catches up with
it, and the store has the entries in between applied in index order. -/
theorem commitRecords_eq_highest_replicated (h0 : -1 ≤ n.lastApplied) (h1 : n.commitIndex < n.log.length) :
    ∃ c, n.commitRecords = some { n with
        commitIndex := c
        lastApplied := max n.lastApplied c
        store := ((n.log.drop (n.lastApplied + 1).toNat).take (c - n.lastApplied).toNat).foldl
          Database.apply n.store } ∧
      ((c = n.commitIndex ∧ ∀ i, n.commitIndex < i → i < n.log.length →
          replicas (n.otherNodes.map (·.2.matchIndex)) i < n.otherNodes.length / 2 + 1) ∨
        (n.commitIndex < c ∧ c < n.log.length ∧
          n.otherNodes.length / 2 + 1 ≤ replicas (n.otherNodes.map (·.2.matchIndex)) c ∧
          ∀ i, c < i → i < n.log.length →
            replicas (n.otherNodes.map (·.2.matchIndex)) i < n.otherNodes.length / 2 + 1)) := by
  have hscan := scanCommit_eq (n.otherNodes.map (·.2.matchIndex)) (n.otherNodes.length / 2 + 1)
    n.commitIndex ((n.log.length - 1 : Int) - n.commitIndex).toNat (n.log.length - 1)
  set c := scanCommit (n.otherNodes.map (·.2.matchIndex)) (n.otherNodes.length / 2 + 1)
    n.commitIndex ((n.log.length - 1 : Int) - n.commitIndex).toNat (n.log.length - 1) with hc
  have hcL : c < n.log.length := by rcases hscan with ⟨he, -⟩ | ⟨-, h, -⟩ <;> omega
  refine ⟨c, ?_, ?_⟩
  · unfold commitRecords
    dsimp only
    rw [← hc, (applyEntries_eq_some.mpr ⟨by omega, rfl⟩ : applyEntries n.log n.store n.lastApplied _ = _),
      Option.map_some']
    congr 2
    omega
  · rcases hscan with ⟨he, hall⟩ | ⟨h2, h3, h4, h5⟩
    · exact .inl ⟨he, fun i hi1 hi2 => hall i (by omega) (by omega)⟩
    · exact .inr ⟨by omega, hcL, h4, fun i hi1 hi2 => h5 i hi1 (by omega)⟩

/-- A Leader with three entries and four peers, at `MatchIndex` 2, 1, 1 and -1. -/
def fourPeerLeader : Node :=
  { Node.load ⟨"a", "ca"⟩ [] ⟨1, some ⟨"a", "ca"⟩⟩
      [⟨1, .set, "k", "u"⟩, ⟨1, .set, "k", "v"⟩, ⟨1, .del, "k", ""⟩] Database.empty with
    state := .leader
    otherNodes := [("b", ⟨3, 2, true⟩), ("c", ⟨2, 1, true⟩), ("d", ⟨2, 1, true⟩), ("e", ⟨0, -1, true⟩)] }

/-- Three of five members hold index 1 and two hold index 2: `CommitIndex` goes to 1. -/
theorem commitRecords_eq_highest_replicated_on_four_peers :
    -1 ≤ fourPeerLeader.lastApplied ∧ fourPeerLeader.commitIndex < fourPeerLeader.log.length ∧
    ∃ c, fourPeerLeader.commitRecords = some { fourPeerLeader with
        commitIndex := c
        lastApplied := max fourPeerLeader.lastApplied c
        store := ((fourPeerLeader.log.drop (fourPeerLeader.lastApplied + 1).toNat).take
          (c - fourPeerLeader.lastApplied).toNat).foldl Database.apply fourPeerLeader.store } ∧
      ((c = fourPeerLeader.commitIndex ∧ ∀ i, fourPeerLeader.commitIndex < i → i < fourPeerLeader.log.length →
          replicas (fourPeerLeader.otherNodes.map (·.2.matchIndex)) i < fourPeerLeader.otherNodes.length / 2 + 1) ∨
        (fourPeerLeader.commitIndex < c ∧ c < fourPeerLeader.log.length ∧
          fourPeerLeader.otherNodes.length / 2 + 1 ≤ replicas (fourPeerLeader.otherNodes.map (·.2.matchIndex)) c ∧
          ∀ i, c < i → i < fourPeerLeader.log.length →
            replicas (fourPeerLeader.otherNodes.map (·.2.matchIndex)) i < fourPeerLeader.otherNodes.length / 2 + 1)) :=
  ⟨by decide, by decide, commitRecords_eq_highest_replicated (by decide) (by decide)⟩

/-- The parts of the node the apply loops read and write. -/
structure SameCommit (n n' : Node) : Prop where
  log : n'.log = n.log
  commitIndex : n'.commitIndex = n.commitIndex
  lastApplied : n'.lastApplied = n.lastApplied
  store : n'.store = n.store

theorem SameCommit.frame (hs : SameCommit n n') :
    n'.commitIndex = n.commitIndex ∧ n'.lastApplied = n.lastApplied ∧ n'.store = n.store ∧ n.log <+: n'.log :=
  ⟨hs.commitIndex, hs.lastApplied, hs.store, hs.log ▸ List.prefix_refl _⟩

theorem appendEpilogue_sameCommit (rq : AppendRequest) : SameCommit n (n.appendEpilogue rq) := by
  unfold appendEpilogue; split <;> exact ⟨rfl, rfl, rfl, rfl⟩

theorem voteDecision_sameCommit {req : VoteRequest} {vote : Bool} (h : n.voteDecision req = some (vote, n')) :
    SameCommit n n' := by
  rcases voteDecision_cases h with ⟨-, rfl⟩ | ⟨-, -, -, rfl⟩ | ⟨-, -, -, rfl⟩ <;> exact ⟨rfl, rfl, rfl, rfl⟩

theorem concludeElection_sameCommit {e : Election} {won : Bool} (h : n.concludeElection e = some (n', won)) :
    SameCommit n n' := by
  unfold concludeElection at h
  split_ifs at h
  · obtain ⟨src, -, he⟩ := Option.map_eq_some'.mp h
    simp only [Prod.mk.injEq] at he
    rw [← he.1]; exact ⟨rfl, rfl, rfl, rfl⟩
  all_goals
    simp only [Option.some.injEq, Prod.mk.injEq] at h
    obtain ⟨rfl, -⟩ := h
    exact ⟨rfl, rfl, rfl, rfl⟩

/-- `HandleAppend` applies `k` entries after `CommitIndex`, from the log it wrote. -/
theorem handleAppend_commit {rq : AppendRequest} {reply : AppendReply} (h : n.handleAppend rq = some (n', reply)) :
    n'.lastApplied = n.lastApplied ∧
      ∃ k : Nat, n'.commitIndex = n.commitIndex + k ∧ applyEntries n'.log n.store n.commitIndex k = some n'.store := by
  obtain ⟨n1, valid, matched, hp, n2, ha, rfl, -⟩ := handleAppend_spec h
  have h1 : n1.commitIndex = n.commitIndex ∧ n1.lastApplied = n.lastApplied ∧ n1.store = n.store := by
    rcases (appendPrefix_spec hp).2.2 with rfl | ⟨-, -, -, -, -, rfl⟩
    · split <;> exact ⟨rfl, rfl, rfl⟩
    · exact ⟨rfl, rfl, rfl⟩
  have h2 : n2.lastApplied = n1.lastApplied ∧ ∃ k : Nat, n2.commitIndex = n1.commitIndex + k ∧ n2.log = n1.log ∧
      applyEntries n1.log n1.store n1.commitIndex k = some n2.store := by
    split at ha
    · obtain ⟨k, hk, he, -⟩ := applyCommittedLogs_spec ha
      rw [he]; exact ⟨rfl, k, rfl, rfl, hk⟩
    · obtain rfl := Option.some.inj ha
      exact ⟨rfl, 0, by simp, rfl, rfl⟩
  obtain ⟨hla, k, hci, hlog, hk⟩ := h2
  have h3 : SameCommit n2 (if valid then n2.appendEpilogue rq else n2) := by
    split
    · exact appendEpilogue_sameCommit rq
    · exact ⟨rfl, rfl, rfl, rfl⟩
  refine ⟨by rw [h3.lastApplied, hla, h1.2.1], k, by rw [h3.commitIndex, hci, h1.1], ?_⟩
  rw [h3.log, h3.store, hlog, ← h1.2.2, ← h1.1]
  exact hk

/-- What an operation does to the log, the store and the two indices: at most
extend the log; run `HandleAppend`'s apply loop after `CommitIndex` on the log
it wrote; or run `commitRecords`. -/
theorem exec_commit_cases {op : Op} (h : n.exec op = some n') :
    (n'.commitIndex = n.commitIndex ∧ n'.lastApplied = n.lastApplied ∧ n'.store = n.store ∧ n.log <+: n'.log) ∨
    ((∃ req, op = .handleAppend req) ∧ n'.lastApplied = n.lastApplied ∧
      ∃ k : Nat, n'.commitIndex = n.commitIndex + k ∧ applyEntries n'.log n.store n.commitIndex k = some n'.store) ∨
    (op = .commitRecords ∧ n'.log = n.log ∧
      (n'.commitIndex = n.commitIndex ∨ n.commitIndex < n'.commitIndex ∧ n'.commitIndex < n.log.length) ∧
      n'.lastApplied = n.lastApplied + (n'.commitIndex - n.lastApplied).toNat ∧
      applyEntries n.log n.store n.lastApplied (n'.commitIndex - n.lastApplied).toNat = some n'.store) := by
  cases op with
  | handleVote req =>
    obtain ⟨⟨m, r⟩, hv, rfl⟩ := Option.map_eq_some'.mp h
    exact .inl (voteDecision_sameCommit (handleVote_eq_some hv).1).frame
  | handleAppend req =>
    obtain ⟨⟨m, r⟩, hv, rfl⟩ := Option.map_eq_some'.mp h
    exact .inr (.inl ⟨⟨req, rfl⟩, handleAppend_commit hv⟩)
  | concludeElection e =>
    obtain ⟨⟨m, w⟩, hv, rfl⟩ := Option.map_eq_some'.mp h
    exact .inl (concludeElection_sameCommit hv).frame
  | commitRecords =>
    obtain ⟨hc, he, hk⟩ := commitRecords_spec h
    refine .inr (.inr ⟨rfl, ?_, hc, ?_, hk⟩) <;> rw [he]
  | appendRecord record =>
    obtain rfl := Option.some.inj h
    exact .inl ⟨rfl, rfl, rfl, List.prefix_append _ _⟩
  | _ => obtain rfl := Option.some.inj h; exact .inl (SameCommit.frame ⟨rfl, rfl, rfl, rfl⟩)

/-- `-1 ≤ lastApplied ≤ CommitIndex < len(Log)`. -/
structure CommitBookkeeping (n : Node) : Prop where
  applied_ge : -1 ≤ n.lastApplied
  applied_le : n.lastApplied ≤ n.commitIndex
  commit_lt : n.commitIndex < n.log.length

/-- Every operation that does not panic keeps `CommitIndex` and `lastApplied`
from going back and keeps `-1 ≤ lastApplied ≤ CommitIndex`; it keeps
`CommitIndex < len(Log)` too, except a `HandleAppend` whose `reconcileLogs` cut
the log to at most `CommitIndex` entries. -/
theorem exec_commitBookkeeping {op : Op} (hb : n.CommitBookkeeping) (h : n.exec op = some n') :
    n.commitIndex ≤ n'.commitIndex ∧ n.lastApplied ≤ n'.lastApplied ∧
      (n'.CommitBookkeeping ∨
        (∃ req, op = .handleAppend req) ∧ n'.commitIndex = n.commitIndex ∧
          n'.log.length ≤ n'.commitIndex ∧ -1 ≤ n'.lastApplied ∧ n'.lastApplied ≤ n'.commitIndex) := by
  obtain ⟨hge, hle, hlt⟩ := hb
  rcases exec_commit_cases h with ⟨hc, ha, -, hp⟩ | ⟨hop, ha, k, hc, hk⟩ | ⟨-, hl, hc, ha, -⟩
  · have := hp.length_le
    exact ⟨by omega, by omega, .inl ⟨by omega, by omega, by omega⟩⟩
  · have hk' := (applyEntries_eq_some.mp hk).1
    refine ⟨by omega, by omega, ?_⟩
    by_cases hin : n'.commitIndex < n'.log.length
    · exact .inl ⟨by omega, by omega, hin⟩
    · exact .inr ⟨hop, by omega, by omega, by omega, by omega⟩
  · exact ⟨by omega, by omega, .inl ⟨by omega, by omega, by rw [hl]; omega⟩⟩

theorem exec_commitBookkeeping_on_s4 :
    let n : Node := (load ⟨"b", "cb"⟩ ["a"] ⟨7, some ⟨"a", "ca"⟩⟩ [] Database.empty).setLog
      [⟨7, .set, "k", "v"⟩]
    let n' : Node := { n with commitIndex := 0, store := Database.empty.apply ⟨7, .set, "k", "v"⟩ }
    n.commitIndex ≤ n'.commitIndex ∧ n.lastApplied ≤ n'.lastApplied ∧
      (n'.CommitBookkeeping ∨
        (∃ req, Op.handleAppend ⟨7, ⟨"a", "ca"⟩, 0, 7, 0, []⟩ = .handleAppend req) ∧
          n'.commitIndex = n.commitIndex ∧ n'.log.length ≤ n'.commitIndex ∧
          -1 ≤ n'.lastApplied ∧ n'.lastApplied ≤ n'.commitIndex) :=
  exec_commitBookkeeping ⟨by decide, by decide, by decide⟩ rfl

/-- Some operation breaks the bookkeeping: `reconcileLogs` cuts a log whose two
entries are both committed, at a conflicting term from a newer leader, and
leaves `CommitIndex` past the end of the log. So "every operation keeps the
bookkeeping, and `CommitIndex` and `lastApplied` never go back" is false. -/
theorem commitBookkeeping_not_preserved :
    ¬ ∀ (n n' : Node) (op : Op), n.CommitBookkeeping → n.exec op = some n' →
      n'.CommitBookkeeping ∧ n.commitIndex ≤ n'.commitIndex ∧ n.lastApplied ≤ n'.lastApplied := by
  intro h
  have key : ∀ (m : Node) (op : Op), m.CommitBookkeeping →
      ((m.exec op).map fun m' => decide (m'.commitIndex < m'.log.length)) ≠ some false := by
    intro m op hb he
    obtain ⟨m', hm', hd⟩ := Option.map_eq_some'.mp he
    exact absurd (h m m' op hb hm').1.commit_lt (by simpa using hd)
  exact key { load ⟨"b", "cb"⟩ ["a", "c"] ⟨1, some ⟨"a", "ca"⟩⟩
      [⟨1, .set, "x", "1"⟩, ⟨1, .set, "y", "2"⟩] Database.empty with commitIndex := 1, lastApplied := 1 }
    (.handleAppend ⟨2, ⟨"c", "cc"⟩, -1, 0, -1, [⟨2, .set, "x", "9"⟩]⟩)
    ⟨by decide, by decide, by decide⟩ (by decide)

/-- The runs of one node in which every step keeps `CommitIndex` inside the log
and leaves the entries up to `CommitIndex` as they were. -/
inductive PrefixStableRun : Node → Node → Prop
  | refl (n : Node) : PrefixStableRun n n
  | step {n0 n n' : Node} {op : Op} : PrefixStableRun n0 n → n.exec op = some n' →
      n'.commitIndex < n'.log.length →
      n'.log.take (n.commitIndex + 1).toNat = n.log.take (n.commitIndex + 1).toNat →
      PrefixStableRun n0 n'

/-- The store `db` after the entries up to `CommitIndex`, in index order. -/
def committedStore (db : Database) (n : Node) : Database :=
  (n.log.take (n.commitIndex + 1).toNat).foldl Database.apply db

private theorem take_split (l : List LogRecord) {a b : Nat} (h : a ≤ b) :
    l.take b = l.take a ++ (l.drop a).take (b - a) := by
  rw [← List.take_add, Nat.add_sub_cancel' h]

/-- `commitRecords` applies `lastApplied+1 .. CommitIndex'` to a store that
already reflects the log up to `CommitIndex`; the overlap is applied twice. -/
private theorem committedStore_commitRecords {s0 db : Database} {log : List LogRecord}
    {la c c' : Int} (hge : -1 ≤ la) (hle : la ≤ c) (hc : c ≤ c')
    (hs : db = (log.take (c + 1).toNat).foldl Database.apply s0) :
    ((log.drop (la + 1).toNat).take (c' - la).toNat).foldl Database.apply db =
      (log.take (c' + 1).toNat).foldl Database.apply s0 := by
  have h1 := take_split log (show (la + 1).toNat ≤ (c + 1).toNat by omega)
  have h2 := take_split (log.drop (la + 1).toNat) (show (c + 1).toNat - (la + 1).toNat ≤ (c' - la).toNat by omega)
  have h3 := take_split log (show (c + 1).toNat ≤ (c' + 1).toNat by omega)
  rw [List.drop_drop, Nat.add_sub_cancel' (by omega)] at h2
  rw [h2, hs, h1, List.foldl_append, List.foldl_append, Database.foldl_apply_idem, ← List.foldl_append,
    ← List.foldl_append, ← List.append_assoc, ← h1, h3,
    show (c' - la).toNat - ((c + 1).toNat - (la + 1).toNat) = (c' + 1).toNat - (c + 1).toNat by omega]

/-- Along every such run from a fresh node, the store is the store the node
started with, updated by the `SET`/`DEL` entries up to `CommitIndex`. -/
theorem store_eq_committedStore (h0 : n0.commitIndex = -1) (h1 : n0.lastApplied = -1)
    (hr : PrefixStableRun n0 n) : n.store = committedStore n0.store n := by
  suffices n.store = committedStore n0.store n ∧ -1 ≤ n.lastApplied ∧ n.lastApplied ≤ n.commitIndex from this.1
  induction hr with
  | refl => simp [committedStore, h0, h1]
  | @step m m' _ _ hx _ hpre ih =>
    obtain ⟨hs, hge, hle⟩ := ih
    unfold committedStore at hs ⊢
    rcases exec_commit_cases hx with ⟨hc, ha, hst, -⟩ | ⟨-, ha, k, hc, hk⟩ | ⟨-, hl, hc, ha, hk⟩
    · rw [hc, hpre, hst, ha]; exact ⟨hs, hge, hle⟩
    · obtain ⟨-, hst⟩ := applyEntries_eq_some.mp hk
      refine ⟨?_, by omega, by omega⟩
      rw [hst, hs, ← hpre, hc, show (m.commitIndex + (k : Int) + 1).toNat = (m.commitIndex + 1).toNat + k by omega, List.take_add,
        List.foldl_append]
    · obtain ⟨-, hst⟩ := applyEntries_eq_some.mp hk
      refine ⟨?_, by omega, by omega⟩
      rw [hst, hl]
      exact committedStore_commitRecords hge hle (by omega) hs

/-- Spec scenarios S3 and S4 as one run: an entry arrives, then its commit. -/
theorem store_eq_committedStore_after_s4 :
    Database.empty.apply ⟨7, .set, "k", "v"⟩ = committedStore Database.empty
      { (load ⟨"b", "cb"⟩ ["a"] ⟨7, some ⟨"a", "ca"⟩⟩ [] Database.empty).setLog [⟨7, .set, "k", "v"⟩] with
        commitIndex := 0, store := Database.empty.apply ⟨7, .set, "k", "v"⟩ } :=
  @store_eq_committedStore _ (load ⟨"b", "cb"⟩ ["a"] ⟨7, some ⟨"a", "ca"⟩⟩ [] Database.empty) rfl rfl
    (@PrefixStableRun.step _ _
      { (load ⟨"b", "cb"⟩ ["a"] ⟨7, some ⟨"a", "ca"⟩⟩ [] Database.empty).setLog [⟨7, .set, "k", "v"⟩] with
        commitIndex := 0, store := Database.empty.apply ⟨7, .set, "k", "v"⟩ }
      (.handleAppend ⟨7, ⟨"a", "ca"⟩, 0, 7, 0, []⟩)
      (@PrefixStableRun.step _ _
        ((load ⟨"b", "cb"⟩ ["a"] ⟨7, some ⟨"a", "ca"⟩⟩ [] Database.empty).setLog [⟨7, .set, "k", "v"⟩])
        (.handleAppend ⟨7, ⟨"a", "ca"⟩, -1, 0, -1, [⟨7, .set, "k", "v"⟩]⟩)
        (.refl _) (by rfl) (by decide) rfl) (by rfl) (by decide) rfl)

end Node

namespace Cluster

/-- In a cluster of two, process 0 wins term 1 with the vote of process 1 and
writes `k=v`; its call to process 1 fails. -/
def loneCommit : List Event :=
  [.timeout 0, .deliver 0, .deliver 1, .conclude 0, .write 0 .set "k" "v", .lock 0 0, .sendAppend 0,
   .requestAppend 0 "b", .appendFailed 0 "b", .join 0]

/-- `SendAppend` counts one append of the one needed, commits and applies
`k=v` and returns nil, while process 1 has no entry. -/
theorem leader_commits_without_ack :
    ((init twoPeers).run loneCommit).map (fun c =>
        c.procs.map fun p => (p.node.commitIndex, p.node.log.length, p.write.map (·.phase))) =
      some [(0, 1, some (.returned none)), (-1, 0, none)] ∧
    ((init twoPeers).run loneCommit).map (·.applied) = some [(⟨"a", "ca"⟩, 0, ⟨1, .set, "k", "v"⟩)] := by
  decide

end Cluster

end LeifDb
