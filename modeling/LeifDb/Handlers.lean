import LeifDb.Node
import Mathlib.Tactic.SplitIfs

/-! One lemma per handler function, saying everything it can do, so that later
proofs never unfold a handler. `HandleVote` panics on exactly one kind of
request, characterised in `handleVote_eq_none`. -/
namespace LeifDb
namespace Node

variable {n n' n1 n2 : Node}

section Vote

variable {req : VoteRequest} {vote : Bool}

theorem voteDecision_cases (h : n.voteDecision req = some (vote, n')) :
    (vote = false ∧ n' = n) ∨
    (vote = false ∧ req.term = n.term ∧ n.state = .leader ∧
      n' = n.setTerm (wrap64 (n.term + 1)) (some n.raftNode)) ∨
    (vote = true ∧ n.term < req.term ∧ checkForeignNode req.candidate.id n.otherNodes ∧
      n' = n.resetElectionTimer.setTerm req.term (some req.candidate)) := by
  unfold voteDecision at h
  rcases hc : n.candidateLogUpToDate req.lastLogIndex req.lastLogTerm with _ | u <;>
    simp only [hc, Option.map_none', Option.map_some'] at h <;>
    split_ifs at h <;> simp_all
  omega

theorem handleVote_eq_some {reply : VoteReply} (h : n.handleVote req = some (n', reply)) :
    n.voteDecision req = some (reply.voteGranted, n') ∧ reply = ⟨n'.term, reply.voteGranted, n'.raftNode⟩ := by
  obtain ⟨⟨v, m⟩, hd, he⟩ := Option.map_eq_some'.mp h
  simp only [Prod.mk.injEq] at he
  obtain ⟨rfl, rfl⟩ := he
  exact ⟨hd, rfl⟩

theorem candidateLogUpToDate_eq_none {i t : Int} (h0 : -1 ≤ n.commitIndex)
    (h1 : n.commitIndex < n.log.length) :
    n.candidateLogUpToDate i t = none ↔ i < 0 ∧ i < n.commitIndex := by
  unfold candidateLogUpToDate
  by_cases hg : i > n.commitIndex
  · simp [hg]; omega
  by_cases he : i = -1 ∧ n.commitIndex = -1
  · simp [he.1, he.2]
  have hlt : i < n.log.length := by omega
  by_cases hq : i = n.commitIndex
  · obtain ⟨e, he'⟩ := Option.ne_none_iff_exists'.mp
      (show entryAt n.log i ≠ none by rw [Ne, entryAt_eq_none]; omega)
    simp only [hq] at he' ⊢
    simp only [he', hlt, hq ▸ hlt]
    split <;> simp
  · have : ¬(i = -1 ∧ n.commitIndex = -1) := he
    simp [hg, hq, hlt, entryAt_eq_none, this]
    constructor <;> intro <;> omega

/-- On a state with `-1 ≤ CommitIndex < len(Log)`, the only panic is the
failure log reading `Log.Entries[LastLogIndex]` at a negative index. -/
theorem handleVote_eq_none (h0 : -1 ≤ n.commitIndex) (h1 : n.commitIndex < n.log.length) :
    n.handleVote req = none ↔ n.term < req.term ∧ checkForeignNode req.candidate.id n.otherNodes ∧
      req.lastLogIndex < 0 ∧ req.lastLogIndex < n.commitIndex := by
  simp only [handleVote, voteDecision, Option.map_eq_none']
  split_ifs <;> simp_all [candidateLogUpToDate_eq_none h0 h1]
  all_goals omega

/-- A candidate with an empty log sends `LastLogIndex = -1`; a voter that has
committed an entry panics on its request. -/
theorem handleVote_panics_on_empty_candidate_log (hc : 0 ≤ n.commitIndex)
    (hl : n.commitIndex < n.log.length) (ht : n.term < req.term)
    (hk : checkForeignNode req.candidate.id n.otherNodes) (he : req.lastLogIndex = -1) :
    n.handleVote req = none :=
  (handleVote_eq_none (by omega) hl).mpr ⟨ht, hk, by omega, by omega⟩

theorem handleVote_panics_on_empty_candidate_log_at_term_two :
    ({ Node.load ⟨"a", "ca"⟩ ["b"] ⟨1, none⟩ [⟨1, .set, "k", "v"⟩] Database.empty with
        commitIndex := 0 } : Node).handleVote ⟨2, ⟨"b", "cb"⟩, -1, 0⟩ = none :=
  handleVote_panics_on_empty_candidate_log (by decide) (by decide) (by decide) (by decide) rfl

end Vote

section Append

variable {rq : AppendRequest} {valid matched : Bool}

theorem applyEntries_eq_some {log : List LogRecord} {db db' : Database} {i : Int} {k : Nat} :
    applyEntries log db i k = some db' ↔
      (k = 0 ∨ (-1 ≤ i ∧ i + k < log.length)) ∧
        db' = ((log.drop (i + 1).toNat).take k).foldl Database.apply db := by
  induction k generalizing i db with
  | zero => simp [applyEntries, eq_comm]
  | succ k ih =>
    simp only [applyEntries, Option.bind_eq_bind]
    rcases he : entryAt log (i + 1) with _ | e
    · rw [entryAt_eq_none] at he
      simp only [Option.none_bind, reduceCtorEq, false_iff]
      rintro ⟨h, -⟩
      simp only [Nat.add_one_ne_zero, false_or] at h
      omega
    · obtain ⟨h0, hget⟩ := entryAt_eq_some.mp he
      obtain ⟨hlt, rfl⟩ := List.getElem?_eq_some_iff.mp hget
      rw [Option.some_bind, ih, List.drop_eq_getElem_cons hlt, List.take_succ_cons, List.foldl_cons,
        show (i + 1 + 1).toNat = (i + 1).toNat + 1 by omega]
      constructor <;> rintro ⟨h1, h2⟩ <;> refine ⟨?_, h2⟩ <;> omega

/-- `applyCommittedLogs` moves `CommitIndex` forward by `k`, to the clamped
target unless it stays, and changes nothing else but the store. -/
theorem applyCommittedLogs_spec {c : Int} (h : n.applyCommittedLogs c = some n2) :
    ∃ k : Nat, applyEntries n.log n.store n.commitIndex k = some n2.store ∧
      n2 = { n with commitIndex := n.commitIndex + k, store := n2.store } ∧
      (k = 0 ∨ n.commitIndex + k = min c n.log.length) := by
  unfold applyCommittedLogs at h
  by_cases hc : c > n.commitIndex
  · rw [if_pos hc] at h
    obtain ⟨db, hdb, rfl⟩ := Option.map_eq_some'.mp h
    refine ⟨_, hdb, rfl, ?_⟩
    split <;> omega
  · rw [if_neg hc] at h
    obtain rfl := Option.some.inj h
    exact ⟨0, rfl, by simp, .inl rfl⟩

theorem appendPrefix_spec (h : n.appendPrefix rq = some (n1, valid, matched)) :
    n.validateAppend rq.term rq.leader.id = some valid ∧
    n.checkPrevious rq.prevLogIndex rq.prevLogTerm = some matched ∧
    (n1 = (if valid then n.resetElectionTimer else n) ∨
      valid = true ∧ matched = true ∧ rq.entries ≠ [] ∧ ∃ logs, reconcileLogs n.log rq = some logs ∧
        n1 = n.resetElectionTimer.setLog logs) := by
  unfold appendPrefix at h
  obtain ⟨v, hv, h⟩ := Option.bind_eq_some.mp h
  obtain ⟨m, hm, h⟩ := Option.bind_eq_some.mp h
  have hcp : (if v then n.resetElectionTimer else n).checkPrevious = n.checkPrevious := by
    split <;> rfl
  rw [hcp] at hm
  by_cases hb : (v && m && !rq.entries.isEmpty) = true
  · rw [if_pos hb] at h
    simp only [Bool.and_eq_true, Bool.not_eq_true'] at hb
    obtain ⟨⟨rfl, rfl⟩, hne⟩ := hb
    obtain ⟨logs, hl, he⟩ := Option.map_eq_some'.mp h
    simp only [if_true, Prod.mk.injEq, resetElectionTimer_log] at he hl
    obtain ⟨rfl, rfl, rfl⟩ := he
    exact ⟨hv, hm, .inr ⟨rfl, rfl, fun h0 => by simp [h0] at hne, logs, hl, rfl⟩⟩
  · rw [if_neg hb] at h
    simp only [Option.some.injEq, Prod.mk.injEq] at h
    obtain ⟨rfl, rfl, rfl⟩ := h
    exact ⟨hv, hm, .inl rfl⟩

theorem handleAppend_spec {reply : AppendReply} (h : n.handleAppend rq = some (n', reply)) :
    ∃ n1 valid matched, n.appendPrefix rq = some (n1, valid, matched) ∧
      ∃ n2, (if valid && matched then n1.applyCommittedLogs rq.leaderCommit else some n1) = some n2 ∧
        n' = (if valid then n2.appendEpilogue rq else n2) ∧ reply = ⟨n'.term, valid && matched⟩ := by
  unfold handleAppend at h
  obtain ⟨⟨n1, v, m⟩, hp, h⟩ := Option.bind_eq_some.mp h
  obtain ⟨⟨n2, s⟩, ha, he⟩ := Option.map_eq_some'.mp h
  simp only [Prod.mk.injEq] at he
  obtain ⟨rfl, rfl⟩ := he
  refine ⟨n1, v, m, hp, n2, ?_, rfl, ?_⟩ <;> by_cases hb : (v && m) = true <;>
    simp only [hb, if_true, if_false, Bool.false_eq_true] at ha ⊢
  · obtain ⟨x, hx, hxe⟩ := Option.map_eq_some'.mp ha
    simp only [Prod.mk.injEq] at hxe
    rw [hx, hxe.1]
  · simp only [Option.some.injEq, Prod.mk.injEq] at ha
    rw [ha.1]
  · obtain ⟨x, hx, hxe⟩ := Option.map_eq_some'.mp ha
    simp only [Prod.mk.injEq] at hxe
    rw [hxe.2]
  · simp only [Option.some.injEq, Prod.mk.injEq] at ha
    rw [ha.2]

end Append

end Node
end LeifDb
