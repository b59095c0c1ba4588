import LeifDb.Transitions
import LeifDb.Reconcile

/-! What the operations of a node do to its log. Two of them write it:
`applyRecord` appends one entry, and `HandleAppend` passes a valid request
whose previous entry matches to `reconcileLogs`. On a log that agrees with the
request wherever both hold an entry of one term, `reconcileLogs` returns the
first `PrevLogIndex + 1` entries followed by the request's entries; whatever
the log held past them is dropped. Every write goes through `setLog`, so the
log file always holds the log. -/
namespace LeifDb

/-- At each position both lists cover, entries of one term are one entry. -/
def Agree (xs ys : List LogRecord) : Prop :=
  ∀ k (h1 : k < xs.length) (h2 : k < ys.length), xs[k].term = ys[k].term → xs[k] = ys[k]

/-- Up to the first conflict, agreeing lists are equal. -/
theorem Agree.take_eq {xs ys : List LogRecord} {k : Nat} (h : Agree xs ys) (hx : k ≤ xs.length)
    (hy : k ≤ ys.length) (hc : ∀ j < k, ¬Conflict xs ys j) : xs.take k = ys.take k := by
  refine List.ext_getElem (by simp only [List.length_take]; omega) fun j h1 h2 => ?_
  simp only [List.length_take] at h1
  rw [List.getElem_take, List.getElem_take]
  refine h j (by omega) (by omega) (Classical.not_not.mp fun hne => hc j (by omega) ?_)
  exact ⟨_, _, List.getElem?_eq_getElem (by omega), List.getElem?_eq_getElem (by omega), hne⟩

namespace Node

variable {n n' n1 : Node} {rq : AppendRequest}

/-- `reconcileLogs` keeps the first `P = PrevLogIndex + 1` entries and puts the
request's entries after them: its splice point lies in a stretch where the log
and the entries agree. -/
theorem reconcileLogs_eq {l : List LogRecord} {P : Nat} (hP : rq.prevLogIndex + 1 = P)
    (hl : P ≤ l.length) (hne : rq.entries ≠ []) (ha : Agree (l.drop P) rq.entries) :
    reconcileLogs l rq = some (l.take P ++ rq.entries) := by
  obtain ⟨k, hk, hkE, hno, hr⟩ := reconcileLogs_splice hP hl hne
  rw [hr, List.take_add, ha.take_eq (by rw [List.length_drop]; omega) hkE hno, List.append_assoc,
    List.take_append_drop]

theorem validateAppend_le {t : Int} {leaderId : String} (h : n.validateAppend t leaderId = some true) :
    n.term ≤ t := by
  unfold validateAppend at h
  split_ifs at h with h1 h2
  · cases h
  · omega
  · omega

/-- A matched previous entry is in the log, with the request's term. -/
theorem checkPrevious_eq_true {prev pt : Int} (h : n.checkPrevious prev pt = some true) :
    prev < 0 ∨ 0 ≤ prev ∧ ∃ e, n.log[prev.toNat]? = some e ∧ e.term = pt := by
  unfold checkPrevious at h
  split_ifs at h with h0
  · exact .inl h0
  · obtain ⟨e, he, hb⟩ := Option.map_eq_some'.mp h
    obtain ⟨h1, h2⟩ := entryAt_eq_some.mp he
    simp only [Bool.and_eq_true, beq_iff_eq] at hb
    exact .inr ⟨h1, e, h2, hb.2⟩

/-- The first half of `HandleAppend` keeps the term record and never makes a
Leader; it keeps the log, or writes the log `reconcileLogs` returns. -/
theorem appendPrefix_log {valid matched : Bool} (h : n.appendPrefix rq = some (n1, valid, matched)) :
    n1.term = n.term ∧ n1.termFile = n.termFile ∧ (n1.state = .leader → n.state = .leader) ∧
    n.validateAppend rq.term rq.leader.id = some valid ∧
    (n1.log = n.log ∧ n1.logFile = n.logFile ∨
      valid = true ∧ n.checkPrevious rq.prevLogIndex rq.prevLogTerm = some true ∧ rq.entries ≠ [] ∧
      ∃ logs, reconcileLogs n.log rq = some logs ∧ n1.log = logs ∧ n1.logFile = logs) := by
  obtain ⟨hv, hm, rfl | ⟨rfl, rfl, hne, logs, hl, rfl⟩⟩ := appendPrefix_spec h
  · refine ⟨?_, ?_, ?_, hv, .inl ⟨?_, ?_⟩⟩ <;> split <;> simp
  · exact ⟨rfl, rfl, by simp, hv, .inr ⟨rfl, hm, hne, logs, hl, rfl, rfl⟩⟩

/-- The rest of `HandleAppend` keeps the log, raises the term to a higher term
of a valid request, and never makes a Leader. -/
theorem handleAppend_log {reply : AppendReply} (h : n.handleAppend rq = some (n', reply)) :
    ∃ n1 valid matched, n.appendPrefix rq = some (n1, valid, matched) ∧
      n'.log = n1.log ∧ n'.logFile = n1.logFile ∧
      n'.term = (if valid = true ∧ n.term < rq.term then rq.term else n.term) ∧
      (n'.state = .leader → n.state = .leader) := by
  obtain ⟨n1, valid, matched, hp, n2, ha, rfl, -⟩ := handleAppend_spec h
  obtain ⟨ht, -, hs, -⟩ := appendPrefix_log hp
  have h2 : n2.log = n1.log ∧ n2.logFile = n1.logFile ∧ n2.term = n1.term ∧ n2.state = n1.state := by
    split at ha
    · obtain ⟨k, -, he, -⟩ := applyCommittedLogs_spec ha
      rw [he]
      exact ⟨rfl, rfl, rfl, rfl⟩
    · cases ha
      exact ⟨rfl, rfl, rfl, rfl⟩
  refine ⟨n1, valid, matched, hp, ?_⟩
  cases valid
  · simpa using ⟨h2.1, h2.2.1, h2.2.2.1.trans ht, fun h' => hs (h2.2.2.2 ▸ h')⟩
  · simp only [if_true, appendEpilogue, true_and, ← ht, ← h2.2.2.1]
    split <;> simp [h2.1, h2.2.1]

/-- `HandleVote` keeps the log, and keeps the node whole unless it moves the term. -/
theorem handleVote_log {req : VoteRequest} {reply : VoteReply} (hb : 0 ≤ n.term ∧ n.term < maxInt64)
    (h : n.handleVote req = some (n', reply)) :
    n'.log = n.log ∧ n'.logFile = n.logFile ∧ (n'.term = n.term → n' = n) := by
  rcases voteDecision_cases (handleVote_eq_some h).1 with ⟨-, rfl⟩ | ⟨-, -, -, rfl⟩ | ⟨-, hlt, -, rfl⟩
  · exact ⟨rfl, rfl, fun _ => rfl⟩
  · rw [wrap64_succ ⟨by omega, Int.le_of_lt hb.2⟩ hb.2]
    refine ⟨rfl, rfl, fun h' => ?_⟩
    simp only [setTerm_term] at h'
    omega
  · refine ⟨rfl, rfl, fun h' => ?_⟩
    simp only [setTerm_term] at h'
    omega

theorem concludeElection_log {e : Election} {won : Bool} (h : n.concludeElection e = some (n', won)) :
    n'.log = n.log ∧ n'.logFile = n.logFile := by
  rcases concludeElection_cases h with ⟨-, rfl⟩ | ⟨-, -, src, -, rfl⟩ | ⟨-, -, rfl⟩ <;> exact ⟨rfl, rfl⟩

theorem commitRecords_log (h : n.commitRecords = some n') :
    n'.log = n.log ∧ n'.logFile = n.logFile ∧ n'.term = n.term ∧ n'.state = n.state := by
  obtain ⟨db, -, rfl⟩ := Option.map_eq_some'.mp h
  exact ⟨rfl, rfl, rfl, rfl⟩

/-- The request `requestAppend` builds is cut from the log: `PrevLogIndex + 1`
entries, the last of term `PrevLogTerm`, then the entries sent. -/
theorem appendRequest_cut {t idx : Int} {f : ForeignNode} {req : AppendRequest}
    (h : n.appendRequest t f = some (req, idx)) : req.term = t ∧
    ∃ pre, pre ++ req.entries = n.log ∧ (pre.length : Int) = req.prevLogIndex + 1 ∧
      ∀ e ∈ pre.getLast?, e.term = req.prevLogTerm := by
  unfold appendRequest at h
  simp only [Option.bind_eq_bind, Option.bind_eq_some] at h
  obtain ⟨es, hs, h⟩ := h
  obtain ⟨h0, h1, -, rfl⟩ := slice_eq_some.mp hs
  have hcut : n.log.take (f.matchIndex + 1).toNat ++ (n.log.take n.log.length).drop (f.matchIndex + 1).toNat =
      n.log := by rw [List.take_length, List.take_append_drop]
  have hlen : ((n.log.take (f.matchIndex + 1).toNat).length : Int) = f.matchIndex + 1 := by
    simp only [List.length_take]; omega
  split at h
  · simp only [Option.bind_eq_some, Option.map_eq_some', Option.pure_def, Option.some.injEq,
      Prod.mk.injEq] at h
    obtain ⟨pt, ⟨e, he, rfl⟩, rfl, -⟩ := h
    obtain ⟨-, he⟩ := entryAt_eq_some.mp he
    refine ⟨rfl, _, hcut, hlen, fun x hx => ?_⟩
    have hl : (n.log.take (f.matchIndex + 1).toNat).length - 1 = f.matchIndex.toNat := by
      simp only [List.length_take]; omega
    rw [Option.mem_def, List.getLast?_eq_getElem?, List.getElem?_take, hl, if_pos (by omega), he,
      Option.some.injEq] at hx
    rw [← hx]
  · simp only [Option.pure_def, Option.some_bind, Option.some.injEq, Prod.mk.injEq] at h
    obtain ⟨rfl, -⟩ := h
    refine ⟨rfl, _, hcut, hlen, fun x hx => ?_⟩
    have : (f.matchIndex + 1).toNat = 0 := by omega
    simp [this] at hx

@[simp] theorem restart_log (n : Node) : n.restart.log = n.logFile := rfl
@[simp] theorem restart_logFile (n : Node) : n.restart.logFile = n.logFile := rfl
@[simp] theorem restart_state (n : Node) : n.restart.state = .follower := rfl
@[simp] theorem restart_termFile (n : Node) : n.restart.termFile = n.termFile := rfl

end Node

end LeifDb
