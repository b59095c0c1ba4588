import LeifDb.Handlers
import LeifDb.Ops

/-! The term record only moves forward. Every operation leaves `Term`,
`votedFor` and the term file as they were, or raises `Term` and writes the
new record at once. The two increments `Term+1` need `Term < maxInt64` for
this: at the largest `int64` they wrap to the least one. -/
namespace LeifDb
namespace Node

variable {n n' n1 n2 : Node} {t : Int} {v : Option Peer}

/-- The term record in memory is the one on disk. -/
def Persisted (n : Node) : Prop := n.termFile = ⟨n.term, n.votedFor⟩

/-- An operation either keeps the term record or moves to a higher term and writes it. -/
def TermAdvance (n n' : Node) : Prop :=
  (n'.term = n.term ∧ n'.votedFor = n.votedFor ∧ n'.termFile = n.termFile) ∨
  (n.term < n'.term ∧ n'.Persisted)

theorem TermAdvance.rfl' (h1 : n'.term = n.term) (h2 : n'.votedFor = n.votedFor)
    (h3 : n'.termFile = n.termFile) : TermAdvance n n' := .inl ⟨h1, h2, h3⟩

theorem termAdvance_setTerm (h : n.term < t) : TermAdvance n (n.setTerm t v) := .inr ⟨h, rfl⟩

theorem TermAdvance.term_le (h : TermAdvance n n') : n.term ≤ n'.term := by
  rcases h with ⟨h, -⟩ | ⟨h, -⟩ <;> omega

theorem TermAdvance.persisted (h : TermAdvance n n') (hp : n.Persisted) : n'.Persisted := by
  rcases h with ⟨h1, h2, h3⟩ | ⟨-, h⟩
  · rw [Persisted, h1, h2, h3]; exact hp
  · exact h

/-- A step that keeps the record, then one that advances it. -/
theorem TermAdvance.of_same (h1 : n1.term = n.term) (h2 : n1.votedFor = n.votedFor)
    (h3 : n1.termFile = n.termFile) (h : TermAdvance n1 n') : TermAdvance n n' := by
  rcases h with ⟨h4, h5, h6⟩ | ⟨h4, h5⟩
  · exact .inl ⟨h4.trans h1, h5.trans h2, h6.trans h3⟩
  · exact .inr ⟨h1 ▸ h4, h5⟩

theorem startElection_termAdvance (hi : IsInt64 n.term) (hm : n.term < maxInt64) :
    TermAdvance n n.startElection :=
  termAdvance_setTerm (by rw [wrap64_succ hi hm]; omega)

theorem voteDecision_termAdvance {req : VoteRequest} {vote : Bool} (hi : IsInt64 n.term)
    (hm : n.term < maxInt64) (h : n.voteDecision req = some (vote, n')) : TermAdvance n n' := by
  rcases voteDecision_cases h with ⟨-, rfl⟩ | ⟨-, -, -, rfl⟩ | ⟨-, hlt, -, rfl⟩
  · exact .rfl' rfl rfl rfl
  · exact startElection_termAdvance hi hm
  · exact termAdvance_setTerm hlt

theorem appendPrefix_same {rq : AppendRequest} {valid matched : Bool}
    (h : n.appendPrefix rq = some (n1, valid, matched)) :
    n1.term = n.term ∧ n1.votedFor = n.votedFor ∧ n1.termFile = n.termFile := by
  rcases (appendPrefix_spec h).2.2 with rfl | ⟨-, -, -, -, -, rfl⟩
  · split <;> simp
  · simp

theorem applyCommittedLogs_same {c : Int} (h : n.applyCommittedLogs c = some n2) :
    n2.term = n.term ∧ n2.votedFor = n.votedFor ∧ n2.termFile = n.termFile := by
  obtain ⟨k, -, he, -⟩ := applyCommittedLogs_spec h
  rw [he]; simp

theorem appendEpilogue_termAdvance (rq : AppendRequest) : TermAdvance n (n.appendEpilogue rq) := by
  unfold appendEpilogue
  split
  next h => exact termAdvance_setTerm h
  next => exact .rfl' rfl rfl rfl

theorem handleAppend_termAdvance {rq : AppendRequest} {reply : AppendReply}
    (h : n.handleAppend rq = some (n', reply)) : TermAdvance n n' := by
  obtain ⟨n1, valid, matched, hp, n2, ha, rfl, -⟩ := handleAppend_spec h
  obtain ⟨h1, h2, h3⟩ := appendPrefix_same hp
  have hs : n2.term = n1.term ∧ n2.votedFor = n1.votedFor ∧ n2.termFile = n1.termFile := by
    split at ha
    · exact applyCommittedLogs_same ha
    · obtain rfl := Option.some.inj ha; exact ⟨rfl, rfl, rfl⟩
  refine .of_same (hs.1.trans h1) (hs.2.1.trans h2) (hs.2.2.trans h3) ?_
  split
  · exact appendEpilogue_termAdvance rq
  · exact .rfl' rfl rfl rfl

theorem concludeElection_termAdvance {e : Election} {won : Bool}
    (h : n.concludeElection e = some (n', won)) : TermAdvance n n' := by
  unfold concludeElection at h
  split_ifs at h with h1 h2
  · obtain ⟨src, -, he⟩ := Option.map_eq_some'.mp h
    simp only [Prod.mk.injEq] at he
    rw [← he.1]
    exact termAdvance_setTerm h2
  all_goals
    simp only [Option.some.injEq, Prod.mk.injEq] at h
    obtain ⟨rfl, -⟩ := h
  · exact .rfl' rfl rfl rfl
  · exact .rfl' rfl rfl rfl

theorem commitRecords_same (h : n.commitRecords = some n') :
    n'.term = n.term ∧ n'.votedFor = n.votedFor ∧ n'.termFile = n.termFile := by
  obtain ⟨db, -, rfl⟩ := Option.map_eq_some'.mp h
  exact ⟨rfl, rfl, rfl⟩

/-- Every operation of a node whose `Term` is below the largest `int64`. -/
theorem exec_termAdvance {op : Op} (hi : IsInt64 n.term) (hm : n.term < maxInt64)
    (h : n.exec op = some n') : TermAdvance n n' := by
  cases op with
  | handleVote req =>
    obtain ⟨⟨m, r⟩, hv, rfl⟩ := Option.map_eq_some'.mp h
    exact voteDecision_termAdvance hi hm (handleVote_eq_some hv).1
  | handleAppend req =>
    obtain ⟨⟨m, r⟩, hv, rfl⟩ := Option.map_eq_some'.mp h
    exact handleAppend_termAdvance hv
  | concludeElection e =>
    obtain ⟨⟨m, w⟩, hv, rfl⟩ := Option.map_eq_some'.mp h
    exact concludeElection_termAdvance hv
  | commitRecords =>
    obtain ⟨h1, h2, h3⟩ := commitRecords_same h
    exact .rfl' h1 h2 h3
  | startElection =>
    obtain rfl := Option.some.inj h
    exact startElection_termAdvance hi hm
  | _ => obtain rfl := Option.some.inj h; exact .rfl' rfl rfl rfl

theorem restart_term (hp : n.Persisted) : n.restart.term = n.term := by
  unfold Persisted at hp
  simp [restart, hp]

/-- An append carrying the largest `int64` term is accepted, and the next
election started from there wraps `Term` around to the least `int64`. -/
theorem term_wraps_after_max_term_append (hc : -1 ≤ n.commitIndex) (ht : n.term < maxInt64)
    (leader : Peer) :
    ∃ n' reply, n.handleAppend ⟨maxInt64, leader, -1, 0, -1, []⟩ = some (n', reply) ∧
      n'.term = maxInt64 ∧ n'.startElection.term < n'.term := by
  refine ⟨(n.resetElectionTimer.setTerm maxInt64 (some leader)).resetElectionTimer, ⟨maxInt64, true⟩,
    ?_, rfl, ?_⟩
  · have h1 : ¬maxInt64 < n.term := by omega
    have h2 : maxInt64 ≠ n.term := by omega
    have h3 : ¬(-1 > n.commitIndex) := by omega
    simp [handleAppend, appendPrefix, validateAppend, checkPrevious, applyCommittedLogs,
      appendEpilogue, ht, h1, h2, h3]
  · simp only [startElection, setTerm_term, resetElectionTimer_term, wrap64_maxInt64_succ]
    decide

theorem term_wraps_after_max_term_append_on_fresh_node :
    ∃ n' reply, (load ⟨"a", "ca"⟩ ["b"] ⟨0, none⟩ [] Database.empty).handleAppend
        ⟨maxInt64, ⟨"b", "cb"⟩, -1, 0, -1, []⟩ = some (n', reply) ∧
      n'.term = maxInt64 ∧ n'.startElection.term < n'.term :=
  term_wraps_after_max_term_append (by decide) (by decide) _

end Node
end LeifDb
