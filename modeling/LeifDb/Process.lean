import LeifDb.Logs
import LeifDb.Append

/-! What one step does to one process: its node moves by one operation, or the
process crashes and runs again from its files (`NodeStep`, `step_node`).

Two facts about every run follow. Each operation writes the term record and
the log to their files as it changes them, and a restart reads both back, so
the files always hold what is in memory and a crash loses no term, vote or log
entry (`restart_keeps_term_vote_log`). And no operation after which the node is
Leader removes an entry: the one operation that cuts a log, a valid
`HandleAppend`, leaves a Follower, so a Leader's log only grows
(`leader_log_only_grows`). Log matching does not follow: `Set` reads `Term`
before it takes the node lock, so a call that waits through a step-down and a
new election appends an entry of a term the node has left, at an index where
another process holds a different entry of that term
(`stale_write_breaks_log_matching`). -/
namespace LeifDb

namespace Node

variable {n n' : Node}

/-- How a step may move the node of a process: not at all, by one operation,
or by a restart from the files of a node with its term file, which a
`HandleAppend` that panics after `setLog` leaves with a new log file. -/
def NodeStep (n n' : Node) : Prop :=
  n' = n ∨ (∃ op, n.exec op = some n') ∨ ∃ m : Node, m.termFile = n.termFile ∧ n' = m.restart

/-- The term file holds the term record, and the log file the log. -/
def Durable (n : Node) : Prop := n.Persisted ∧ n.logFile = n.log

theorem restart_durable (m : Node) : m.restart.Durable := ⟨rfl, rfl⟩

theorem exec_durable {op : Op} (hd : n.Durable) (h : n.exec op = some n') : n'.Durable := by
  cases op with
  | handleVote req =>
    obtain ⟨⟨m, r⟩, hv, rfl⟩ := Option.map_eq_some'.mp h
    rcases voteDecision_cases (handleVote_eq_some hv).1 with ⟨-, rfl⟩ | ⟨-, -, -, rfl⟩ | ⟨-, -, -, rfl⟩
    · exact hd
    · exact ⟨rfl, hd.2⟩
    · exact ⟨rfl, hd.2⟩
  | handleAppend req =>
    obtain ⟨⟨m, r⟩, hv, rfl⟩ := Option.map_eq_some'.mp h
    obtain ⟨n1, valid, matched, hp, hl, hlf, -, -⟩ := handleAppend_log hv
    refine ⟨(handleAppend_termAdvance hv).persisted hd.1, ?_⟩
    rw [hl, hlf]
    rcases (appendPrefix_log hp).2.2.2.2 with ⟨h1, h2⟩ | ⟨-, -, -, logs, -, h1, h2⟩
    · rw [h1, h2]; exact hd.2
    · rw [h1, h2]
  | concludeElection e =>
    obtain ⟨⟨m, w⟩, hv, rfl⟩ := Option.map_eq_some'.mp h
    obtain ⟨h1, h2⟩ := concludeElection_log hv
    exact ⟨(concludeElection_termAdvance hv).persisted hd.1, by rw [h1, h2]; exact hd.2⟩
  | commitRecords =>
    obtain ⟨db, -, rfl⟩ := Option.map_eq_some'.mp h
    exact hd
  | startElection => obtain rfl := Option.some.inj h; exact ⟨rfl, hd.2⟩
  | appendRecord r => obtain rfl := Option.some.inj h; exact ⟨hd.1, rfl⟩
  | _ => obtain rfl := Option.some.inj h; exact hd

theorem NodeStep.durable (h : NodeStep n n') (hd : n.Durable) : n'.Durable := by
  rcases h with rfl | ⟨op, h⟩ | ⟨m, -, rfl⟩
  · exact hd
  · exact exec_durable hd h
  · exact restart_durable m

/-- An operation after which the node is Leader keeps its log as a prefix of the new one. -/
theorem exec_log_prefix {op : Op} (h : n.exec op = some n') (hl : n'.state = .leader) : n.log <+: n'.log := by
  cases op with
  | handleVote req =>
    obtain ⟨⟨m, r⟩, hv, rfl⟩ := Option.map_eq_some'.mp h
    rcases voteDecision_cases (handleVote_eq_some hv).1 with ⟨-, rfl⟩ | ⟨-, -, -, rfl⟩ | ⟨-, -, -, rfl⟩ <;>
      exact List.prefix_refl _
  | handleAppend req =>
    obtain ⟨⟨m, r⟩, hv, rfl⟩ := Option.map_eq_some'.mp h
    obtain ⟨n1, valid, matched, hp, n2, ha, rfl, -⟩ := handleAppend_spec hv
    cases valid
    · -- a rejected request writes no log
      obtain rfl : n2 = n1 := by simpa using ha.symm
      rcases (appendPrefix_log hp).2.2.2.2 with ⟨h1, -⟩ | ⟨h1, -⟩
      · simp only [Bool.false_eq_true, if_false, h1, List.prefix_refl]
      · cases h1
    · -- an accepted one leaves a Follower
      simp only [if_true, appendEpilogue_state, reduceCtorEq] at hl
  | concludeElection e =>
    obtain ⟨⟨m, w⟩, hv, rfl⟩ := Option.map_eq_some'.mp h
    simp only [(concludeElection_log hv).1, List.prefix_refl]
  | commitRecords => simp only [(commitRecords_log h).1, List.prefix_refl]
  | appendRecord r => obtain rfl := Option.some.inj h; exact List.prefix_append _ _
  | _ => obtain rfl := Option.some.inj h; exact List.prefix_refl _

theorem NodeStep.log_prefix (h : NodeStep n n') (hl : n'.state = .leader) : n.log <+: n'.log := by
  rcases h with rfl | ⟨op, h⟩ | ⟨m, -, rfl⟩
  · exact List.prefix_refl _
  · exact exec_log_prefix h hl
  · cases hl

end Node

namespace Cluster

open Node

variable {c c' : Cluster}

theorem nodeStep_set {l : List Proc} {i j : Nat} {p q p' : Proc} (hp : l[i]? = some p)
    (hj : (l.set i q)[j]? = some p') (hs : NodeStep p.node q.node) :
    ∃ p, l[j]? = some p ∧ NodeStep p.node p'.node := by
  by_cases hij : i = j
  · subst hij
    rw [List.getElem?_set_self (List.getElem?_eq_some_iff.mp hp).1, Option.some.injEq] at hj
    subst hj
    exact ⟨p, hp, hs⟩
  · rw [List.getElem?_set_ne hij] at hj
    exact ⟨p', hj, .inl rfl⟩

/-- What one step does to the node of any process. -/
theorem step_node {e : Event} (h : c.step e = some c') {j : Nat} {p' : Proc} (hj : c'.procs[j]? = some p') :
    ∃ p, c.procs[j]? = some p ∧ NodeStep p.node p'.node := by
  cases e with
  | timeout i =>
    obtain ⟨p, hp, -, rfl⟩ := timeout_eq_some h
    exact nodeStep_set hp hj (.inr (.inl ⟨.startElection, rfl⟩))
  | deliver k =>
    obtain ⟨m, -, h⟩ := deliver_eq_some h
    cases m with
    | voteRequest rpc src dst req =>
      obtain ⟨p, hp, ⟨n, r, hv, rfl⟩ | ⟨-, rfl⟩⟩ := handleVoteAt_eq_some h
      · exact nodeStep_set hp hj (.inr (.inl ⟨.handleVote req, by simp only [exec, hv, Option.map_some']⟩))
      · exact nodeStep_set hp hj (.inr (.inr ⟨_, rfl, rfl⟩))
    | voteReply rpc src dst req reply =>
      obtain ⟨p, e, host, hp, -, -, rfl⟩ := voteReplyAt_eq_some h
      exact nodeStep_set hp hj (.inr (.inl ⟨.voteReturned host true, rfl⟩))
    | appendRequest rpc src dst req =>
      obtain ⟨p, hp, ⟨n, r, hv, rfl⟩ | ⟨-, rfl⟩⟩ := handleAppendAt_eq_some h
      · exact nodeStep_set hp hj (.inr (.inl ⟨.handleAppend req, by simp only [exec, hv, Option.map_some']⟩))
      · refine nodeStep_set hp hj (.inr (.inr ⟨_, ?_, rfl⟩))
        rcases hpre : p.node.appendPrefix req with _ | ⟨n1, valid, matched⟩
        · rfl
        · exact (appendPrefix_same hpre).2.2
    | appendReply rpc src dst reply =>
      obtain ⟨p, n, w, ph, hp, -, -, rfl, host, ⟨idx, rfl⟩ | rfl | rfl⟩ := appendReplyAt_eq_some h
      · exact nodeStep_set hp hj (.inr (.inl ⟨.appendSucceeded host idx, rfl⟩))
      · exact nodeStep_set hp hj (.inr (.inl ⟨.backOff host, rfl⟩))
      · exact nodeStep_set hp hj (.inr (.inl ⟨.markUnavailable host, rfl⟩))
  | voteFailed i host =>
    obtain ⟨p, e, hp, -, rfl⟩ := voteFailed_eq_some h
    exact nodeStep_set hp hj (.inr (.inl ⟨.markUnavailable host, rfl⟩))
  | conclude i =>
    obtain ⟨p, e, hp, -, -, ⟨n, won, hv, rfl⟩ | ⟨-, rfl⟩⟩ := conclude_eq_some h
    · exact nodeStep_set hp hj (.inr (.inl ⟨.concludeElection e, by simp only [exec, hv, Option.map_some']⟩))
    · exact nodeStep_set hp hj (.inr (.inr ⟨_, rfl, rfl⟩))
  | write i action key value =>
    obtain ⟨p, hp, rfl⟩ := write_eq_some h
    exact nodeStep_set hp hj (.inl rfl)
  | lock i k =>
    obtain ⟨p, r, hp, -, ⟨-, rfl⟩ | ⟨-, rfl⟩⟩ := lock_eq_some h
    · exact nodeStep_set hp hj (.inl rfl)
    · exact nodeStep_set hp hj (.inr (.inl ⟨.appendRecord _, rfl⟩))
  | sendAppend i =>
    obtain ⟨p, w, ph, hp, -, -, rfl⟩ := sendAppend_eq_some h
    exact nodeStep_set hp hj (.inl rfl)
  | requestAppend i host =>
    obtain ⟨p, w, num, calls, hp, -, -, rfl | rfl | ⟨dst, f, req, idx, -, -, -, -, rfl⟩⟩ := requestAppend_eq_some h
    · exact nodeStep_set hp hj (.inr (.inr ⟨_, rfl, rfl⟩))
    · exact nodeStep_set hp hj (.inl rfl)
    · exact nodeStep_set hp hj (.inl rfl)
  | appendFailed i host =>
    obtain ⟨p, w, ph, hp, -, -, rfl⟩ := appendFailed_eq_some h
    exact nodeStep_set hp hj (.inr (.inl ⟨.markUnavailable host, rfl⟩))
  | join i =>
    obtain ⟨p, w, hp, -, -, rfl | ⟨n, w', -, hn, rfl⟩ | ⟨w', -, rfl⟩⟩ := join_eq_some h
    · exact nodeStep_set hp hj (.inr (.inr ⟨_, rfl, rfl⟩))
    · exact nodeStep_set hp hj (.inr (.inl ⟨.commitRecords, hn⟩))
    · exact nodeStep_set hp hj (.inl rfl)
  | restart i =>
    obtain ⟨p, hp, rfl⟩ := restart_eq_some h
    exact nodeStep_set hp hj (.inr (.inr ⟨_, rfl, rfl⟩))
  | allowVote i =>
    obtain ⟨p, hp, rfl⟩ := allowVote_eq_some h
    exact nodeStep_set hp hj (.inr (.inl ⟨.allowVote, rfl⟩))

theorem Durable.step {e : Event} (hd : ∀ p ∈ c.procs, p.node.Durable) (h : c.step e = some c') :
    ∀ p ∈ c'.procs, p.node.Durable := fun _ hp' =>
  let ⟨_, hj⟩ := List.mem_iff_getElem?.mp hp'
  let ⟨p, hp, hs⟩ := step_node h hj
  hs.durable (hd p (List.getElem?_mem hp))

theorem Durable.run {evs : List Event} (hd : ∀ p ∈ c.procs, p.node.Durable) (h : c.run evs = some c') :
    ∀ p ∈ c'.procs, p.node.Durable := by
  induction evs generalizing c with
  | nil => exact Option.some.inj h ▸ hd
  | cons e es ih =>
    obtain ⟨c1, h1, h2⟩ := Option.bind_eq_some.mp h
    exact ih (Durable.step hd h1) h2

theorem durable_init (members : List Peer) : ∀ p ∈ (init members).procs, p.node.Durable := by
  simp only [init, List.mem_map]
  rintro _ ⟨x, -, rfl⟩
  exact ⟨rfl, rfl⟩

/-- Process 0 times out and wins the vote of process 1. -/
def firstElection : List Event := [.timeout 0, .deliver 0, .deliver 1, .conclude 0]

/-- Two client writes on process 0; the first is replicated to process 1 and committed. -/
def twoWrites : List Event :=
  [.write 0 .set "k" "v", .lock 0 0, .sendAppend 0, .requestAppend 0 "b", .deliver 2, .deliver 3, .join 0,
    .write 0 .set "k" "w", .lock 0 0]

/-- A crash loses nothing: in every state a run from the initial cluster
reaches, a process restarted from its files comes back with its term, its
vote and its log. -/
theorem restart_keeps_term_vote_log {members : List Peer} {evs : List Event} {c : Cluster}
    (hr : (init members).run evs = some c) {p : Proc} (hp : p ∈ c.procs) :
    p.node.restart.term = p.node.term ∧ p.node.restart.votedFor = p.node.votedFor ∧
      p.node.restart.log = p.node.log := by
  obtain ⟨ht, hl⟩ := Durable.run (durable_init members) hr p hp
  unfold Persisted at ht
  simp [Node.restart, ht, hl]

theorem restart_keeps_term_vote_log_of_follower :
    ∃ c p, (init twoPeers).run (firstElection ++ twoWrites) = some c ∧ p ∈ c.procs ∧
      p.node.restart.term = p.node.term ∧ p.node.restart.votedFor = p.node.votedFor ∧
        p.node.restart.log = p.node.log :=
  ⟨_, _, rfl, List.getElem?_mem (n := 1) rfl,
    @restart_keeps_term_vote_log twoPeers (firstElection ++ twoWrites) _ rfl _ (List.getElem?_mem (n := 1) rfl)⟩

/-- Process `i` is Leader. -/
def IsLeader (c : Cluster) (i : Nat) : Prop := c.procs[i]?.map (·.node.state) = some .leader

instance {i : Nat} : Decidable (c.IsLeader i) := inferInstanceAs (Decidable (_ = _))

/-- Whether process `i` is Leader in every state the run of `evs` from `c`
reaches after one step or more. -/
def leadsThrough (i : Nat) : Cluster → List Event → Bool
  | _, [] => true
  | c, e :: es => match c.step e with
    | some c' => decide (c'.IsLeader i) && leadsThrough i c' es
    | none => false

/-- A step after which process `i` is Leader keeps its old log as a prefix of the new one. -/
theorem step_log_prefix {e : Event} {i : Nat} (h : c.step e = some c') {p' : Proc}
    (hp' : c'.procs[i]? = some p') (hl : p'.node.state = .leader) :
    ∃ p, c.procs[i]? = some p ∧ p.node.log <+: p'.node.log :=
  let ⟨p, hp, hs⟩ := step_node h hp'
  ⟨p, hp, hs.log_prefix hl⟩

/-- Leader Append-Only: over any run in which process `i` stays Leader, whatever
the other processes and the network do, its log at the end extends its log at
the start. -/
theorem leader_log_only_grows {i : Nat} {evs : List Event} (hr : c.run evs = some c')
    (hl : leadsThrough i c evs) {p p' : Proc} (hp : c.procs[i]? = some p) (hp' : c'.procs[i]? = some p') :
    p.node.log <+: p'.node.log := by
  induction evs generalizing c p with
  | nil =>
    obtain rfl := Option.some.inj hr
    obtain rfl := Option.some.inj (hp.symm.trans hp')
    exact List.prefix_refl _
  | cons e es ih =>
    obtain ⟨c1, h1, hr⟩ := Option.bind_eq_some.mp hr
    simp only [leadsThrough, h1, Bool.and_eq_true, decide_eq_true_eq] at hl
    obtain ⟨p1, hp1, hs⟩ := Option.map_eq_some'.mp hl.1
    obtain ⟨p0, hp0, hpre⟩ := step_log_prefix h1 hp1 hs
    obtain rfl := Option.some.inj (hp.symm.trans hp0)
    exact hpre.trans (ih hr hl.2 hp1)

theorem leader_log_only_grows_over_two_writes :
    ∃ c c' p p', (init twoPeers).run firstElection = some c ∧ c.run twoWrites = some c' ∧
      leadsThrough 0 c twoWrites ∧ c.procs[0]? = some p ∧ c'.procs[0]? = some p' ∧
        p.node.log <+: p'.node.log :=
  ⟨_, _, _, _, Option.eq_some_of_isSome (Option.isSome_iff_exists.mpr ⟨_, rfl⟩), rfl, by decide, rfl, rfl,
    @leader_log_only_grows (((init twoPeers).run firstElection).get (Option.isSome_iff_exists.mpr ⟨_, rfl⟩)) _ 0
      twoWrites rfl (by decide) _ _ rfl rfl⟩

/-- Process 0 wins term 1 and commits `v0` and then `v1` with process 1. A
second call, `v2`, reads term 1 and waits for the lock while `v1` is written.
Process 1 restarts, and process 2, whose log is empty, wins term 2 with its
vote; its append of `x` replaces the log of process 0 by `[x]`. Process 0 then
wins term 3, and the waiting call takes the lock. -/
def staleWrite : List Event :=
  [.timeout 0, .deliver 0, .deliver 2, .voteFailed 0 "c", .conclude 0,
   .write 0 .set "k" "v0", .lock 0 0, .sendAppend 0, .requestAppend 0 "b", .deliver 3, .deliver 4,
   .requestAppend 0 "c", .appendFailed 0 "c", .join 0,
   .write 0 .set "k" "v1", .write 0 .set "k" "v2", .lock 0 0, .sendAppend 0, .requestAppend 0 "b",
   .deliver 6, .deliver 7, .requestAppend 0 "c", .appendFailed 0 "c", .join 0,
   .restart 1, .deliver 1, .timeout 2, .deliver 11, .deliver 12, .voteFailed 2 "a", .conclude 2,
   .write 2 .set "k" "x", .lock 2 0, .sendAppend 2, .requestAppend 2 "a", .deliver 13,
   .timeout 0, .deliver 15, .deliver 17, .voteFailed 0 "c", .conclude 0,
   .lock 0 0]

/-- The waiting call appends `v2` with the term it read before the lock.
Processes 0 and 1 then hold entries of term 1 at index 1 over different
entries at index 0, although every entry of term 1 was created by process 0. -/
theorem stale_write_breaks_log_matching :
    ((init threePeers).run staleWrite).map (fun c =>
        (c.procs.map (·.node.log), c.created.map fun x => (x.creator, x.entry))) =
      some ([[⟨2, .set, "k", "x"⟩, ⟨1, .set, "k", "v2"⟩], [⟨1, .set, "k", "v0"⟩, ⟨1, .set, "k", "v1"⟩],
          [⟨2, .set, "k", "x"⟩]],
        [(0, ⟨1, .set, "k", "v0"⟩), (0, ⟨1, .set, "k", "v1"⟩), (2, ⟨2, .set, "k", "x"⟩),
          (0, ⟨1, .set, "k", "v2"⟩)]) := by
  decide

end Cluster

end LeifDb
