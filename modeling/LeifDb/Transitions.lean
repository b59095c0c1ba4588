import LeifDb.Cluster
import LeifDb.Term

/-! What each event of the cluster does, once: one inversion lemma per event
function, stating the guards it passed and the cluster it returns. Every
invariant of the cluster is proved from these and never unfolds an event. -/
namespace LeifDb

namespace Node

@[simp] theorem startElection_raftNode (n : Node) : n.startElection.raftNode = n.raftNode := rfl
@[simp] theorem startElection_otherNodes (n : Node) : n.startElection.otherNodes = n.otherNodes := rfl
@[simp] theorem startElection_votedFor (n : Node) : n.startElection.votedFor = some n.raftNode := rfl
@[simp] theorem startElection_log (n : Node) : n.startElection.log = n.log := rfl

@[simp] theorem restart_raftNode (n : Node) : n.restart.raftNode = n.raftNode := rfl

/-- The ids of the peers a node was configured with; no operation changes them. -/
def peerIds (n : Node) : List String := n.otherNodes.map (·.1)

@[simp] theorem restart_peerIds (n : Node) : n.restart.peerIds = n.peerIds := by
  simp [restart, peerIds, Function.comp_def]

@[simp] theorem updatePeer_peerIds (n : Node) (host : String) (f : ForeignNode → ForeignNode) :
    (n.updatePeer host f).peerIds = n.peerIds := by
  simp only [peerIds, updatePeer_otherNodes, List.map_map]
  exact List.map_congr_left fun p _ => by dsimp only [Function.comp_apply]; split <;> rfl

theorem peerIds_eq_nil {n : Node} : n.peerIds = [] ↔ n.otherNodes = [] := List.map_eq_nil_iff

variable {n n' n1 : Node}

theorem concludeElection_cases {e : Election} {won : Bool} (h : n.concludeElection e = some (n', won)) :
    (won = false ∧ n' = n) ∨
    (won = false ∧ n.term < e.maxTermSeen ∧
      ∃ src, e.maxTermSeenSource = some src ∧ n' = n.setTerm e.maxTermSeen (some src)) ∨
    (won = true ∧ e.majority ≤ e.numVotes ∧
      n' = { n with
        state := .leader
        allowVote := false
        otherNodes := n.otherNodes.map fun p =>
          (p.1, { p.2 with matchIndex := -1, nextIndex := n.log.length }) }) := by
  unfold concludeElection at h
  split_ifs at h with h1 h2
  · obtain ⟨src, hs, he⟩ := Option.map_eq_some'.mp h
    simp only [Prod.mk.injEq] at he
    exact .inr (.inl ⟨he.2.symm, h2, src, hs, he.1.symm⟩)
  · simp only [Option.some.injEq, Prod.mk.injEq] at h
    exact .inl ⟨h.2.symm, h.1.symm⟩
  · simp only [Option.some.injEq, Prod.mk.injEq] at h
    exact .inr (.inr ⟨h.2.symm, by omega, h.1.symm⟩)

theorem appendPrefix_identity {rq : AppendRequest} {valid matched : Bool}
    (h : n.appendPrefix rq = some (n1, valid, matched)) :
    n1.raftNode = n.raftNode ∧ n1.otherNodes = n.otherNodes := by
  rcases (appendPrefix_spec h).2.2 with rfl | ⟨-, -, -, -, -, rfl⟩
  · split <;> simp
  · simp

theorem handleAppend_identity {rq : AppendRequest} {reply : AppendReply}
    (h : n.handleAppend rq = some (n', reply)) :
    n'.raftNode = n.raftNode ∧ n'.otherNodes = n.otherNodes := by
  obtain ⟨n1, valid, matched, hp, n2, ha, rfl, -⟩ := handleAppend_spec h
  obtain ⟨h1, h2⟩ := appendPrefix_identity hp
  have h3 : n2.raftNode = n1.raftNode ∧ n2.otherNodes = n1.otherNodes := by
    split at ha
    · obtain ⟨k, -, he, -⟩ := applyCommittedLogs_spec ha
      rw [he]; exact ⟨rfl, rfl⟩
    · obtain rfl := Option.some.inj ha; exact ⟨rfl, rfl⟩
  rw [← h1, ← h2, ← h3.1, ← h3.2]
  split
  · unfold appendEpilogue; split <;> exact ⟨rfl, rfl⟩
  · exact ⟨rfl, rfl⟩

/-- No operation changes who the node is or which peers it knows. -/
theorem exec_identity {op : Op} (h : n.exec op = some n') :
    n'.raftNode = n.raftNode ∧ n'.peerIds = n.peerIds := by
  cases op with
  | handleVote req =>
    obtain ⟨⟨m, r⟩, hv, rfl⟩ := Option.map_eq_some'.mp h
    rcases voteDecision_cases (handleVote_eq_some hv).1 with ⟨-, rfl⟩ | ⟨-, -, -, rfl⟩ | ⟨-, -, -, rfl⟩ <;>
      simp [peerIds]
  | handleAppend req =>
    obtain ⟨⟨m, r⟩, hv, rfl⟩ := Option.map_eq_some'.mp h
    obtain ⟨h1, h2⟩ := handleAppend_identity hv
    exact ⟨h1, by rw [peerIds, peerIds, h2]⟩
  | concludeElection e =>
    obtain ⟨⟨m, w⟩, hv, rfl⟩ := Option.map_eq_some'.mp h
    rcases concludeElection_cases hv with ⟨-, rfl⟩ | ⟨-, -, -, -, rfl⟩ | ⟨-, -, rfl⟩ <;>
      simp [peerIds, Function.comp_def]
  | commitRecords =>
    obtain ⟨db, -, rfl⟩ := Option.map_eq_some'.mp h
    exact ⟨rfl, rfl⟩
  | _ =>
    obtain rfl := Option.some.inj h
    simp [setAvailable, appendSucceeded, backOff, appendRecord, peerIds, apply_ite Prod.fst]

end Node

namespace Election

/-- A reply leaves the highest term seen, or replaces it by the reply's term. -/
theorem receive_maxTermSeen (e : Election) (host : String) (vote : VoteReply) :
    (e.receive host vote).maxTermSeen = e.maxTermSeen ∨ (e.receive host vote).maxTermSeen = vote.term := by
  unfold receive drop
  dsimp only
  split_ifs
  · exact .inl rfl
  · exact .inr rfl
  · exact .inl rfl

end Election

namespace Cluster

variable {c c' : Cluster} {i k rpc src dst : Nat} {host : String}

@[simp] theorem setProc_procs (p : Proc) : (c.setProc i p).procs = c.procs.set i p := rfl
@[simp] theorem setProc_members (p : Proc) : (c.setProc i p).members = c.members := rfl
@[simp] theorem setProc_network (p : Proc) : (c.setProc i p).network = c.network := rfl
@[simp] theorem setProc_nextRpc (p : Proc) : (c.setProc i p).nextRpc = c.nextRpc := rfl
@[simp] theorem setProc_votes (p : Proc) : (c.setProc i p).votes = c.votes := rfl
@[simp] theorem setProc_wins (p : Proc) : (c.setProc i p).wins = c.wins := rfl
@[simp] theorem setProc_applied (p : Proc) : (c.setProc i p).applied = c.applied := rfl
@[simp] theorem setProc_created (p : Proc) : (c.setProc i p).created = c.created := rfl

@[simp] theorem crash_procs (n : Node) : (c.crash i n).procs = c.procs.set i ⟨n.restart, none, none, []⟩ := rfl
@[simp] theorem crash_members (n : Node) : (c.crash i n).members = c.members := rfl
@[simp] theorem crash_network (n : Node) : (c.crash i n).network = c.network := rfl
@[simp] theorem crash_votes (n : Node) : (c.crash i n).votes = c.votes := rfl
@[simp] theorem crash_wins (n : Node) : (c.crash i n).wins = c.wins := rfl
@[simp] theorem crash_created (n : Node) : (c.crash i n).created = c.created := rfl

theorem timeout_eq_some (h : c.timeout i = some c') : ∃ p, c.procs[i]? = some p ∧ p.election = none ∧
    c' = { c with
      procs := c.procs.set i
        { p with
          node := p.node.startElection
          election := some (Election.start p.node.startElection (c.voteCalls p.node.startElection)) }
      network := c.network ++ c.voteRequests i p.node.startElection
      nextRpc := c.nextRpc + p.node.otherNodes.length
      votes := c.votes ++ [⟨i, p.node.startElection.term, p.node.raftNode⟩] } := by
  simp only [timeout, Option.bind_eq_bind, Option.bind_eq_some, Option.pure_def,
    Option.ite_none_left_eq_some, Option.some.injEq, Option.not_isSome, Option.isNone_iff_eq_none] at h
  obtain ⟨p, hp, he, rfl⟩ := h
  exact ⟨p, hp, by simpa using he, rfl⟩

theorem handleVoteAt_eq_some {req : VoteRequest} (h : c.handleVoteAt rpc src dst req = some c') :
    ∃ p, c.procs[dst]? = some p ∧
      ((∃ n reply, p.node.handleVote req = some (n, reply) ∧
        c' = { c with
          procs := c.procs.set dst { p with node := n }
          network := c.network ++ [.voteReply rpc dst src req reply]
          votes := if reply.voteGranted then c.votes ++ [⟨dst, req.term, req.candidate⟩] else c.votes }) ∨
      (p.node.handleVote req = none ∧ c' = c.crash dst p.node)) := by
  simp only [handleVoteAt, Option.bind_eq_bind, Option.bind_eq_some, Option.pure_def] at h
  obtain ⟨p, hp, h⟩ := h
  refine ⟨p, hp, ?_⟩
  split at h
  next n reply hv => exact .inl ⟨n, reply, hv, (Option.some.inj h).symm⟩
  next hv => exact .inr ⟨hv, (Option.some.inj h).symm⟩

theorem voteReplyAt_eq_some {reply : VoteReply} (h : c.voteReplyAt rpc dst reply = some c') :
    ∃ p e host, c.procs[dst]? = some p ∧ p.election = some e ∧ (host, rpc) ∈ e.waiting ∧
      c' = c.setProc dst
        { p with
          node := p.node.setAvailable host true
          election := some (e.receive host reply) } := by
  simp only [voteReplyAt, Option.bind_eq_bind, Option.bind_eq_some, Option.pure_def,
    Option.some.injEq] at h
  obtain ⟨p, hp, e, he, ⟨host, r⟩, hf, rfl⟩ := h
  obtain ⟨hr, hmem⟩ := List.find?_some hf, List.mem_of_find?_eq_some hf
  simp only [decide_eq_true_eq] at hr
  subst hr
  exact ⟨p, e, host, hp, he, hmem, rfl⟩

theorem handleAppendAt_eq_some {req : AppendRequest} (h : c.handleAppendAt rpc src dst req = some c') :
    ∃ p, c.procs[dst]? = some p ∧
      ((∃ n reply, p.node.handleAppend req = some (n, reply) ∧
        c' = { c with
          procs := c.procs.set dst { p with node := n }
          network := c.network ++ [.appendReply rpc dst src reply]
          applied := c.applied ++
            n.appliedRange p.node.commitIndex (n.commitIndex - p.node.commitIndex).toNat }) ∨
      (p.node.handleAppend req = none ∧
        c' = c.crash dst (((p.node.appendPrefix req).map (·.1)).getD p.node))) := by
  simp only [handleAppendAt, Option.bind_eq_bind, Option.bind_eq_some, Option.pure_def] at h
  obtain ⟨p, hp, h⟩ := h
  refine ⟨p, hp, ?_⟩
  split at h
  next n reply hv => exact .inl ⟨n, reply, hv, (Option.some.inj h).symm⟩
  next hv => exact .inr ⟨hv, (Option.some.inj h).symm⟩

/-- The reply to a `requestAppend` call moves the peer's indices, and the phase of the write. -/
theorem appendReplyAt_eq_some {reply : AppendReply} (h : c.appendReplyAt rpc dst reply = some c') :
    ∃ p n w ph, c.procs[dst]? = some p ∧ p.write = some w ∧
      (∃ num calls call, w.phase = .fanOut num calls ∧ (ph = .fanOut (num + 1) (calls.erase call) ∨
        ph = .fanOut num (calls.map fun cl => if cl = call then ⟨cl.host, none⟩ else cl) ∨
        ph = .fanOut num (calls.erase call))) ∧
      c' = c.setProc dst { p with node := n, write := some { w with phase := ph } } ∧
      ∃ host, (∃ idx, n = p.node.appendSucceeded host idx) ∨ n = p.node.backOff host ∨
        n = p.node.setAvailable host false := by
  simp only [appendReplyAt, Option.bind_eq_bind, Option.bind_eq_some, Option.pure_def] at h
  obtain ⟨p, hp, w, hw, h⟩ := h
  split at h
  next num calls hph =>
    simp only [Option.bind_eq_some, Option.some.injEq] at h
    obtain ⟨call, -, ⟨r, req, idx⟩, -, rfl⟩ := h
    split_ifs
    · exact ⟨p, _, w, _, hp, hw, ⟨num, calls, call, hph, .inl rfl⟩, rfl, call.host, .inl ⟨idx, rfl⟩⟩
    · exact ⟨p, _, w, _, hp, hw, ⟨num, calls, call, hph, .inr (.inl rfl)⟩, rfl, call.host, .inr (.inl rfl)⟩
    · exact ⟨p, _, w, _, hp, hw, ⟨num, calls, call, hph, .inr (.inr rfl)⟩, rfl, call.host, .inr (.inr rfl)⟩
  · cases h

theorem deliver_eq_some (h : c.deliver k = some c') : ∃ m ∈ c.network,
    (match m with
      | .voteRequest rpc src dst req => c.handleVoteAt rpc src dst req
      | .voteReply rpc _ dst _ reply => c.voteReplyAt rpc dst reply
      | .appendRequest rpc src dst req => c.handleAppendAt rpc src dst req
      | .appendReply rpc _ dst reply => c.appendReplyAt rpc dst reply) = some c' := by
  simp only [deliver, Option.bind_eq_bind, Option.bind_eq_some] at h
  obtain ⟨m, hm, h⟩ := h
  exact ⟨m, List.getElem?_mem hm, h⟩

theorem voteFailed_eq_some (h : c.voteFailed i host = some c') : ∃ p e, c.procs[i]? = some p ∧
    p.election = some e ∧
    c' = c.setProc i
      { p with
        node := p.node.setAvailable host false
        election := some (e.drop host) } := by
  simp only [voteFailed, Option.bind_eq_bind, Option.bind_eq_some, Option.pure_def,
    Option.ite_none_left_eq_some, Option.some.injEq] at h
  obtain ⟨p, hp, e, he, -, rfl⟩ := h
  exact ⟨p, e, hp, he, rfl⟩

theorem conclude_eq_some (h : c.conclude i = some c') : ∃ p e, c.procs[i]? = some p ∧
    p.election = some e ∧ e.waiting = [] ∧
      ((∃ n won, p.node.concludeElection e = some (n, won) ∧
        c' = { c with
          procs := c.procs.set i { p with node := n, election := none }
          wins := if won then c.wins ++ [⟨i, e.term, n.raftNode.id :: e.voters⟩] else c.wins }) ∨
      (p.node.concludeElection e = none ∧ c' = c.crash i p.node)) := by
  simp only [conclude, Option.bind_eq_bind, Option.bind_eq_some, Option.ite_none_left_eq_some,
    Bool.not_eq_true', List.isEmpty_eq_false, not_not, List.isEmpty_iff] at h
  obtain ⟨p, hp, e, he, hw, h⟩ := h
  refine ⟨p, e, hp, he, hw, ?_⟩
  split at h
  next n won hv => exact .inl ⟨n, won, hv, (Option.some.inj h).symm⟩
  next hv => exact .inr ⟨hv, (Option.some.inj h).symm⟩

/-- A client call builds its record from the `Term` of this moment and waits for the lock. -/
theorem write_eq_some {action : Action} {key value : String}
    (h : c.write i action key value = some c') : ∃ p, c.procs[i]? = some p ∧
      c' = c.setProc i { p with waiting := p.waiting ++ [⟨p.node.term, action, key, value⟩] } := by
  simp only [write, Option.bind_eq_bind, Option.bind_eq_some, Option.pure_def, Option.some.injEq] at h
  obtain ⟨p, hp, rfl⟩ := h
  exact ⟨p, hp, rfl⟩

/-- A call that takes the lock either returns `ErrNotLeaderRecv` at once, or a
Leader appends its record, whatever `Term` the record carries. -/
theorem lock_eq_some (h : c.lock i k = some c') : ∃ p record, c.procs[i]? = some p ∧
    p.waiting[k]? = some record ∧
      (p.node.state ≠ .leader ∧
        c' = c.setProc i
          { p with
            write := some ⟨record, -1, p.node.term, 3, .returned (some .notLeaderRecv)⟩
            waiting := p.waiting.eraseIdx k } ∨
        p.node.state = .leader ∧
        c' = { c.setProc i
          { p with
            node := p.node.appendRecord record
            write := some ⟨record, p.node.log.length, p.node.term, 3, .entering⟩
            waiting := p.waiting.eraseIdx k } with
          created := c.created ++ [⟨i, p.node.log, record⟩] }) := by
  simp only [lock, Option.bind_eq_bind, Option.bind_eq_some, Option.ite_none_left_eq_some] at h
  obtain ⟨p, hp, -, record, hr, h⟩ := h
  split_ifs at h with hl
  · exact ⟨p, record, hp, hr, .inl ⟨hl, (Option.some.inj h).symm⟩⟩
  · exact ⟨p, record, hp, hr, .inr ⟨not_not.mp hl, (Option.some.inj h).symm⟩⟩

/-- `SendAppend` returns `ErrNotLeaderSend`, or starts one idle call per peer. -/
theorem sendAppend_eq_some (h : c.sendAppend i = some c') : ∃ p w ph, c.procs[i]? = some p ∧
    p.write = some w ∧ (w.phase = .entering ∧
      (ph = .returned (some .notLeaderSend) ∨ ph = .fanOut 1 (p.node.otherNodes.map fun f => ⟨f.1, none⟩))) ∧
    c' = c.setProc i { p with write := some { w with phase := ph } } := by
  simp only [sendAppend, Option.bind_eq_bind, Option.bind_eq_some] at h
  obtain ⟨p, hp, w, hw, h⟩ := h
  split at h
  next hph =>
    refine ⟨p, w, _, hp, hw, ⟨hph, ?_⟩, (Option.some.inj h).symm⟩
    split_ifs
    · exact .inl rfl
    · exact .inr rfl
  · cases h

/-- `requestAppend` crashes on its slice, returns at the escape hatch, or sends
to a peer the request it built from the log for the term of its write. -/
theorem requestAppend_eq_some (h : c.requestAppend i host = some c') : ∃ p w num calls, c.procs[i]? = some p ∧
    p.write = some w ∧ w.phase = .fanOut num calls ∧
    (c' = c.crash i p.node ∨
      c' = c.setProc i { p with write := some { w with phase := .fanOut num (calls.erase ⟨host, none⟩) } } ∨
      ∃ dst f req idx, (host, f) ∈ p.node.otherNodes ∧ c.hostIndex host = some dst ∧
        p.node.appendRequest w.term f = some (req, idx) ∧ p.node.escapeHatch w.term = none ∧
        c' = { c with
          procs := c.procs.set i { p with write := some { w with phase := (.fanOut num
            (calls.map fun cl => if cl = ⟨host, none⟩ then ⟨host, some (c.nextRpc, req, idx)⟩ else cl)) } }
          network := c.network ++ [.appendRequest c.nextRpc i dst req]
          nextRpc := c.nextRpc + 1 }) := by
  simp only [requestAppend, Option.bind_eq_bind, Option.bind_eq_some] at h
  obtain ⟨p, hp, w, hw, h⟩ := h
  split at h
  next num calls hph =>
    refine ⟨p, w, num, calls, hp, hw, hph, ?_⟩
    rw [Option.ite_none_left_eq_some] at h
    obtain ⟨-, h⟩ := h
    simp only [Option.bind_eq_some] at h
    obtain ⟨⟨h0, f⟩, hf, h⟩ := h
    obtain ⟨hh, hmem⟩ := List.find?_some hf, List.mem_of_find?_eq_some hf
    simp only [decide_eq_true_eq] at hh
    subst hh
    split at h
    next => exact .inl (Option.some.inj h).symm
    next req idx ha =>
      split at h
      next => exact .inr (.inl (Option.some.inj h).symm)
      next he =>
        simp only [Option.bind_eq_some, Option.pure_def, Option.some.injEq] at h
        obtain ⟨dst, hd, rfl⟩ := h
        exact .inr (.inr ⟨dst, f, req, idx, hmem, hd, ha, he, rfl⟩)
  · cases h

theorem appendFailed_eq_some (h : c.appendFailed i host = some c') : ∃ p w ph, c.procs[i]? = some p ∧
    p.write = some w ∧ (∃ num calls call, w.phase = .fanOut num calls ∧ ph = .fanOut num (calls.erase call)) ∧
    c' = c.setProc i { p with node := p.node.setAvailable host false, write := some { w with phase := ph } } := by
  simp only [appendFailed, Option.bind_eq_bind, Option.bind_eq_some] at h
  obtain ⟨p, hp, w, hw, h⟩ := h
  split at h
  next num calls hph =>
    simp only [Option.bind_eq_some, Option.pure_def, Option.some.injEq] at h
    obtain ⟨call, -, rfl⟩ := h
    exact ⟨p, w, _, hp, hw, ⟨num, calls, call, hph, rfl⟩, rfl⟩
  · cases h

/-- `SendAppend` after `wg.Wait`: a crash in `commitRecords`, a commit, or a retry or failure. -/
theorem join_eq_some (h : c.join i = some c') : ∃ p w, c.procs[i]? = some p ∧ p.write = some w ∧
    (∃ num, w.phase = .fanOut num []) ∧ (c' = c.crash i p.node ∨
      (∃ n w', (w'.term = w.term ∧ ∀ num calls, w'.phase ≠ .fanOut num calls) ∧ p.node.commitRecords = some n ∧
        c' = { c with
          procs := c.procs.set i { p with node := n, write := some w' }
          applied := c.applied ++
            n.appliedRange p.node.lastApplied (n.lastApplied - p.node.lastApplied).toNat }) ∨
      ∃ w', (w'.term = w.term ∧ ∀ num calls, w'.phase ≠ .fanOut num calls) ∧
        c' = c.setProc i { p with write := some w' }) := by
  simp only [join, Option.bind_eq_bind, Option.bind_eq_some] at h
  obtain ⟨p, hp, w, hw, h⟩ := h
  refine ⟨p, w, hp, hw, ?_⟩
  split at h
  next num hph =>
    refine ⟨⟨num, hph⟩, ?_⟩
    split_ifs at h
    · split at h
      · exact .inl (Option.some.inj h).symm
      · next n hn =>
        refine .inr (.inl ⟨n, _, ?_, hn, (Option.some.inj h).symm⟩)
        exact ⟨rfl, fun _ _ h => nomatch h⟩
    all_goals
      refine .inr (.inr ⟨_, ?_, (Option.some.inj h).symm⟩)
      exact ⟨rfl, fun _ _ h => nomatch h⟩
  · cases h

theorem restart_eq_some (h : c.restart i = some c') :
    ∃ p, c.procs[i]? = some p ∧ c' = c.crash i p.node := by
  simp only [restart, Option.bind_eq_bind, Option.bind_eq_some, Option.pure_def,
    Option.some.injEq] at h
  obtain ⟨p, hp, rfl⟩ := h
  exact ⟨p, hp, rfl⟩

theorem allowVote_eq_some (h : c.allowVote i = some c') : ∃ p, c.procs[i]? = some p ∧
    c' = c.setProc i { p with node := { p.node with allowVote := true } } := by
  simp only [allowVote, Option.bind_eq_bind, Option.bind_eq_some, Option.pure_def,
    Option.some.injEq] at h
  obtain ⟨p, hp, rfl⟩ := h
  exact ⟨p, hp, rfl⟩

/-- No step changes the members, and the network and the record of created entries only grow. -/
theorem step_frame {e : Event} (h : c.step e = some c') :
    c'.members = c.members ∧ c.network ⊆ c'.network ∧ c.created ⊆ c'.created := by
  have hs : c.network ⊆ c.network ∧ c.created ⊆ c.created := ⟨List.Subset.refl _, List.Subset.refl _⟩
  have ha (l : List Message) : c.network ⊆ c.network ++ l ∧ c.created ⊆ c.created :=
    ⟨List.subset_append_left _ _, List.Subset.refl _⟩
  cases e with
  | timeout i => obtain ⟨p, -, -, rfl⟩ := timeout_eq_some h; exact ⟨rfl, ha _⟩
  | deliver k =>
    obtain ⟨m, -, h⟩ := deliver_eq_some h
    cases m with
    | voteRequest rpc src dst req =>
      obtain ⟨p, -, ⟨n, r, -, rfl⟩ | ⟨-, rfl⟩⟩ := handleVoteAt_eq_some h
      · exact ⟨rfl, ha _⟩
      · exact ⟨rfl, hs⟩
    | voteReply rpc src dst req reply =>
      obtain ⟨p, e, host, -, -, -, rfl⟩ := voteReplyAt_eq_some h; exact ⟨rfl, hs⟩
    | appendRequest rpc src dst req =>
      obtain ⟨p, -, ⟨n, r, -, rfl⟩ | ⟨-, rfl⟩⟩ := handleAppendAt_eq_some h
      · exact ⟨rfl, ha _⟩
      · exact ⟨rfl, hs⟩
    | appendReply rpc src dst reply =>
      obtain ⟨p, n, w, ph, -, -, -, rfl, -⟩ := appendReplyAt_eq_some h; exact ⟨rfl, hs⟩
  | voteFailed i host => obtain ⟨p, e, -, -, rfl⟩ := voteFailed_eq_some h; exact ⟨rfl, hs⟩
  | conclude i =>
    obtain ⟨p, e, -, -, -, ⟨n, won, -, rfl⟩ | ⟨-, rfl⟩⟩ := conclude_eq_some h <;> exact ⟨rfl, hs⟩
  | write i action key value => obtain ⟨p, -, rfl⟩ := write_eq_some h; exact ⟨rfl, hs⟩
  | lock i k =>
    obtain ⟨p, r, -, -, ⟨-, rfl⟩ | ⟨-, rfl⟩⟩ := lock_eq_some h
    · exact ⟨rfl, hs⟩
    · exact ⟨rfl, List.Subset.refl _, List.subset_append_left _ _⟩
  | sendAppend i => obtain ⟨p, w, ph, -, -, -, rfl⟩ := sendAppend_eq_some h; exact ⟨rfl, hs⟩
  | requestAppend i host =>
    obtain ⟨p, w, num, calls, -, -, -, rfl | rfl | ⟨dst, f, req, idx, -, -, -, -, rfl⟩⟩ :=
      requestAppend_eq_some h
    · exact ⟨rfl, hs⟩
    · exact ⟨rfl, hs⟩
    · exact ⟨rfl, ha _⟩
  | appendFailed i host => obtain ⟨p, w, ph, -, -, -, rfl⟩ := appendFailed_eq_some h; exact ⟨rfl, hs⟩
  | join i =>
    obtain ⟨p, w, -, -, -, rfl | ⟨n, w', -, -, rfl⟩ | ⟨w', -, rfl⟩⟩ := join_eq_some h <;> exact ⟨rfl, hs⟩
  | restart i => obtain ⟨p, -, rfl⟩ := restart_eq_some h; exact ⟨rfl, hs⟩
  | allowVote i => obtain ⟨p, -, rfl⟩ := allowVote_eq_some h; exact ⟨rfl, hs⟩

theorem run_frame {evs : List Event} (h : c.run evs = some c') :
    c'.members = c.members ∧ c.network ⊆ c'.network ∧ c.created ⊆ c'.created := by
  induction evs generalizing c with
  | nil => obtain rfl := Option.some.inj h; exact ⟨rfl, List.Subset.refl _, List.Subset.refl _⟩
  | cons e es ih =>
    obtain ⟨c1, h1, h2⟩ := Option.bind_eq_some.mp h
    obtain ⟨hm1, hn1, hc1⟩ := step_frame h1
    obtain ⟨hm2, hn2, hc2⟩ := ih h2
    exact ⟨hm2.trans hm1, List.Subset.trans hn1 hn2, List.Subset.trans hc1 hc2⟩

end Cluster

end LeifDb
