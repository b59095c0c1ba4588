import LeifDb.Process
import LeifDb.Elections

/-! `RedirectLeader`, the address a node that is not Leader sends clients to:
the client address of the node it voted for. Every `raft.Node` a process holds
(its own, its vote, the vote in its term file, the source of the highest term
its election saw) or a message carries comes from the cluster's members, and
the `Leader` of an `AppendRequest` is its sender (`PeersKnown`). So a node
that has just answered an `AppendRequest` with `Success = true` redirects to
the member that sent it (`redirectLeader_after_success`). -/
namespace LeifDb

theorem mem_of_mem_some {S : List Peer} {x v : Peer} (hx : x ∈ S) (hv : v ∈ some x) : v ∈ S :=
  Option.some.inj hv ▸ hx

namespace Node

/-- `RedirectLeader`: the client address of the node voted for, or "" without a vote. -/
def redirectLeader (n : Node) : String :=
  match n.votedFor with
  | none => ""
  | some v => v.clientAddr

variable {n n' : Node} {S : List Peer} {req : AppendRequest}

/-- The votes the node holds, in memory and in its term file, are in `S`. -/
structure VotesIn (S : List Peer) (n : Node) : Prop where
  vote : ∀ v ∈ n.votedFor, v ∈ S
  file : ∀ v ∈ n.termFile.votedFor, v ∈ S

/-- A node that keeps its votes, or votes for a peer of `S` and writes that vote. -/
theorem VotesIn.of_vote (hn : n.VotesIn S)
    (h : n'.votedFor = n.votedFor ∧ n'.termFile = n.termFile ∨
      ∃ v ∈ S, n'.votedFor = some v ∧ n'.termFile.votedFor = some v) : n'.VotesIn S := by
  rcases h with ⟨h1, h2⟩ | ⟨v, hv, h1, h2⟩
  · exact ⟨h1 ▸ hn.vote, h2 ▸ hn.file⟩
  · exact ⟨fun w hw => mem_of_mem_some hv (h1 ▸ hw), fun w hw => mem_of_mem_some hv (h2 ▸ hw)⟩

theorem restart_votesIn {m : Node} (h : m.termFile = n.termFile) (hn : n.VotesIn S) : m.restart.VotesIn S :=
  ⟨fun v hv => hn.file v (h ▸ hv), fun v hv => hn.file v (h ▸ hv)⟩

/-- `HandleAppend` keeps the vote, or takes the request's leader as its vote and writes it. -/
theorem handleAppend_votedFor {r : AppendReply} (h : n.handleAppend req = some (n', r)) :
    n'.votedFor = n.votedFor ∧ n'.termFile = n.termFile ∨
      n'.votedFor = some req.leader ∧ n'.termFile.votedFor = some req.leader := by
  obtain ⟨n1, valid, matched, hp, n2, ha, rfl, -⟩ := handleAppend_spec h
  obtain ⟨-, h2, h3⟩ := appendPrefix_same hp
  have hs : n2.votedFor = n1.votedFor ∧ n2.termFile = n1.termFile := by
    split at ha
    · exact (applyCommittedLogs_same ha).2
    · obtain rfl := Option.some.inj ha; exact ⟨rfl, rfl⟩
  split
  · unfold appendEpilogue
    split
    · exact .inr ⟨rfl, rfl⟩
    · exact .inl ⟨hs.1.trans h2, hs.2.trans h3⟩
  · exact .inl ⟨hs.1.trans h2, hs.2.trans h3⟩

end Node

/-- The `raft.Node`s an operation hands to the node. -/
def Op.peers : Op → List Peer
  | .handleVote req => [req.candidate]
  | .handleAppend req => [req.leader]
  | .concludeElection e => e.maxTermSeenSource.toList
  | _ => []

namespace Node

variable {n n' : Node} {S : List Peer}

/-- Every operation on a node of `S` whose votes are in `S`, handed peers of
`S`, leaves its votes in `S`: the only votes it can take are for itself or
for a peer it was handed. -/
theorem exec_votesIn {op : Op} (hn : n.VotesIn S) (hself : n.raftNode ∈ S) (h : n.exec op = some n')
    (hop : ∀ v ∈ op.peers, v ∈ S) : n'.VotesIn S := by
  refine hn.of_vote ?_
  cases op with
  | handleVote req =>
    obtain ⟨⟨m, r⟩, hv, rfl⟩ := Option.map_eq_some'.mp h
    rcases voteDecision_cases (handleVote_eq_some hv).1 with ⟨-, rfl⟩ | ⟨-, -, -, rfl⟩ | ⟨-, -, -, rfl⟩
    · exact .inl ⟨rfl, rfl⟩
    · exact .inr ⟨n.raftNode, hself, rfl, rfl⟩
    · exact .inr ⟨req.candidate, hop _ (List.mem_singleton_self _), rfl, rfl⟩
  | handleAppend req =>
    obtain ⟨⟨m, r⟩, hv, rfl⟩ := Option.map_eq_some'.mp h
    rcases handleAppend_votedFor hv with h' | ⟨h1, h2⟩
    · exact .inl h'
    · exact .inr ⟨req.leader, hop _ (List.mem_singleton_self _), h1, h2⟩
  | concludeElection e =>
    obtain ⟨⟨m, w⟩, hv, rfl⟩ := Option.map_eq_some'.mp h
    rcases concludeElection_cases hv with ⟨-, rfl⟩ | ⟨-, -, src, hs, rfl⟩ | ⟨-, -, rfl⟩
    · exact .inl ⟨rfl, rfl⟩
    · exact .inr ⟨src, hop _ (by simp [Op.peers, hs]), rfl, rfl⟩
    · exact .inl ⟨rfl, rfl⟩
  | commitRecords =>
    obtain ⟨db, -, rfl⟩ := Option.map_eq_some'.mp h
    exact .inl ⟨rfl, rfl⟩
  | startElection =>
    obtain rfl := Option.some.inj h
    exact .inr ⟨n.raftNode, hself, rfl, rfl⟩
  | _ => obtain rfl := Option.some.inj h; exact .inl ⟨rfl, rfl⟩

theorem appendRequest_leader {term idx : Int} {f : ForeignNode} {req : AppendRequest}
    (h : n.appendRequest term f = some (req, idx)) : req.leader = n.raftNode := by
  unfold appendRequest at h
  obtain ⟨_, -, h⟩ := Option.bind_eq_some.mp h
  dsimp only at h
  split at h <;> obtain ⟨_, -, h⟩ := Option.bind_eq_some.mp h <;> cases h <;> rfl

end Node

namespace Election

/-- A reply leaves the source of the highest term seen, or makes it the replying node. -/
theorem receive_maxTermSeenSource (e : Election) (host : String) (vote : VoteReply) :
    (e.receive host vote).maxTermSeenSource = e.maxTermSeenSource ∨
      (e.receive host vote).maxTermSeenSource = some vote.node := by
  unfold receive drop
  dsimp only
  split_ifs
  · exact .inl rfl
  · exact .inr rfl
  · exact .inl rfl

end Election

/-- The `raft.Node`s a message carries are the members at the indices of the
processes it names: a request carries its sender, a vote reply its replier. -/
def Message.FromMembers (S : List Peer) : Message → Prop
  | .voteRequest _ src _ req => S[src]? = some req.candidate
  | .voteReply _ src dst req reply => S[src]? = some reply.node ∧ S[dst]? = some req.candidate
  | .appendRequest _ src _ req => S[src]? = some req.leader
  | .appendReply .. => True

namespace Cluster

open Node

variable {c c' : Cluster} {i : Nat} {p q : Proc} {S : List Peer}

/-- What process `j` holds comes from the members: its own node is member `j`,
and its votes and the source of its election's highest term are members. -/
structure ProcKnown (S : List Peer) (j : Nat) (p : Proc) : Prop where
  self : S[j]? = some p.node.raftNode
  votes : p.node.VotesIn S
  source : ∀ e ∈ p.election, ∀ v ∈ e.maxTermSeenSource, v ∈ S

structure PeersKnown (c : Cluster) : Prop where
  procs : ∀ j p, c.procs[j]? = some p → ProcKnown c.members j p
  network : ∀ m ∈ c.network, m.FromMembers c.members

theorem ProcKnown.of_exec {j : Nat} {o : Op} (hk : ProcKnown S j p) (h : p.node.exec o = some q.node)
    (hop : ∀ v ∈ o.peers, v ∈ S) (he : ∀ e ∈ q.election, ∀ v ∈ e.maxTermSeenSource, v ∈ S) :
    ProcKnown S j q :=
  ⟨(exec_identity h).1 ▸ hk.self, exec_votesIn hk.votes (List.getElem?_mem hk.self) h hop, he⟩

/-- A restart from files with the term record process `j` had. -/
theorem ProcKnown.restart {j : Nat} {m : Node} (hk : ProcKnown S j p) (hr : m.raftNode = p.node.raftNode)
    (ht : m.termFile = p.node.termFile) : ProcKnown S j ⟨m.restart, none, none, []⟩ :=
  ⟨hr ▸ hk.self, restart_votesIn ht hk.votes, fun _ h => nomatch h⟩

/-- A step that replaces process `i` and sends `l` keeps the invariant. -/
theorem PeersKnown.update {l : List Message} (hK : c.PeersKnown) (hp : c.procs[i]? = some p)
    (hm : c'.members = c.members) (hprocs : c'.procs = c.procs.set i q) (hnet : c'.network ⊆ c.network ++ l)
    (hq : ProcKnown c.members i q) (hl : ∀ m ∈ l, m.FromMembers c.members) : c'.PeersKnown := by
  refine ⟨fun j p' hj => ?_, fun m hm' => ?_⟩
  · rw [hprocs, getElem?_set_of_getElem? hp] at hj
    rw [hm]
    split_ifs at hj with hij
    · obtain rfl := hij
      exact Option.some.inj hj ▸ hq
    · exact hK.procs j p' hj
  · rw [hm]
    rcases List.mem_append.mp (hnet hm') with h | h
    · exact hK.network m h
    · exact hl m h

theorem PeersKnown.setProc (hK : c.PeersKnown) (hp : c.procs[i]? = some p) (hq : ProcKnown c.members i q) :
    (c.setProc i q).PeersKnown :=
  hK.update (l := []) hp rfl rfl (List.subset_append_left _ _) hq fun _ h => nomatch h

theorem PeersKnown.crash {m : Node} (hK : c.PeersKnown) (hp : c.procs[i]? = some p)
    (hr : m.raftNode = p.node.raftNode) (ht : m.termFile = p.node.termFile) : (c.crash i m).PeersKnown :=
  hK.setProc hp ((hK.procs i p hp).restart hr ht)

theorem peers_singleton {x : Peer} (hx : x ∈ S) : ∀ v ∈ [x], v ∈ S := fun _ hv => List.mem_singleton.mp hv ▸ hx

theorem PeersKnown.step {e : Event} (hK : c.PeersKnown) (h : c.step e = some c') : c'.PeersKnown := by
  have nil : ∀ v ∈ ([] : List Peer), v ∈ c.members := fun _ h => nomatch h
  cases e with
  | timeout i =>
    obtain ⟨p, hp, -, rfl⟩ := timeout_eq_some h
    have hk := hK.procs i p hp
    refine hK.update hp rfl rfl (List.Subset.refl _) (hk.of_exec (o := .startElection) rfl nil ?_) ?_
    · intro x hx v hv
      obtain rfl := Option.some.inj hx
      exact mem_of_mem_some (List.getElem?_mem hk.self) hv
    · intro m hm
      obtain ⟨call, -, d, -, rfl⟩ := mem_voteRequests hm
      exact hk.self
  | deliver k =>
    obtain ⟨m, hm, h⟩ := deliver_eq_some h
    have hfrom := hK.network m hm
    cases m with
    | voteRequest rpc src dst req =>
      obtain ⟨p, hp, ⟨n, r, hv, rfl⟩ | ⟨-, rfl⟩⟩ := handleVoteAt_eq_some h
      · have hk := hK.procs dst p hp
        have hx : p.node.exec (.handleVote req) = some n := by simp only [exec, hv, Option.map_some']
        refine hK.update hp rfl rfl (List.Subset.refl _)
          (hk.of_exec hx (peers_singleton (List.getElem?_mem hfrom)) hk.source) ?_
        intro m hm'
        obtain rfl := List.mem_singleton.mp hm'
        refine ⟨?_, hfrom⟩
        rw [(handleVote_eq_some hv).2, (exec_identity hx).1]
        exact hk.self
      · exact hK.crash hp rfl rfl
    | voteReply rpc src dst req reply =>
      obtain ⟨p, e, host, hp, he, -, rfl⟩ := voteReplyAt_eq_some h
      have hk := hK.procs dst p hp
      refine hK.setProc hp (hk.of_exec (o := .voteReturned host true) rfl nil ?_)
      intro x hx v hv
      obtain rfl := Option.some.inj hx
      rcases e.receive_maxTermSeenSource host reply with h1 | h1 <;> rw [h1] at hv
      · exact hk.source e he v hv
      · exact mem_of_mem_some (List.getElem?_mem hfrom.1) hv
    | appendRequest rpc src dst req =>
      obtain ⟨p, hp, ⟨n, r, hv, rfl⟩ | ⟨-, rfl⟩⟩ := handleAppendAt_eq_some h
      · have hk := hK.procs dst p hp
        refine hK.update hp rfl rfl (List.Subset.refl _) (hk.of_exec
          (show p.node.exec (.handleAppend req) = some n by simp only [exec, hv, Option.map_some'])
          (peers_singleton (List.getElem?_mem hfrom)) hk.source) ?_
        intro m hm'
        obtain rfl := List.mem_singleton.mp hm'
        trivial
      · rcases hpre : p.node.appendPrefix req with _ | ⟨n1, valid, matched⟩
        · exact hK.crash hp rfl rfl
        · exact hK.crash hp (appendPrefix_identity hpre).1 (appendPrefix_same hpre).2.2
    | appendReply rpc src dst reply =>
      obtain ⟨p, n, w, ph, hp, -, -, rfl, host, ⟨idx, rfl⟩ | rfl | rfl⟩ := appendReplyAt_eq_some h <;>
        have hk := hK.procs dst p hp
      · exact hK.setProc hp (hk.of_exec (o := .appendSucceeded host idx) rfl nil hk.source)
      · exact hK.setProc hp (hk.of_exec (o := .backOff host) rfl nil hk.source)
      · exact hK.setProc hp (hk.of_exec (o := .markUnavailable host) rfl nil hk.source)
  | voteFailed i host =>
    obtain ⟨p, e, hp, he, rfl⟩ := voteFailed_eq_some h
    have hk := hK.procs i p hp
    refine hK.setProc hp (hk.of_exec (o := .markUnavailable host) rfl nil ?_)
    intro x hx
    obtain rfl := Option.some.inj hx
    exact hk.source e he
  | conclude i =>
    obtain ⟨p, e, hp, he, -, ⟨n, won, hv, rfl⟩ | ⟨-, rfl⟩⟩ := conclude_eq_some h
    · have hk := hK.procs i p hp
      exact hK.update (l := []) hp rfl rfl (List.subset_append_left _ _)
        (hk.of_exec (show p.node.exec (.concludeElection e) = some n by simp only [exec, hv, Option.map_some'])
          (fun v hv => hk.source e he v (Option.mem_toList.mp hv)) fun _ h => nomatch h) fun _ h => nomatch h
    · exact hK.crash hp rfl rfl
  | write i action key value =>
    obtain ⟨p, hp, rfl⟩ := write_eq_some h
    have hk := hK.procs i p hp
    exact hK.setProc hp ⟨hk.1, hk.2, hk.3⟩
  | lock i k =>
    obtain ⟨p, r, hp, -, ⟨-, rfl⟩ | ⟨-, rfl⟩⟩ := lock_eq_some h <;> have hk := hK.procs i p hp
    · exact hK.setProc hp ⟨hk.1, hk.2, hk.3⟩
    · exact hK.update (l := []) hp rfl rfl (List.subset_append_left _ _)
        (hk.of_exec (o := .appendRecord _) rfl nil hk.source)
        fun _ h => nomatch h
  | sendAppend i =>
    obtain ⟨p, w, ph, hp, -, -, rfl⟩ := sendAppend_eq_some h
    have hk := hK.procs i p hp
    exact hK.setProc hp ⟨hk.1, hk.2, hk.3⟩
  | requestAppend i host =>
    obtain ⟨p, w, num, calls, hp, -, -, rfl | rfl | ⟨dst, f, req, idx, -, -, hreq, -, rfl⟩⟩ :=
      requestAppend_eq_some h <;> have hk := hK.procs i p hp
    · exact hK.crash hp rfl rfl
    · exact hK.setProc hp ⟨hk.1, hk.2, hk.3⟩
    · refine hK.update hp rfl rfl (List.Subset.refl _) ⟨hk.1, hk.2, hk.3⟩ ?_
      intro m hm
      obtain rfl := List.mem_singleton.mp hm
      show c.members[i]? = some req.leader
      rw [appendRequest_leader hreq]
      exact hk.self
  | appendFailed i host =>
    obtain ⟨p, w, ph, hp, -, -, rfl⟩ := appendFailed_eq_some h
    have hk := hK.procs i p hp
    exact hK.setProc hp (hk.of_exec (o := .markUnavailable host) rfl nil hk.source)
  | join i =>
    obtain ⟨p, w, hp, -, -, rfl | ⟨n, w', -, hn, rfl⟩ | ⟨w', -, rfl⟩⟩ := join_eq_some h <;>
      have hk := hK.procs i p hp
    · exact hK.crash hp rfl rfl
    · exact hK.update (l := []) hp rfl rfl (List.subset_append_left _ _)
        (hk.of_exec (o := .commitRecords) hn nil hk.source) fun _ h => nomatch h
    · exact hK.setProc hp ⟨hk.1, hk.2, hk.3⟩
  | restart i =>
    obtain ⟨p, hp, rfl⟩ := restart_eq_some h
    exact hK.crash hp rfl rfl
  | allowVote i =>
    obtain ⟨p, hp, rfl⟩ := allowVote_eq_some h
    exact hK.setProc hp ((hK.procs i p hp).of_exec (o := .allowVote) rfl nil (hK.procs i p hp).source)

theorem PeersKnown.run {evs : List Event} (hK : c.PeersKnown) (h : c.run evs = some c') : c'.PeersKnown := by
  induction evs generalizing c with
  | nil => exact Option.some.inj h ▸ hK
  | cons e es ih =>
    obtain ⟨c1, h1, h2⟩ := Option.bind_eq_some.mp h
    exact ih (hK.step h1) h2

theorem peersKnown_init (members : List Peer) : (init members).PeersKnown := by
  refine ⟨fun j p hj => ?_, fun _ h => nomatch h⟩
  simp only [init, List.getElem?_map] at hj
  obtain ⟨x, hx, rfl⟩ := Option.map_eq_some'.mp hj
  exact ⟨hx, ⟨(fun _ h => nomatch h), fun _ h => nomatch h⟩, fun _ h => nomatch h⟩

/-- With distinct ids, a node that answers an `AppendRequest` in flight with
`Success = true` redirects clients to the member that sent it: at a new term it
takes the `Leader` as its vote, and at its own term it only accepts a
`Leader` with the id it voted for, which is then the same member. -/
theorem redirectLeader_after_success {members : List Peer} {evs : List Event}
    (hn : (members.map (·.id)).Nodup) (hr : (init members).run evs = some c)
    {rpc src dst : Nat} {req : AppendRequest} (hm : Message.appendRequest rpc src dst req ∈ c.network)
    {p : Proc} (hp : c.procs[dst]? = some p) {n' : Node} {rep : AppendReply}
    (h : p.node.handleAppend req = some (n', rep)) (hs : rep.success = true) :
    members[src]?.map (·.clientAddr) = some n'.redirectLeader := by
  have hK := (peersKnown_init members).run hr
  have hS : c.members = members := (run_frame hr).1
  have hsrc : c.members[src]? = some req.leader := hK.network _ hm
  have hk := hK.procs dst p hp
  have hvotes : n'.VotesIn c.members :=
    exec_votesIn hk.votes (List.getElem?_mem hk.self)
      (show p.node.exec (.handleAppend req) = some n' by simp only [exec, h, Option.map_some'])
      (peers_singleton (List.getElem?_mem hsrc))
  obtain ⟨-, -, hid, -⟩ := handleAppend_success h hs
  obtain ⟨v, hv, hvid⟩ := Option.map_eq_some'.mp hid
  have heq : v = req.leader :=
    List.inj_on_of_nodup_map (hS ▸ hn) (hvotes.vote v hv) (List.getElem?_mem hsrc) hvid
  rw [← hS, hsrc, Option.map_some', redirectLeader, hv, heq]

theorem redirectLeader_after_success_on_replicated_write :
    ∃ c rpc req p n' rep, (twoPeers.map (·.id)).Nodup ∧ (init twoPeers).run (firstElection ++ twoWrites) = some c ∧
      Message.appendRequest rpc 0 1 req ∈ c.network ∧ c.procs[1]? = some p ∧
      p.node.handleAppend req = some (n', rep) ∧ rep.success = true ∧
      twoPeers[0]?.map (·.clientAddr) = some n'.redirectLeader :=
  ⟨_, _, _, _, _, _, by decide, rfl, List.getElem?_mem (n := 2) rfl, rfl, rfl, rfl,
    @redirectLeader_after_success _ twoPeers (firstElection ++ twoWrites) (by decide) rfl _ 0 1 _
      (List.getElem?_mem (n := 2) rfl) _ rfl _ _ rfl rfl⟩

end Cluster

end LeifDb
