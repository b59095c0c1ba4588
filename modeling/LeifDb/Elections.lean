import LeifDb.Votes
import Mathlib.Data.Finset.Card

/-! Election safety. A `DoElection` that wins has counted a majority of the
members, itself included, each with a vote for it at the term of its requests.
Two majorities share a member, and a member votes once per term, so each term
is won by at most one process (`election_winner_unique`). The Leader role is
not tied to it: `DoElection`'s winning branch does not look at `Term` again,
so a process that a higher-term append made a Follower during its election
becomes Leader of that term beside the process that won it
(`leader_after_stepping_down_mid_election`). -/
namespace LeifDb

/-- The RPC id a message carries. -/
def Message.rpc : Message → Nat
  | .voteRequest rpc _ _ _ => rpc
  | .voteReply rpc _ _ _ _ => rpc
  | .appendRequest rpc _ _ _ => rpc
  | .appendReply rpc _ _ _ => rpc

/-- A message of the write path. -/
def Message.IsAppend : Message → Prop
  | .appendRequest .. => True
  | .appendReply .. => True
  | _ => False

/-- The ids of the other members: the peers `init` gives to `self`. -/
def otherIds (members : List Peer) (self : Peer) : List String :=
  (members.filter (·.id ≠ self.id)).map (·.id)

theorem ne_of_mem_otherIds {members : List Peer} {self : Peer} {x : String}
    (h : x ∈ otherIds members self) : x ≠ self.id := by
  simp only [otherIds, List.mem_map, List.mem_filter, decide_eq_true_eq] at h
  obtain ⟨y, ⟨-, hy⟩, rfl⟩ := h
  exact hy

theorem mem_ids_of_mem_otherIds {members : List Peer} {self : Peer} {x : String}
    (h : x ∈ otherIds members self) : x ∈ members.map (·.id) :=
  List.Sublist.subset ((List.filter_sublist members).map _) h

theorem otherIds_nodup {members : List Peer} (hn : (members.map (·.id)).Nodup) (self : Peer) :
    (otherIds members self).Nodup :=
  hn.sublist ((List.filter_sublist members).map _)

/-- With distinct ids, a member has every other member as a peer. -/
theorem otherIds_length {members : List Peer} (hn : (members.map (·.id)).Nodup) {self : Peer}
    (hs : self ∈ members) : (otherIds members self).length + 1 = members.length := by
  have hc : (members.map (·.id)).count self.id = 1 := List.count_eq_one_of_mem hn (List.mem_map_of_mem _ hs)
  rw [List.count, List.countP_map] at hc
  rw [otherIds, List.length_map, ← List.countP_eq_length_filter,
    List.length_eq_countP_add_countP (fun y : Peer => y.id = self.id) members, Nat.add_comm]
  congr 1
  · simpa [Function.comp_def] using hc.symm
  · exact List.countP_congr fun y _ => by simp

namespace Cluster

open Node

variable {c c' : Cluster} {i j : Nat} {p p' : Proc} {n : Node} {cand : Peer} {e : Election}

theorem mem_voteCalls {call : String × Nat} (h : call ∈ c.voteCalls n) :
    ∃ k, ∃ hk : k < n.peerIds.length, call = (n.peerIds[k], c.nextRpc + k) := by
  obtain ⟨k, hk, he⟩ := List.mem_iff_getElem.mp h
  have hk' : k < n.peerIds.length := by simp [voteCalls, Node.peerIds] at hk ⊢; omega
  refine ⟨k, hk', ?_⟩
  rw [← he]
  simp [voteCalls, Node.peerIds, List.getElem_zip, List.getElem_range']

theorem voteCalls_rpc {call : String × Nat} (h : call ∈ c.voteCalls n) :
    c.nextRpc ≤ call.2 ∧ call.2 < c.nextRpc + n.otherNodes.length := by
  obtain ⟨k, hk, rfl⟩ := mem_voteCalls h
  simp only [Node.peerIds, List.length_map] at hk
  exact ⟨by simp, by simp only; omega⟩

/-- Each call of an election has its own RPC id. -/
theorem voteCalls_inj {a b : String × Nat} (ha : a ∈ c.voteCalls n) (hb : b ∈ c.voteCalls n)
    (h : a.2 = b.2) : a = b := by
  obtain ⟨k, hk, rfl⟩ := mem_voteCalls ha
  obtain ⟨l, hl, rfl⟩ := mem_voteCalls hb
  simp only [Nat.add_left_cancel_iff] at h
  subst h; rfl

theorem voteCalls_fst : (c.voteCalls n).map (·.1) = n.peerIds := by
  simp only [voteCalls]
  rw [List.map_fst_zip]
  · rfl
  · simp

theorem mem_voteRequests {m : Message} (h : m ∈ c.voteRequests i n) : ∃ call ∈ c.voteCalls n, ∃ d,
    c.hostIndex call.1 = some d ∧ m = .voteRequest call.2 i d n.voteRequest := by
  obtain ⟨call, hc, hm⟩ := List.mem_filterMap.mp h
  obtain ⟨d, hd, rfl⟩ := Option.map_eq_some'.mp hm
  exact ⟨call, hc, d, hd, rfl⟩

theorem hostIndex_eq_some {host : String} {d : Nat} (h : c.hostIndex host = some d) :
    c.members[d]?.map (·.id) = some host := by
  obtain ⟨hd, hp, -⟩ := List.findIdx?_eq_some_iff_getElem.mp h
  rw [List.getElem?_eq_getElem hd]
  simpa using hp

/-- What a running `DoElection` of process `j`, whose node is `cand`, has established. -/
structure ElectionOK (c : Cluster) (j : Nat) (cand : Peer) (e : Election) : Prop where
  selfVote : (⟨j, e.term, cand⟩ : Vote) ∈ c.votes
  counted : ∀ x ∈ e.voters, ∃ k, c.members[k]?.map (·.id) = some x ∧ (⟨k, e.term, cand⟩ : Vote) ∈ c.votes
  numVotes : e.numVotes = e.voters.length + 1
  majority : e.majority = ((otherIds c.members cand).length + 1) / 2 + 1
  distinct : (e.voters ++ e.waiting.map (·.1)).Nodup
  peers : ∀ x ∈ e.voters ++ e.waiting.map (·.1), x ∈ otherIds c.members cand
  /-- A call still waiting owns its RPC id: the only request with it is this election's. -/
  calls : ∀ call ∈ e.waiting, call.2 < c.nextRpc ∧ ∀ s d req,
    Message.voteRequest call.2 s d req ∈ c.network →
      s = j ∧ c.members[d]?.map (·.id) = some call.1 ∧ req.term = e.term ∧ req.candidate = cand

/-- A recorded win of `cand`: a majority of distinct members, each with a vote for it at its term. -/
structure WinOK (c : Cluster) (w : Win) (cand : Peer) : Prop where
  distinct : w.voters.Nodup
  peers : ∀ x ∈ w.voters, x ∈ c.members.map (·.id)
  quorum : ((otherIds c.members cand).length + 1) / 2 + 1 ≤ w.voters.length
  votes : ∀ x ∈ w.voters, ∃ k, c.members[k]?.map (·.id) = some x ∧ (⟨k, w.term, cand⟩ : Vote) ∈ c.votes

/-- Every granted reply stands for a recorded vote and answers a request that was sent. -/
def Replies (c : Cluster) : Prop :=
  ∀ r s d req reply, Message.voteReply r s d req reply ∈ c.network → reply.voteGranted →
    (⟨s, req.term, req.candidate⟩ : Vote) ∈ c.votes ∧ Message.voteRequest r d s req ∈ c.network

/-- Vote requests of `c'` with an RPC id already used in `c` were sent in `c`. -/
def FreshRequests (c c' : Cluster) : Prop :=
  ∀ r s d req, Message.voteRequest r s d req ∈ c'.network → r < c.nextRpc →
    Message.voteRequest r s d req ∈ c.network

structure ElectionInv (c : Cluster) : Prop where
  nodup : (c.members.map (·.id)).Nodup
  length : c.procs.length = c.members.length
  shape : ∀ (j : Nat) (p : Proc), c.procs[j]? = some p →
    c.members[j]? = some p.node.raftNode ∧ p.node.peerIds = otherIds c.members p.node.raftNode
  rpcs : ∀ m ∈ c.network, m.rpc < c.nextRpc
  replies : c.Replies
  elections : ∀ (j : Nat) (p : Proc) (e : Election), c.procs[j]? = some p → p.election = some e →
    c.ElectionOK j p.node.raftNode e
  wins : ∀ w ∈ c.wins, ∃ cand, c.members[w.winner]? = some cand ∧ c.WinOK w cand

theorem ElectionOK.mono (h : c.ElectionOK j cand e) (hm : c'.members = c.members)
    (hv : c.votes ⊆ c'.votes) (hr : c.nextRpc ≤ c'.nextRpc) (hq : FreshRequests c c') :
    c'.ElectionOK j cand e where
  selfVote := hv h.selfVote
  counted x hx := by
    obtain ⟨k, hk, hv'⟩ := h.counted x hx
    exact ⟨k, hm ▸ hk, hv hv'⟩
  numVotes := h.numVotes
  majority := hm ▸ h.majority
  distinct := h.distinct
  peers := hm ▸ h.peers
  calls call hc := by
    obtain ⟨hlt, hreq⟩ := h.calls call hc
    exact ⟨by omega, fun s d req hm' => hm ▸ hreq s d req (hq _ _ _ _ hm' hlt)⟩

theorem WinOK.mono {w : Win} (h : c.WinOK w cand) (hm : c'.members = c.members)
    (hv : c.votes ⊆ c'.votes) : c'.WinOK w cand where
  distinct := h.distinct
  peers := hm ▸ h.peers
  quorum := hm ▸ h.quorum
  votes x hx := by
    obtain ⟨k, hk, hv'⟩ := h.votes x hx
    exact ⟨k, hm ▸ hk, hv hv'⟩

/-- The frame of every step for elections: one process moves and keeps who it is. -/
theorem ElectionInv.update (hI : c.ElectionInv) (hp : c.procs[i]? = some p)
    (hm : c'.members = c.members) (hprocs : c'.procs = c.procs.set i p')
    (hid : p'.node.raftNode = p.node.raftNode ∧ p'.node.peerIds = p.node.peerIds)
    (hv : c.votes ⊆ c'.votes) (hr : c.nextRpc ≤ c'.nextRpc) (hq : FreshRequests c c')
    (hrpcs : ∀ m ∈ c'.network, m.rpc < c'.nextRpc) (hrep : c'.Replies)
    (hel : ∀ e, p'.election = some e → c'.ElectionOK i p'.node.raftNode e)
    (hw : ∀ w ∈ c'.wins, w ∈ c.wins ∨ ∃ cand, c'.members[w.winner]? = some cand ∧ c'.WinOK w cand) :
    c'.ElectionInv where
  nodup := hm ▸ hI.nodup
  length := by rw [hprocs, List.length_set, hm, hI.length]
  shape j q hq' := by
    rw [hprocs, getElem?_set_of_getElem? hp] at hq'
    split_ifs at hq' with hij
    · cases hq'
      subst hij
      obtain ⟨h1, h2⟩ := hI.shape i p hp
      rw [hm, hid.1, hid.2]
      exact ⟨h1, h2⟩
    · exact hm ▸ hI.shape j q hq'
  rpcs := hrpcs
  replies := hrep
  elections j q e hq' he := by
    rw [hprocs, getElem?_set_of_getElem? hp] at hq'
    split_ifs at hq' with hij
    · cases hq'
      subst hij
      exact hel e he
    · exact (hI.elections j q e hq' he).mono hm hv hr hq
  wins w hw' := by
    rcases hw w hw' with hw' | hw'
    · obtain ⟨s, hs, hok⟩ := hI.wins w hw'
      exact ⟨s, hm ▸ hs, hok.mono hm hv⟩
    · exact hw'

/-- A step that casts no vote, sends no vote message, leaves the wins, and
keeps or ends the election of the process that moves. -/
theorem ElectionInv.keep (hI : c.ElectionInv) (hp : c.procs[i]? = some p)
    (hm : c'.members = c.members) (hprocs : c'.procs = c.procs.set i p')
    (hid : p'.node.raftNode = p.node.raftNode ∧ p'.node.peerIds = p.node.peerIds)
    (hv : c'.votes = c.votes) (hr : c.nextRpc ≤ c'.nextRpc) (hsub : c.network ⊆ c'.network)
    (hnew : ∀ m ∈ c'.network, m ∉ c.network → m.IsAppend ∧ m.rpc < c'.nextRpc)
    (hel : p'.election = p.election ∨ p'.election = none) (hw : c'.wins = c.wins) :
    c'.ElectionInv := by
  have hvs : c.votes ⊆ c'.votes := hv ▸ List.Subset.refl _
  have hold (m : Message) (hm' : m ∈ c'.network) (ha : ¬m.IsAppend) : m ∈ c.network :=
    Classical.byContradiction fun hc => ha (hnew m hm' hc).1
  refine hI.update hp hm hprocs hid hvs hr (fun r s d req hreq _ => hold _ hreq id) ?_ ?_ ?_
    (fun w hw' => .inl (hw ▸ hw'))
  · intro m hm'
    by_cases hc : m ∈ c.network
    · exact Nat.lt_of_lt_of_le (hI.rpcs m hc) hr
    · exact (hnew m hm' hc).2
  · intro r s d req reply hrep hg
    obtain ⟨h1, h2⟩ := hI.replies r s d req reply (hold _ hrep id) hg
    exact ⟨hvs h1, hsub h2⟩
  · intro e he
    rw [hid.1]
    rcases hel with hel | hel
    · exact (hI.elections i p e hp (hel ▸ he)).mono hm hvs hr fun r s d req hreq _ => hold _ hreq id
    · cases hel ▸ he

/-- `DoElection` starts: the new election owns the fresh RPC ids of its requests. -/
theorem ElectionInv.timeout (hI : c.ElectionInv) (h : c.timeout i = some c') : c'.ElectionInv := by
  obtain ⟨p, hp, he, rfl⟩ := timeout_eq_some h
  obtain ⟨hself, hpeers⟩ := hI.shape i p hp
  have hfresh (m : Message) (hm : m ∈ c.voteRequests i p.node.startElection) :
      c.nextRpc ≤ m.rpc ∧ m.rpc < c.nextRpc + p.node.otherNodes.length := by
    obtain ⟨call, hc, d, -, rfl⟩ := mem_voteRequests hm
    exact voteCalls_rpc hc
  refine hI.update hp rfl rfl ⟨rfl, rfl⟩ (List.subset_append_left _ _) (Nat.le_add_right _ _) ?_ ?_ ?_ ?_
    (fun w hw => .inl hw)
  · intro r s d req hm hr
    rcases List.mem_append.mp hm with hm | hm
    · exact hm
    · have := (hfresh _ hm).1
      simp only [Message.rpc] at this
      omega
  · intro m hm
    rcases List.mem_append.mp hm with hm | hm
    · have := hI.rpcs m hm
      simp only; omega
    · exact (hfresh m hm).2
  · intro r s d req reply hm hg
    rcases List.mem_append.mp hm with hm | hm
    · obtain ⟨h1, h2⟩ := hI.replies r s d req reply hm hg
      exact ⟨List.mem_append_left _ h1, List.mem_append_left _ h2⟩
    · obtain ⟨call, -, d, -, hm⟩ := mem_voteRequests hm
      cases hm
  · intro e he'
    simp only [Option.some.injEq] at he'
    subst he'
    have hhosts : [] ++ (c.voteCalls p.node.startElection).map (·.1) = otherIds c.members p.node.raftNode := by
      rw [List.nil_append, voteCalls_fst, ← hpeers]; rfl
    refine ⟨List.mem_append_right _ (List.mem_singleton_self _), by simp [Election.start], rfl, ?_,
      hhosts ▸ otherIds_nodup hI.nodup _, fun x hx => hhosts ▸ hx, ?_⟩
    · simp only [Election.start, startElection_otherNodes, startElection_raftNode]
      rw [← hpeers, Node.peerIds, List.length_map]
    · intro call hc
      have hc' := voteCalls_rpc hc
      refine ⟨show call.2 < c.nextRpc + p.node.otherNodes.length from hc'.2, fun s d req hm => ?_⟩
      rcases List.mem_append.mp hm with hm | hm
      · have := hI.rpcs _ hm
        simp only [Message.rpc] at this
        omega
      · obtain ⟨call', hc'', d', hd, he'⟩ := mem_voteRequests hm
        simp only [Message.voteRequest.injEq] at he'
        obtain ⟨h1, rfl, rfl, rfl⟩ := he'
        obtain rfl := voteCalls_inj hc hc'' h1
        exact ⟨rfl, hostIndex_eq_some hd, rfl, rfl⟩

theorem ElectionOK.drop {host : String} (h : c.ElectionOK j cand e) : c.ElectionOK j cand (e.drop host) where
  selfVote := h.selfVote
  counted := h.counted
  numVotes := h.numVotes
  majority := h.majority
  distinct := h.distinct.sublist (((List.filter_sublist _).map _).append_left _)
  peers x hx := h.peers x ((((List.filter_sublist _).map _).append_left _).subset hx)
  calls call hc := h.calls call (List.mem_of_mem_filter hc)

/-- A reply to a waiting call: a granted one adds its voter, whose vote is on record. -/
theorem ElectionOK.receive {host : String} {rpc src : Nat} {req : VoteRequest} {reply : VoteReply}
    (h : c.ElectionOK j cand e) (hw : (host, rpc) ∈ e.waiting)
    (hm : Message.voteReply rpc src j req reply ∈ c.network) (hrep : c.Replies) :
    c.ElectionOK j cand (e.receive host reply) := by
  have hd : c.ElectionOK j cand (e.drop host) := h.drop
  unfold Election.receive
  dsimp only
  split_ifs with hg
  · obtain ⟨hv, hreq⟩ := hrep _ _ _ _ _ hm hg
    obtain ⟨-, hidx, hterm, hcand⟩ := (h.calls _ hw).2 _ _ _ hreq
    have hhost : host ∈ e.waiting.map (·.1) := List.mem_map_of_mem _ hw
    refine ⟨hd.selfVote, ?_, by simp [Election.drop, h.numVotes], hd.majority, ?_, ?_, hd.calls⟩
    · intro x hx
      rcases List.mem_cons.mp hx with rfl | hx
      · exact ⟨src, hidx, hterm ▸ hcand ▸ hv⟩
      · exact hd.counted x hx
    · rw [List.cons_append, List.nodup_cons]
      refine ⟨fun hx => ?_, hd.distinct⟩
      rcases List.mem_append.mp hx with hx | hx
      · exact List.disjoint_left.mp (List.nodup_append.mp h.distinct).2.2 hx hhost
      · simp [Election.drop] at hx
    · intro x hx
      rcases List.mem_cons.mp (List.cons_append _ _ _ ▸ hx) with rfl | hx
      · exact h.peers _ (List.mem_append_right _ hhost)
      · exact hd.peers x hx
  · exact ⟨hd.selfVote, hd.counted, hd.numVotes, hd.majority, hd.distinct, hd.peers, hd.calls⟩
  · exact hd

theorem ElectionInv.crash {m : Node} (hI : c.ElectionInv) (hp : c.procs[i]? = some p)
    (hid : m.raftNode = p.node.raftNode ∧ m.peerIds = p.node.peerIds) : (c.crash i m).ElectionInv :=
  hI.keep hp rfl rfl (by simpa using hid) rfl (Nat.le_refl _) (List.Subset.refl _)
    (fun _ hm hc => absurd hm hc) (.inr rfl) rfl

/-- A step on one node alone, through `exec`, with its election kept. -/
theorem ElectionInv.ofExec {op : Op} (hI : c.ElectionInv) (hp : c.procs[i]? = some p)
    (hn : p.node.exec op = some n) (w : Option WriteJob) :
    (c.setProc i { p with node := n, write := w }).ElectionInv :=
  hI.keep hp rfl rfl (exec_identity hn) rfl (Nat.le_refl _) (List.Subset.refl _)
    (fun _ hm hc => absurd hm hc) (.inl rfl) rfl

/-- A step of one process that leaves its node and its election alone. -/
theorem ElectionInv.setWrite (hI : c.ElectionInv) (hp : c.procs[i]? = some p) {q : Proc}
    (hn : q.node = p.node) (he : q.election = p.election) : (c.setProc i q).ElectionInv :=
  hI.keep hp rfl rfl (hn ▸ ⟨rfl, rfl⟩) rfl (Nat.le_refl _) (List.Subset.refl _)
    (fun _ hm hc => absurd hm hc) (.inl he) rfl

theorem ElectionInv.handleVoteAt {rpc src dst : Nat} {req : VoteRequest} (hI : c.ElectionInv)
    (hm : Message.voteRequest rpc src dst req ∈ c.network)
    (h : c.handleVoteAt rpc src dst req = some c') : c'.ElectionInv := by
  obtain ⟨p, hp, ⟨n, reply, hv, rfl⟩ | ⟨-, rfl⟩⟩ := handleVoteAt_eq_some h
  · have hid := exec_identity (show p.node.exec (.handleVote req) = some n by simp [Node.exec, hv])
    have hvs : c.votes ⊆ (if reply.voteGranted then c.votes ++ [⟨dst, req.term, req.candidate⟩] else c.votes) := by
      split
      · exact List.subset_append_left _ _
      · exact List.Subset.refl _
    have hq (r s d) (req' : VoteRequest) (hm' : Message.voteRequest r s d req' ∈
        c.network ++ [.voteReply rpc dst src req reply]) : Message.voteRequest r s d req' ∈ c.network :=
      (List.mem_append.mp hm').resolve_right (by simp)
    refine hI.update hp rfl rfl hid hvs (Nat.le_refl _) (fun r s d req' hm' _ => hq r s d req' hm') ?_ ?_ ?_
      (fun w hw => .inl hw)
    · intro m hm'
      rcases List.mem_append.mp hm' with hm' | hm'
      · exact hI.rpcs m hm'
      · rw [List.mem_singleton.mp hm']
        exact hI.rpcs (.voteRequest rpc src dst req) hm
    · intro r s d req' reply' hm' hg
      rcases List.mem_append.mp hm' with hm' | hm'
      · obtain ⟨h1, h2⟩ := hI.replies r s d req' reply' hm' hg
        exact ⟨hvs h1, List.mem_append_left _ h2⟩
      · simp only [List.mem_singleton, Message.voteReply.injEq] at hm'
        obtain ⟨rfl, rfl, rfl, rfl, rfl⟩ := hm'
        refine ⟨?_, List.mem_append_left _ hm⟩
        simp [hg]
    · intro e he
      rw [hid.1]
      exact (hI.elections dst p e hp he).mono rfl hvs (Nat.le_refl _) fun r s d req' hm' _ => hq r s d req' hm'
  · exact hI.crash hp ⟨rfl, rfl⟩

theorem ElectionInv.voteReplyAt {rpc src dst : Nat} {req : VoteRequest} {reply : VoteReply}
    (hI : c.ElectionInv) (hm : Message.voteReply rpc src dst req reply ∈ c.network)
    (h : c.voteReplyAt rpc dst reply = some c') : c'.ElectionInv := by
  obtain ⟨p, e, host, hp, he, hw, rfl⟩ := voteReplyAt_eq_some h
  refine hI.update hp rfl rfl (exec_identity (show p.node.exec (.voteReturned host true) = _ from rfl))
    (List.Subset.refl _) (Nat.le_refl _) (fun _ _ _ _ h _ => h) hI.rpcs hI.replies ?_ (fun w hw => .inl hw)
  intro e' he'
  simp only [Option.some.injEq] at he'
  subst he'
  exact ((hI.elections dst p e hp he).receive hw hm hI.replies).mono rfl (List.Subset.refl _)
    (Nat.le_refl _) fun _ _ _ _ h _ => h

theorem ElectionInv.voteFailed {host : String} (hI : c.ElectionInv) (h : c.voteFailed i host = some c') :
    c'.ElectionInv := by
  obtain ⟨p, e, hp, he, rfl⟩ := voteFailed_eq_some h
  refine hI.update hp rfl rfl (exec_identity (show p.node.exec (.markUnavailable host) = _ from rfl))
    (List.Subset.refl _) (Nat.le_refl _) (fun _ _ _ _ h _ => h) hI.rpcs hI.replies ?_ (fun w hw => .inl hw)
  intro e' he'
  simp only [Option.some.injEq] at he'
  subst he'
  exact (hI.elections i p e hp he).drop.mono rfl (List.Subset.refl _) (Nat.le_refl _) fun _ _ _ _ h _ => h

/-- A win records the self-vote and the counted voters of an election with a majority. -/
theorem ElectionInv.conclude (hI : c.ElectionInv) (h : c.conclude i = some c') : c'.ElectionInv := by
  obtain ⟨p, e, hp, he, -, ⟨n, won, hv, rfl⟩ | ⟨-, rfl⟩⟩ := conclude_eq_some h
  · have hid := exec_identity (show p.node.exec (.concludeElection e) = some n by simp [Node.exec, hv])
    have hok := hI.elections i p e hp he
    obtain ⟨hself, -⟩ := hI.shape i p hp
    refine hI.update hp rfl rfl hid (List.Subset.refl _) (Nat.le_refl _) (fun _ _ _ _ h _ => h)
      hI.rpcs hI.replies (fun e' he' => nomatch he') fun w hw => ?_
    dsimp only at hw
    split at hw
    · next hwon =>
      rcases List.mem_append.mp hw with hw | hw
      · exact .inl hw
      right
      rw [List.mem_singleton.mp hw]
      refine ⟨p.node.raftNode, hself, ⟨?_, ?_, ?_, ?_⟩⟩
      · rw [hid.1, List.nodup_cons]
        exact ⟨fun hx => ne_of_mem_otherIds (hok.peers _ (List.mem_append_left _ hx)) rfl,
          (List.nodup_append.mp hok.distinct).1⟩
      · intro x hx
        rw [hid.1] at hx
        rcases List.mem_cons.mp hx with rfl | hx
        · exact List.mem_map_of_mem _ (List.getElem?_mem hself)
        · exact mem_ids_of_mem_otherIds (hok.peers x (List.mem_append_left _ hx))
      · rcases concludeElection_cases hv with ⟨h1, -⟩ | ⟨h1, -⟩ | ⟨-, hmaj, -⟩
        · rw [hwon] at h1; cases h1
        · rw [hwon] at h1; cases h1
        · rw [List.length_cons, ← hok.numVotes, ← hok.majority]
          exact hmaj
      · intro x hx
        rw [hid.1] at hx
        rcases List.mem_cons.mp hx with rfl | hx
        · exact ⟨i, by rw [hself]; rfl, hok.selfVote⟩
        · exact hok.counted x hx
    · exact .inl hw
  · exact hI.crash hp ⟨rfl, rfl⟩

/-- `HandleAppend` sends an append reply with the request's RPC id. -/
theorem ElectionInv.handleAppendAt {rpc src dst : Nat} {req : AppendRequest} (hI : c.ElectionInv)
    (hm : Message.appendRequest rpc src dst req ∈ c.network)
    (h : c.handleAppendAt rpc src dst req = some c') : c'.ElectionInv := by
  obtain ⟨p, hp, ⟨n, reply, hv, rfl⟩ | ⟨-, rfl⟩⟩ := handleAppendAt_eq_some h
  · refine hI.keep hp rfl rfl (exec_identity (show p.node.exec (.handleAppend req) = some n by
      simp [Node.exec, hv])) rfl (Nat.le_refl _) (List.subset_append_left _ _) ?_ (.inl rfl) rfl
    intro m' hm' hc
    rw [List.mem_singleton.mp ((List.mem_append.mp hm').resolve_left hc)]
    exact ⟨trivial, hI.rpcs (.appendRequest rpc src dst req) hm⟩
  · refine hI.crash hp ?_
    rcases hpre : p.node.appendPrefix req with _ | ⟨n1, valid, matched⟩
    · exact ⟨rfl, rfl⟩
    · obtain ⟨h1, h2⟩ := appendPrefix_identity hpre
      exact ⟨h1, by simp [Option.map, hpre, Node.peerIds, h2]⟩

theorem ElectionInv.appendReplyAt {rpc dst : Nat} {reply : AppendReply} (hI : c.ElectionInv)
    (h : c.appendReplyAt rpc dst reply = some c') : c'.ElectionInv := by
  obtain ⟨p, n, w, ph, hp, -, -, rfl, host, hn⟩ := appendReplyAt_eq_some h
  rcases hn with ⟨idx, rfl⟩ | rfl | rfl
  · exact hI.ofExec hp (show p.node.exec (.appendSucceeded host idx) = _ from rfl) _
  · exact hI.ofExec hp (show p.node.exec (.backOff host) = _ from rfl) _
  · exact hI.ofExec hp (show p.node.exec (.markUnavailable host) = _ from rfl) _

theorem ElectionInv.deliver {k : Nat} (hI : c.ElectionInv) (h : c.deliver k = some c') : c'.ElectionInv := by
  obtain ⟨m, hm, h⟩ := deliver_eq_some h
  cases m with
  | voteRequest rpc src dst req => exact hI.handleVoteAt hm h
  | voteReply rpc src dst req reply => exact hI.voteReplyAt hm h
  | appendRequest rpc src dst req => exact hI.handleAppendAt hm h
  | appendReply rpc src dst reply => exact hI.appendReplyAt h

/-- `requestAppend` sends one append request, with a fresh RPC id. -/
theorem ElectionInv.requestAppend {host : String} (hI : c.ElectionInv) (h : c.requestAppend i host = some c') :
    c'.ElectionInv := by
  obtain ⟨p, w, num, calls, hp, -, -, rfl | rfl | ⟨dst, f, req, idx, -, -, -, -, rfl⟩⟩ :=
    requestAppend_eq_some h
  · exact hI.crash hp ⟨rfl, rfl⟩
  · exact hI.setWrite hp rfl rfl
  · refine hI.keep hp rfl rfl ⟨rfl, rfl⟩ rfl (Nat.le_add_right _ _) (List.subset_append_left _ _) ?_
      (.inl rfl) rfl
    intro m hm hc
    rw [List.mem_singleton.mp ((List.mem_append.mp hm).resolve_left hc)]
    exact ⟨trivial, Nat.lt_succ_self _⟩

theorem ElectionInv.step {ev : Event} (hI : c.ElectionInv) (h : c.step ev = some c') : c'.ElectionInv := by
  cases ev with
  | timeout i => exact hI.timeout h
  | deliver k => exact hI.deliver h
  | voteFailed i host => exact hI.voteFailed h
  | conclude i => exact hI.conclude h
  | write i action key value =>
    obtain ⟨p, hp, rfl⟩ := write_eq_some h
    exact hI.setWrite hp rfl rfl
  | lock i k =>
    obtain ⟨p, r, hp, -, ⟨-, rfl⟩ | ⟨-, rfl⟩⟩ := lock_eq_some h
    · exact hI.setWrite hp rfl rfl
    · exact hI.keep hp rfl rfl (exec_identity (show p.node.exec (.appendRecord _) = _ from rfl)) rfl
        (Nat.le_refl _) (List.Subset.refl _) (fun _ hm hc => absurd hm hc) (.inl rfl) rfl
  | sendAppend i =>
    obtain ⟨p, w, ph, hp, -, -, rfl⟩ := sendAppend_eq_some h
    exact hI.setWrite hp rfl rfl
  | requestAppend i host => exact hI.requestAppend h
  | appendFailed i host =>
    obtain ⟨p, w, ph, hp, -, -, rfl⟩ := appendFailed_eq_some h
    exact hI.ofExec hp (show p.node.exec (.markUnavailable host) = _ from rfl) _
  | join i =>
    obtain ⟨p, w, hp, -, -, rfl | ⟨n, w', -, hn, rfl⟩ | ⟨w', -, rfl⟩⟩ := join_eq_some h
    · exact hI.crash hp ⟨rfl, rfl⟩
    · exact hI.keep hp rfl rfl (exec_identity (show p.node.exec .commitRecords = some n from hn)) rfl
        (Nat.le_refl _) (List.Subset.refl _) (fun _ hm hc => absurd hm hc) (.inl rfl) rfl
    · exact hI.setWrite hp rfl rfl
  | restart i =>
    obtain ⟨p, hp, rfl⟩ := restart_eq_some h
    exact hI.crash hp ⟨rfl, rfl⟩
  | allowVote i =>
    obtain ⟨p, hp, rfl⟩ := allowVote_eq_some h
    exact hI.ofExec hp (show p.node.exec .allowVote = _ from rfl) p.write

theorem ElectionInv.run {evs : List Event} (hI : c.ElectionInv) (h : c.run evs = some c') :
    c'.ElectionInv := by
  induction evs generalizing c with
  | nil => exact Option.some.inj h ▸ hI
  | cons ev es ih =>
    obtain ⟨c1, h1, h2⟩ := Option.bind_eq_some.mp h
    exact ih (hI.step h1) h2

theorem electionInv_init {members : List Peer} (hn : (members.map (·.id)).Nodup) :
    (init members).ElectionInv where
  nodup := hn
  length := List.length_map _ _
  shape j p hp := by
    simp only [init, List.getElem?_map, Option.map_eq_some'] at hp
    obtain ⟨x, hx, rfl⟩ := hp
    refine ⟨hx, ?_⟩
    simp [Node.peerIds, otherIds, Function.comp_def]
    rfl
  rpcs m hm := nomatch hm
  replies _ _ _ _ _ hm := nomatch hm
  elections j p e hp he := by
    simp only [init, List.getElem?_map, Option.map_eq_some'] at hp
    obtain ⟨x, -, rfl⟩ := hp
    cases he
  wins w hw := nomatch hw

/-- With two members or more, every process has peers. -/
theorem ElectionInv.otherNodes_ne_nil (hE : c.ElectionInv) (h2 : 2 ≤ c.members.length) :
    ∀ p ∈ c.procs, p.node.otherNodes ≠ [] := by
  intro p hp
  obtain ⟨j, hj, rfl⟩ := List.getElem_of_mem hp
  obtain ⟨hm, hpeer⟩ := hE.shape j _ (List.getElem?_eq_getElem hj)
  have hl := otherIds_length hE.nodup (List.getElem?_mem hm)
  rw [ne_eq, ← peerIds_eq_nil, hpeer]
  intro h0
  rw [h0, List.length_nil] at hl
  omega

/-- Process 0 runs the election of term 1 and gets the vote of process 1.
Process 1 then wins term 2 with the vote of process 2 and writes, and its
append reaches process 0 before process 0's election concludes: `HandleAppend`
makes process 0 a Follower of term 2. Its call to process 2 then fails, and its
election concludes with the two votes it needs. -/
def steppedDownElection : List Event :=
  [.timeout 0, .deliver 0, .deliver 2,
   .timeout 1, .deliver 4, .deliver 5, .voteFailed 1 "a", .conclude 1,
   .write 1 .set "k" "v", .lock 1 0, .sendAppend 1, .requestAppend 1 "a", .deliver 6,
   .voteFailed 0 "c", .conclude 0]

/-- `DoElection` sets `State = Leader` on a majority without looking at `Term`
again, so process 0, which won term 1, ends Leader of term 2 beside process 1,
the one process that won term 2. -/
theorem leader_after_stepping_down_mid_election :
    ((init threePeers).run steppedDownElection).map (fun c =>
        (c.procs.map fun p => (p.node.state, p.node.term), c.wins.map fun w => (w.winner, w.term))) =
      some ([(.leader, 2), (.leader, 2), (.follower, 2)], [(1, 2), (0, 1)]) := by
  decide

/-- Process 0 wins term 1, commits `k=v` with the help of process 1 and applies
it. Process 2, whose log is empty, wins term 2 with the vote of process 1,
whose `CommitIndex` is still -1. Its own write `k=w` then replaces `k=v` on
process 1, and it commits and applies `k=w` at the same index. -/
def lostWrite : List Event :=
  [.timeout 0, .deliver 0, .deliver 2, .voteFailed 0 "c", .conclude 0,
   .write 0 .set "k" "v", .lock 0 0, .sendAppend 0, .requestAppend 0 "b", .deliver 3, .deliver 4,
   .requestAppend 0 "c", .appendFailed 0 "c", .join 0,
   .timeout 2, .voteFailed 2 "a", .voteFailed 2 "b", .conclude 2,
   .timeout 2, .deliver 9, .deliver 10, .voteFailed 2 "a", .conclude 2,
   .write 2 .set "k" "w", .lock 2 0, .sendAppend 2, .requestAppend 2 "b", .deliver 11, .deliver 12,
   .requestAppend 2 "a", .appendFailed 2 "a", .join 2]

/-- After the first 23 steps: process 0 is Leader of term 1 with `CommitIndex`
0 over `k=v`, and process 2 has become Leader of term 2 with an empty log. -/
theorem leader_elected_without_committed_entry :
    ((init threePeers).run (lostWrite.take 23)).map (fun c => c.procs.map fun p =>
        (p.node.state, p.node.term, p.node.commitIndex, p.node.log)) =
      some [(.leader, 1, 0, [⟨1, .set, "k", "v"⟩]), (.follower, 2, -1, [⟨1, .set, "k", "v"⟩]),
        (.leader, 2, -1, [])] := by
  decide

/-- Processes 0 and 2 apply different entries at index 0. -/
theorem different_entries_applied_at_one_index :
    ((init threePeers).run lostWrite).map (·.applied) =
      some [(⟨"a", "ca"⟩, 0, ⟨1, .set, "k", "v"⟩), (⟨"c", "cc"⟩, 0, ⟨2, .set, "k", "w"⟩)] := by
  decide

/-- Process 0, Leader of term 1, sends its write `k=v` to process 1 and waits.
Meanwhile process 2 wins term 2 and its append replaces the log of process 0
with `k=w`. The success reply of process 1 then arrives, and `SendAppend`
commits the log it now has. -/
def overwrittenWrite : List Event :=
  [.timeout 0, .deliver 0, .deliver 2, .voteFailed 0 "c", .conclude 0,
   .write 0 .set "k" "v", .lock 0 0, .sendAppend 0, .requestAppend 0 "b", .deliver 3,
   .timeout 2, .voteFailed 2 "a", .voteFailed 2 "b", .conclude 2,
   .timeout 2, .deliver 8, .deliver 9, .voteFailed 2 "a", .conclude 2,
   .write 2 .set "k" "w", .lock 2 0, .sendAppend 2, .requestAppend 2 "a", .deliver 10,
   .deliver 4, .requestAppend 0 "c", .join 0]

/-- `Set(k, v)` on process 0 returns nil at index 0, while `Log[0]` holds `k=w`. -/
theorem acknowledged_write_not_in_log :
    ((init threePeers).run overwrittenWrite).bind (fun c => c.procs.head?.bind fun p =>
        p.write.map fun w => (w.record, w.idx, w.phase, p.node.log, p.node.commitIndex)) =
      some (⟨1, .set, "k", "v"⟩, 0, .returned none, [⟨2, .set, "k", "w"⟩], 0) := by
  decide

end Cluster

end LeifDb
