import LeifDb.Transitions

/-! Each process votes at most once per term, across crashes. A vote is a
granted `VoteReply` or the self-vote of `DoElection`. It rests on two things:
`SetTerm` writes the term record before any reply goes out, and `Term` never
falls below a term the node voted in. The second holds only while no term
reaches the largest `int64`, where `Term+1` wraps, so the runs considered are
those in which every message carries a term below it. A process without
peers sends nothing and never grants a vote; it only votes for itself, and
its term may wrap. -/
namespace LeifDb

namespace Node

variable {n n' m : Node} {v : Vote}

/-- What the node's state says about a vote it cast. While it has peers, the
vote is at most at the current term, and at the current term it is the vote on
record; without peers it is a vote for itself. -/
def VoteBacked (n : Node) (v : Vote) : Prop :=
  (n.otherNodes ≠ [] → v.term ≤ n.term ∧ (v.term = n.term → n.votedFor = some v.candidate)) ∧
  (n.otherNodes = [] → v.candidate = n.raftNode)

/-- The bound every node with peers keeps in the runs considered. -/
def TermBelowMax (n : Node) : Prop := n.otherNodes ≠ [] → 0 ≤ n.term ∧ n.term < maxInt64

/-- A change of one node, as far as its votes are concerned. -/
structure VoteStep (n n' : Node) : Prop where
  raftNode : n'.raftNode = n.raftNode
  peerIds : n'.peerIds = n.peerIds
  advance : n.otherNodes ≠ [] → TermAdvance n n'

/-- A change that keeps the node, its peers and, while it has peers, its term record. -/
def SameRecord (n n' : Node) : Prop :=
  n'.raftNode = n.raftNode ∧ n'.peerIds = n.peerIds ∧
    (n.otherNodes ≠ [] → n'.term = n.term ∧ n'.votedFor = n.votedFor ∧ n'.termFile = n.termFile)

theorem otherNodes_eq_nil_congr (h : n'.peerIds = n.peerIds) : n'.otherNodes = [] ↔ n.otherNodes = [] := by
  rw [← peerIds_eq_nil, ← peerIds_eq_nil, h]

theorem otherNodes_ne_nil_of_peerIds (h : n'.peerIds = n.peerIds) (hn : n'.otherNodes ≠ []) :
    n.otherNodes ≠ [] :=
  fun h0 => hn ((otherNodes_eq_nil_congr h).mpr h0)

theorem VoteStep.backed (h : VoteStep n n') (hv : n.VoteBacked v) : n'.VoteBacked v := by
  refine ⟨fun hn => ?_, fun hn => h.raftNode ▸ hv.2 ((otherNodes_eq_nil_congr h.peerIds).mp hn)⟩
  have hn0 := otherNodes_ne_nil_of_peerIds h.peerIds hn
  obtain ⟨hle, heq⟩ := hv.1 hn0
  rcases h.advance hn0 with ⟨ht, hvf, -⟩ | ⟨hlt, -⟩
  · rw [ht, hvf]; exact ⟨hle, heq⟩
  · exact ⟨by omega, fun h => by omega⟩

theorem SameRecord.voteStep (h : SameRecord n n') : VoteStep n n' :=
  ⟨h.1, h.2.1, fun hn => .rfl' (h.2.2 hn).1 (h.2.2 hn).2.1 (h.2.2 hn).2.2⟩

theorem SameRecord.belowMax (h : SameRecord n n') (hb : n.TermBelowMax) : n'.TermBelowMax := by
  intro hn
  have hn0 := otherNodes_ne_nil_of_peerIds h.2.1 hn
  rw [(h.2.2 hn0).1]; exact hb hn0

theorem SameRecord.persisted (h : SameRecord n n') (hp : n.otherNodes ≠ [] → n.Persisted) :
    n'.otherNodes ≠ [] → n'.Persisted := by
  intro hn
  have hn0 := otherNodes_ne_nil_of_peerIds h.2.1 hn
  obtain ⟨h1, h2, h3⟩ := h.2.2 hn0
  have := hp hn0
  unfold Persisted at *
  rw [h1, h2, h3, this]

/-- A restart reads back the record a node with peers has on disk. -/
theorem SameRecord.restart (h : SameRecord n m) (hp : n.otherNodes ≠ [] → n.Persisted) :
    SameRecord n m.restart := by
  refine ⟨by rw [restart_raftNode, h.1], by rw [restart_peerIds, h.2.1], fun hn => ?_⟩
  obtain ⟨h1, h2, h3⟩ := h.2.2 hn
  have hp := hp hn
  unfold Persisted at hp
  simp only [Node.restart, load_term, load_votedFor, load_termFile, h3, hp, and_self]

theorem SameRecord.rfl' : SameRecord n n := ⟨rfl, rfl, fun _ => ⟨rfl, rfl, rfl⟩⟩

theorem exec_voteStep {op : Op} (hb : n.TermBelowMax) (h : n.exec op = some n') : VoteStep n n' where
  raftNode := (exec_identity h).1
  peerIds := (exec_identity h).2
  advance hn := by
    obtain ⟨h0, h1⟩ := hb hn
    exact exec_termAdvance ⟨by omega, Int.le_of_lt h1⟩ h1 h

theorem exec_sameRecord {op : Op} (h : n.exec op = some n')
    (hs : n'.term = n.term ∧ n'.votedFor = n.votedFor ∧ n'.termFile = n.termFile) : SameRecord n n' :=
  ⟨(exec_identity h).1, (exec_identity h).2, fun _ => hs⟩

theorem setAvailable_sameRecord (host : String) (b : Bool) : SameRecord n (n.setAvailable host b) :=
  exec_sameRecord (show n.exec (.voteReturned host b) = _ from rfl) ⟨rfl, rfl, rfl⟩

theorem checkForeignNode_ne_nil {addr : String} (h : checkForeignNode addr n.otherNodes) :
    n.otherNodes ≠ [] := by
  intro h0; simp [checkForeignNode, h0] at h

theorem appendPrefix_sameRecord {rq : AppendRequest} {valid matched : Bool}
    (h : n.appendPrefix rq = some (n', valid, matched)) : SameRecord n n' := by
  obtain ⟨h1, h2⟩ := appendPrefix_identity h
  exact ⟨h1, by rw [peerIds, peerIds, h2], fun _ => appendPrefix_same h⟩

end Node

namespace Cluster

open Node

variable {c c' : Cluster} {i : Nat} {p p' : Proc}

theorem hostIndex_congr (h : c'.members = c.members) : c'.hostIndex = c.hostIndex := by
  funext host; unfold hostIndex; rw [h]

theorem getElem?_set_of_getElem? {α : Type} {l : List α} {a b : α} (h : l[i]? = some a) (j : Nat) :
    (l.set i b)[j]? = if i = j then some b else l[j]? := by
  rw [List.getElem?_set]
  split_ifs with h1 h2
  · rfl
  · exact absurd (List.getElem?_eq_some_iff.mp h).1 h2
  · rfl

/-- What each process keeps, relative to the cluster's members and the messages sent. -/
structure ProcOK (c : Cluster) (p : Proc) : Prop where
  persisted : p.node.otherNodes ≠ [] → p.node.Persisted
  belowMax : p.node.TermBelowMax
  known : ∀ h ∈ p.node.peerIds, c.hostIndex h ≠ none
  /-- The highest term an election saw came from a reply, unless it is no news. -/
  maxSeen : ∀ e, p.election = some e → p.node.otherNodes ≠ [] →
    e.maxTermSeen ≤ p.node.term ∨ ∃ m ∈ c.network, m.term = e.maxTermSeen

structure VoteInv (c : Cluster) : Prop where
  procs : ∀ p ∈ c.procs, c.ProcOK p
  backed : ∀ v ∈ c.votes, ∃ p, c.procs[v.voter]? = some p ∧ p.node.VoteBacked v
  unique : ∀ v ∈ c.votes, ∀ w ∈ c.votes, v.voter = w.voter → v.term = w.term → v.candidate = w.candidate

theorem ProcOK.mono (h : c.ProcOK p) (hm : c'.members = c.members)
    (hn : c.network ⊆ c'.network) : c'.ProcOK p where
  persisted := h.persisted
  belowMax := h.belowMax
  known := by rw [hostIndex_congr hm]; exact h.known
  maxSeen e he hn0 := (h.maxSeen e he hn0).imp_right fun ⟨m, hm, ht⟩ => ⟨m, hn hm, ht⟩

/-- How an election's highest term seen may move: not at all, or to the term of a reply. -/
def MaxSeenStep (c : Cluster) (p p' : Proc) : Prop :=
  ∀ e', p'.election = some e' → ∃ e, p.election = some e ∧
    (e'.maxTermSeen = e.maxTermSeen ∨ ∃ m ∈ c.network, m.term = e'.maxTermSeen)

theorem maxSeenStep_of_eq (h : p'.election = p.election) : c.MaxSeenStep p p' :=
  fun e' he' => ⟨e', h ▸ he', .inl rfl⟩

/-- A process that keeps its record, with an election that keeps its highest term seen. -/
theorem ProcOK.of_sameRecord (h : c.ProcOK p) (hs : SameRecord p.node p'.node)
    (he : c.MaxSeenStep p p') : c.ProcOK p' where
  persisted := hs.persisted h.persisted
  belowMax := hs.belowMax h.belowMax
  known := hs.2.1 ▸ h.known
  maxSeen e' he' hn := by
    obtain ⟨e, he, hmax | hmsg⟩ := he e' he'
    · have hn0 := otherNodes_ne_nil_of_peerIds hs.2.1 hn
      rw [hmax, (hs.2.2 hn0).1]
      exact h.maxSeen e he hn0
    · exact .inr hmsg

/-- A handler whose reply carries the node's new term, on a network where every term is below the largest. -/
theorem ProcOK.of_reply (h : c.ProcOK p) (hs : VoteStep p.node p'.node) (hel : p'.election = p.election)
    (hm : c'.members = c.members) (hn : c.network ⊆ c'.network)
    (hr : ∃ m ∈ c'.network, m.term = p'.node.term) (hb : ∀ m ∈ c'.network, m.term < maxInt64) :
    c'.ProcOK p' where
  persisted hn' :=
    have hn0 := otherNodes_ne_nil_of_peerIds hs.peerIds hn'
    (hs.advance hn0).persisted (h.persisted hn0)
  belowMax hn' := by
    have hn0 := otherNodes_ne_nil_of_peerIds hs.peerIds hn'
    obtain ⟨m, hm, ht⟩ := hr
    have := (hs.advance hn0).term_le
    have := h.belowMax hn0
    have := hb m hm
    omega
  known := by rw [hostIndex_congr hm, hs.peerIds]; exact h.known
  maxSeen e he hn' := by
    have hn0 := otherNodes_ne_nil_of_peerIds hs.peerIds hn'
    have := (hs.advance hn0).term_le
    rcases h.maxSeen e (hel ▸ he) hn0 with h1 | ⟨m, hm, ht⟩
    · exact .inl (by omega)
    · exact .inr ⟨m, hn hm, ht⟩

/-- The frame of every step: one process moves, the vote history grows by
votes of that process that are backed and do not contradict an earlier one. -/
theorem VoteInv.update {l : List Vote} (hI : c.VoteInv) (hp : c.procs[i]? = some p)
    (hm : c'.members = c.members) (hprocs : c'.procs = c.procs.set i p')
    (hn : c.network ⊆ c'.network) (hok : c'.ProcOK p') (hs : VoteStep p.node p'.node)
    (hvotes : c'.votes = c.votes ++ l)
    (hnew : ∀ v ∈ l, v.voter = i ∧ p'.node.VoteBacked v ∧
      ∀ w ∈ c.votes ++ l, w.voter = i → w.term = v.term → w.candidate = v.candidate) :
    c'.VoteInv where
  procs q hq := by
    rw [hprocs] at hq
    rcases List.mem_or_eq_of_mem_set hq with hq | rfl
    · exact (hI.procs q hq).mono hm hn
    · exact hok
  backed v hv := by
    rw [hprocs, getElem?_set_of_getElem? hp]
    rw [hvotes, List.mem_append] at hv
    rcases hv with hv | hv
    · obtain ⟨q, hq, hb⟩ := hI.backed v hv
      split_ifs with hvi
      · subst hvi
        rw [hp] at hq
        cases hq
        exact ⟨p', rfl, hs.backed hb⟩
      · exact ⟨q, hq, hb⟩
    · obtain ⟨rfl, hb, -⟩ := hnew v hv
      exact ⟨p', by rw [if_pos rfl], hb⟩
  unique v hv w hw hvw htw := by
    rw [hvotes] at hv hw
    by_cases hv' : v ∈ l
    · obtain ⟨hvi, -, hu⟩ := hnew v hv'
      exact (hu w hw (hvw.symm.trans hvi) htw.symm).symm
    by_cases hw' : w ∈ l
    · obtain ⟨hwi, -, hu⟩ := hnew w hw'
      exact hu v hv (hvw.trans hwi) htw
    · exact hI.unique v (by simpa [hv'] using hv) w (by simpa [hw'] using hw) hvw htw

/-- A step in which one process keeps its record and no vote is cast. -/
theorem VoteInv.keep (hI : c.VoteInv) (hp : c.procs[i]? = some p)
    (hm : c'.members = c.members) (hprocs : c'.procs = c.procs.set i p')
    (hn : c.network ⊆ c'.network) (hvotes : c'.votes = c.votes) (hs : SameRecord p.node p'.node)
    (he : c.MaxSeenStep p p') : c'.VoteInv :=
  hI.update (l := []) hp hm hprocs hn
    (((hI.procs p (List.getElem?_mem hp)).of_sameRecord hs he).mono hm hn) hs.voteStep
    (by rw [hvotes, List.append_nil]) (by simp)

/-- A step that moves one process, which keeps its record, and sends nothing. -/
theorem VoteInv.setProc (hI : c.VoteInv) (hp : c.procs[i]? = some p) (hs : SameRecord p.node p'.node)
    (he : c.MaxSeenStep p p') : (c.setProc i p').VoteInv :=
  hI.keep hp rfl rfl (List.Subset.refl _) rfl hs he

theorem VoteInv.backed_of_voter (hI : c.VoteInv) (hp : c.procs[i]? = some p) {w : Vote} (hw : w ∈ c.votes)
    (hwi : w.voter = i) : p.node.VoteBacked w := by
  obtain ⟨q, hq, hb⟩ := hI.backed w hw
  rw [hwi, hp, Option.some.injEq] at hq
  exact hq ▸ hb

/-- A vote of process `i` above its term, or for itself while it has no peers,
contradicts none before it. -/
theorem VoteInv.new_vote_unique (hI : c.VoteInv) (hp : c.procs[i]? = some p) {v : Vote}
    (hnew : p.node.otherNodes ≠ [] → p.node.term < v.term)
    (hself : p.node.otherNodes = [] → v.candidate = p.node.raftNode) :
    ∀ w ∈ c.votes ++ [v], w.voter = i → w.term = v.term → w.candidate = v.candidate := by
  intro w hw hwi hwt
  rcases List.mem_append.mp hw with hw | hw
  · have hbk := hI.backed_of_voter hp hw hwi
    by_cases hn : p.node.otherNodes = []
    · rw [hbk.2 hn, hself hn]
    · have := (hbk.1 hn).1
      have := hnew hn
      omega
  · rw [List.mem_singleton.mp hw]

/-- A crash: the process starts again from the files of `m`, which holds the record it had. -/
theorem VoteInv.crash {m : Node} (hI : c.VoteInv) (hp : c.procs[i]? = some p)
    (hs : SameRecord p.node m) : (c.crash i m).VoteInv :=
  hI.keep hp rfl rfl (List.Subset.refl _) rfl
    (hs.restart (hI.procs p (List.getElem?_mem hp)).persisted) fun _ h => nomatch h

theorem voteRequests_term {n : Node} (hn : n.otherNodes ≠ []) (hk : ∀ h ∈ n.peerIds, c.hostIndex h ≠ none) :
    ∃ m ∈ c.voteRequests i n, m.term = n.term := by
  obtain ⟨⟨h, f⟩, rest, hcons⟩ := List.exists_cons_of_ne_nil hn
  obtain ⟨d, hd⟩ := Option.ne_none_iff_exists'.mp (hk h (by simp [peerIds, hcons]))
  refine ⟨.voteRequest c.nextRpc i d n.voteRequest, List.mem_filterMap.mpr ⟨(h, c.nextRpc), ?_, ?_⟩, rfl⟩
  · simp [voteCalls, hcons, List.range'_succ]
  · simp [hd]

/-- `DoElection` starts: the new term is carried by the requests, and the self-vote is new. -/
theorem VoteInv.timeout (hI : c.VoteInv) (h : c.timeout i = some c')
    (hb : ∀ m ∈ c'.network, m.term < maxInt64) : c'.VoteInv := by
  obtain ⟨p, hp, -, rfl⟩ := timeout_eq_some h
  have hok := hI.procs p (List.getElem?_mem hp)
  have hstep : VoteStep p.node p.node.startElection :=
    exec_voteStep hok.belowMax (show p.node.exec .startElection = _ from rfl)
  have hsucc (hn : p.node.otherNodes ≠ []) : p.node.startElection.term = p.node.term + 1 := by
    have := hok.belowMax hn
    exact wrap64_succ ⟨by omega, Int.le_of_lt this.2⟩ this.2
  refine hI.update (l := [⟨i, p.node.startElection.term, p.node.raftNode⟩]) hp rfl rfl
    (List.subset_append_left _ _) ⟨fun _ => rfl, fun hn => ?_, hok.known, ?_⟩ hstep rfl ?_
  · obtain ⟨m, hm, ht⟩ := voteRequests_term (i := i) hn hok.known
    have := hb m (List.mem_append_right _ hm)
    have := hok.belowMax hn
    rw [hsucc hn] at ht ⊢
    omega
  · rintro e he -
    simp only [Option.some.injEq] at he
    exact .inl (he ▸ Int.le_refl _)
  · intro v hv
    obtain rfl := List.mem_singleton.mp hv
    refine ⟨rfl, ⟨fun _ => ⟨Int.le_refl _, fun _ => rfl⟩, fun _ => rfl⟩,
      hI.new_vote_unique hp (fun hn => ?_) fun _ => rfl⟩
    dsimp only
    rw [hsucc hn]
    omega

/-- `HandleVote` on a delivered request: a vote it grants is at a term above every earlier one. -/
theorem VoteInv.handleVoteAt {rpc src dst : Nat} {req : VoteRequest} (hI : c.VoteInv)
    (h : c.handleVoteAt rpc src dst req = some c') (hb : ∀ m ∈ c'.network, m.term < maxInt64) :
    c'.VoteInv := by
  obtain ⟨p, hp, ⟨n, reply, hv, rfl⟩ | ⟨-, rfl⟩⟩ := handleVoteAt_eq_some h
  · have hok := hI.procs p (List.getElem?_mem hp)
    obtain ⟨hd, hr⟩ := handleVote_eq_some hv
    have hstep : VoteStep p.node n :=
      exec_voteStep hok.belowMax (show p.node.exec (.handleVote req) = some n by simp [exec, hv])
    have hmsg : ∃ m ∈ c.network ++ [.voteReply rpc dst src req reply], m.term = n.term :=
      ⟨_, List.mem_append_right _ (List.mem_singleton_self _), by rw [hr]; rfl⟩
    cases hg : reply.voteGranted
    · exact hI.update (l := []) hp rfl rfl (List.subset_append_left _ _)
        (hok.of_reply hstep rfl rfl (List.subset_append_left _ _) hmsg hb) hstep (by simp [hg]) (by simp)
    · rw [hg] at hd
      rcases voteDecision_cases hd with ⟨h1, -⟩ | ⟨h1, -⟩ | ⟨-, hlt, hk, rfl⟩
      · cases h1
      · cases h1
      have hn := checkForeignNode_ne_nil hk
      refine hI.update (l := [⟨dst, req.term, req.candidate⟩]) hp rfl rfl (List.subset_append_left _ _)
        (hok.of_reply hstep rfl rfl (List.subset_append_left _ _) hmsg hb) hstep (by simp [hg]) ?_
      intro v hv
      obtain rfl := List.mem_singleton.mp hv
      exact ⟨rfl, ⟨fun _ => ⟨Int.le_refl _, fun _ => rfl⟩, fun h0 => absurd h0 hn⟩,
        hI.new_vote_unique hp (fun _ => hlt) fun h0 => absurd h0 hn⟩
  · exact hI.crash hp .rfl'

theorem VoteInv.handleAppendAt {rpc src dst : Nat} {req : AppendRequest} (hI : c.VoteInv)
    (h : c.handleAppendAt rpc src dst req = some c') (hb : ∀ m ∈ c'.network, m.term < maxInt64) :
    c'.VoteInv := by
  obtain ⟨p, hp, ⟨n, reply, hv, rfl⟩ | ⟨-, rfl⟩⟩ := handleAppendAt_eq_some h
  · have hok := hI.procs p (List.getElem?_mem hp)
    have hstep : VoteStep p.node n :=
      exec_voteStep hok.belowMax (show p.node.exec (.handleAppend req) = some n by simp [exec, hv])
    obtain ⟨n1, v1, m1, -, n2, -, -, hr⟩ := handleAppend_spec hv
    exact hI.update (l := []) hp rfl rfl (List.subset_append_left _ _)
      (hok.of_reply hstep rfl rfl (List.subset_append_left _ _)
        ⟨_, List.mem_append_right _ (List.mem_singleton_self _), by rw [hr]; rfl⟩ hb)
      hstep (by simp) (by simp)
  · refine hI.crash hp ?_
    rcases hpre : p.node.appendPrefix req with _ | ⟨n1, valid, matched⟩
    · exact .rfl'
    · exact appendPrefix_sameRecord hpre

/-- A reply reaches the election waiting for it; its term may become the highest seen. -/
theorem VoteInv.voteReplyAt {rpc dst : Nat} {reply : VoteReply} (hI : c.VoteInv)
    (h : c.voteReplyAt rpc dst reply = some c') (hr : ∃ m ∈ c.network, m.term = reply.term) :
    c'.VoteInv := by
  obtain ⟨p, e, host, hp, he, -, rfl⟩ := voteReplyAt_eq_some h
  refine hI.setProc hp (setAvailable_sameRecord host true) ?_
  rintro e' he'
  simp only [Option.some.injEq] at he'
  subst he'
  exact ⟨e, he, (Election.receive_maxTermSeen e host reply).imp id fun h => by rw [h]; exact hr⟩

theorem VoteInv.appendReplyAt {rpc dst : Nat} {reply : AppendReply} (hI : c.VoteInv)
    (h : c.appendReplyAt rpc dst reply = some c') : c'.VoteInv := by
  obtain ⟨p, n, w, ph, hp, -, -, rfl, host, hn⟩ := appendReplyAt_eq_some h
  refine hI.setProc hp ?_ (maxSeenStep_of_eq rfl)
  rcases hn with ⟨idx, rfl⟩ | rfl | rfl
  · exact exec_sameRecord (show p.node.exec (.appendSucceeded host idx) = _ from rfl) ⟨rfl, rfl, rfl⟩
  · exact exec_sameRecord (show p.node.exec (.backOff host) = _ from rfl) ⟨rfl, rfl, rfl⟩
  · exact setAvailable_sameRecord host false

theorem VoteInv.deliver {k : Nat} (hI : c.VoteInv) (h : c.deliver k = some c')
    (hb : ∀ m ∈ c'.network, m.term < maxInt64) : c'.VoteInv := by
  obtain ⟨m, hm, h⟩ := deliver_eq_some h
  cases m with
  | voteRequest rpc src dst req => exact hI.handleVoteAt h hb
  | voteReply rpc src dst req reply => exact hI.voteReplyAt h ⟨_, hm, rfl⟩
  | appendRequest rpc src dst req => exact hI.handleAppendAt h hb
  | appendReply rpc src dst reply => exact hI.appendReplyAt h

/-- `DoElection` concludes: a lost election adopts the highest term a reply carried. -/
theorem VoteInv.conclude (hI : c.VoteInv) (h : c.conclude i = some c')
    (hb : ∀ m ∈ c'.network, m.term < maxInt64) : c'.VoteInv := by
  obtain ⟨p, e, hp, he, -, ⟨n, won, hv, rfl⟩ | ⟨-, rfl⟩⟩ := conclude_eq_some h
  · have hok := hI.procs p (List.getElem?_mem hp)
    have hstep : VoteStep p.node n :=
      exec_voteStep hok.belowMax (show p.node.exec (.concludeElection e) = some n by simp [exec, hv])
    refine hI.update (l := []) hp rfl rfl (List.Subset.refl _) ⟨fun hn => ?_, fun hn => ?_, ?_, ?_⟩
      hstep (by simp) (by simp)
    · have hn0 := otherNodes_ne_nil_of_peerIds hstep.peerIds hn
      exact (hstep.advance hn0).persisted (hok.persisted hn0)
    · have hn0 := otherNodes_ne_nil_of_peerIds hstep.peerIds hn
      have hb0 := hok.belowMax hn0
      show 0 ≤ n.term ∧ n.term < maxInt64
      rcases concludeElection_cases hv with ⟨-, hn1⟩ | ⟨-, hlt, src, -, hn1⟩ | ⟨-, -, hn1⟩ <;> rw [hn1]
      · exact hb0
      · rcases hok.maxSeen e he hn0 with hle | ⟨m, hm, ht⟩
        · omega
        · have := hb m hm
          simp only [setTerm_term]
          omega
      · exact hb0
    · dsimp only
      rw [hostIndex_congr rfl, hstep.peerIds]; exact hok.known
    · intro e' he'; cases he'
  · exact hI.crash hp .rfl'

theorem VoteInv.voteFailed {host : String} (hI : c.VoteInv) (h : c.voteFailed i host = some c') :
    c'.VoteInv := by
  obtain ⟨p, e, hp, he, rfl⟩ := voteFailed_eq_some h
  refine hI.setProc hp (setAvailable_sameRecord host false) ?_
  rintro e' he'
  simp only [Option.some.injEq] at he'
  exact ⟨e, he, .inl (he' ▸ rfl)⟩

theorem VoteInv.lock {k : Nat} (hI : c.VoteInv) (h : c.lock i k = some c') : c'.VoteInv := by
  obtain ⟨p, r, hp, -, ⟨-, rfl⟩ | ⟨-, rfl⟩⟩ := lock_eq_some h
  · exact hI.setProc hp .rfl' (maxSeenStep_of_eq rfl)
  · exact hI.keep hp rfl rfl (List.Subset.refl _) rfl
      (exec_sameRecord (show p.node.exec (.appendRecord _) = _ from rfl) ⟨rfl, rfl, rfl⟩)
      (maxSeenStep_of_eq rfl)

theorem VoteInv.requestAppend {host : String} (hI : c.VoteInv) (h : c.requestAppend i host = some c') :
    c'.VoteInv := by
  obtain ⟨p, w, num, calls, hp, -, -, rfl | rfl | ⟨dst, f, req, idx, -, -, -, -, rfl⟩⟩ :=
    requestAppend_eq_some h
  · exact hI.crash hp .rfl'
  · exact hI.setProc hp .rfl' (maxSeenStep_of_eq rfl)
  · exact hI.keep hp rfl rfl (List.subset_append_left _ _) rfl .rfl' (maxSeenStep_of_eq rfl)

theorem VoteInv.join (hI : c.VoteInv) (h : c.join i = some c') : c'.VoteInv := by
  obtain ⟨p, w, hp, -, -, rfl | ⟨n, w', -, hn, rfl⟩ | ⟨w', -, rfl⟩⟩ := join_eq_some h
  · exact hI.crash hp .rfl'
  · exact hI.keep hp rfl rfl (List.Subset.refl _) rfl
      (exec_sameRecord (show p.node.exec .commitRecords = _ from hn) (commitRecords_same hn))
      (maxSeenStep_of_eq rfl)
  · exact hI.setProc hp .rfl' (maxSeenStep_of_eq rfl)

theorem VoteInv.step {e : Event} (hI : c.VoteInv) (h : c.step e = some c')
    (hb : ∀ m ∈ c'.network, m.term < maxInt64) : c'.VoteInv := by
  cases e with
  | timeout i => exact hI.timeout h hb
  | deliver k => exact hI.deliver h hb
  | voteFailed i host => exact hI.voteFailed h
  | conclude i => exact hI.conclude h hb
  | write i action key value =>
    obtain ⟨p, hp, rfl⟩ := write_eq_some h
    exact hI.setProc hp .rfl' (maxSeenStep_of_eq rfl)
  | lock i k => exact hI.lock h
  | sendAppend i =>
    obtain ⟨p, w, ph, hp, -, -, rfl⟩ := sendAppend_eq_some h
    exact hI.setProc hp .rfl' (maxSeenStep_of_eq rfl)
  | requestAppend i host => exact hI.requestAppend h
  | appendFailed i host =>
    obtain ⟨p, w, ph, hp, -, -, rfl⟩ := appendFailed_eq_some h
    exact hI.setProc hp (setAvailable_sameRecord host false) (maxSeenStep_of_eq rfl)
  | join i => exact hI.join h
  | restart i =>
    obtain ⟨p, hp, rfl⟩ := restart_eq_some h
    exact hI.crash hp .rfl'
  | allowVote i =>
    obtain ⟨p, hp, rfl⟩ := allowVote_eq_some h
    exact hI.setProc hp (exec_sameRecord (show p.node.exec .allowVote = _ from rfl) ⟨rfl, rfl, rfl⟩)
      (maxSeenStep_of_eq rfl)

theorem VoteInv.run {evs : List Event} (hI : c.VoteInv) (h : c.run evs = some c')
    (hb : ∀ m ∈ c'.network, m.term < maxInt64) : c'.VoteInv := by
  induction evs generalizing c with
  | nil => exact Option.some.inj h ▸ hI
  | cons e es ih =>
    obtain ⟨c1, h1, h2⟩ := Option.bind_eq_some.mp h
    exact ih (hI.step h1 fun m hm => hb m ((run_frame h2).2.1 hm)) h2

theorem hostIndex_of_mem {members : List Peer} {c : Cluster} (hc : c.members = members) {x : Peer}
    (hx : x ∈ members) : c.hostIndex x.id ≠ none := by
  rw [hostIndex, hc, ne_eq, ← Option.not_isSome_iff_eq_none, not_not, List.findIdx?_isSome,
    List.any_eq_true]
  exact ⟨x, hx, by simp⟩

theorem voteInv_init (members : List Peer) : (init members).VoteInv where
  procs p hp := by
    simp only [init, List.mem_map] at hp
    obtain ⟨x, -, rfl⟩ := hp
    refine ⟨fun _ => rfl, fun _ => ⟨Int.le_refl 0, show (0 : Int) < maxInt64 by decide⟩, ?_,
      fun e he => nomatch he⟩
    simp only [peerIds, load_otherNodes, List.map_map, Function.comp_def, List.map_id', List.mem_map,
      List.mem_filter]
    rintro _ ⟨y, ⟨hy, -⟩, rfl⟩
    exact hostIndex_of_mem rfl hy
  backed v hv := nomatch hv
  unique v hv := nomatch hv

/-- Each process votes for at most one candidate per term, across crashes and
restarts, in every run whose messages all carry a term below the largest
`int64`. -/
theorem one_vote_per_term {members : List Peer} {evs : List Event} {c : Cluster}
    (hr : (init members).run evs = some c) (hb : ∀ m ∈ c.network, m.term < maxInt64)
    {v w : Vote} (hv : v ∈ c.votes) (hw : w ∈ c.votes) (hvw : v.voter = w.voter)
    (ht : v.term = w.term) : v.candidate = w.candidate :=
  ((voteInv_init members).run hr hb).unique v hv w hw hvw ht

theorem one_vote_per_term_in_first_election :
    ∃ c, (init threePeers).run [.timeout 0, .deliver 0, .deliver 2] = some c ∧
      (∀ m ∈ c.network, m.term < maxInt64) ∧ (⟨1, 1, ⟨"a", "ca"⟩⟩ : Vote) ∈ c.votes ∧
      (⟨1, 1, ⟨"a", "ca"⟩⟩ : Vote).candidate = (⟨1, 1, ⟨"a", "ca"⟩⟩ : Vote).candidate :=
  ⟨_, rfl, by decide, by decide, @one_vote_per_term threePeers [.timeout 0, .deliver 0, .deliver 2] _ rfl
    (by decide) _ _ (by decide) (by decide) rfl rfl⟩

end Cluster

end LeifDb
