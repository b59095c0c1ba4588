import LeifDb.Process
import LeifDb.Elections

/-! Terms on the wire. Every message a step sends carries the term its sender
has after the step: a vote request the candidate's new term, a reply the term
of the node that answers, and an append request the term of the write, which
the escape hatch has just found equal to the Leader's (`step_sent`). In runs
where every term on the wire stays below the largest `int64`, no process's
term goes back: an operation keeps it or raises it, and a restart reads back
the term file, which holds it (`NodeStep.term_le`). So along any such run,
crashes included, no process's term goes back (`process_term_never_decreases`),
and no message carries a term above the current term of the process that sent
it (`message_term_le_sender_term`). -/
namespace LeifDb

/-- The process that sent the message; for a reply, the one that answered. -/
def Message.sender : Message → Nat
  | .voteRequest _ src _ _ => src
  | .voteReply _ src _ _ _ => src
  | .appendRequest _ src _ _ => src
  | .appendReply _ src _ _ => src

namespace Node

variable {n n' : Node}

theorem appendRequest_term {term idx : Int} {f : ForeignNode} {req : AppendRequest}
    (h : n.appendRequest term f = some (req, idx)) : req.term = term := by
  unfold appendRequest at h
  obtain ⟨_, -, h⟩ := Option.bind_eq_some.mp h
  dsimp only at h
  split at h <;> obtain ⟨_, -, h⟩ := Option.bind_eq_some.mp h <;> cases h <;> rfl

theorem escapeHatch_eq_none {term : Int} (h : n.escapeHatch term = none) : term = n.term := by
  unfold escapeHatch at h
  split_ifs at h with h1 h2
  exact not_not.mp h2

/-- A step keeps the term of a node with peers below the bound, or raises it;
a restart reads it back from the term file. -/
theorem NodeStep.term_le (h : NodeStep n n') (hp : n.Persisted) (hb : n.TermBelowMax) (hn : n.otherNodes ≠ []) :
    n.term ≤ n'.term := by
  rcases h with rfl | ⟨op, h⟩ | ⟨m, hm, rfl⟩
  · exact le_refl _
  · exact ((exec_voteStep hb h).advance hn).term_le
  · rw [show m.restart.term = m.termFile.term from rfl, hm, hp]

end Node

namespace Cluster

open Node

variable {c c' : Cluster}

/-- Each message a step sends carries the term its sender has after the step. -/
theorem step_sent {e : Event} (h : c.step e = some c') {m : Message} (hm : m ∈ c'.network)
    (hnew : m ∉ c.network) : ∃ p, c'.procs[m.sender]? = some p ∧ m.term = p.node.term := by
  have set {i : Nat} {p q : Proc} (hp : c.procs[i]? = some p) : (c.procs.set i q)[i]? = some q :=
    (getElem?_set_of_getElem? hp i).trans (if_pos rfl)
  cases e with
  | timeout i =>
    obtain ⟨p, hp, -, rfl⟩ := timeout_eq_some h
    obtain ⟨call, -, d, -, rfl⟩ := mem_voteRequests ((List.mem_append.mp hm).resolve_left hnew)
    exact ⟨_, set hp, rfl⟩
  | deliver k =>
    obtain ⟨m0, -, h⟩ := deliver_eq_some h
    cases m0 with
    | voteRequest rpc src dst req =>
      obtain ⟨p, hp, ⟨n, r, hv, rfl⟩ | ⟨-, rfl⟩⟩ := handleVoteAt_eq_some h
      · obtain rfl := List.mem_singleton.mp ((List.mem_append.mp hm).resolve_left hnew)
        rw [(handleVote_eq_some hv).2]
        exact ⟨_, set hp, rfl⟩
      · exact (hnew hm).elim
    | voteReply rpc src dst req reply =>
      obtain ⟨p, e, host, -, -, -, rfl⟩ := voteReplyAt_eq_some h
      exact (hnew hm).elim
    | appendRequest rpc src dst req =>
      obtain ⟨p, hp, ⟨n, r, hv, rfl⟩ | ⟨-, rfl⟩⟩ := handleAppendAt_eq_some h
      · obtain rfl := List.mem_singleton.mp ((List.mem_append.mp hm).resolve_left hnew)
        obtain ⟨-, -, -, -, -, -, -, rfl⟩ := handleAppend_spec hv
        exact ⟨_, set hp, rfl⟩
      · exact (hnew hm).elim
    | appendReply rpc src dst reply =>
      obtain ⟨p, n, w, ph, -, -, -, rfl, -⟩ := appendReplyAt_eq_some h
      exact (hnew hm).elim
  | voteFailed i host =>
    obtain ⟨p, e, -, -, rfl⟩ := voteFailed_eq_some h
    exact (hnew hm).elim
  | conclude i =>
    obtain ⟨p, e, -, -, -, ⟨n, won, -, rfl⟩ | ⟨-, rfl⟩⟩ := conclude_eq_some h <;> exact (hnew hm).elim
  | write i action key value =>
    obtain ⟨p, -, rfl⟩ := write_eq_some h
    exact (hnew hm).elim
  | lock i k =>
    obtain ⟨p, r, -, -, ⟨-, rfl⟩ | ⟨-, rfl⟩⟩ := lock_eq_some h <;> exact (hnew hm).elim
  | sendAppend i =>
    obtain ⟨p, w, ph, -, -, -, rfl⟩ := sendAppend_eq_some h
    exact (hnew hm).elim
  | requestAppend i host =>
    obtain ⟨p, w, num, calls, hp, -, -, rfl | rfl | ⟨dst, f, req, idx, -, -, hreq, hesc, rfl⟩⟩ :=
      requestAppend_eq_some h
    · exact (hnew hm).elim
    · exact (hnew hm).elim
    · obtain rfl := List.mem_singleton.mp ((List.mem_append.mp hm).resolve_left hnew)
      exact ⟨_, set hp, (appendRequest_term hreq).trans (escapeHatch_eq_none hesc)⟩
  | appendFailed i host =>
    obtain ⟨p, w, ph, -, -, -, rfl⟩ := appendFailed_eq_some h
    exact (hnew hm).elim
  | join i =>
    obtain ⟨p, w, -, -, -, rfl | ⟨n, w', -, -, rfl⟩ | ⟨w', -, rfl⟩⟩ := join_eq_some h <;> exact (hnew hm).elim
  | restart i =>
    obtain ⟨p, -, rfl⟩ := restart_eq_some h
    exact (hnew hm).elim
  | allowVote i =>
    obtain ⟨p, -, rfl⟩ := allowVote_eq_some h
    exact (hnew hm).elim

/-- A step keeps every process, and does not lower its term while the vote
bookkeeping holds and the cluster has at least two members. -/
theorem step_term_le {e : Event} (hV : c.VoteInv) (hE : c.ElectionInv) (hE' : c'.ElectionInv)
    (h2 : 2 ≤ c.members.length) (h : c.step e = some c') {j : Nat} {p : Proc} (hp : c.procs[j]? = some p) :
    ∃ p', c'.procs[j]? = some p' ∧ p.node.term ≤ p'.node.term := by
  have hlt : j < c'.procs.length := by
    rw [hE'.length, (step_frame h).1, ← hE.length]
    exact (List.getElem?_eq_some_iff.mp hp).1
  obtain ⟨p0, hp0, hs⟩ := step_node h (List.getElem?_eq_getElem hlt)
  obtain rfl : p = p0 := Option.some.inj (hp.symm.trans hp0)
  have hmem := List.getElem?_mem hp
  have hpeers := hE.otherNodes_ne_nil h2 p hmem
  exact ⟨_, List.getElem?_eq_getElem hlt,
    hs.term_le ((hV.procs p hmem).persisted hpeers) (hV.procs p hmem).belowMax hpeers⟩

theorem run_term_le {evs : List Event} (hV : c.VoteInv) (hE : c.ElectionInv) (h2 : 2 ≤ c.members.length)
    (h : c.run evs = some c') (hb : ∀ m ∈ c'.network, m.term < maxInt64) {j : Nat} {p : Proc}
    (hp : c.procs[j]? = some p) : ∃ p', c'.procs[j]? = some p' ∧ p.node.term ≤ p'.node.term := by
  induction evs generalizing c p with
  | nil => exact ⟨p, Option.some.inj h ▸ hp, le_refl _⟩
  | cons e es ih =>
    obtain ⟨c1, h1, h2'⟩ := Option.bind_eq_some.mp h
    obtain ⟨p1, hp1, hle⟩ := step_term_le hV hE (hE.step h1) h2 h1 hp
    obtain ⟨p', hp', hle'⟩ := ih (hV.step h1 fun m hm => hb m ((run_frame h2').2.1 hm)) (hE.step h1)
      ((step_frame h1).1 ▸ h2) h2' hp1
    exact ⟨p', hp', hle.trans hle'⟩

/-- With distinct ids and at least two members, in a run where every term on the
wire stays below the largest `int64`, no process's term goes back: from any
reachable state, every later state of the run, through crashes and restarts,
gives each process a term at least as large. -/
theorem process_term_never_decreases {members : List Peer} {evs evs' : List Event} {c c' : Cluster}
    (hn : (members.map (·.id)).Nodup) (h2 : 2 ≤ members.length) (hr : (init members).run evs = some c)
    (hr' : c.run evs' = some c') (hb : ∀ m ∈ c'.network, m.term < maxInt64) {j : Nat} {p : Proc}
    (hp : c.procs[j]? = some p) : ∃ p', c'.procs[j]? = some p' ∧ p.node.term ≤ p'.node.term :=
  run_term_le ((voteInv_init members).run hr fun m hm => hb m ((run_frame hr').2.1 hm))
    ((electionInv_init hn).run hr) ((run_frame hr).1 ▸ h2) hr' hb hp

theorem process_term_never_decreases_through_first_election :
    ∃ c c' p, (twoPeers.map (·.id)).Nodup ∧ 2 ≤ twoPeers.length ∧ (init twoPeers).run [.timeout 0] = some c ∧
      c.run [.deliver 0, .deliver 1, .conclude 0] = some c' ∧ (∀ m ∈ c'.network, m.term < maxInt64) ∧
      c.procs[1]? = some p ∧ ∃ p', c'.procs[1]? = some p' ∧ p.node.term ≤ p'.node.term :=
  ⟨_, _, _, by decide, by decide, rfl, rfl, by decide, rfl,
    @process_term_never_decreases twoPeers [Event.timeout 0] [Event.deliver 0, Event.deliver 1, Event.conclude 0]
      _ _ (by decide) (by decide) rfl rfl (by decide) 1 _ rfl⟩

/-- No message carries a term above the current term of its sender. -/
def TermsSent (c : Cluster) : Prop :=
  ∀ m ∈ c.network, ∃ p, c.procs[m.sender]? = some p ∧ m.term ≤ p.node.term

theorem TermsSent.step {e : Event} (hT : c.TermsSent) (hV : c.VoteInv) (hE : c.ElectionInv) (hE' : c'.ElectionInv)
    (h2 : 2 ≤ c.members.length) (h : c.step e = some c') : c'.TermsSent := by
  intro m hm
  by_cases hold : m ∈ c.network
  · obtain ⟨p, hp, hle⟩ := hT m hold
    obtain ⟨p', hp', hle'⟩ := step_term_le hV hE hE' h2 h hp
    exact ⟨p', hp', hle.trans hle'⟩
  · obtain ⟨p', hp', heq⟩ := step_sent h hm hold
    exact ⟨p', hp', heq.le⟩

theorem TermsSent.run {evs : List Event} (hT : c.TermsSent) (hV : c.VoteInv) (hE : c.ElectionInv)
    (h2 : 2 ≤ c.members.length) (h : c.run evs = some c') (hb : ∀ m ∈ c'.network, m.term < maxInt64) :
    c'.TermsSent := by
  induction evs generalizing c with
  | nil => exact Option.some.inj h ▸ hT
  | cons e es ih =>
    obtain ⟨c1, h1, h2'⟩ := Option.bind_eq_some.mp h
    exact ih (hT.step hV hE (hE.step h1) h2 h1) (hV.step h1 fun m hm => hb m ((run_frame h2').2.1 hm))
      (hE.step h1) ((step_frame h1).1 ▸ h2) h2'

/-- With distinct ids and at least two members, in a run where every term on the
wire stays below the largest `int64`, every message carries a term at most the
current term of the process that sent it. -/
theorem message_term_le_sender_term {members : List Peer} {evs : List Event} {c : Cluster}
    (hn : (members.map (·.id)).Nodup) (h2 : 2 ≤ members.length) (hr : (init members).run evs = some c)
    (hb : ∀ m ∈ c.network, m.term < maxInt64) {m : Message} (hm : m ∈ c.network) :
    ∃ p, c.procs[m.sender]? = some p ∧ m.term ≤ p.node.term :=
  TermsSent.run (fun _ h => absurd h (List.not_mem_nil _)) (voteInv_init members) (electionInv_init hn) h2 hr hb m hm

theorem message_term_le_sender_term_in_first_election :
    ∃ c m, (twoPeers.map (·.id)).Nodup ∧ 2 ≤ twoPeers.length ∧ (init twoPeers).run firstElection = some c ∧
      (∀ m ∈ c.network, m.term < maxInt64) ∧ m ∈ c.network ∧
      ∃ p, c.procs[m.sender]? = some p ∧ m.term ≤ p.node.term :=
  ⟨_, _, by decide, by decide, rfl, by decide, List.getElem?_mem (n := 1) rfl,
    @message_term_le_sender_term twoPeers firstElection _ (by decide) (by decide) rfl (by decide) _
      (List.getElem?_mem (n := 1) rfl)⟩

end Cluster

end LeifDb
