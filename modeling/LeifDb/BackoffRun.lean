import LeifDb.Backoff
import LeifDb.Process

/-! The synchronous back-off `Node.requestAppendTo` is what the cluster does.
One call of the loop, `requestAppend` with the follower's `HandleAppend` and
the handling of its reply, is a run of three events: the call builds and
sends its request, the network delivers it, and then delivers the reply. A
`Success = false` reply with `prevLogIndex > 0` backs off and leaves the call
idle for the next round. So every result of the loop, with the leader, the
follower and the error it returns, is reached by a run of the cluster
(`requestAppendTo_realized`), and what is proved of the loop holds of runs.
The slice of `requestAppend` comes before its escape hatch: a Leader that
lost leadership and most of its log in the middle of a fan-out cuts its next
request from the shorter log and panics (`requestAppend_panics_after_truncation`). -/
namespace LeifDb

/-- The calls of a fan-out wait on RPC ids below `r`. -/
def WritePhase.RpcsBelow (r : Nat) : WritePhase → Prop
  | .fanOut _ calls => ∀ cl ∈ calls, ∀ y ∈ cl.inflight, y.1 < r
  | _ => True

theorem WritePhase.RpcsBelow.mono {ph : WritePhase} {r r' : Nat} (h : ph.RpcsBelow r) (hr : r ≤ r') :
    ph.RpcsBelow r' := by
  cases ph with
  | fanOut num calls => exact fun cl hcl y hy => Nat.lt_of_lt_of_le (h cl hcl y hy) hr
  | _ => trivial

theorem rpcsBelow_of_ne {ph : WritePhase} {r : Nat} (h : ∀ num calls, ph ≠ .fanOut num calls) : ph.RpcsBelow r := by
  cases ph with
  | fanOut num calls => exact absurd rfl (h num calls)
  | _ => trivial

/-- Calls that were there before, or are idle, wait on no newer RPC. -/
theorem rpcsBelow_narrow {num num' r : Nat} {calls calls' : List Call} (h : (WritePhase.fanOut num calls).RpcsBelow r)
    (hs : ∀ cl ∈ calls', cl ∈ calls ∨ cl.inflight = none) : (WritePhase.fanOut num' calls').RpcsBelow r := by
  intro cl hcl y hy
  rcases hs cl hcl with hm | hn
  · exact h cl hm y hy
  · rw [hn] at hy; cases hy

theorem rpcsBelow_erase {num r : Nat} {calls : List Call} (call : Call)
    (h : (WritePhase.fanOut num calls).RpcsBelow r) : (WritePhase.fanOut num (calls.erase call)).RpcsBelow r :=
  rpcsBelow_narrow h fun _ h => .inl (List.mem_of_mem_erase h)

namespace Cluster

open Node

variable {c : Cluster} {i j num : Nat} {host : String} {p q : Proc} {w : WriteJob} {calls : List Call}

theorem run_append (c : Cluster) (l1 l2 : List Event) : c.run (l1 ++ l2) = (c.run l1).bind (·.run l2) := by
  induction l1 generalizing c with
  | nil => rfl
  | cons e es ih =>
    show (c.step e).bind (·.run (es ++ l2)) = ((c.step e).bind (·.run es)).bind (·.run l2)
    simp only [Option.bind_assoc, ih]

theorem deliver_appendRequest {l : List Message} {rpc src dst : Nat} {req : AppendRequest}
    (hn : c.network = l ++ [.appendRequest rpc src dst req]) : c.deliver l.length = c.handleAppendAt rpc src dst req := by
  unfold deliver; rw [hn, List.getElem?_concat_length]; rfl

theorem deliver_appendReply {l : List Message} {k rpc src dst : Nat} {reply : AppendReply}
    (hn : c.network = l ++ [.appendReply rpc src dst reply]) (hk : l.length = k) :
    c.deliver k = c.appendReplyAt rpc dst reply := by
  unfold deliver; rw [hn, ← hk, List.getElem?_concat_length]; rfl

/-- A reply on the fresh RPC `r` finds the call that sent on it: every other
call in flight holds an older RPC. -/
theorem find?_sent {r : Nat} {x : AppendRequest × Int} (hc : (⟨host, none⟩ : Call) ∈ calls)
    (hrpc : ∀ cl ∈ calls, ∀ y ∈ cl.inflight, y.1 < r) :
    (calls.map fun cl => if cl = ⟨host, none⟩ then ⟨host, some (r, x)⟩ else cl).find?
      (fun cl => cl.inflight.map (·.1) = some r) = some ⟨host, some (r, x)⟩ := by
  induction calls with
  | nil => cases hc
  | cons cl calls ih =>
    by_cases h : cl = ⟨host, none⟩
    · simp [h]
    · rw [List.map_cons, if_neg h, List.find?_cons_of_neg]
      · exact ih ((List.mem_cons.mp hc).resolve_left (Ne.symm h)) fun cl' h' => hrpc cl' (List.mem_cons_of_mem _ h')
      · rcases hcl : cl.inflight with _ | y
        · simp
        · have := hrpc cl (List.mem_cons_self _ _) y hcl
          simp only [Option.map_some', Option.some.injEq, decide_eq_true_eq]
          omega

/-- Every call of a fan-out in flight waits on an RPC id already handed out:
the `hrpc` of `requestAppendTo_realized` holds in every reachable state
(`rpcFresh_of_run`, `RpcFresh.inflight_lt`). -/
def RpcFresh (c : Cluster) : Prop := ∀ p ∈ c.procs, ∀ w ∈ p.write, w.phase.RpcsBelow c.nextRpc

theorem RpcFresh.inflight_lt (hI : c.RpcFresh) (hp : c.procs[i]? = some p) (hw : p.write = some w)
    (hph : w.phase = .fanOut num calls) : ∀ cl ∈ calls, ∀ y ∈ cl.inflight, y.1 < c.nextRpc := by
  have h := hI p (List.getElem?_mem hp) w hw
  rwa [hph] at h

/-- The frame of every step: one process is replaced, and `nextRpc` only grows. -/
theorem RpcFresh.update {c' : Cluster} (hI : c.RpcFresh) (hr : c.nextRpc ≤ c'.nextRpc)
    (hprocs : c'.procs = c.procs.set i q) (hq : ∀ w ∈ q.write, w.phase.RpcsBelow c'.nextRpc) : c'.RpcFresh := by
  intro p' hp'
  rw [hprocs] at hp'
  rcases List.mem_or_eq_of_mem_set hp' with hp' | rfl
  · exact fun w hw => (hI p' hp' w hw).mono hr
  · exact hq

theorem RpcFresh.keep {c' : Cluster} (hI : c.RpcFresh) (hp : c.procs[i]? = some p) (hr : c.nextRpc ≤ c'.nextRpc)
    (hprocs : c'.procs = c.procs.set i q) (hw : q.write = p.write) : c'.RpcFresh :=
  hI.update hr hprocs fun w hw' => (hI p (List.getElem?_mem hp) w (hw ▸ hw')).mono hr

theorem RpcFresh.crash {n : Node} (hI : c.RpcFresh) : (c.crash i n).RpcFresh :=
  hI.update (Nat.le_refl _) rfl fun _ h => nomatch h

/-- A step that gives the write of a process a new phase. -/
theorem RpcFresh.setPhase {c' : Cluster} {ph : WritePhase} (hI : c.RpcFresh) (hp : c.procs[i]? = some p)
    (hw : p.write = some w) (hr : c.nextRpc ≤ c'.nextRpc) (hprocs : c'.procs = c.procs.set i q)
    (hq : q.write = some { w with phase := ph }) (hph : w.phase.RpcsBelow c.nextRpc → ph.RpcsBelow c'.nextRpc) :
    c'.RpcFresh :=
  hI.update hr hprocs fun _ hw' => by
    obtain rfl := Option.some.inj (hq.symm.trans hw')
    exact hph (hI p (List.getElem?_mem hp) w hw)

/-- A step that ends the fan-out of a process, or starts a write that has none yet. -/
theorem RpcFresh.setWrite {c' : Cluster} {w' : WriteJob} (hI : c.RpcFresh) (hr : c.nextRpc ≤ c'.nextRpc)
    (hprocs : c'.procs = c.procs.set i q) (hq : q.write = some w') (hne : ∀ num calls, w'.phase ≠ .fanOut num calls) :
    c'.RpcFresh :=
  hI.update hr hprocs fun _ hw => by
    obtain rfl := Option.some.inj (hq.symm.trans hw)
    exact rpcsBelow_of_ne hne

theorem RpcFresh.step {c' : Cluster} {e : Event} (hI : c.RpcFresh) (h : c.step e = some c') : c'.RpcFresh := by
  cases e with
  | timeout i =>
    obtain ⟨p, hp, -, rfl⟩ := timeout_eq_some h
    exact hI.keep hp (Nat.le_add_right _ _) rfl rfl
  | deliver k =>
    obtain ⟨m, -, h⟩ := deliver_eq_some h
    cases m with
    | voteRequest rpc src dst req =>
      obtain ⟨p, hp, ⟨n, r, -, rfl⟩ | ⟨-, rfl⟩⟩ := handleVoteAt_eq_some h
      · exact hI.keep hp (Nat.le_refl _) rfl rfl
      · exact hI.crash
    | voteReply rpc src dst req reply =>
      obtain ⟨p, e, host, hp, -, -, rfl⟩ := voteReplyAt_eq_some h
      exact hI.keep hp (Nat.le_refl _) rfl rfl
    | appendRequest rpc src dst req =>
      obtain ⟨p, hp, ⟨n, r, -, rfl⟩ | ⟨-, rfl⟩⟩ := handleAppendAt_eq_some h
      · exact hI.keep hp (Nat.le_refl _) rfl rfl
      · exact hI.crash
    | appendReply rpc src dst reply =>
      obtain ⟨p, n, w, ph, hp, hw, ⟨num, calls, call, hph, hph'⟩, rfl, -⟩ := appendReplyAt_eq_some h
      refine hI.setPhase hp hw (Nat.le_refl _) rfl rfl fun hr => ?_
      rw [hph] at hr
      rcases hph' with rfl | rfl | rfl
      · exact rpcsBelow_erase call hr
      · -- a back-off leaves the call idle
        refine rpcsBelow_narrow hr fun cl hcl => ?_
        obtain ⟨x, hx, rfl⟩ := List.mem_map.mp hcl
        split_ifs
        · exact .inr rfl
        · exact .inl hx
      · exact rpcsBelow_erase call hr
  | voteFailed i host =>
    obtain ⟨p, e, hp, -, rfl⟩ := voteFailed_eq_some h
    exact hI.keep hp (Nat.le_refl _) rfl rfl
  | conclude i =>
    obtain ⟨p, e, hp, -, -, ⟨n, won, -, rfl⟩ | ⟨-, rfl⟩⟩ := conclude_eq_some h
    · exact hI.keep hp (Nat.le_refl _) rfl rfl
    · exact hI.crash
  | write i action key value =>
    obtain ⟨p, hp, rfl⟩ := write_eq_some h
    exact hI.keep hp (Nat.le_refl _) rfl rfl
  | lock i k =>
    obtain ⟨p, r, -, -, ⟨-, rfl⟩ | ⟨-, rfl⟩⟩ := lock_eq_some h <;>
      exact hI.setWrite (Nat.le_refl _) rfl rfl fun _ _ h => nomatch h
  | sendAppend i =>
    obtain ⟨p, w, ph, hp, hw, ⟨-, rfl | rfl⟩, rfl⟩ := sendAppend_eq_some h
    · exact hI.setWrite (Nat.le_refl _) rfl rfl fun _ _ h => nomatch h
    · -- the round starts with every call idle
      refine hI.setPhase hp hw (Nat.le_refl _) rfl rfl fun _ cl hcl y hy => ?_
      obtain ⟨x, -, rfl⟩ := List.mem_map.mp hcl
      cases hy
  | requestAppend i host =>
    obtain ⟨p, w, num, calls, hp, hw, hph, rfl | rfl | ⟨dst, f, req, idx, -, -, -, -, rfl⟩⟩ :=
      requestAppend_eq_some h
    · exact hI.crash
    · exact hI.setPhase hp hw (Nat.le_refl _) rfl rfl fun hr => rpcsBelow_erase _ (hph ▸ hr)
    · -- the call sends on the fresh id, which `nextRpc` then passes
      refine hI.setPhase hp hw (Nat.le_succ _) rfl rfl fun hr cl hcl y hy => ?_
      rw [hph] at hr
      obtain ⟨x, hx, rfl⟩ := List.mem_map.mp hcl
      split_ifs at hy
      · obtain rfl := Option.some.inj hy
        exact Nat.lt_succ_self _
      · exact Nat.lt_succ_of_lt (hr x hx y hy)
  | appendFailed i host =>
    obtain ⟨p, w, ph, hp, hw, ⟨num, calls, call, hph, rfl⟩, rfl⟩ := appendFailed_eq_some h
    exact hI.setPhase hp hw (Nat.le_refl _) rfl rfl fun hr => rpcsBelow_erase call (hph ▸ hr)
  | join i =>
    obtain ⟨p, w, hp, -, -, rfl | ⟨n, w', ⟨-, hne⟩, -, rfl⟩ | ⟨w', ⟨-, hne⟩, rfl⟩⟩ := join_eq_some h
    · exact hI.crash
    · exact hI.setWrite (Nat.le_refl _) rfl rfl hne
    · exact hI.setWrite (Nat.le_refl _) rfl rfl hne
  | restart i =>
    obtain ⟨p, -, rfl⟩ := restart_eq_some h
    exact hI.crash
  | allowVote i =>
    obtain ⟨p, hp, rfl⟩ := allowVote_eq_some h
    exact hI.keep hp (Nat.le_refl _) rfl rfl

theorem RpcFresh.run {c' : Cluster} {evs : List Event} (hI : c.RpcFresh) (h : c.run evs = some c') :
    c'.RpcFresh := by
  induction evs generalizing c with
  | nil => exact Option.some.inj h ▸ hI
  | cons e es ih =>
    obtain ⟨c1, h1, h2⟩ := Option.bind_eq_some.mp h
    exact ih (hI.step h1) h2

theorem rpcFresh_of_run {members : List Peer} {evs : List Event} (hr : (init members).run evs = some c) :
    c.RpcFresh :=
  RpcFresh.run (fun p hp w hw => by
    simp only [init, List.mem_map] at hp
    obtain ⟨x, -, rfl⟩ := hp
    nomatch hw) hr

theorem requestAppend_sends {h' : String} {f : ForeignNode} {req : AppendRequest} {idx : Int}
    (hp : c.procs[i]? = some p) (hw : p.write = some w) (hph : w.phase = .fanOut num calls)
    (hc : (⟨host, none⟩ : Call) ∈ calls) (hf : p.node.otherNodes.find? (·.1 = host) = some (h', f))
    (hreq : p.node.appendRequest w.term f = some (req, idx)) (hesc : p.node.escapeHatch w.term = none)
    (hj : c.hostIndex host = some j) :
    c.requestAppend i host = some { c with
      procs := c.procs.set i { p with write := some { w with phase := (.fanOut num
        (calls.map fun cl => if cl = ⟨host, none⟩ then ⟨host, some (c.nextRpc, req, idx)⟩ else cl)) } }
      network := c.network ++ [.appendRequest c.nextRpc i j req]
      nextRpc := c.nextRpc + 1 } := by
  simp only [requestAppend, hp, hw, hph, hc, hf, hreq, hesc, hj, Option.bind_eq_bind, Option.some_bind,
    Option.pure_def, not_true_eq_false, if_false]

theorem requestAppend_escapes {h' : String} {f : ForeignNode} {req : AppendRequest} {idx : Int} {err : WriteError}
    (hp : c.procs[i]? = some p) (hw : p.write = some w) (hph : w.phase = .fanOut num calls)
    (hc : (⟨host, none⟩ : Call) ∈ calls) (hf : p.node.otherNodes.find? (·.1 = host) = some (h', f))
    (hreq : p.node.appendRequest w.term f = some (req, idx)) (hesc : p.node.escapeHatch w.term = some err) :
    c.requestAppend i host =
      some (c.setProc i { p with write := some { w with phase := .fanOut num (calls.erase ⟨host, none⟩) } }) := by
  simp only [requestAppend, hp, hw, hph, hc, hf, hreq, hesc, Option.bind_eq_bind, Option.some_bind,
    Option.pure_def, not_true_eq_false, if_false]

/-- Process 0 wins term 1 and gets `v1` and `v2` into the log of process 2 (its
calls to process 1 fail), so its record for process 2 has `MatchIndex` 1.
Process 2 restarts, which resets its `CommitIndex`, and process 0 starts the
write `v3`. Process 1, with an empty log, wins term 2 with the vote of process
2, and its append of `x` replaces the log of process 0 by `[x]`. Process 0's
fan-out for `v3` then calls `requestAppend` for process 2. -/
def truncatedFanOut : List Event :=
  [.timeout 0, .deliver 0, .deliver 2, .voteFailed 0 "c", .conclude 0,
   .write 0 .set "k" "v1", .lock 0 0, .sendAppend 0, .requestAppend 0 "b", .appendFailed 0 "b",
   .requestAppend 0 "c", .deliver 4, .deliver 5, .join 0,
   .write 0 .set "k" "v2", .lock 0 0, .sendAppend 0, .requestAppend 0 "b", .appendFailed 0 "b",
   .requestAppend 0 "c", .deliver 7, .deliver 8, .join 0,
   .restart 2, .write 0 .set "k" "v3", .lock 0 0, .sendAppend 0,
   .timeout 1, .deliver 10, .deliver 11, .voteFailed 1 "a", .conclude 1,
   .write 1 .set "k" "x", .lock 1 0, .sendAppend 1, .requestAppend 1 "a", .deliver 12,
   .requestAppend 0 "c"]

/-- Before the last step, process 0 is a Follower of term 2 with one entry,
its record for process 2 still has `MatchIndex` 1, and the request its pending
call would cut is out of range. The last step panics: process 0 restarts and
its `Set` never returns. -/
theorem requestAppend_panics_after_truncation :
    ((init threePeers).run truncatedFanOut.dropLast).bind (fun c => c.procs.head?.bind fun p =>
        p.write.bind fun w => (p.node.otherNodes.find? (·.1 = "c")).map fun f =>
          (p.node.state, p.node.term, p.node.log.length, f.2.matchIndex, (p.node.appendRequest w.term f.2).isNone)) =
      some (.follower, 2, 1, 1, true) ∧
    ((init threePeers).run truncatedFanOut).bind (fun c => c.procs.head?.map (·.write)) = some none := by
  decide

theorem handleAppendAt_answers {rpc src : Nat} {req : AppendRequest} {fl : Node} {reply : AppendReply}
    (hq : c.procs[j]? = some q) (ha : q.node.handleAppend req = some (fl, reply)) :
    c.handleAppendAt rpc src j req = some { c with
      procs := c.procs.set j { q with node := fl }
      network := c.network ++ [.appendReply rpc j src reply]
      applied := c.applied ++ fl.appliedRange q.node.commitIndex (fl.commitIndex - q.node.commitIndex).toNat } := by
  simp only [handleAppendAt, hq, ha, Option.bind_eq_bind, Option.some_bind, Option.pure_def]

theorem appendReplyAt_moves {rpc : Nat} {req : AppendRequest} {idx : Int} {reply : AppendReply}
    (hp : c.procs[i]? = some p) (hw : p.write = some w) (hph : w.phase = .fanOut num calls)
    (hfind : calls.find? (fun cl => cl.inflight.map (·.1) = some rpc) = some ⟨host, some (rpc, req, idx)⟩) :
    c.appendReplyAt rpc i reply = some (c.setProc i
      (if reply.success then
        { p with node := p.node.appendSucceeded host idx,
                 write := some { w with phase := .fanOut (num + 1) (calls.erase ⟨host, some (rpc, req, idx)⟩) } }
      else if req.prevLogIndex > 0 then
        { p with node := p.node.backOff host,
                 write := some { w with phase := (.fanOut num (calls.map fun cl =>
                   if cl = ⟨host, some (rpc, req, idx)⟩ then ⟨cl.host, none⟩ else cl)) } }
      else
        { p with node := p.node.setAvailable host false,
                 write := some { w with phase := .fanOut num (calls.erase ⟨host, some (rpc, req, idx)⟩) } })) := by
  simp only [appendReplyAt, hp, hw, hph, hfind, Option.bind_eq_bind, Option.some_bind, Option.pure_def]
  split_ifs <;> rfl

/-- One call of the back-off loop whose request is answered: `requestAppend`
sends on a fresh RPC, the follower's `HandleAppend` answers, and the reply
moves the peer's indices and the fan-out as `appendReplyAt` does. -/
theorem requestAppend_round {h' : String} {f : ForeignNode} {req : AppendRequest} {idx : Int} {fl : Node}
    {reply : AppendReply} (hp : c.procs[i]? = some p) (hw : p.write = some w) (hph : w.phase = .fanOut num calls)
    (hc : (⟨host, none⟩ : Call) ∈ calls) (hrpc : ∀ cl ∈ calls, ∀ y ∈ cl.inflight, y.1 < c.nextRpc)
    (hj : c.hostIndex host = some j) (hij : i ≠ j) (hq : c.procs[j]? = some q)
    (hf : p.node.otherNodes.find? (·.1 = host) = some (h', f)) (hreq : p.node.appendRequest w.term f = some (req, idx))
    (hesc : p.node.escapeHatch w.term = none) (ha : q.node.handleAppend req = some (fl, reply)) :
    ∃ c', c.run [.requestAppend i host, .deliver c.network.length, .deliver (c.network.length + 1)] = some c' ∧
      c'.hostIndex = c.hostIndex ∧ c'.nextRpc = c.nextRpc + 1 ∧ c'.procs[j]? = some { q with node := fl } ∧
      ∃ cs cs', (⟨host, none⟩ : Call) ∈ cs' ∧ (∀ cl ∈ cs', ∀ y ∈ cl.inflight, y.1 < c.nextRpc + 1) ∧
      c'.procs[i]? = some
        (if reply.success then
          { p with node := p.node.appendSucceeded host idx, write := some { w with phase := .fanOut (num + 1) cs } }
        else if req.prevLogIndex > 0 then
          { p with node := p.node.backOff host, write := some { w with phase := .fanOut num cs' } }
        else { p with node := p.node.setAvailable host false, write := some { w with phase := .fanOut num cs } }) := by
  have hlt : i < c.procs.length := (List.getElem?_eq_some_iff.mp hp).1
  simp only [run, step, requestAppend_sends hp hw hph hc hf hreq hesc hj, Option.some_bind]
  set calls' := calls.map fun cl => if cl = (⟨host, none⟩ : Call) then ⟨host, some (c.nextRpc, req, idx)⟩ else cl
  rw [deliver_appendRequest rfl, handleAppendAt_answers ?_ ha, Option.some_bind, deliver_appendReply rfl (by simp),
    appendReplyAt_moves (p := { p with write := some { w with phase := .fanOut num calls' } }) ?_ rfl rfl
      (find?_sent hc hrpc), Option.some_bind]
  · refine ⟨_, rfl, rfl, rfl, ?_, calls'.erase ⟨host, some (c.nextRpc, req, idx)⟩,
      calls'.map fun cl => if cl = ⟨host, some (c.nextRpc, req, idx)⟩ then ⟨cl.host, none⟩ else cl, ?_, ?_, ?_⟩
    · dsimp only
      rw [setProc_procs, List.getElem?_set_ne hij, List.getElem?_set_self (by simpa using (List.getElem?_eq_some_iff.mp hq).1)]
    · exact List.mem_map.mpr ⟨_, List.mem_map.mpr ⟨_, hc, if_pos rfl⟩, if_pos rfl⟩
    · intro cl hcl y hy
      obtain ⟨c0, hc0, rfl⟩ := List.mem_map.mp hcl
      obtain ⟨c00, hc00, rfl⟩ := List.mem_map.mp hc0
      split_ifs at hy with h1 h2 h2
      · nomatch hy
      · exact absurd rfl h2
      · nomatch hy
      · exact Nat.lt_succ_of_lt (hrpc _ hc00 y hy)
    · dsimp only
      rw [setProc_procs, List.getElem?_set_self (by simpa using hlt)]
  · dsimp only
    rw [List.getElem?_set_ne (Ne.symm hij), List.getElem?_set_self hlt]
  · dsimp only
    rw [List.getElem?_set_ne hij, hq]

/-- Every result of the back-off loop `requestAppendTo`, from the leader and
the follower of two processes of a cluster whose write is in its fan-out with
an idle call for the follower, is reached by a run of the cluster. The leader,
the follower and the fan-out end as the loop says, with one more
`numAppended` exactly when the loop returns no error. The calls in flight wait
on RPC ids below `nextRpc` in every reachable state (`RpcFresh.inflight_lt`). -/
theorem requestAppendTo_realized {fuel : Nat} {n' fl' : Node} {err : Option WriteError}
    (hp : c.procs[i]? = some p) (hw : p.write = some w) (hph : w.phase = .fanOut num calls)
    (hc : (⟨host, none⟩ : Call) ∈ calls) (hrpc : ∀ cl ∈ calls, ∀ y ∈ cl.inflight, y.1 < c.nextRpc)
    (hj : c.hostIndex host = some j) (hij : i ≠ j) (hq : c.procs[j]? = some q)
    (h : p.node.requestAppendTo q.node host w.term fuel = some (n', fl', err)) :
    ∃ evs c' p' q' w' calls', c.run evs = some c' ∧ c'.procs[i]? = some p' ∧ c'.procs[j]? = some q' ∧
      p'.node = n' ∧ q'.node = fl' ∧ p'.write = some w' ∧ w'.term = w.term ∧
      w'.phase = .fanOut (if err = none then num + 1 else num) calls' := by
  induction fuel generalizing c p q w calls with
  | zero => cases h
  | succ fuel ih =>
    unfold requestAppendTo at h
    obtain ⟨⟨h', f⟩, hf, h⟩ := Option.bind_eq_some.mp h
    obtain ⟨⟨req, idx⟩, hreq, h⟩ := Option.bind_eq_some.mp h
    dsimp only at h
    rcases hesc : p.node.escapeHatch w.term with _ | e
    · rw [hesc] at h
      obtain ⟨⟨fl, reply⟩, ha, h⟩ := Option.bind_eq_some.mp h
      obtain ⟨c', hr, hhost, hnext, hq', cs, cs', hmem, hrpc', hp'⟩ :=
        requestAppend_round hp hw hph hc hrpc hj hij hq hf hreq hesc ha
      dsimp only at h
      split_ifs at h hp' with hs hb
      rotate_left
      · -- a back-off: the next round runs from the state this one reached
        obtain ⟨evs, c'', p'', q'', w'', calls'', hr', hrest⟩ := ih hp' rfl rfl hmem (hnext ▸ hrpc') (hhost ▸ hj) hq' h
        refine ⟨[.requestAppend i host, .deliver c.network.length, .deliver (c.network.length + 1)] ++ evs,
          c'', p'', q'', w'', calls'', ?_, hrest⟩
        rw [run_append, hr, Option.some_bind, hr']
      -- a success, or the range met: the loop returns the state of this round
      all_goals
        simp only [Option.pure_def, Option.some.injEq, Prod.mk.injEq] at h
        obtain ⟨rfl, rfl, rfl⟩ := h
        exact ⟨_, _, _, _, _, _, hr, hp', hq', rfl, rfl, rfl, rfl, rfl⟩
    · rw [hesc] at h
      simp only [Option.pure_def, Option.some.injEq, Prod.mk.injEq] at h
      obtain ⟨rfl, rfl, rfl⟩ := h
      have hlt : i < c.procs.length := (List.getElem?_eq_some_iff.mp hp).1
      have hr : c.run [.requestAppend i host] =
          some (c.setProc i { p with write := some { w with phase := .fanOut num (calls.erase ⟨host, none⟩) } }) := by
        simp only [run, step, requestAppend_escapes hp hw hph hc hf hreq hesc, Option.some_bind]
      exact ⟨_, _, _, q, _, _, hr, List.getElem?_set_self hlt, (List.getElem?_set_ne hij).trans hq,
        rfl, rfl, rfl, rfl, rfl⟩

theorem requestAppendTo_realized_on_first_write :
    ∃ c p q w calls n' fl' err, (init twoPeers).run (firstElection ++ [.write 0 .set "k" "v", .lock 0 0, .sendAppend 0]) = some c ∧
      c.procs[0]? = some p ∧ c.procs[1]? = some q ∧ p.write = some w ∧ w.phase = .fanOut 1 calls ∧
      (⟨"b", none⟩ : Call) ∈ calls ∧ (∀ cl ∈ calls, ∀ y ∈ cl.inflight, y.1 < c.nextRpc) ∧
      c.hostIndex "b" = some 1 ∧ p.node.requestAppendTo q.node "b" w.term 2 = some (n', fl', err) ∧
      ∃ evs c' p' q' w' calls', c.run evs = some c' ∧ c'.procs[0]? = some p' ∧ c'.procs[1]? = some q' ∧
        p'.node = n' ∧ q'.node = fl' ∧ p'.write = some w' ∧ w'.term = w.term ∧
        w'.phase = .fanOut (if err = none then 1 + 1 else 1) calls' :=
  have hr : (init twoPeers).run (firstElection ++ [Event.write 0 .set "k" "v", Event.lock 0 0, Event.sendAppend 0]) =
      some (((init twoPeers).run (firstElection ++ [Event.write 0 .set "k" "v", Event.lock 0 0, Event.sendAppend 0])).get
        (Option.isSome_iff_exists.mpr ⟨_, rfl⟩)) :=
    Option.eq_some_of_isSome _
  ⟨_, _, _, _, _, _, _, _, hr, rfl, rfl, rfl, rfl, by decide, (rpcFresh_of_run hr).inflight_lt (i := 0) rfl rfl rfl, rfl, rfl,
    @requestAppendTo_realized (((init twoPeers).run (firstElection ++ [Event.write 0 .set "k" "v", Event.lock 0 0, Event.sendAppend 0])).get
      (Option.isSome_iff_exists.mpr ⟨_, rfl⟩)) 0 1 1 "b" _ _ _ _ 2 _ _ _ rfl rfl rfl (by decide)
      ((rpcFresh_of_run hr).inflight_lt (i := 0) rfl rfl rfl) rfl (by decide) rfl rfl⟩

end Cluster

end LeifDb
