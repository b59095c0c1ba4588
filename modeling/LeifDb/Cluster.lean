import LeifDb.Leader

/-! A cluster of processes running `node.go`. Every message ever sent stays
in `network` and may be delivered at any time and any number of times: that
is loss, duplication and reordering at once. RPC ids match each reply to the
goroutine that waits for it. A handler runs atomically on delivery; a panic
kills its process, which restarts from its two files. `Set` and `Delete` read
`Term` before they take the node lock, so a call can wait for the lock while
the node changes term. `votes`, `wins`,
`applied` and `created` are history variables that no step reads. -/
namespace LeifDb

/-- One process: its node and the goroutines the cluster interleaves. -/
structure Proc where
  node : Node
  election : Option Election
  /-- The write that holds the node lock. -/
  write : Option WriteJob
  /-- `Set` and `Delete` calls that have built their record and wait for the lock. -/
  waiting : List LogRecord

inductive Message
  | voteRequest (rpc src dst : Nat) (req : VoteRequest)
  | voteReply (rpc src dst : Nat) (req : VoteRequest) (reply : VoteReply)
  | appendRequest (rpc src dst : Nat) (req : AppendRequest)
  | appendReply (rpc src dst : Nat) (reply : AppendReply)
deriving DecidableEq, Repr

/-- The term field of the message on the wire. -/
def Message.term : Message → Int
  | .voteRequest _ _ _ req => req.term
  | .voteReply _ _ _ _ reply => reply.term
  | .appendRequest _ _ _ req => req.term
  | .appendReply _ _ _ reply => reply.term

/-- A vote of process `voter`: a granted `VoteReply`, or the self-vote of `DoElection`. -/
structure Vote where
  voter : Nat
  term : Int
  candidate : Peer
deriving DecidableEq, Repr

/-- A winning `DoElection` of process `winner`: the term of its requests and the ids it counted. -/
structure Win where
  winner : Nat
  term : Int
  voters : List String
deriving DecidableEq, Repr

/-- An entry `applyRecord` appended on a Leader: the writer, the log it had, the entry. -/
structure Creation where
  creator : Nat
  before : List LogRecord
  entry : LogRecord
deriving DecidableEq, Repr

structure Cluster where
  members : List Peer
  procs : List Proc
  network : List Message
  nextRpc : Nat
  votes : List Vote
  wins : List Win
  /-- Every entry a process applied to its store: who, at which index, what. -/
  applied : List (Peer × Int × LogRecord)
  created : List Creation

inductive Event
  /-- The election timer of process `i` expires. -/
  | timeout (i : Nat)
  /-- The `k`-th message sent reaches its destination. -/
  | deliver (k : Nat)
  /-- A `requestVote` call of process `i` to `host` returns an error. -/
  | voteFailed (i : Nat) (host : String)
  /-- `DoElection` of process `i` passes `wg.Wait`. -/
  | conclude (i : Nat)
  /-- A client calls `Set` (`SET`) or `Delete` (`DEL`) on process `i`. -/
  | write (i : Nat) (action : Action) (key value : String)
  /-- The `k`-th of the calls waiting on process `i` takes the node lock. -/
  | lock (i k : Nat)
  /-- The write of process `i` enters `SendAppend`. -/
  | sendAppend (i : Nat)
  /-- The `requestAppend` call of process `i` for `host` builds and sends its request. -/
  | requestAppend (i : Nat) (host : String)
  /-- That call's `AppendLogs` returns an error. -/
  | appendFailed (i : Nat) (host : String)
  /-- `SendAppend` of process `i` passes `wg.Wait`. -/
  | join (i : Nat)
  /-- Process `i` crashes and starts again from its files. -/
  | restart (i : Nat)
  /-- The grace window of process `i` ends. -/
  | allowVote (i : Nat)

namespace Node

/-- The `k` entries after index `i`, as a process applies them. -/
def appliedRange (n : Node) (i : Int) (k : Nat) : List (Peer × Int × LogRecord) :=
  (List.range k).filterMap fun j : Nat => (entryAt n.log (i + 1 + j)).map (n.raftNode, i + 1 + j, ·)

end Node

namespace Cluster

def init (members : List Peer) : Cluster where
  members := members
  procs := members.map fun p =>
    ⟨Node.load p ((members.filter (·.id ≠ p.id)).map (·.id)) ⟨0, none⟩ [] Database.empty, none, none, []⟩
  network := []
  nextRpc := 0
  votes := []
  wins := []
  applied := []
  created := []

/-- Two members. -/
def twoPeers : List Peer := [⟨"a", "ca"⟩, ⟨"b", "cb"⟩]

/-- Three members, as in the spec's three-node scenarios. -/
def threePeers : List Peer := [⟨"a", "ca"⟩, ⟨"b", "cb"⟩, ⟨"c", "cc"⟩]

def hostIndex (c : Cluster) (host : String) : Option Nat := c.members.findIdx? (·.id = host)

def setProc (c : Cluster) (i : Nat) (p : Proc) : Cluster := { c with procs := c.procs.set i p }

/-- Process `i` dies and starts again from the term and log files of `n`. -/
def crash (c : Cluster) (i : Nat) (n : Node) : Cluster := c.setProc i ⟨n.restart, none, none, []⟩

/-- The `requestVote` calls of an election on `n`, one fresh RPC id per peer. -/
def voteCalls (c : Cluster) (n : Node) : List (String × Nat) :=
  (n.otherNodes.map (·.1)).zip (List.range' c.nextRpc n.otherNodes.length)

/-- The requests of those calls; one to a host outside the cluster is lost. -/
def voteRequests (c : Cluster) (i : Nat) (n : Node) : List Message :=
  (c.voteCalls n).filterMap fun call =>
    (c.hostIndex call.1).map fun dst => .voteRequest call.2 i dst n.voteRequest

def timeout (c : Cluster) (i : Nat) : Option Cluster := do
  let p ← c.procs[i]?
  if p.election.isSome then none
  else
    let n := p.node.startElection
    pure { c with
      procs := c.procs.set i { p with node := n, election := some (Election.start n (c.voteCalls n)) }
      network := c.network ++ c.voteRequests i n
      nextRpc := c.nextRpc + n.otherNodes.length
      votes := c.votes ++ [⟨i, n.term, n.raftNode⟩] }

def handleVoteAt (c : Cluster) (rpc src dst : Nat) (req : VoteRequest) : Option Cluster := do
  let p ← c.procs[dst]?
  match p.node.handleVote req with
  | some (n, reply) => pure { c with
      procs := c.procs.set dst { p with node := n }
      network := c.network ++ [.voteReply rpc dst src req reply]
      votes := if reply.voteGranted then c.votes ++ [⟨dst, req.term, req.candidate⟩] else c.votes }
  | none => pure (c.crash dst p.node)

def voteReplyAt (c : Cluster) (rpc dst : Nat) (reply : VoteReply) : Option Cluster := do
  let p ← c.procs[dst]?
  let e ← p.election
  let (host, _) ← e.waiting.find? (·.2 = rpc)
  pure (c.setProc dst { p with node := p.node.setAvailable host true, election := some (e.receive host reply) })

def handleAppendAt (c : Cluster) (rpc src dst : Nat) (req : AppendRequest) : Option Cluster := do
  let p ← c.procs[dst]?
  match p.node.handleAppend req with
  | some (n, reply) => pure { c with
      procs := c.procs.set dst { p with node := n }
      network := c.network ++ [.appendReply rpc dst src reply]
      applied := c.applied ++ n.appliedRange p.node.commitIndex (n.commitIndex - p.node.commitIndex).toNat }
  | none => pure (c.crash dst (((p.node.appendPrefix req).map (·.1)).getD p.node))

/-- The reply to the `requestAppend` call waiting on `rpc`. -/
def appendReplyAt (c : Cluster) (rpc dst : Nat) (reply : AppendReply) : Option Cluster := do
  let p ← c.procs[dst]?
  let w ← p.write
  let .fanOut num calls := w.phase | none
  let call ← calls.find? fun cl => (cl.inflight.map (·.1)) = some rpc
  let (_, req, idx) ← call.inflight
  let (n, phase) :=
    if reply.success then
      (p.node.appendSucceeded call.host idx, WritePhase.fanOut (num + 1) (calls.erase call))
    else if req.prevLogIndex > 0 then
      (p.node.backOff call.host, .fanOut num (calls.map fun cl => if cl = call then ⟨cl.host, none⟩ else cl))
    else (p.node.setAvailable call.host false, .fanOut num (calls.erase call))
  pure (c.setProc dst { p with node := n, write := some { w with phase := phase } })

def deliver (c : Cluster) (k : Nat) : Option Cluster := do
  match ← c.network[k]? with
  | .voteRequest rpc src dst req => c.handleVoteAt rpc src dst req
  | .voteReply rpc _ dst _ reply => c.voteReplyAt rpc dst reply
  | .appendRequest rpc src dst req => c.handleAppendAt rpc src dst req
  | .appendReply rpc _ dst reply => c.appendReplyAt rpc dst reply

def voteFailed (c : Cluster) (i : Nat) (host : String) : Option Cluster := do
  let p ← c.procs[i]?
  let e ← p.election
  if e.waiting.all (·.1 ≠ host) then none
  else pure (c.setProc i { p with node := p.node.setAvailable host false, election := some (e.drop host) })

def conclude (c : Cluster) (i : Nat) : Option Cluster := do
  let p ← c.procs[i]?
  let e ← p.election
  if !e.waiting.isEmpty then none
  else match p.node.concludeElection e with
    | some (n, won) => pure { c with
        procs := c.procs.set i { p with node := n, election := none }
        wins := if won then c.wins ++ [⟨i, e.term, n.raftNode.id :: e.voters⟩] else c.wins }
    | none => pure (c.crash i p.node)

/-- `Set` or `Delete` up to `n.Lock()`: the record takes the `Term` of this
moment, and the call waits for the lock. -/
def write (c : Cluster) (i : Nat) (action : Action) (key value : String) : Option Cluster := do
  let p ← c.procs[i]?
  pure (c.setProc i { p with waiting := p.waiting ++ [⟨p.node.term, action, key, value⟩] })

/-- A waiting call takes the node lock, which admits one write at a time, and
runs `applyRecord` up to `SendAppend`, which gets the `Term` of this moment. -/
def lock (c : Cluster) (i k : Nat) : Option Cluster := do
  let p ← c.procs[i]?
  if p.write.any fun w => !(w.phase matches .returned _) then none
  else
    let record ← p.waiting[k]?
    let p := { p with waiting := p.waiting.eraseIdx k }
    if p.node.state ≠ .leader then
      pure (c.setProc i { p with write := some ⟨record, -1, p.node.term, 3, .returned (some .notLeaderRecv)⟩ })
    else
      let n := p.node.appendRecord record
      pure { c.setProc i { p with node := n, write := some ⟨record, p.node.log.length, n.term, 3, .entering⟩ } with
        created := c.created ++ [⟨i, p.node.log, record⟩] }

def sendAppend (c : Cluster) (i : Nat) : Option Cluster := do
  let p ← c.procs[i]?
  let w ← p.write
  let .entering := w.phase | none
  let phase := if p.node.state ≠ .leader then .returned (some .notLeaderSend)
    else .fanOut 1 (p.node.otherNodes.map fun f => ⟨f.1, none⟩)
  pure (c.setProc i { p with write := some { w with phase := phase } })

def requestAppend (c : Cluster) (i : Nat) (host : String) : Option Cluster := do
  let p ← c.procs[i]?
  let w ← p.write
  let .fanOut num calls := w.phase | none
  let call : Call := ⟨host, none⟩
  if call ∉ calls then none
  else do
    let (_, f) ← p.node.otherNodes.find? (·.1 = host)
    match p.node.appendRequest w.term f with
    | none => pure (c.crash i p.node)
    | some (req, idx) =>
      match p.node.escapeHatch w.term with
      | some _ => pure (c.setProc i { p with write := some { w with phase := .fanOut num (calls.erase call) } })
      | none => do
        let dst ← c.hostIndex host
        let calls := calls.map fun cl => if cl = call then ⟨host, some (c.nextRpc, req, idx)⟩ else cl
        pure { c with
          procs := c.procs.set i { p with write := some { w with phase := .fanOut num calls } }
          network := c.network ++ [.appendRequest c.nextRpc i dst req]
          nextRpc := c.nextRpc + 1 }

def appendFailed (c : Cluster) (i : Nat) (host : String) : Option Cluster := do
  let p ← c.procs[i]?
  let w ← p.write
  let .fanOut num calls := w.phase | none
  let call ← calls.find? fun cl => cl.host = host ∧ cl.inflight.isSome
  let w := { w with phase := .fanOut num (calls.erase call) }
  pure (c.setProc i { p with node := p.node.setAvailable host false, write := some w })

/-- `SendAppend` after `wg.Wait`: commit on a majority, else retry or give up;
then the `CommitIndex` check of `applyRecord`. -/
def join (c : Cluster) (i : Nat) : Option Cluster := do
  let p ← c.procs[i]?
  let w ← p.write
  let .fanOut num [] := w.phase | none
  if num ≥ p.node.otherNodes.length / 2 + 1 then
    match p.node.commitRecords with
    | none => pure (c.crash i p.node)
    | some n =>
      let err := if n.commitIndex < w.idx then some WriteError.commitFailed else none
      pure { c with
        procs := c.procs.set i { p with node := n, write := some { w with phase := .returned err } }
        applied := c.applied ++ n.appliedRange p.node.lastApplied (n.lastApplied - p.node.lastApplied).toNat }
  else if w.retriesRemaining > 0 then
    pure (c.setProc i { p with write := some { w with retriesRemaining := w.retriesRemaining - 1, phase := .entering } })
  else pure (c.setProc i { p with write := some { w with phase := .returned (some .appendFailed) } })

def restart (c : Cluster) (i : Nat) : Option Cluster := do
  let p ← c.procs[i]?
  pure (c.crash i p.node)

def allowVote (c : Cluster) (i : Nat) : Option Cluster := do
  let p ← c.procs[i]?
  pure (c.setProc i { p with node := { p.node with allowVote := true } })

def step (c : Cluster) : Event → Option Cluster
  | .timeout i => c.timeout i
  | .deliver k => c.deliver k
  | .voteFailed i host => c.voteFailed i host
  | .conclude i => c.conclude i
  | .write i action key value => c.write i action key value
  | .lock i k => c.lock i k
  | .sendAppend i => c.sendAppend i
  | .requestAppend i host => c.requestAppend i host
  | .appendFailed i host => c.appendFailed i host
  | .join i => c.join i
  | .restart i => c.restart i
  | .allowVote i => c.allowVote i

def run (c : Cluster) : List Event → Option Cluster
  | [] => some c
  | e :: es => (c.step e).bind (·.run es)

end Cluster

end LeifDb
