import LeifDb.Node

/-! The leader side of a node: `DoElection` cut at its join, and the write
path `applyRecord`, `SendAppend`, `requestAppend`, `commitRecords`. Each
function below is a stretch of the Go code between two network waits; the
goroutine-local variables live in `Election` and `WriteJob`. -/
namespace LeifDb

inductive WriteError
  | notLeaderRecv
  | notLeaderSend
  | expiredTerm
  | appendFailed
  | commitFailed
  | appendRangeMet
  | transport
deriving DecidableEq, Repr

namespace Node

/-- The request `requestVote` sends: the last index and its term, 0 on an empty log. -/
def voteRequest (n : Node) : VoteRequest where
  term := n.term
  candidate := n.raftNode
  lastLogIndex := n.log.length - 1
  lastLogTerm := match n.log.getLast? with
    | some e => e.term
    | none => 0

/-- `DoElection` up to its goroutines: `SetTerm(Term+1, self)`. -/
def startElection (n : Node) : Node := n.setTerm (wrap64 (n.term + 1)) (some n.raftNode)

@[simps]
def updatePeer (n : Node) (host : String) (f : ForeignNode → ForeignNode) : Node :=
  { n with otherNodes := n.otherNodes.map fun p => if p.1 = host then (p.1, f p.2) else p }

def setAvailable (n : Node) (host : String) (b : Bool) : Node :=
  n.updatePeer host fun f => { f with available := b }

/-- `applyRecord` after its role check: the record is appended and written;
its index is the old length. -/
def appendRecord (n : Node) (record : LogRecord) : Node := n.setLog (n.log ++ [record])

/-- The request `requestAppend` builds for a peer, with `idx`. The slice and
the read of `prevLogTerm` come before the escape hatch. -/
def appendRequest (n : Node) (term : Int) (f : ForeignNode) : Option (AppendRequest × Int) := do
  let prevLogIndex := f.matchIndex
  let idx : Int := n.log.length
  let newEntries ← slice n.log (prevLogIndex + 1) idx
  let prevLogTerm ← if prevLogIndex ≥ 0 then (entryAt n.log prevLogIndex).map (·.term) else pure 0
  pure (⟨term, n.raftNode, prevLogIndex, prevLogTerm, n.commitIndex, newEntries⟩, idx)

/-- The escape hatch of `requestAppend`, after the request is built. -/
def escapeHatch (n : Node) (term : Int) : Option WriteError :=
  if n.state ≠ .leader then some .notLeaderSend
  else if term ≠ n.term then some .expiredTerm
  else none

def appendSucceeded (n : Node) (host : String) (idx : Int) : Node :=
  n.updatePeer host fun f => { f with matchIndex := idx - 1, nextIndex := idx, available := true }

/-- `Success = false` with `prevLogIndex > 0`: one index back, then `requestAppend` again. -/
def backOff (n : Node) (host : String) : Node :=
  n.updatePeer host fun f => { f with matchIndex := f.matchIndex - 1 }

/-- The downward scan of `commitRecords`, `k` steps from `lastIdx`: the first
index matched by `majority` members (self included), else `commitIndex`. -/
def scanCommit (matchIndexes : List Int) (majority : Nat) (commitIndex : Int) : Nat → Int → Int
  | 0, _ => commitIndex
  | k + 1, lastIdx =>
    if 1 + (matchIndexes.filter (decide <| · ≥ lastIdx)).length ≥ majority then lastIdx
    else scanCommit matchIndexes majority commitIndex k (lastIdx - 1)

/-- The majority here counts `otherNodes` only, as `SendAppend` does. -/
def commitRecords (n : Node) : Option Node :=
  let majority := n.otherNodes.length / 2 + 1
  let lastIdx : Int := n.log.length - 1
  let commitIndex := scanCommit (n.otherNodes.map (·.2.matchIndex)) majority n.commitIndex
    (lastIdx - n.commitIndex).toNat lastIdx
  let k := (commitIndex - n.lastApplied).toNat
  (applyEntries n.log n.store n.lastApplied k).map fun db =>
    { n with commitIndex := commitIndex, lastApplied := n.lastApplied + k, store := db }

end Node

/-- The goroutine-local state of `DoElection` while its requests are out. -/
structure Election where
  /-- The term right after `SetTerm`, which every request of this election carries. -/
  term : Int
  majority : Nat
  numVotes : Nat
  maxTermSeen : Int
  maxTermSeenSource : Option Peer
  /-- The `requestVote` calls not yet returned: host and RPC. -/
  waiting : List (String × Nat)
  /-- History variable: the hosts whose granted replies were counted. -/
  voters : List String
deriving DecidableEq, Repr

namespace Election

/-- The locals as `DoElection` sets them, on the node after `startElection`. -/
def start (n : Node) (waiting : List (String × Nat)) : Election where
  term := n.term
  majority := (n.otherNodes.length + 1) / 2 + 1
  numVotes := 1
  maxTermSeen := n.term
  maxTermSeenSource := n.votedFor
  waiting := waiting
  voters := []

/-- A `requestVote` call that returned an error. -/
def drop (e : Election) (host : String) : Election :=
  { e with waiting := e.waiting.filter (·.1 ≠ host) }

/-- A `requestVote` call that returned a reply. -/
def receive (e : Election) (host : String) (vote : VoteReply) : Election :=
  let e := e.drop host
  if vote.voteGranted then { e with numVotes := e.numVotes + 1, voters := host :: e.voters }
  else if vote.term > e.maxTermSeen then
    { e with maxTermSeen := vote.term, maxTermSeenSource := some vote.node }
  else e

end Election

namespace Node

/-- `DoElection` after `wg.Wait`. The log line of the losing branch reads
`maxTermSeenSource.Id`. The winning branch does not look at `Term` again. -/
def concludeElection (n : Node) (e : Election) : Option (Node × Bool) :=
  if e.numVotes < e.majority then
    if e.maxTermSeen > n.term then
      e.maxTermSeenSource.map fun src => (n.setTerm e.maxTermSeen (some src), false)
    else some (n, false)
  else
    some ({ n with
      state := .leader
      allowVote := false
      otherNodes := n.otherNodes.map fun p =>
        (p.1, { p.2 with matchIndex := -1, nextIndex := n.log.length }) }, true)

end Node

/-- One `requestAppend` goroutine of a `SendAppend` round. -/
structure Call where
  host : String
  /-- The `AppendLogs` call in flight: its RPC, the request and `idx`. -/
  inflight : Option (Nat × AppendRequest × Int)
deriving DecidableEq, Repr

inductive WritePhase
  /-- At the top of `SendAppend`. -/
  | entering
  /-- Between the fan-out and `wg.Wait`. -/
  | fanOut (numAppended : Nat) (calls : List Call)
  /-- `Set` or `Delete` has returned. -/
  | returned (err : Option WriteError)
deriving DecidableEq, Repr

/-- A client write holding the node lock: the record, the index `setLog`
gave it, the term handed to `SendAppend`, and where the call stands. -/
structure WriteJob where
  record : LogRecord
  idx : Int
  term : Int
  retriesRemaining : Nat
  phase : WritePhase
deriving DecidableEq, Repr

end LeifDb
