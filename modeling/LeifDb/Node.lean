import LeifDb.Basic

/-! The state of one `node.Node` and its two RPC handlers, `HandleVote` and
`HandleAppend`, with every helper they call. A handler that panics returns
`none`: the process dies and only its two files survive it. -/
namespace LeifDb

/-- A `ForeignNode` without its gRPC connection. -/
structure ForeignNode where
  nextIndex : Int
  matchIndex : Int
  available : Bool
deriving DecidableEq, Repr

structure Node where
  raftNode : Peer
  state : Role
  term : Int
  votedFor : Option Peer
  otherNodes : List (String × ForeignNode)
  allowVote : Bool
  commitIndex : Int
  lastApplied : Int
  log : List LogRecord
  store : Database
  /-- What `WriteTerm` last wrote to the term file. -/
  termFile : TermRecord
  /-- What `WriteLogs` last wrote to the log file. -/
  logFile : List LogRecord

namespace Node

/-- `NewNode` from the two files: every peer starts from `NewForeignNode`. -/
@[simps]
def load (self : Peer) (nodeIds : List String) (termRecord : TermRecord)
    (logs : List LogRecord) (store : Database) : Node where
  raftNode := self
  state := .follower
  term := termRecord.term
  votedFor := termRecord.votedFor
  otherNodes := nodeIds.map fun addr => (addr, ⟨0, -1, true⟩)
  allowVote := true
  commitIndex := -1
  lastApplied := -1
  log := logs
  store := store
  termFile := termRecord
  logFile := logs

/-- `NewNode` from what this process last wrote, with a fresh store. -/
def restart (n : Node) : Node :=
  load n.raftNode (n.otherNodes.map (·.1)) n.termFile n.logFile Database.empty

/-- Memory and the term file change together. -/
@[simps]
def setTerm (n : Node) (newTerm : Int) (votedFor : Option Peer) : Node :=
  { n with term := newTerm, votedFor := votedFor, termFile := ⟨newTerm, votedFor⟩ }

/-- The index `setLog` returns is `newLogs.length - 1`. -/
@[simps]
def setLog (n : Node) (newLogs : List LogRecord) : Node :=
  { n with log := newLogs, logFile := newLogs }

/-- The reset signal goes to the external timer; what stays is the role change. -/
@[simps]
def resetElectionTimer (n : Node) : Node := { n with state := .follower }

def checkForeignNode (addr : String) (known : List (String × ForeignNode)) : Bool :=
  known.any (·.1 == addr)

/-- Go's `||` and `&&` short-circuit, so `Log.Entries[cLogIndex]` is read in
the third disjunct only when the index equals `CommitIndex`; the failure log
reads it again whenever `indexPresent`, a bound with no lower half. -/
def candidateLogUpToDate (n : Node) (cLogIndex cLogTerm : Int) : Option Bool :=
  let indexGreater := decide (cLogIndex > n.commitIndex)
  let indexEqual := decide (cLogIndex = n.commitIndex)
  let bothEmpty := cLogIndex == -1 && n.commitIndex == -1
  let indexPresent := decide (cLogIndex < n.log.length)
  let upToDate := if indexGreater || bothEmpty then some true
    else if indexEqual then (entryAt n.log cLogIndex).map (cLogTerm == ·.term)
    else some false
  upToDate.bind fun upToDate =>
    if !upToDate && indexPresent then (entryAt n.log cLogIndex).map fun _ => upToDate
    else some upToDate

/-- The vote `HandleVote` decides and the node after it. -/
def voteDecision (n : Node) (req : VoteRequest) : Option (Bool × Node) :=
  if req.term < n.term then some (false, n)
  else if req.term = n.term then
    some (false, if n.state = .leader then n.setTerm (wrap64 (n.term + 1)) (some n.raftNode) else n)
  else if !checkForeignNode req.candidate.id n.otherNodes then some (false, n)
  else (n.candidateLogUpToDate req.lastLogIndex req.lastLogTerm).map fun upToDate =>
    if !upToDate then (false, n)
    else if !n.allowVote then (false, n)
    else (true, n.resetElectionTimer.setTerm req.term (some req.candidate))

/-- The reply carries the term after the decision. -/
def handleVote (n : Node) (req : VoteRequest) : Option (Node × VoteReply) :=
  (n.voteDecision req).map fun d => (d.2, ⟨d.2.term, d.1, d.2.raftNode⟩)

/-- `validateAppend` without its timer reset, which `appendPrefix` performs.
At the current term it reads `votedFor.Id`, a nil dereference when there is no vote. -/
def validateAppend (n : Node) (term : Int) (leaderId : String) : Option Bool :=
  if term < n.term then some false
  else if term = n.term then n.votedFor.map (leaderId == ·.id)
  else some true

/-- `inRange` does not guard the read of `Log.Entries[prevIndex]`. -/
def checkPrevious (n : Node) (prevIndex prevTerm : Int) : Option Bool :=
  if prevIndex < 0 then some true
  else (entryAt n.log prevIndex).map fun e => decide (prevIndex < n.log.length) && e.term == prevTerm

/-- The loop of `reconcileLogs` over `overlappingEntries`, at offset `i`, with
`entries` the request's entries from offset `i` on: the cut index, or -1. -/
def mismatchIndex (prev : Int) : Nat → List LogRecord → List LogRecord → Int
  | _, [], _ => -1
  | i, _ :: _, [] => prev + i
  | i, rec :: rest, e :: es =>
    if rec.term ≠ e.term then prev + 1 + i else mismatchIndex prev (i + 1) rest es

def reconcileLogs (entries : List LogRecord) (body : AppendRequest) : Option (List LogRecord) := do
  let mismatchIdx ← if body.prevLogIndex < (entries.length : Int) - 1 then do
      let overlappingEntries ← slice entries (body.prevLogIndex + 1) entries.length
      pure (mismatchIndex body.prevLogIndex 0 overlappingEntries body.entries)
    else pure (-1)
  let entries ← if mismatchIdx ≥ 0 then slice entries 0 mismatchIdx else pure entries
  let offset : Int := ((entries.length : Int) - 1) - body.prevLogIndex
  let newLogs ← slice body.entries offset body.entries.length
  pure (entries ++ newLogs)

/-- Apply `log[i+1]`, …, `log[i+k]` to the store in index order: the loop of
`applyCommittedLogs` and the one of `commitRecords`. -/
def applyEntries (log : List LogRecord) (db : Database) (i : Int) : Nat → Option Database
  | 0 => some db
  | k + 1 => do
    let e ← entryAt log (i + 1)
    applyEntries log (db.apply e) (i + 1) k

/-- The clamp is to `len(Log)`, one past the last index. -/
def applyCommittedLogs (n : Node) (commitIdx : Int) : Option Node :=
  if commitIdx > n.commitIndex then
    let commitIdx := if commitIdx > n.log.length then (n.log.length : Int) else commitIdx
    let k := (commitIdx - n.commitIndex).toNat
    (applyEntries n.log n.store n.commitIndex k).map fun db =>
      { n with commitIndex := n.commitIndex + k, store := db }
  else some n

/-- `HandleAppend` up to its log write: validation, the log-match check, and
`reconcileLogs` with `setLog`. Returns the node, `valid` and `matched`. -/
def appendPrefix (n : Node) (req : AppendRequest) : Option (Node × Bool × Bool) :=
  (n.validateAppend req.term req.leader.id).bind fun valid =>
    let n := if valid then n.resetElectionTimer else n
    (n.checkPrevious req.prevLogIndex req.prevLogTerm).bind fun matched =>
      if valid && matched && !req.entries.isEmpty then
        (reconcileLogs n.log req).map fun logs => (n.setLog logs, valid, matched)
      else some (n, valid, matched)

/-- The end of `HandleAppend` on a valid request: the term update, then the reset. -/
def appendEpilogue (n : Node) (req : AppendRequest) : Node :=
  (if req.term > n.term then n.setTerm req.term (some req.leader) else n).resetElectionTimer

def handleAppend (n : Node) (req : AppendRequest) : Option (Node × AppendReply) :=
  (n.appendPrefix req).bind fun (n, valid, matched) =>
    let applied := if valid && matched then (n.applyCommittedLogs req.leaderCommit).map (·, true)
      else some (n, false)
    applied.map fun (n, success) =>
      let n := if valid then n.appendEpilogue req else n
      (n, ⟨n.term, success⟩)

end Node

end LeifDb
