import LeifDb.Leader

/-! The operations of one node, as a single type: the two handlers on any
request, the two halves of `DoElection` with any outcome of its calls, the
write path with any peer bookkeeping, and the end of the grace window. The
cluster performs exactly these on each process, and restarts it. -/
namespace LeifDb

inductive Op
  | handleVote (req : VoteRequest)
  | handleAppend (req : AppendRequest)
  | startElection
  /-- A `requestVote` call returned, with a reply or an error. -/
  | voteReturned (host : String) (answered : Bool)
  | concludeElection (e : Election)
  | appendRecord (record : LogRecord)
  | appendSucceeded (host : String) (idx : Int)
  | backOff (host : String)
  | markUnavailable (host : String)
  | commitRecords
  | allowVote

namespace Node

def exec (n : Node) : Op → Option Node
  | .handleVote req => (n.handleVote req).map (·.1)
  | .handleAppend req => (n.handleAppend req).map (·.1)
  | .startElection => some n.startElection
  | .voteReturned host answered => some (n.setAvailable host answered)
  | .concludeElection e => (n.concludeElection e).map (·.1)
  | .appendRecord record => some (n.appendRecord record)
  | .appendSucceeded host idx => some (n.appendSucceeded host idx)
  | .backOff host => some (n.backOff host)
  | .markUnavailable host => some (n.setAvailable host false)
  | .commitRecords => n.commitRecords
  | .allowVote => some { n with allowVote := true }

end Node

end LeifDb
