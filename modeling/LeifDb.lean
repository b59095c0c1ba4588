import LeifDb.Basic
import LeifDb.Node
import LeifDb.Leader
import LeifDb.Ops
import LeifDb.Cluster
import LeifDb.Handlers
import LeifDb.Term
import LeifDb.Commit
import LeifDb.Transitions
import LeifDb.Votes
import LeifDb.Elections
import LeifDb.Reconcile
import LeifDb.Logs
import LeifDb.Append
import LeifDb.Backoff
import LeifDb.Process
import LeifDb.Redirect
import LeifDb.BackoffRun
import LeifDb.MessageTerms
