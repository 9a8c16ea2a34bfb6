import Accure.Library.OrderedSet
import Accure.Library.Worklist
import Accure.Library.Conflict
import Accure.Library.Verdict
import Accure.Library.Framing
import Accure.Op
import Accure.Dag
import Accure.DagReach
import Accure.State
import Accure.Validity
import Accure.Compensation
import Accure.Integrate
import Accure.PolicyGraph
import Accure.BuiltDags
import Accure.Register
import Accure.Arrival
import Accure.Rendering
import Accure.Alike
import Accure.Run
import Accure.Updates
import Accure.Unordered
import Accure.Faithful
import Accure.Dots
import Accure.Levels
import Accure.Causal
import Accure.Graphs
import Accure.Idempotent
import Accure.SettledRuns
import Accure.Decisions
import Accure.Generated
import Accure.Coverage
import Accure.Confined
import Accure.Commute
import Accure.Knowledge
import Accure.Edits
import Accure.LocalEdits
import Accure.Redo
import Accure.Convergence
import Accure.Servers
import Accure.Reports
import Accure.Harmless
import Accure.Peer
import Accure.Sessions
import Accure.BadSync
import Accure.Command
import Accure.Grammar
import Accure.Wire
import Accure.Library.Serial
import Accure.Calls
import Accure.Handle
import Accure.Messages
import Accure.Send
import Accure.Replies
import Accure.Replication
import Accure.Tuples
import Accure.Meaning
import Accure.Calm
import Accure.Places
import Accure.Terminal
import Accure.Panes
import Accure.Library.Pipe
import Accure.Client
import Accure.Stored
import Accure.Restart
import Accure.Library.Sections
import Accure.Locks
