import Exploration.AccessWords
import Exploration.Enabled
import Exploration.Search.States
import Exploration.System.Path
import Exploration.Tour.Settings
import Exploration.Proofs.Search.EdgeKind
import Exploration.Proofs.Search.Exhaustive
import Exploration.Proofs.Tour.Descent
import Exploration.Proofs.Tour.Consumer
import Exploration.Proofs.Search.Run
import Exploration.Proofs.System.Route
import Exploration.Proofs.Search.Inheritance
import Exploration.Proofs.Search.Queue
import Exploration.Proofs.Search.Depth
import Exploration.Proofs.Search.FinishOrder
import Exploration.Proofs.Search.WhitePath
import Exploration.Proofs.Search.Replay
import Exploration.Proofs.Search.Starts
import Exploration.Proofs.AccessWords.Shadow
import Exploration.Proofs.AccessWords.Draw
import Exploration.Proofs.AccessWords.FirstWord
import Exploration.Proofs.Search.Recursion
import Exploration.Proofs.Traversal.Stack
import Exploration.Proofs.Traversal.Blocks
import Exploration.Proofs.Search.Coloring
import Exploration.Proofs.Search.Explorer
import Exploration.Proofs.Search.Representation
import Exploration.Proofs.Tour.Accounting
import Exploration.Proofs.Traversal.Backtrack
import Exploration.Proofs.AccessWords.Shortlex
import Exploration.Proofs.Search.EdgeHistory
import Exploration.Proofs.Tour.Termination
import Exploration.Proofs.Tour.ExploreOnce
import Exploration.Proofs.Tour.Company
import Exploration.Proofs.Tour.StartOrder
import Exploration.Proofs.Search.Discovery
import Exploration.Proofs.Search.StartOrder
import Exploration.Proofs.Tour.Limit
import Exploration.Proofs.Traversal.Waiting
import Exploration.Proofs.Traversal.Walk
import Exploration.Proofs.AccessWords.Pull
import Exploration.Proofs.Traversal.Idle
import Exploration.Proofs.Search.Idle
import Exploration.Proofs.Tour.TwoLimits
import Exploration.Proofs.Tour.Episodes
import Exploration.Proofs.Tour.Levels
import Exploration.Proofs.Order.Naming
import Exploration.Proofs.System.Enabled
import Exploration.Proofs.Cursor.Chapters
