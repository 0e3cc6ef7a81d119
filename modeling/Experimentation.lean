import Experimentation.Semantics.DyadicTiling
import Experimentation.Semantics.Exec
import Experimentation.Semantics.Flags
import Experimentation.Buddy.Node
import Experimentation.Buddy.Pool
import Experimentation.Buddy.Tiling
import Experimentation.Buddy.Layout
import Experimentation.Buddy.Allocation
import Experimentation.Buddy.Release
import Experimentation.Buddy.Run
import Experimentation.Buddy.Coverage
import Experimentation.Buddy.Requests
import Experimentation.Buddy.Limits
import Experimentation.HashTable.Table
import Experimentation.Semantics.Buckets
import Experimentation.HashTable.Layout
import Experimentation.HashTable.Run
import Experimentation.HashTable.Refinement
import Experimentation.HashTable.Iterator
import Experimentation.StateMachine.Machine
import Experimentation.Semantics.Sweep
import Experimentation.StateMachine.Marking
import Experimentation.StateMachine.Automaton
import Experimentation.StateMachine.Simulation
import Experimentation.HashTable.Nodes
import Experimentation.StateMachine.Memory
import Experimentation.StateMachine.Reachability
import Experimentation.Semantics.PriorityFifo
import Experimentation.StateMachine.Built
import Experimentation.StateMachine.Queue
import Experimentation.StateMachine.QueueDiscipline
import Experimentation.HashTable.Accounting
import Experimentation.Buddy.Lookup
import Experimentation.Buddy.Statistics
import Experimentation.MatrixMul.Program
import Experimentation.MatrixMul.Schedule
import Experimentation.HashTable.Placement
import Experimentation.StateMachine.Registration
import Experimentation.StateMachine.CurrentState
import Experimentation.StateMachine.StaleFlags
import Experimentation.Semantics.TailQueue
import Experimentation.StateMachine.Threads
import Experimentation.StateMachine.Handover
import Experimentation.Semantics.Census
import Experimentation.SleepingBarber.Program
import Experimentation.SleepingBarber.Safety
import Experimentation.Buddy.BestFit
import Experimentation.Buddy.MergeLoop
import Experimentation.HashTable.Sizes
import Experimentation.HashTable.Failures
import Experimentation.StateMachine.Stored
import Experimentation.StateMachine.Scan
import Experimentation.Semantics.Streams
import Experimentation.StateMachine.Output
import Experimentation.StateMachine.NullTargets
import Experimentation.StateMachine.DotExport
import Experimentation.Semantics.Comments
import Experimentation.StateMachine.CommentProgram
import Experimentation.StateMachine.CommentCells
import Experimentation.StateMachine.CommentRemoval
import Experimentation.Semantics.LittleEndian
import Experimentation.MatrixMul.Mulvect
import Experimentation.Semantics.Heap
import Experimentation.MatrixMul.Storage
import Experimentation.Semantics.Lines
import Experimentation.Semantics.Numerals
import Experimentation.FileOps.Hexdump
import Experimentation.FileOps.HexdumpLayout
import Experimentation.Homework.Charfreq
import Experimentation.Homework.Histogram
import Experimentation.FileOps.ListdirRecursive
import Experimentation.Buddy.HistoryBits
import Experimentation.StateMachine.Descriptions
import Experimentation.Semantics.Agreement
import Experimentation.Semantics.LinkedLists
import Experimentation.Buddy.ListLinks
import Experimentation.Buddy.ListRefinement
import Experimentation.Buddy.LinkedRuns
import Experimentation.Buddy.Capacity
import Experimentation.Buddy.Simulation
import Experimentation.HashTable.ChainLinks
import Experimentation.HashTable.ChainRefinement
import Experimentation.HashTable.ChainRuns
import Experimentation.Semantics.Locks
import Experimentation.SharedCounter.Program
import Experimentation.SharedCounter.Safety
import Experimentation.SleepingBarber.Liveness
import Experimentation.Semantics.Releases
import Experimentation.HashTable.Teardown
import Experimentation.StateMachine.Teardown
import Experimentation.StateMachine.TeardownRuns
import Experimentation.Semantics.Saturation
import Experimentation.StateMachine.RepeatedMarking
import Experimentation.Semantics.Charges
import Experimentation.HashTable.GrowthCost
import Experimentation.HashTable.Blocks
import Experimentation.StateMachine.Blocks
import Experimentation.StateMachine.Lifetimes
