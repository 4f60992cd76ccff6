import Sdd.Lib.Run
import Sdd.Lib.Linked
import Sdd.Lib.Pinning
import Sdd.Collector
import Sdd.Proofs.Collector.Move
import Sdd.Proofs.Collector.Threads
import Sdd.Proofs.Collector.Chain
import Sdd.Proofs.Collector.Epochs
import Sdd.Proofs.Collector.Reclaim
import Sdd.Lib.Linearize
import Sdd.Lib.Skip
import Sdd.LinkedList
import Sdd.Queue
import Sdd.Proofs.LinkedList
import Sdd.Proofs.Queue.Shared
import Sdd.Proofs.Queue.Invariant
import Sdd.Proofs.Queue.Fifo
import Sdd.Proofs.Queue.Answers
import Sdd.Proofs.Queue.PushIf
import Sdd.Proofs.Queue.Empty
import Sdd.Stack
import Sdd.Proofs.Stack.Words
import Sdd.Proofs.Stack.Calls
import Sdd.Proofs.Stack.Invariant
import Sdd.Proofs.Stack.Lifo
import Sdd.Proofs.Stack.Linear
import Sdd.Proofs.Stack.Answers
import Sdd.Proofs.Stack.Linearizable
import Sdd.Proofs.Stack.PushIf
import Sdd.Bag
import Sdd.Handles
import Sdd.Lib.Forest
import Sdd.Process
import Sdd.Proofs.Alone
import Sdd.Proofs.Bag.Alone
import Sdd.Proofs.Bag.Conservation
import Sdd.Proofs.Bag.Observers
import Sdd.Proofs.Exit.Chain
import Sdd.Proofs.Exit.Integrity
import Sdd.Proofs.Exit.Ownership
import Sdd.Proofs.Exit.Pins
import Sdd.Proofs.Exit.Requests
import Sdd.Proofs.Queue.Alone
import Sdd.Proofs.Queue.Returns
import Sdd.Proofs.RefCounted
import Sdd.Proofs.Returns
import Sdd.Unwind
import Sdd.Counted
import Sdd.Local
import Sdd.Proofs.Bag.Unwind
import Sdd.Proofs.Counted
import Sdd.Proofs.Local.Clear
import Sdd.Proofs.Local.Generations
import Sdd.Proofs.PushIf.Entries
import Sdd.Proofs.PushIf.GivesBack
import Sdd.Proofs.Stacks.Handover
import Sdd.Checked
import Sdd.Drain
import Sdd.GetShared
import Sdd.Nesting
import Sdd.Proofs.Bag.Checked
import Sdd.Proofs.Bag.Drain
import Sdd.Proofs.GetShared
import Sdd.Proofs.Nesting
import Sdd.Proofs.Bag.PopNone
import Sdd.Lib.Container
import Sdd.QueueClone
import Sdd.StackClone
import Sdd.Proofs.Queue.Clone
import Sdd.Proofs.Stack.Clone
import Sdd.Proofs.Clone
import Sdd.AtomicOwned
import Sdd.Proofs.Exit.Garbage
import Sdd.Proofs.Exit.Inside
import Sdd.Proofs.Exit.Windows
import Sdd.Proofs.Exit.Guarded
import Sdd.Proofs.AtomicOwned.Owners
import Sdd.Proofs.AtomicOwned.Guarded
import Sdd.Proofs.AtomicOwned.Refines
import Sdd.AtomicShared
import Sdd.Proofs.AtomicShared.Places
import Sdd.Proofs.AtomicShared.Life
import Sdd.Proofs.AtomicShared.Guarded
import Sdd.Proofs.Exit.Flags
import Sdd.Proofs.Exit.Solo
import Sdd.Proofs.Exit.SoloScan
import Sdd.Proofs.Exit.Reclaims
import Sdd.Sweep
import Sdd.QueueDrop
import Sdd.StackDrop
import Sdd.Proofs.Sweep
import Sdd.Proofs.Queue.Drop
import Sdd.Proofs.Stack.Drop
import Sdd.Proofs.Drop
import Sdd.TaggedWord
import Sdd.Proofs.TaggedWord.Word
import Sdd.Proofs.TaggedWord.Calls
import Sdd.Proofs.TaggedWord.Runs
