import ThreadingKnowHows.ActiveObject.Balance
import ThreadingKnowHows.ActiveObject.Model
import ThreadingKnowHows.ActiveObject.Sequential
import ThreadingKnowHows.AtomicFlag.Exclusion
import ThreadingKnowHows.BarrierBasic.Phases
import ThreadingKnowHows.CallOnce.Output
import ThreadingKnowHows.ClosableQueue.Channel
import ThreadingKnowHows.ClosableQueue.Client
import ThreadingKnowHows.ClosableQueue.Linearizable
import ThreadingKnowHows.ClosableQueue.Wakeup
import ThreadingKnowHows.CompareExchange.Add
import ThreadingKnowHows.CompareExchange.Max
import ThreadingKnowHows.Config.Linearizable
import ThreadingKnowHows.Deadlock.CircularWait
import ThreadingKnowHows.Deadlock.TryLock
import ThreadingKnowHows.Dining.Exclusion
import ThreadingKnowHows.DoubleChecked.Model
import ThreadingKnowHows.DoubleChecked.Publication
import ThreadingKnowHows.FairRWLock.Model
import ThreadingKnowHows.FairRWLock.Overtaking
import ThreadingKnowHows.FibTasks.Schedules
import ThreadingKnowHows.Framework.Ledger
import ThreadingKnowHows.Framework.Local
import ThreadingKnowHows.Framework.LockOrder
import ThreadingKnowHows.Framework.SharedMutex
import ThreadingKnowHows.Framework.Views
import ThreadingKnowHows.Framework.Wakeup
import ThreadingKnowHows.LatchBarrier.Schedules
import ThreadingKnowHows.Livelock.Outcomes
import ThreadingKnowHows.ManyToMany.Completion
import ThreadingKnowHows.ManyToMany.Model
import ThreadingKnowHows.ManyToMany.Protocol
import ThreadingKnowHows.OpenMP.Reduction
import ThreadingKnowHows.OpenMP.Schedules
import ThreadingKnowHows.OrderedLocking.Model
import ThreadingKnowHows.Pipeline.EndToEnd
import ThreadingKnowHows.ProducerConsumer.Quotas
import ThreadingKnowHows.ProducerConsumer.Ring
import ThreadingKnowHows.ProducerConsumer.Shutdown
import ThreadingKnowHows.Publication.Snapshots
import ThreadingKnowHows.RWLock.Output
import ThreadingKnowHows.RaceCondition.FinalValues
import ThreadingKnowHows.ScopedLock.Conservation
import ThreadingKnowHows.Semaphore.Output
import ThreadingKnowHows.Stack.LockFreeLinearizable
import ThreadingKnowHows.Stack.Progress
import ThreadingKnowHows.Stack.TaggedLinearizable
import ThreadingKnowHows.Stack.Visibility
import ThreadingKnowHows.StartingGun.Broadcast
import ThreadingKnowHows.StoreLoad.Outcomes
import ThreadingKnowHows.ThreadPool.ExactlyOnce
import ThreadingKnowHows.ThreadPool.Wakeup
import ThreadingKnowHows.ThreadSpecific.Lifetimes
import ThreadingKnowHows.TimedWait.Verdict
import ThreadingKnowHows.TinyPool.Drain
import ThreadingKnowHows.TinyPool.Model
import ThreadingKnowHows.Tree.Atomicity
import ThreadingKnowHows.WorkStealing.Drain
import ThreadingKnowHows.WorkStealing.Order
import ThreadingKnowHows.WorkStealing.Pending
import ThreadingKnowHows.WorkStealing.RoundRobin
