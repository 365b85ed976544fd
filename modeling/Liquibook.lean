import Liquibook.Lib.Threads
import Liquibook.Lib.Probing
import Liquibook.Lib.Best
import Liquibook.Lib.Greedy
import Liquibook.Lib.BigEndian
import Liquibook.Lib.Cyclic
import Liquibook.Lib.Fairness
import Liquibook.Lib.Commuting
import Liquibook.Lib.Positions
import Liquibook.Lib.ReleaseAcquire
import Liquibook.Lib.Visibility
import Liquibook.Containers.IntrusiveList
import Liquibook.Containers.ObjectPool
import Liquibook.Containers.HashMap
import Liquibook.Containers.BoundedMap
import Liquibook.Containers.ProbeCost
import Liquibook.Containers.PoolRuns
import Liquibook.Containers.SharedLists
import Liquibook.Containers.SpscRingBuffer
import Liquibook.Book.OrderBook
import Liquibook.Book.Levels
import Liquibook.Book.Queues
import Liquibook.Spec.Ledger
import Liquibook.Spec.Exact
import Liquibook.Book.Shape
import Liquibook.Book.Refinement
import Liquibook.Book.View
import Liquibook.Book.ReferenceOrderBook
import Liquibook.Book.Consistency
import Liquibook.Book.Aggregates
import Liquibook.Book.Outliers
import Liquibook.Engine.MatchingEngine
import Liquibook.Engine.Reach
import Liquibook.Engine.Matching
import Liquibook.Engine.DryRun
import Liquibook.Engine.Submit
import Liquibook.Engine.Reached
import Liquibook.Engine.Priority
import Liquibook.Engine.Outcome
import Liquibook.Engine.Remainder
import Liquibook.Engine.Origins
import Liquibook.Engine.FillOrKill
import Liquibook.Engine.WrappedCount
import Liquibook.Engine.RestEvents
import Liquibook.Engine.SelfTrade
import Liquibook.Engine.Skipping
import Liquibook.Engine.LevelWalk
import Liquibook.Engine.Slicing
import Liquibook.Engine.Liquidity
import Liquibook.Engine.Uncrossed
import Liquibook.Engine.Transcript
import Liquibook.Engine.Mirror
import Liquibook.Engine.Indistinguishable
import Liquibook.Engine.Commuting
import Liquibook.Engine.QueuePosition
import Liquibook.Engine.Conservation
import Liquibook.Engine.Waiting
import Liquibook.Engine.OrderTypes
import Liquibook.Engine.Generous
import Liquibook.Engine.EventLog
import Liquibook.Engine.LateJoin
import Liquibook.Itch.Messages
import Liquibook.Itch.Decode
import Liquibook.Itch.Wire
import Liquibook.Itch.Synth
import Liquibook.Itch.Apply
import Liquibook.Itch.Framing
import Liquibook.Itch.ByteOrder
import Liquibook.Itch.FileReader
import Liquibook.Itch.Truncation
import Liquibook.Itch.Generate
import Liquibook.Itch.SelfConsistent
import Liquibook.Itch.StreamReplay
import Liquibook.Itch.Symbols
import Liquibook.Itch.Session
import Liquibook.Pipeline.ItchPipeline
import Liquibook.Pipeline.Drain
import Liquibook.Pipeline.Progress
import Liquibook.Pipeline.WeakRing
import Liquibook.Pipeline.WeakPipeline
import Liquibook.Pipeline.WeakProgress
import Liquibook.Pipeline.Generated
