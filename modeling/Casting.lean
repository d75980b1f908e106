import Casting.Channel.Callbacks
import Casting.Channel.Closing
import Casting.Channel.Delivery
import Casting.Channel.Lifetime
import Casting.Channel.Order
import Casting.Channel.Rendezvous
import Casting.Channel.Sending
import Casting.Map.Tall
import Casting.Message.Footprint
import Casting.Message.RoundTrip
import Casting.Runtime.Current
import Casting.Runtime.Exclusion
import Casting.Runtime.Ownership
import Casting.Runtime.Plain
import Casting.Runtime.Sessions
import Casting.Runtime.Waiting
import Casting.Runtime.Wakeups
import Casting.Session.Destruction
import Casting.Session.Lifetime
import Casting.Task.Registry
import Casting.Task.Status
import Casting.ThreadPool
import Casting.Message.Visits
import Casting.Message.Termination
import Casting.Message.WellFormed
import Casting.Message.Metatables
import Casting.Map.Refinement
import Casting.Map.Replacement
import Casting.Map.Size
import Casting.Map.Contents
import Casting.Map.Destruction
import Casting.Map.Traversal
import Casting.Map.Deep
import Casting.ThreadPool.Sections
import Casting.ThreadPool.Accounting
import Casting.Message.Growth
import Casting.Message.Sizes
import Casting.Message.Counting
import Casting.Message.Origins
import Casting.Message.References
import Casting.Framework.Chain
import Casting.Framework.Refinement
import Casting.Queue.Nodes
import Casting.Queue.Refinement
import Casting.Buffer
import Casting.Buffer.Refinement
import Casting.Framework.Raising
import Casting.Message.Raising
import Casting.Channel.Writing
import Casting.Message.Neutrality
import Casting.Runtime.Settling
import Casting.Framework.LockOrder
import Casting.Runtime.Locking
import Casting.Channel.Sections
import Casting.Message.Shipping
import Casting.Message.Functions
import Casting.Runtime.Transit
import Casting.Runtime.Traffic
import Casting.Runtime.Leaks
import Casting.Runtime.Releases
import Casting.Runtime.Fates
import Casting.Runtime.TaskLifetime
import Casting.Runtime.Tables
import Casting.Runtime.Refinement
import Casting.ThreadPool.Limits
import Casting.Framework.Line
import Casting.Runtime.Turns
import Casting.Runtime.Answers
import Casting.Message.Handles
import Casting.Map.Anderson
