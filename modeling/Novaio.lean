import Novaio.Affinity.Kept
import Novaio.BufferPool
import Novaio.Closures.Delivery
import Novaio.CoMutex.Fairness
import Novaio.CoMutex.Stress
import Novaio.DirectIo.Resources
import Novaio.Event.CrossCore
import Novaio.Metrics
import Novaio.Overtaking
import Novaio.Poll.Refinement
import Novaio.RunQueue
import Novaio.Serializer
import Novaio.Server.Echo
import Novaio.Server.HttpServer
import Novaio.SpscQueue.Fifo
import Novaio.Task.Composition
import Novaio.Threads
import Novaio.TimeWheel.Cancel
import Novaio.TimeWheel.Count
import Novaio.TimeWheel.Links
import Novaio.TimeWheel.Overdue
import Novaio.TimeWheel.Spin
import Novaio.TimeWheel.Timeout
import Novaio.WhenAll.Exceptions
import Novaio.Worker.Conservation
import Novaio.Worker.Sleeping
import Novaio.Worker.Submission
