import Gemini.Chrono
import Gemini.Lib.Run
import Gemini.Lib.FairShare
import Gemini.Lib.SlidingMax
import Gemini.Hook.Token
import Gemini.Hook.Quota
import Gemini.Hook.MemoryLimit
import Gemini.Prediction.Refine
import Gemini.PodManager.Exclusion
import Gemini.Scheduler.Sleep
import Gemini.Scheduler.Daemon
import Gemini.Scheduler.Delivery
import Gemini.Scheduler.Exclusive
import Gemini.Scheduler.Limit
import Gemini.Scheduler.HolderReturn
import Gemini.Scheduler.Policy
import Gemini.Hook.Tracking
import Gemini.PodManager.Wakeup
import Gemini.PodManager.Reports
import Gemini.PodManager.Ledger
import Gemini.Comm.RoundTrip
import Gemini.Comm.Framing
import Gemini.Scheduler.Conservation
import Gemini.Hook.Ledgers
import Gemini.PodManager.Recovery
import Gemini.Hook.Retry
import Gemini.Hook.Intercept
import Gemini.PodManager.Bursts
import Gemini.Hook.Isolation
import Gemini.Scheduler.Reload
import Gemini.Prediction.Bound
import Gemini.Scheduler.Adaptive
import Gemini.PodManager.Accounting
import Gemini.Hook.Sizes
import Gemini.Hook.Devices
import Gemini.Comm.Parsing
import Gemini.Scheduler.Overlap
import Gemini.Scheduler.PassSafety
import Gemini.Lib.Simulation
import Gemini.PodManager.Tickets
import Gemini.Scheduler.Held
import Gemini.Scheduler.Progress
import Gemini.System.Network
import Gemini.System.Books
import Gemini.System.Requests
import Gemini.System.Refinement
import Gemini.System.EndToEnd
import Gemini.System.Handshake
import Gemini.Lib.RateLimit
import Gemini.Scheduler.Ceiling
import Gemini.Scheduler.BusyTime
import Gemini.Comm.Response
import Gemini.PodManager.Service
import Gemini.System.Progress
import Gemini.Scheduler.Watch
import Gemini.Hook.Replaced
