import Expedition.Lib.Exec
import Expedition.Lib.Interface
import Expedition.Lib.Tap
import Expedition.Lib.Bits
import Expedition.Lib.Stdio
import Expedition.Lib.Machine
import Expedition.Lib.Links
import Expedition.Lib.Ring
import Expedition.Jtag.World
import Expedition.Jtag.Driver
import Expedition.Jtag.Tracking
import Expedition.Jtag.Shift
import Expedition.Jtag.Frame
import Expedition.Jtag.Pins
import Expedition.Jtag.Compose
import Expedition.Dap.Port
import Expedition.Dap.Scan
import Expedition.Dap.Memory
import Expedition.Dap.Calls
import Expedition.Dap.Blocks
import Expedition.Dap.Transfers
import Expedition.Load.Program
import Expedition.Load.Loop
import Expedition.Load.Check
import Expedition.Load.Image
import Expedition.Host.Codes
import Expedition.Host.Code
import Expedition.Host.Loops
import Expedition.Host.Buffers
import Expedition.Host.Mailbox
import Expedition.Host.Sends
import Expedition.Host.Discipline
import Expedition.Host.Progress
import Expedition.Host.Ack
import Expedition.Host.Closed
import Expedition.Host.Posting
import Expedition.Host.Handover
import Expedition.Host.Collect
import Expedition.Host.Threads
import Expedition.Host.Lines
import Expedition.Host.Scans
import Expedition.Host.Shutdown
import Expedition.Host.Leaving
import Expedition.Power.Rails
import Expedition.Power.Lowering
import Expedition.Power.Channels
import Expedition.Power.Order
import Expedition.Rtx.Lists
import Expedition.Rtx.Queues
import Expedition.Rtx.Chains
import Expedition.Rtx.Refine
import Expedition.Rtx.Delays
import Expedition.Rtx.Kernel
import Expedition.Rtx.Posts
import Expedition.Rtx.Sched
import Expedition.Rtx.Sound
import Expedition.Rtx.Steps
import Expedition.Rtx.Frames
import Expedition.Rtx.Calls
import Expedition.Rtx.Sleep
import Expedition.Rtx.Rises
import Expedition.Rtx.System
import Expedition.Rtx.Boot
import Expedition.Rtx.Safety
import Expedition.Rtx.Drain
import Expedition.Rtx.Waiting
import Expedition.Rtx.Timing
import Expedition.Rtx.Wakeups
import Expedition.Rtx.Served
import Expedition.Rtx.Ledger
import Expedition.Rtx.Locks
import Expedition.Rtx.Tokens
import Expedition.Rtx.Robin
