import HieUnix.Lib.Transition
import HieUnix.Lib.LinkedStacks
import HieUnix.Lib.Memory
import HieUnix.Lib.Cursor
import HieUnix.Lib.Traced
import HieUnix.Types
import HieUnix.LibC
import HieUnix.FileSystem
import HieUnix.FileRead
import HieUnix.Directory
import HieUnix.Process
import HieUnix.ProcessTables
import HieUnix.ProcessInvariant
import HieUnix.Ownership
import HieUnix.Bracket
import HieUnix.ExitStatus
import HieUnix.SyscallEntry
import HieUnix.Devices
import HieUnix.Descriptors
import HieUnix.UserAccess
import HieUnix.UserCommand
import HieUnix.UserPointers
import HieUnix.HaltSteps
import HieUnix.HaltInvariant
import HieUnix.Preemption
import HieUnix.Lib.TextGrid
import HieUnix.Screen
import HieUnix.ScreenOutput
import HieUnix.ScreenText
import HieUnix.ScreenIsolation
import HieUnix.Keyboard
import HieUnix.ScreenMirror
import HieUnix.TerminalRead
import HieUnix.LineEditing
import HieUnix.LineDelivery
import HieUnix.VideoPage
import HieUnix.Dispatch
import HieUnix.Mouse
import HieUnix.Interrupts
import HieUnix.Arguments
import HieUnix.ReadData
import HieUnix.ImageReads
import HieUnix.FileAccess
import HieUnix.Lookup
import HieUnix.DirOpen
import HieUnix.Loader
import HieUnix.CommandBuffers
import HieUnix.ReadBounds
import HieUnix.InputRows
import HieUnix.Clock
import HieUnix.ModifierKeys
import HieUnix.MouseBytes
import HieUnix.OutputSteps
import HieUnix.Lib.StringOps
import HieUnix.StringCopies
import HieUnix.Lib.Numerals
import HieUnix.NumberText
import HieUnix.Printf
import HieUnix.Blink
import HieUnix.BlinkScreen
import HieUnix.PointerHighlight
import HieUnix.Lib.Paging
import HieUnix.PageTables
import HieUnix.VirtualMemory
import HieUnix.ProcessMemory
import HieUnix.Fairness
import HieUnix.Lib.Interrupts
import HieUnix.DescriptorTables
import HieUnix.InterruptFrames
import HieUnix.CallInterrupts
import HieUnix.SystemCall
import HieUnix.ContextSwitch
import HieUnix.SwitchSteps
import HieUnix.ProcessSwitching
import HieUnix.Lib.InterruptController
import HieUnix.Controllers
import HieUnix.Grep
