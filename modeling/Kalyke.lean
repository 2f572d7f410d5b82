import Kalyke.Lib.WhileLoop
import Kalyke.Lib.History
import Kalyke.Lib.ShiftStack
import Kalyke.Lib.LazyLoops
import Kalyke.Lib.NumberedFrames
import Kalyke.Lib.Runs
import Kalyke.Lib.Writes
import Kalyke.Lib.Flash
import Kalyke.Lib.RisingEdge
import Kalyke.Lib.SlotRing
import Kalyke.Common.Error
import Kalyke.Ucode.Memory
import Kalyke.Ucode.SimpleIns
import Kalyke.Ucode.ComplexIns
import Kalyke.Compiler.State
import Kalyke.Compiler.Move
import Kalyke.Compiler.Lists
import Kalyke.Compiler.Compile
import Kalyke.Compiler.Walk
import Kalyke.Compiler.Termination
import Kalyke.Compiler.Tables
import Kalyke.Compiler.Accepted
import Kalyke.Compiler.Blocks
import Kalyke.Compiler.Recording
import Kalyke.Compiler.CleanLists
import Kalyke.Exec.Elements
import Kalyke.Exec.ParseAddr
import Kalyke.Exec.State
import Kalyke.Exec.SimpleIns
import Kalyke.Exec.CallPara
import Kalyke.Exec.Clean
import Kalyke.Exec.FlowCtrl
import Kalyke.Exec.ComplexIns
import Kalyke.Exec.Run
import Kalyke.Exec.Lengths
import Kalyke.Exec.Ladder
import Kalyke.Exec.Steps
import Kalyke.Exec.Control
import Kalyke.Exec.Progress
import Kalyke.Exec.LoopStack
import Kalyke.Exec.Loops
import Kalyke.Exec.Levels
import Kalyke.Exec.Operands
import Kalyke.Exec.Parameters
import Kalyke.Exec.Stl
import Kalyke.Exec.Sequence
import Kalyke.Exec.Edges
import Kalyke.Exec.Access
import Kalyke.Exec.RoundTrip
import Kalyke.Exec.DataProcessing
import Kalyke.Exec.Bits
import Kalyke.Exec.Frames
import Kalyke.Exec.Accesses
import Kalyke.Exec.Ranges
import Kalyke.Exec.Moves
import Kalyke.Exec.Atomic
import Kalyke.Exec.CleanUp
import Kalyke.Exec.SwitchOff
import Kalyke.Modbus.MapTable
import Kalyke.Modbus.AddressMap
import Kalyke.Modbus.Message
import Kalyke.Modbus.Registers
import Kalyke.Modbus.Multiple
import Kalyke.Modbus.Diagnostic
import Kalyke.Modbus.Board
import Kalyke.Modbus.Download
import Kalyke.Modbus.Upload
import Kalyke.Modbus.Ctrl
import Kalyke.Modbus.Handler
import Kalyke.Modbus.Requests
import Kalyke.Modbus.ElementRange
import Kalyke.Modbus.Transfer
import Kalyke.Modbus.Account
import Kalyke.Modbus.Answers
import Kalyke.Modbus.ListenOnly
import Kalyke.Modbus.Plans
import Kalyke.Modbus.Forcing
import Kalyke.Modbus.AllOrNothing
import Kalyke.Modbus.Reads
import Kalyke.Modbus.WriteRead
import Kalyke.Modbus.Counters
import Kalyke.Modbus.Alike
import Kalyke.Modbus.Responses
import Kalyke.Modbus.Determined
import Kalyke.Modbus.ForceLists
import Kalyke.Modbus.Copies
import Kalyke.Modbus.UploadRuns
import Kalyke.Modbus.Directions
import Kalyke.Modbus.OnlineProgram
import Kalyke.Modbus.Programme
import Kalyke.Modbus.PartWrites
import Kalyke.Modbus.CbinInstall
import Kalyke.Modbus.ProgrammeFlash
import Kalyke.Master.Port
import Kalyke.Master.ModbusIns
import Kalyke.Master.ModrwIns
import Kalyke.Master.OncePerEdge
import Kalyke.Highspeed.CounterList
import Kalyke.Highspeed.CompareList
import Kalyke.Interrupt.Queue
import Kalyke.Highspeed.Pulses
import Kalyke.SysManage.Password
import Kalyke.SysManage.PlsdData
import Kalyke.SysManage.Retention
import Kalyke.SysManage.RunStatus
import Kalyke.Interrupt.Transparency
import Kalyke.SysManage.SysBlockRefusal
import Kalyke.Exec.TimerIns
import Kalyke.Exec.TimerLaw
import Kalyke.Exec.TimerRefresh
import Kalyke.Highspeed.Drive
import Kalyke.Exec.CounterIns
import Kalyke.Highspeed.Plsy
import Kalyke.Highspeed.Ownership
import Kalyke.Highspeed.Position
import Kalyke.Exec.Deque
import Kalyke.EtherCat.Loopback
import Kalyke.Daisy.Exchange
import Kalyke.Daisy.StartupLaw
import Kalyke.Common.VerifyFunc
import Kalyke.Exec.Jumps
import Kalyke.Exec.CallCleanUp
import Kalyke.Exec.BlockSplits
import Kalyke.Exec.ElementAddr
import Kalyke.Modbus.InputReads
import Kalyke.Modbus.ForceRefresh
import Kalyke.Modbus.BlockUploads
import Kalyke.Modbus.MonitorLists
import Kalyke.Exec.Shifts
import Kalyke.Exec.Duty
import Kalyke.Exec.Conversions
import Kalyke.Exec.Arithmetic
import Kalyke.Exec.Rotations
import Kalyke.Exec.Search
import Kalyke.Exec.BlockOperations
import Kalyke.Exec.BlockMoves
import Kalyke.Exec.Bytes
import Kalyke.Exec.WordGroups
import Kalyke.Exec.Ascii
import Kalyke.Exec.Zones
import Kalyke.Exec.TimerPulse
import Kalyke.Exec.ClockCompare
import Kalyke.Exec.HourMeter
import Kalyke.Exec.Alarms
import Kalyke.Exec.StringMoves
import Kalyke.Exec.Substrings
import Kalyke.Exec.StringReplace
import Kalyke.Exec.StringSearch
import Kalyke.Exec.ErrorRecord
import Kalyke.Highspeed.Resets
import Kalyke.Exec.DataBlock
import Kalyke.Modbus.WriteRuns
