import Capwap.Lib.Arena
import Capwap.Lib.Bytes
import Capwap.Lib.Loop
import Capwap.Pool.Alloc
import Capwap.Pool.Array
import Capwap.Pool.Spatial
import Capwap.Pool.Runs
import Capwap.Pool.Release
import Capwap.Pool.Contents
import Capwap.Pool.Push
import Capwap.Pool.Atomic
import Capwap.Pool.Window
import Capwap.Lib.Amortised
import Capwap.Pool.Growth
import Capwap.Conf.Token
import Capwap.Conf.Lexer
import Capwap.Conf.Refine
import Capwap.Conf.Calls
import Capwap.Conf.Length
import Capwap.Conf.Quoting
import Capwap.Conf.Variables
import Capwap.Conf.Layout
import Capwap.Conf.Parse
import Capwap.Conf.Dispatch
import Capwap.Conf.Grammar
import Capwap.Conf.Resources
import Capwap.Conf.Core
import Capwap.Conf.CoreText
import Capwap.Conf.Http
import Capwap.Conf.Atoi
import Capwap.Conf.Rounds
import Capwap.Conf.Bounds
import Capwap.Conf.Copy
import Capwap.Conf.Heads
import Capwap.Conf.Ends
import Capwap.Conf.Reliable
import Capwap.Conf.Simulate
import Capwap.Conf.TooLong
import Capwap.Conf.Trace
import Capwap.Conf.Balance
import Capwap.Cycle.Machine
import Capwap.Cycle.Init
import Capwap.Cycle.Listen
import Capwap.Cycle.Modules
import Capwap.Cycle.Lifecycle
import Capwap.Cycle.Slots
import Capwap.Cycle.Sockets
import Capwap.Process.Spawn
import Capwap.Process.Supervisor
import Capwap.Process.Master
import Capwap.Conf.ReadFile
import Capwap.Conf.Syntax
import Capwap.Conf.Meaning
import Capwap.Conf.CoreFile
import Capwap.Lib.Family
import Capwap.Process.Signals
import Capwap.Process.System
import Capwap.Process.Histories
import Capwap.Process.Program
import Capwap.Lib.Pattern
import Capwap.Script.Interface
import Capwap.Script.Lines
import Capwap.Script.Scopes
import Capwap.Script.Lists
import Capwap.Script.Records
import Capwap.Script.Program
import Capwap.Script.Shown
import Capwap.Script.Output
import Capwap.Lib.Tokens
import Capwap.Script.Source
