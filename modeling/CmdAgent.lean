import CmdAgent.Framework.Text
import CmdAgent.Framework.SqlText
import CmdAgent.Framework.JsonText
import CmdAgent.Framework.KeyedTable
import CmdAgent.Framework.Machine
import CmdAgent.Framework.Ends
import CmdAgent.Framework.History
import CmdAgent.Framework.Registry
import CmdAgent.Framework.Restart
import CmdAgent.Framework.Broker
import CmdAgent.Framework.Calls
import CmdAgent.Framework.Frames
import CmdAgent.Framework.Block
import CmdAgent.Framework.Arena
import CmdAgent.Framework.Layer
import CmdAgent.Impl.Types
import CmdAgent.Impl.Parse
import CmdAgent.Impl.Mysql
import CmdAgent.Impl.State
import CmdAgent.Impl.Log
import CmdAgent.Impl.Session
import CmdAgent.Impl.SocketRead
import CmdAgent.Impl.Main
import CmdAgent.Impl.Startup
import CmdAgent.Impl.Memory
import CmdAgent.Impl.Flat
import CmdAgent.Proof.Parse
import CmdAgent.Proof.Read
import CmdAgent.Proof.SocketRead
import CmdAgent.Proof.Reassembly
import CmdAgent.Proof.Statements
import CmdAgent.Proof.FileBuffer
import CmdAgent.Proof.Serve
import CmdAgent.Proof.Log
import CmdAgent.Proof.Step
import CmdAgent.Proof.EventLoop
import CmdAgent.Proof.Registrations
import CmdAgent.Proof.SessionTable
import CmdAgent.Proof.Delivery
import CmdAgent.Proof.Dispatch
import CmdAgent.Proof.Isolation
import CmdAgent.Proof.Descriptors
import CmdAgent.Proof.Framing
import CmdAgent.Proof.SendQueue
import CmdAgent.Proof.Leakage
import CmdAgent.Proof.Command
import CmdAgent.Proof.Forward
import CmdAgent.Proof.Record
import CmdAgent.Proof.Lifecycle
import CmdAgent.Proof.Provenance
import CmdAgent.Proof.Survival
import CmdAgent.Proof.Inherited
import CmdAgent.Proof.Restart
import CmdAgent.Proof.Broker
import CmdAgent.Proof.Interference
import CmdAgent.Proof.Capacity
import CmdAgent.Proof.Slots
import CmdAgent.Proof.LogMap
import CmdAgent.Proof.Startup
import CmdAgent.Proof.Memory.Erasure
import CmdAgent.Proof.Memory.Blocks
import CmdAgent.Proof.Memory.Ledger
import CmdAgent.Proof.Memory.Runs
import CmdAgent.Proof.Memory.Released
