import AccountDirectory.Library.Machine
import AccountDirectory.Library.Register
import AccountDirectory.Rehydration
import AccountDirectory.Restart
import AccountDirectory.Ledger
import AccountDirectory.NoRollback
import AccountDirectory.Reference
import AccountDirectory.Custody
import AccountDirectory.Blindness
import AccountDirectory.Footprint
import AccountDirectory.Durability
import AccountDirectory.ReplayFence
import AccountDirectory.Concurrent
import AccountDirectory.Interleaving
import AccountDirectory.Linearization
import AccountDirectory.GaplessLog
import AccountDirectory.ExactlyOnce
import AccountDirectory.Isolation
import AccountDirectory.Convergence
import AccountDirectory.Overflow
import AccountDirectory.PathGate
import AccountDirectory.Migration
import AccountDirectory.ContractGate
import AccountDirectory.GateScan
import AccountDirectory.GateAgreement
import AccountDirectory.Faults
import AccountDirectory.Readers
import AccountDirectory.Library.Acyclic
import AccountDirectory.Library.Scan
import AccountDirectory.Library.Traverse
import AccountDirectory.Library.Worklist
import AccountDirectory.Native.CargoTree
import AccountDirectory.Native.Cfg
import AccountDirectory.Native.Doctests
import AccountDirectory.Native.Returns
import AccountDirectory.Native.Mirror
import AccountDirectory.Native.ThirdParty
