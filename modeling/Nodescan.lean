import Nodescan.FaultState
import Nodescan.StreamScan
import Nodescan.Tokenisation
import Nodescan.AsyncEngine
import Nodescan.Script
import Nodescan.EngineSteps
import Nodescan.EngineRuns
import Nodescan.DirtyPass
import Nodescan.FinishedOnce
import Nodescan.SocketRegistry
import Nodescan.Accounting
import Nodescan.LaunchFailure
import Nodescan.ScanEnd
import Nodescan.Protocols
import Nodescan.SSL
import Nodescan.RecordBounds
import Nodescan.SIP
import Nodescan.SSH
import Nodescan.LoopsEnd
import Nodescan.Draws
import Nodescan.TargetSets
import Nodescan.Enumeration
import Nodescan.SaveRestore
import Nodescan.SSLDecoding
import Nodescan.SSHFraming
import Nodescan.SIPHeaders
import Nodescan.HostInvariants
import Nodescan.HostLifetime
import Nodescan.StepIndices
import Nodescan.CallbackProtocol
import Nodescan.CallbackOrder
import Nodescan.Renaming
import Nodescan.Reconnection
import Nodescan.ServerHello
import Nodescan.TargetFile
import Nodescan.LineStream
import Nodescan.ReadBytes
import Nodescan.Launching
import Nodescan.LaunchingEnds
import Nodescan.SimpleTargets
import Nodescan.HostCompletion
import Nodescan.CharTriggers
import Nodescan.TimeoutTargets
import Nodescan.TriggerScans
import Nodescan.BlockHeap
import Nodescan.Buffer
import Nodescan.SIPLines
import Nodescan.BufferQueue
import Nodescan.BufferElements
import Nodescan.BufferSizes
import Nodescan.ScanSteps
import Nodescan.TargetLedger
import Nodescan.ScanCoverage
import Nodescan.LaunchResumes
import Nodescan.StepsDone
import Nodescan.Timeouts
import Nodescan.Layers
import Nodescan.Autosave
import Nodescan.Reinjection
import Nodescan.Connections
import Nodescan.Independence
import Nodescan.ConnectionTokens
import Nodescan.ProtocolScans
