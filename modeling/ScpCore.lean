import ScpCore.RecoveryFleet
import ScpCore.KelConverge
import ScpCore.EventInclusion
import ScpCore.EventColdStorage
import ScpCore.EventConsistency
import ScpCore.StreamAudit
import ScpCore.CaveatConsume
import ScpCore.ReplayFloors
import ScpCore.SagaResolve
import ScpCore.GovernanceEligibility
import ScpCore.GovernanceVotes
import ScpCore.SagaLives
import ScpCore.KelRestore
import ScpCore.KelChange
import ScpCore.KelAuthorization
import ScpCore.BroadcastDeparture
import ScpCore.NodeReplay
import ScpCore.NodeQuiet
import ScpCore.NonceTracker
import ScpCore.KelEviction
import ScpCore.ClientDataExact
import ScpCore.SpendingUcan
import ScpCore.UcanEvaluate
import ScpCore.CeilingNames
import ScpCore.ContextNesting
import ScpCore.PrepareFreshness
import ScpCore.KeyRequests
import ScpCore.ConsequenceRepeat
import ScpCore.Admission
import ScpCore.RateLimit
import ScpCore.PseudonymAnnounce
