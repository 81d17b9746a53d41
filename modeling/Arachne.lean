import Arachne.Security.AuthorityRuns
import Arachne.Security.InvitationRuns
import Arachne.Delivery.Audience
import Arachne.Store.RecordIntegrity
import Arachne.Delivery.AuthenticatedContext
import Arachne.Routing.RoutingRuns
import Arachne.Delivery.CurrentReader
import Arachne.Security.NameConvergence
import Arachne.Delivery.AvailableRange
import Arachne.Runtime.RecoveryWindow
import Arachne.Delivery.DirectGaps
import Arachne.Delivery.DirectSequences
import Arachne.Delivery.PublisherPressure
import Arachne.Runtime.ProfileWalk
import Arachne.Runtime.RangeCatchUp
import Arachne.Delivery.StorageCodecs
import Arachne.Node.ControlOrder
import Arachne.Runtime.Presence
import Arachne.Security.HistoryRebuild
import Arachne.Runtime.BranchService
