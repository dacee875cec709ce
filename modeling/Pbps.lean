import Pbps.Catalog.Closure
import Pbps.Compose.Lives
import Pbps.Declared.Follows
import Pbps.Diff.Ancestry
import Pbps.Diff.Carried
import Pbps.Diff.Chained
import Pbps.Fingerprint.Rearranged
import Pbps.Identity.Agree
import Pbps.Identity.Index
import Pbps.Identity.Lineage
import Pbps.Identity.Observed
import Pbps.Identity.Without
import Pbps.Ledger.Holder
import Pbps.Lexis.Guarantees
import Pbps.Load.Collected
import Pbps.Modules.Cycles
import Pbps.Modules.Target
import Pbps.Names.AddressChain
import Pbps.Names.Relation
import Pbps.Order.Commute
import Pbps.Order.Components
import Pbps.Order.Driver
import Pbps.Order.HandedOver
import Pbps.Order.Packages
import Pbps.Partition.Extend
import Pbps.Partition.Remedy
import Pbps.PlanTest.Chain
import Pbps.Publication.Published
import Pbps.Roles.Carried
import Pbps.Rows.Observed
import Pbps.Rows.Sound
import Pbps.Rows.Supply
import Pbps.Tree.Format
import Pbps.Tree.MergeOrder
import Pbps.Tree.Usable
import Pbps.Types.Steps
