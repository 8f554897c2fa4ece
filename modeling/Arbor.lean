import Arbor.Main
import Arbor.Proofs.Forest.Postorder
import Arbor.Proofs.Json.Records
import Arbor.Proofs.Schema.Acyclicity
import Arbor.Proofs.Schema.Finality
import Arbor.Proofs.Schema.Indexes
import Arbor.Proofs.Schema.Lineage
import Arbor.Proofs.Schema.Orders
import Arbor.Proofs.Schema.Places
import Arbor.Proofs.Script.Coverage
import Arbor.Proofs.Script.Declarations
import Arbor.Proofs.Script.Faithful
import Arbor.Proofs.Script.Munch
import Arbor.Proofs.Script.References
import Arbor.Proofs.Script.RoundTrip
import Arbor.Proofs.Script.Slices
import Arbor.Proofs.Transform.Identity
import Arbor.Proofs.Transform.Reports
import Arbor.Report.Labels
import Arbor.Report.Reading
import Arbor.Report.Result
import Arbor.Workbench
