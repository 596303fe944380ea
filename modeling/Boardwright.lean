import Boardwright.Main
import Boardwright.Proofs.Ancestry
import Boardwright.Proofs.Bill.Rows
import Boardwright.Proofs.Build.Outputs
import Boardwright.Proofs.Catalogue.Choice
import Boardwright.Proofs.Component.Lookups
import Boardwright.Proofs.Component.Register
import Boardwright.Proofs.Design.Blocks
import Boardwright.Proofs.Design.Context
import Boardwright.Proofs.Design.Graph
import Boardwright.Proofs.Design.Inheritance
import Boardwright.Proofs.Design.Layouts
import Boardwright.Proofs.Design.Links
import Boardwright.Proofs.Design.Missing
import Boardwright.Proofs.Design.Order
import Boardwright.Proofs.Design.Retry
import Boardwright.Proofs.Design.Termination
import Boardwright.Proofs.Design.Visibility
import Boardwright.Proofs.Net.Symmetry
import Boardwright.Proofs.Netlist.Reworded
import Boardwright.Proofs.Package.Dependencies
import Boardwright.Proofs.Package.Recording
import Boardwright.Proofs.Quantity.Intervals
import Boardwright.Proofs.Report.Showing
import Boardwright.Proofs.Syntax.Coverage
import Boardwright.Proofs.Version.Flaws
import Boardwright.Syntax.Grammar
