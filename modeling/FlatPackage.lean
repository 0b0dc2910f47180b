import FlatPackage.Container.Rehearsal
import FlatPackage.Main
import FlatPackage.Proofs.Package.RoundTrip
import FlatPackage.Proofs.Stream.Failure
import FlatPackage.Proofs.Stream.Truncation
import FlatPackage.Proofs.Stream.Splice
import FlatPackage.Proofs.Package.FailStop
import FlatPackage.Proofs.Package.Opening
import FlatPackage.Proofs.Command.WriteLast
import FlatPackage.Proofs.Command.Create
import FlatPackage.Proofs.Host.Enumeration
import FlatPackage.Proofs.Package.Selection
import FlatPackage.Proofs.Stream.Lossless
import FlatPackage.Proofs.Package.Serialization
import FlatPackage.Proofs.Package.History
import FlatPackage.Proofs.Command.Grammar
import FlatPackage.Proofs.Command.Lines
import FlatPackage.Proofs.Command.Listing
import FlatPackage.Proofs.Stream.Cursor
import FlatPackage.Proofs.Host.Rereading
import FlatPackage.Proofs.Tree.Retracing
import FlatPackage.Proofs.Host.Naming
import FlatPackage.Proofs.Host.Times
import FlatPackage.Proofs.Stream.Buffer
import FlatPackage.Proofs.Command.Sniffing
import FlatPackage.Proofs.Host.Agreement
import FlatPackage.Proofs.Command.Targets
