import AtomLines.Json.Printer
import AtomLines.Json.Walk
import AtomLines.Main
import AtomLines.Proofs.Indices
import AtomLines.Proofs.Json.Assembled
import AtomLines.Proofs.Json.Limit
import AtomLines.Proofs.Json.Policy
import AtomLines.Proofs.Rdf.Accepted
import AtomLines.Proofs.Rdf.Blocks
import AtomLines.Proofs.Rdf.Canonical
import AtomLines.Proofs.Rdf.Exchange.ReadBack
import AtomLines.Proofs.Rdf.Flat
import AtomLines.Proofs.Rdf.Identity
import AtomLines.Proofs.Rdf.LineOrder
import AtomLines.Proofs.Rdf.Moved
import AtomLines.Proofs.Rdf.NormalForm
import AtomLines.Proofs.Rdf.Operations
import AtomLines.Proofs.Rdf.Renaming
import AtomLines.Proofs.Rdf.RoundTrip
import AtomLines.Proofs.Rdf.Search
import AtomLines.Proofs.SExpr.Built
import AtomLines.Proofs.SExpr.Joined
import AtomLines.Proofs.SExpr.Rewritten
import AtomLines.Proofs.Table.LineOrder
import AtomLines.Proofs.Table.Rearranged
import AtomLines.Proofs.Table.RoundTrip
import AtomLines.Proofs.Table.Transposed
import AtomLines.Rdf.Exchange.Export
import AtomLines.Proofs.Rdf.Worklist
