import ImportCheck.Json.Printer
import ImportCheck.Resolution.NodeModules
import ImportCheck.Session.Rounds
import ImportCheck.Proofs.Imports.Basic
import ImportCheck.Proofs.Walk.Simulation
import ImportCheck.Proofs.Walk.Registration
import ImportCheck.Proofs.Check.Closure
import ImportCheck.Proofs.Check.Restart
import ImportCheck.Proofs.Check.Retry
import ImportCheck.Proofs.Check.Footprint
import ImportCheck.Proofs.Check.Failing
import ImportCheck.Proofs.Check.Overlap
import ImportCheck.Proofs.Check.Links
import ImportCheck.Proofs.Check.Declared
import ImportCheck.Proofs.Check.Parses
import ImportCheck.Proofs.Check.Emitted
import ImportCheck.Proofs.Check.Termination
import ImportCheck.Proofs.Check.Rewalk
import ImportCheck.Proofs.Check.WellFormed
import ImportCheck.Proofs.Emission.Reference
import ImportCheck.Proofs.Links.Answers
import ImportCheck.Proofs.Store.Writes
import ImportCheck.Proofs.Path.Normal
import ImportCheck.Proofs.Resolution.SearchOrder
import ImportCheck.Proofs.Check.Absolute
import ImportCheck.Proofs.Resolution.Identity
import ImportCheck.Proofs.Resolution.Candidates
import ImportCheck.Proofs.Source.Preorder
import ImportCheck.Proofs.Options.Merged
import ImportCheck.Proofs.Diagnostic.Form
import ImportCheck.Proofs.Source.Printed
import ImportCheck.Proofs.Options.Loaded
