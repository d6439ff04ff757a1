import SearchFilter.Main
import SearchFilter.Proofs.Again
import SearchFilter.Proofs.Closed
import SearchFilter.Proofs.Cut
import SearchFilter.Proofs.Derivation
import SearchFilter.Proofs.Failure
import SearchFilter.Proofs.Field
import SearchFilter.Proofs.Form
import SearchFilter.Proofs.Groups
import SearchFilter.Proofs.Join
import SearchFilter.Proofs.JsonText
import SearchFilter.Proofs.Litter
import SearchFilter.Proofs.Nesting
import SearchFilter.Proofs.Openings
import SearchFilter.Proofs.Paths
import SearchFilter.Proofs.Provenance
import SearchFilter.Proofs.Readable
import SearchFilter.Proofs.Regular
import SearchFilter.Proofs.Semicolons
import SearchFilter.Proofs.ShortForm
import SearchFilter.Proofs.SingleTerm
import SearchFilter.Proofs.Unclosed
import SearchFilter.Proofs.Views
import SearchFilter.Proofs.Writing
import SearchFilter.Text.Quoted
import SearchFilter.Proofs.Reread
import SearchFilter.Proofs.Scanning
import SearchFilter.Search.Parser
import SearchFilter.Proofs.Contract
