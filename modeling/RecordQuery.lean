import RecordQuery.Event
import RecordQuery.Prefilter
import RecordQuery.Proofs.Composition
import RecordQuery.Proofs.Completion
import RecordQuery.Proofs.Comprehension
import RecordQuery.Proofs.Derivation
import RecordQuery.Proofs.RoundTrip
import RecordQuery.Settings.Storage
import RecordQuery.Text.Entity
import RecordQuery.Proofs.Valuation
import RecordQuery.Proofs.Language
import RecordQuery.Proofs.Meaning
import RecordQuery.Proofs.NormalForm
import RecordQuery.Proofs.Offence
import RecordQuery.Proofs.PatchLanguage
import RecordQuery.Proofs.Reserved
import RecordQuery.Proofs.Interference
import RecordQuery.Proofs.Footprint
import RecordQuery.Proofs.Wildcards
import RecordQuery.Proofs.Rejection
import RecordQuery.Proofs.Rewriting
import RecordQuery.Proofs.Clauses
import RecordQuery.Proofs.Dependence
import RecordQuery.Proofs.Coherence
import RecordQuery.Proofs.NestingLimit
import RecordQuery.Proofs.Layout
import RecordQuery.Proofs.Persistence
import RecordQuery.Proofs.Escaping
import RecordQuery.Proofs.Flattening
import RecordQuery.Proofs.CursorStatement
