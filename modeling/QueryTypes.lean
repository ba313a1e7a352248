import QueryTypes.Main
import QueryTypes.Session
import QueryTypes.Proofs.ArrayKeys
import QueryTypes.Proofs.CallStyle
import QueryTypes.Proofs.Continuation
import QueryTypes.Proofs.Elements
import QueryTypes.Proofs.Forms.DeclarationOrder
import QueryTypes.Proofs.Forms.DigitBounds
import QueryTypes.Proofs.Forms.Frame
import QueryTypes.Proofs.Forms.Keys
import QueryTypes.Proofs.Forms.Patterns
import QueryTypes.Proofs.Forms.Slots
import QueryTypes.Proofs.Forms.Spellings
import QueryTypes.Proofs.Forms.Unions
import QueryTypes.Proofs.Totality
import QueryTypes.Proofs.Loading.Arrays
import QueryTypes.Proofs.Loading.Order
import QueryTypes.Proofs.MergeOrder
import QueryTypes.Proofs.Misuse.Inference
import QueryTypes.Proofs.OmittedNotes
import QueryTypes.Proofs.Plucking
import QueryTypes.Proofs.Projections.Agreement
import QueryTypes.Proofs.Projections.Choices
import QueryTypes.Proofs.Projections.Thinning
import QueryTypes.Proofs.Projections.Variants
import QueryTypes.Proofs.RoundTrip.Documents
import QueryTypes.Proofs.Rounding
import QueryTypes.Proofs.Rows.Declared
import QueryTypes.Proofs.Rows.Precision
import QueryTypes.Proofs.Rows.Visibility
import QueryTypes.Proofs.Schemas.Bounds
import QueryTypes.Proofs.Schemas.Literals
import QueryTypes.Proofs.Schemas.Tuples
import QueryTypes.Proofs.Schemas.Unions
import QueryTypes.Proofs.Soundness
import QueryTypes.Proofs.Strictness
import QueryTypes.Proofs.Substitution
import QueryTypes.Proofs.Termination.Inference
import QueryTypes.Proofs.TypeNames
import QueryTypes.Proofs.UnionLaws
import QueryTypes.Proofs.WellFormed.Engine
