import Ambient.Main
import Ambient.Proofs.Lexing
import Ambient.Proofs.Outline
import Ambient.Proofs.Segment
import Ambient.Proofs.Step
import Ambient.Proofs.Gathering
import Ambient.Proofs.Accounting
import Ambient.Proofs.Atom
import Ambient.Proofs.Tidy
import Ambient.Proofs.Phrase
import Ambient.Proofs.Resting
import Ambient.Proofs.Canonical
import Ambient.Proofs.Forms
import Ambient.Proofs.RoundTrip
import Ambient.Proofs.Attachment
import Ambient.Proofs.Documentation
import Ambient.Proofs.CommentText
import Ambient.Proofs.Surroundings
import Ambient.Proofs.Written
import Ambient.Proofs.Members
import Ambient.Proofs.Balance
import Ambient.Proofs.Composition
import Ambient.Proofs.Modes
import Ambient.Proofs.DefaultExport
import Ambient.Proofs.DefaultValue
import Ambient.Proofs.Piece
import Ambient.Proofs.Seam
import Ambient.Proofs.Cleaning
import Ambient.Proofs.Kinds
import Ambient.Proofs.LineEnds
import Ambient.Proofs.Uncommented
import Ambient.Proofs.Signature
import Ambient.Proofs.Implementation
import Ambient.Proofs.Annotation
import Ambient.Proofs.Place
import Ambient.Proofs.Generation
import Ambient.Proofs.Globbing
import Ambient.Proofs.Ordering
import Ambient.Proofs.Mirroring
import Ambient.Proofs.Discovery
import Ambient.Proofs.Isolation
import Ambient.Proofs.Expression
import Ambient.Proofs.Levels
import Ambient.Proofs.Datum
import Ambient.Proofs.Properties
import Ambient.Proofs.ObjectConstant
import Ambient.Proofs.GatheredText
import Ambient.Proofs.InterfaceHeader
import Ambient.Proofs.UnionAlias
import Ambient.Proofs.Parts
import Ambient.Proofs.ImportText
import Ambient.Proofs.TypeImport
import Ambient.Proofs.Inference
import Ambient.Proofs.Respacing
import Ambient.Proofs.InlineBody
import Ambient.Proofs.CommentLines
import Ambient.Proofs.Lookahead
import Ambient.Proofs.Reindenting
import Ambient.Proofs.Splitting
import Ambient.Proofs.Depths
