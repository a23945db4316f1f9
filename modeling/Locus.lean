import Locus.Diagnostic
import Locus.Display
import Locus.File.Table
import Locus.Proofs.File.Shape
import Locus.Proofs.File.Stable
import Locus.Proofs.File.Stored
import Locus.Proofs.File.Table
import Locus.Proofs.Path.Place
import Locus.Proofs.Path.WindowsPlace
import Locus.Proofs.Reader.Front
import Locus.Proofs.Reader.Laws
import Locus.Proofs.Reader.Separators
import Locus.Proofs.Span.Approach
import Locus.Proofs.Span.Boundaries
import Locus.Proofs.Span.Position
import Locus.Proofs.Span.Reformat
import Locus.Proofs.Span.Row
import Locus.Proofs.Span.Unambiguous
import Locus.Proofs.Text.Strays
import Locus.Proofs.Uri.Inverse
import Locus.Reader.Term
