import ClassFormat.ClassFile.Source
import ClassFormat.Main
import ClassFormat.Proofs.AcceptedText
import ClassFormat.Proofs.Accounting
import ClassFormat.Proofs.AnnotationGrammar
import ClassFormat.Proofs.Answering
import ClassFormat.Proofs.Descending
import ClassFormat.Proofs.Faithful
import ClassFormat.Proofs.FrameGrammar
import ClassFormat.Proofs.Grounding
import ClassFormat.Proofs.Indifference
import ClassFormat.Proofs.Logging
import ClassFormat.Proofs.Operands
import ClassFormat.Proofs.Overwriting
import ClassFormat.Proofs.Redeclaring
import ClassFormat.Proofs.Reporting
import ClassFormat.Proofs.Restoring
import ClassFormat.Proofs.RoundTrip
import ClassFormat.Proofs.Searching
import ClassFormat.Proofs.Tiling
