import IntScript.Main
import IntScript.Proofs.Token.Tokenisation
import IntScript.Proofs.Source.RoundTrip
import IntScript.Proofs.Source.Modes
import IntScript.Proofs.Grammar.FirstFault
import IntScript.Proofs.Evaluation.StackDiscipline
import IntScript.Proofs.Evaluation.CallLimit
import IntScript.Proofs.Evaluation.Termination
import IntScript.Proofs.Evaluation.DynamicScoping
import IntScript.Proofs.Evaluation.InPlace
import IntScript.Proofs.Evaluation.ArgumentOrder
import IntScript.Proofs.Evaluation.Resolution
import IntScript.Proofs.Evaluation.Renaming
import IntScript.Proofs.Evaluation.Unmentioned
import IntScript.Proofs.Evaluation.Sinks
import IntScript.Proofs.Grammar.OnDemand
import IntScript.Proofs.Grammar.TokensOnly
import IntScript.Proofs.Source.Stages
import IntScript.Proofs.Evaluation.Counting
import IntScript.Proofs.Source.Constants
import IntScript.Proofs.Source.Concatenation
import IntScript.Proofs.Evaluation.DefinitionOrder
import IntScript.Proofs.Evaluation.History
import IntScript.Proofs.Source.Respacing
import IntScript.Proofs.Source.Shortest
import IntScript.Proofs.Shell.Dispatch
import IntScript.Proofs.Diagnostic.Lines
import IntScript.Proofs.Diagnostic.Caret
import IntScript.Proofs.Grammar.Forward
import IntScript.Proofs.Token.Boundary
import IntScript.Proofs.Evaluation.FrameLinks
import IntScript.Proofs.Grammar.Boundary
