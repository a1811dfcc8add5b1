import CommaCalc.Main
import CommaCalc.Step
import CommaCalc.Proofs.Expression.Grammar
import CommaCalc.Proofs.Expression.ErrorLocation
import CommaCalc.Proofs.Expression.NormalForm
import CommaCalc.Proofs.Expression.CauseChain
import CommaCalc.Proofs.Expression.FaultTruth
import CommaCalc.Proofs.Calculation.Range
import CommaCalc.Proofs.Binary64.Accuracy
import CommaCalc.Proofs.Literal.Accuracy
import CommaCalc.Proofs.Step.Sound
import CommaCalc.Proofs.CommandLine.Argument
import CommaCalc.Proofs.Expression.Trim
import CommaCalc.Proofs.CommandLine.Lines
import CommaCalc.Proofs.Expression.Translated
import CommaCalc.Proofs.Failure.Lines
import CommaCalc.Proofs.Literal.Short
import CommaCalc.Proofs.Literal.TrailingZeros
import CommaCalc.Proofs.Literal.DigitRun
import CommaCalc.Proofs.Literal.Between
import CommaCalc.Proofs.Binary64.Integer
import CommaCalc.Proofs.Decimal.Whole
import CommaCalc.Proofs.Calculation.Integers
import CommaCalc.Proofs.Binary64.Sign
import CommaCalc.Proofs.Calculation.Signs
import CommaCalc.Proofs.Failure.Chain
import CommaCalc.Proofs.Failure.Unambiguous
import CommaCalc.Proofs.Binary64.Bits
import CommaCalc.Proofs.Calculation.Running
