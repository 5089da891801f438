import FourFunction.Decimal
import FourFunction.NumberDomain
import FourFunction.Arithmetic
import FourFunction.Token
import FourFunction.Expression
import FourFunction.LargeNumber
import FourFunction.Postfix
import FourFunction.Calculation
import FourFunction.Grammar
import FourFunction.Rules
import FourFunction.Proofs.Scan
import FourFunction.Proofs.Grammar
import FourFunction.Proofs.Acceptance
import FourFunction.Proofs.FirstFault
import FourFunction.Proofs.ViablePrefix
import FourFunction.Proofs.MissingClosings
import FourFunction.Proofs.Release
import FourFunction.Proofs.Groups
import FourFunction.Proofs.Pile
import FourFunction.Proofs.Settling
import FourFunction.Proofs.Postorder
import FourFunction.Proofs.Unambiguity
import FourFunction.Proofs.Conservation
import FourFunction.Proofs.Replacements
import FourFunction.Proofs.Evaluation
import FourFunction.Proofs.PostfixTrees
import FourFunction.Proofs.Parentheses
import FourFunction.Proofs.Height
import FourFunction.Proofs.Outcome
import FourFunction.Proofs.Reading
import FourFunction.Proofs.ClosingOperand
import FourFunction.Proofs.PartialResults
import FourFunction.Proofs.Erasure
import FourFunction.Proofs.NeutralOperand
import FourFunction.Proofs.Rounding
import FourFunction.Proofs.Exactness
import FourFunction.Proofs.Agreement
import FourFunction.Proofs.LiteralDivisors
import FourFunction.Proofs.Journal
