import DeskCalculator.CommandLine.Invocation
import DeskCalculator.CommandLine.Run
import DeskCalculator.Decimal.Arithmetic
import DeskCalculator.Decimal.Basic
import DeskCalculator.Decimal.Circular
import DeskCalculator.Decimal.Exponential
import DeskCalculator.Decimal.Numeral
import DeskCalculator.Decimal.Rounding
import DeskCalculator.Decimal.Running
import DeskCalculator.Desk.Buffer
import DeskCalculator.Desk.Dialogue
import DeskCalculator.Desk.History
import DeskCalculator.Desk.Key
import DeskCalculator.Desk.Machine
import DeskCalculator.Desk.Session
import DeskCalculator.Entry
import DeskCalculator.Error
import DeskCalculator.Expression.Evaluation
import DeskCalculator.Expression.Grammar
import DeskCalculator.Expression.Parser
import DeskCalculator.Expression.Running
import DeskCalculator.Expression.Token
import DeskCalculator.Expression.Tree
import DeskCalculator.FixedPoint.Circular
import DeskCalculator.FixedPoint.Constants
import DeskCalculator.FixedPoint.Exponential
import DeskCalculator.FixedPoint.Series
import DeskCalculator.Json.Preferences
import DeskCalculator.Json.Value
import DeskCalculator.Json.Writer
import DeskCalculator.Main
import DeskCalculator.NamedFunction
import DeskCalculator.Natural.Digits
import DeskCalculator.Natural.Root
import DeskCalculator.Preferences
import DeskCalculator.Proofs.Abbreviation
import DeskCalculator.Proofs.Accuracy
import DeskCalculator.Proofs.Addition
import DeskCalculator.Proofs.Adjacency
import DeskCalculator.Proofs.Angle
import DeskCalculator.Proofs.AngleUnit
import DeskCalculator.Proofs.Approximation
import DeskCalculator.Proofs.ArithmeticSteps
import DeskCalculator.Proofs.Atomicity
import DeskCalculator.Proofs.Buffer
import DeskCalculator.Proofs.BufferPositions
import DeskCalculator.Proofs.BufferRunning
import DeskCalculator.Proofs.Carry
import DeskCalculator.Proofs.CircleConstant
import DeskCalculator.Proofs.CircularSteps
import DeskCalculator.Proofs.Constants
import DeskCalculator.Proofs.Cut
import DeskCalculator.Proofs.Difference
import DeskCalculator.Proofs.Digits
import DeskCalculator.Proofs.Display
import DeskCalculator.Proofs.DoubleRounding
import DeskCalculator.Proofs.Effects
import DeskCalculator.Proofs.Entry
import DeskCalculator.Proofs.EntryValue
import DeskCalculator.Proofs.Evaluation
import DeskCalculator.Proofs.EvaluationSteps
import DeskCalculator.Proofs.ExactCuts
import DeskCalculator.Proofs.ExponentialAccuracy
import DeskCalculator.Proofs.ExponentialSteps
import DeskCalculator.Proofs.Factorial
import DeskCalculator.Proofs.FunctionSteps
import DeskCalculator.Proofs.Grammar
import DeskCalculator.Proofs.History
import DeskCalculator.Proofs.JsonText
import DeskCalculator.Proofs.LargePower
import DeskCalculator.Proofs.Lexeme
import DeskCalculator.Proofs.LogarithmAccuracy
import DeskCalculator.Proofs.LogarithmOfTen
import DeskCalculator.Proofs.LogarithmSign
import DeskCalculator.Proofs.MachineRun
import DeskCalculator.Proofs.Nearest
import DeskCalculator.Proofs.Numeral
import DeskCalculator.Proofs.Operator
import DeskCalculator.Proofs.Order
import DeskCalculator.Proofs.Outcome
import DeskCalculator.Proofs.Parentheses
import DeskCalculator.Proofs.Parity
import DeskCalculator.Proofs.Percent
import DeskCalculator.Proofs.Period
import DeskCalculator.Proofs.PowerOfTen
import DeskCalculator.Proofs.PowerRange
import DeskCalculator.Proofs.PreferencesJson
import DeskCalculator.Proofs.Primitive
import DeskCalculator.Proofs.Pythagoras
import DeskCalculator.Proofs.Quotient
import DeskCalculator.Proofs.Range
import DeskCalculator.Proofs.Ratio
import DeskCalculator.Proofs.Remainder
import DeskCalculator.Proofs.RepeatedSquaring
import DeskCalculator.Proofs.Replay
import DeskCalculator.Proofs.Requests
import DeskCalculator.Proofs.Respaced
import DeskCalculator.Proofs.Role
import DeskCalculator.Proofs.Root
import DeskCalculator.Proofs.Rounding
import DeskCalculator.Proofs.Running
import DeskCalculator.Proofs.RunningEvaluation
import DeskCalculator.Proofs.RunningFunctions
import DeskCalculator.Proofs.ScaledExponential
import DeskCalculator.Proofs.ScaledLogarithm
import DeskCalculator.Proofs.ScanSteps
import DeskCalculator.Proofs.SecondFunctions
import DeskCalculator.Proofs.Series
import DeskCalculator.Proofs.SeriesLoops
import DeskCalculator.Proofs.SeriesSteps
import DeskCalculator.Proofs.Session
import DeskCalculator.Proofs.Sign
import DeskCalculator.Proofs.SineCosine
import DeskCalculator.Proofs.Spelling
import DeskCalculator.Proofs.Spine
import DeskCalculator.Proofs.Sum
import DeskCalculator.Proofs.Symmetry
import DeskCalculator.Proofs.TextPosition
import DeskCalculator.Proofs.Token
import DeskCalculator.Proofs.Tree
import DeskCalculator.Proofs.Value
import DeskCalculator.Proofs.Written
import DeskCalculator.Reading
import DeskCalculator.Running
import DeskCalculator.Text
