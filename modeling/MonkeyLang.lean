import MonkeyLang.Main
import MonkeyLang.Proofs.Binding
import MonkeyLang.Proofs.Lexing
import MonkeyLang.Proofs.Literal
import MonkeyLang.Proofs.ParseAllowance
import MonkeyLang.Syntax.Describe
import MonkeyLang.Syntax.Sameness
import MonkeyLang.Token.Stream
import MonkeyLang.Proofs.ParseComplete
import MonkeyLang.Proofs.ParseSound
import MonkeyLang.Proofs.ScopeFrame
import MonkeyLang.Proofs.StringLiteral
import MonkeyLang.Proofs.WellFormed
import MonkeyLang.Proofs.Spelling
import MonkeyLang.Proofs.RoundTrip
import MonkeyLang.Proofs.EntryLines
import MonkeyLang.Proofs.Layout
import MonkeyLang.Proofs.Exits
import MonkeyLang.Proofs.LexicalGrammar
import MonkeyLang.Proofs.MaximalMunch
import MonkeyLang.Proofs.ParsedForm
import MonkeyLang.Proofs.Reprinting
import MonkeyLang.Proofs.CodeTest
import MonkeyLang.Proofs.RunValues
import MonkeyLang.Proofs.CallResults
import MonkeyLang.Proofs.IntegerRange
import MonkeyLang.Proofs.MoreSteps
import MonkeyLang.Proofs.StreamPlaces
import MonkeyLang.Proofs.SessionScript
import MonkeyLang.Proofs.EntryRuns
import MonkeyLang.Proofs.RepeatedCalls
import MonkeyLang.Proofs.ErrorBudget
import MonkeyLang.Proofs.LoopRuns
import MonkeyLang.Proofs.KeyEquality
import MonkeyLang.Proofs.OmittedNames
import MonkeyLang.Proofs.UnseenNames
import MonkeyLang.Proofs.ObjectIdentity
import MonkeyLang.Proofs.WrittenEntries
import MonkeyLang.Proofs.SemicolonSplit
import MonkeyLang.Proofs.KeptErrors
import MonkeyLang.Proofs.ControlLaws
import MonkeyLang.Proofs.Arithmetic
import MonkeyLang.Proofs.DecimalLiterals
import MonkeyLang.Proofs.HashSeparation
import MonkeyLang.Proofs.Decoding
import MonkeyLang.Proofs.ParsedNodes
import MonkeyLang.Proofs.OutlineSameness
import MonkeyLang.Proofs.HostOperations
import MonkeyLang.Proofs.EvaluablePrograms
import MonkeyLang.Proofs.LineBreaks
import MonkeyLang.Proofs.StoreHistory
import MonkeyLang.Proofs.Snapshots
import MonkeyLang.Proofs.ScopeChains
import MonkeyLang.Proofs.ValueEquality
import MonkeyLang.Proofs.EvaluationRules
import MonkeyLang.Proofs.MapFunction
