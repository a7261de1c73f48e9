import FlowScript.Checkpoint
import FlowScript.Config
import FlowScript.Diagnostic
import FlowScript.Evaluation.Expression
import FlowScript.Evaluation.Machine
import FlowScript.Evaluation.Program
import FlowScript.Evaluation.Statement
import FlowScript.Grammar.Cursor
import FlowScript.Grammar.Expression
import FlowScript.Grammar.Level
import FlowScript.Grammar.Program
import FlowScript.Grammar.Statement
import FlowScript.Heap
import FlowScript.Host
import FlowScript.Number.Binary64
import FlowScript.Number.Shortest
import FlowScript.Number.Text
import FlowScript.Script
import FlowScript.Session
import FlowScript.Syntax
import FlowScript.Syntax.ControlFlow
import FlowScript.Syntax.Traversal
import FlowScript.Table
import FlowScript.Text.Blank
import FlowScript.Text.Digit
import FlowScript.Token
import FlowScript.Token.Lexeme
import FlowScript.Token.Literal
import FlowScript.Token.Stream
import FlowScript.Token.Terminator
import FlowScript.Ty
import FlowScript.Typing.Analysis
import FlowScript.Typing.Analyzer
import FlowScript.Typing.Declare
import FlowScript.Typing.Expression
import FlowScript.Typing.Flow
import FlowScript.Typing.Function
import FlowScript.Typing.Problem
import FlowScript.Typing.Statement
import FlowScript.Value.Display
import FlowScript.Value.Operation
import FlowScript.Proofs.Renaming
import FlowScript.Proofs.EvalLogic
import FlowScript.Proofs.RelatedRuns
import FlowScript.Proofs.Parametricity
import FlowScript.Proofs.CheckLogic
import FlowScript.Proofs.Rollback
import FlowScript.Proofs.Evolution
import FlowScript.Proofs.EvolvingSteps
import FlowScript.Proofs.EvolvingRules
import FlowScript.Proofs.Forgetting
import FlowScript.Proofs.Atomicity
import FlowScript.Proofs.Rejection
import FlowScript.Proofs.Rendering
import FlowScript.Proofs.ReadingLogic
import FlowScript.Proofs.ReadingTypes
import FlowScript.Proofs.ReadingExpressions
import FlowScript.Proofs.ReadingDeclarations
import FlowScript.Proofs.ReadingPrograms
import FlowScript.Proofs.Annotation
import FlowScript.Proofs.AnnotationSteps
import FlowScript.Proofs.AnnotatedExpressions
import FlowScript.Proofs.AnnotatedStatements
import FlowScript.Proofs.AcceptedPrograms
import FlowScript.Proofs.LosslessLexing
import FlowScript.Proofs.DefinedLookups
import FlowScript.Proofs.Verdicts
import FlowScript.Proofs.BodyEnds
import FlowScript.Proofs.ReturningFunctions
import FlowScript.Proofs.Agreement
import FlowScript.Proofs.Assignments
import FlowScript.Proofs.NewVariables
import FlowScript.Proofs.ParserProgress
import FlowScript.Proofs.BodiesOnce
import FlowScript.Proofs.TypeSoundness
import FlowScript.Proofs.ParsingSequences
import FlowScript.Proofs.NestingLimit
import FlowScript.Proofs.CallLimit
import FlowScript.Proofs.Checkpoints
import FlowScript.Proofs.Respacing
import FlowScript.Proofs.MethodSignatures
import FlowScript.Proofs.ConformingRuns
import FlowScript.Proofs.DeclaredMembers
import FlowScript.Proofs.Conformance
import FlowScript.Proofs.StringLiterals
import FlowScript.Proofs.TerminatorRule
import FlowScript.Proofs.LexingOnDemand
import FlowScript.Proofs.AssignedFrame
import FlowScript.Proofs.CallDepth
