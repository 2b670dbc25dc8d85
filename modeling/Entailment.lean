import Entailment.Audit
import Entailment.Console.Arguments
import Entailment.Console.Command
import Entailment.Console.Style
import Entailment.Console.Summary
import Entailment.Document.Base64
import Entailment.Document.Block
import Entailment.Document.Bytes
import Entailment.Document.Comment
import Entailment.Document.Cursor
import Entailment.Document.Decimal
import Entailment.Document.Digits
import Entailment.Document.Fit
import Entailment.Document.Gap
import Entailment.Document.Layout
import Entailment.Document.Moment
import Entailment.Document.Node
import Entailment.Document.Plain
import Entailment.Document.Quoted
import Entailment.Document.Token
import Entailment.Document.Yaml
import Entailment.Failure
import Entailment.Main
import Entailment.Order
import Entailment.Proposition.Basic
import Entailment.Proposition.Build
import Entailment.Proposition.Checked
import Entailment.Proposition.Occurrence
import Entailment.Proposition.Render
import Entailment.Proposition.Replace
import Entailment.Proposition.Substitution
import Entailment.Proposition.Unify
import Entailment.Rule
import Entailment.Script.Apply
import Entailment.Script.Basic
import Entailment.Script.Decode
import Entailment.Script.Execution
import Entailment.Script.Fault
import Entailment.Script.Load
import Entailment.Script.Problem
import Entailment.Script.Run
import Entailment.Search.Basic
import Entailment.Search.Trace
import Entailment.Session.Basic
import Entailment.Session.Guarded
import Entailment.Session.Inference
import Entailment.Session.Scope
import Entailment.Session.Speculation
import Entailment.Tactic.Guarded
import Entailment.Tactic.Propositional
import Entailment.Tactic.Quantifier
import Entailment.Tactic.Relation
import Entailment.Term.Basic
import Entailment.Term.Polynomial
import Entailment.Term.Quicksort
import Entailment.Term.Simplify
import Entailment.Text.Formula
import Entailment.Text.Reader
import Entailment.Text.Scanner
import Entailment.Text.Source
import Entailment.Text.Token
import Entailment.Text.Walker
import Entailment.Proofs.Deduction
import Entailment.Proofs.Justification
import Entailment.Proofs.Tactics
import Entailment.Proofs.Run
import Entailment.Proofs.Premises
import Entailment.Proofs.NamedFacts
import Entailment.Proofs.Valuation
import Entailment.Proofs.PropositionalSoundness
import Entailment.Proofs.Instantiation
import Entailment.Proofs.Matching
import Entailment.Proofs.Nesting
import Entailment.Proofs.Liveness
import Entailment.Proofs.Arithmetic
import Entailment.Proofs.Reduced
import Entailment.Proofs.NormalForm
import Entailment.Proofs.Generalisation
import Entailment.Proofs.Rewriting
import Entailment.Proofs.Eigenvariables
import Entailment.Proofs.FirstOrderSoundness
import Entailment.Proofs.Elimination
import Entailment.Proofs.Auditing
import Entailment.Proofs.Knowledge
import Entailment.Proofs.Advancing
import Entailment.Proofs.Dependencies
import Entailment.Proofs.Equivalence
import Entailment.Proofs.Searching
import Entailment.Proofs.Traces
import Entailment.Proofs.Marks
import Entailment.Proofs.Conclusions
import Entailment.Proofs.Outcomes
import Entailment.Proofs.Rounds
import Entailment.Proofs.Saturation
import Entailment.Proofs.Monotonicity
import Entailment.Proofs.Settling
import Entailment.Proofs.Handling
import Entailment.Proofs.AuditedScripts
import Entailment.Proofs.Lexing
import Entailment.Proofs.Spelling
import Entailment.Proofs.Reading
import Entailment.Proofs.Copying
import Entailment.Proofs.RoundTrip
import Entailment.Proofs.Rereading
import Entailment.Proofs.BoundNames
import Entailment.Proofs.Atomicity
import Entailment.Proofs.Contradictions
import Entailment.Proofs.Checked
import Entailment.Proofs.Guarding
import Entailment.Proofs.Closing
import Entailment.Proofs.NamelessForm
import Entailment.Proofs.Equations
import Entailment.Proofs.AlphaEquivalence
import Entailment.Proofs.Unifiers
import Entailment.Proofs.OneSidedMatching
import Entailment.Proofs.CanonicalForm
import Entailment.Proofs.Chaining
import Entailment.Proofs.Positions
import Entailment.Proofs.SequentialSubstitution
import Entailment.Proofs.Paths
import Entailment.Proofs.FreeVariables
import Entailment.Proofs.Replaying
import Entailment.Proofs.LexicalScope
import Entailment.Proofs.Crashes
import Entailment.Proofs.RingOperations
import Entailment.Proofs.Validation
import Entailment.Proofs.Exporting
import Entailment.Proofs.Lines
import Entailment.Proofs.Tiling
