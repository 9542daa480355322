import Pddl.Application
import Pddl.CommandLine.Arguments
import Pddl.CommandLine.Run
import Pddl.Config.Basic
import Pddl.Config.Toml
import Pddl.Domain.Basic
import Pddl.Domain.Determinize
import Pddl.Domain.Printer
import Pddl.Domain.Reader
import Pddl.Entity
import Pddl.Error
import Pddl.Files
import Pddl.Formula.Basic
import Pddl.Formula.Determinize
import Pddl.Formula.Expansion
import Pddl.Formula.Numeric
import Pddl.Formula.Order
import Pddl.Formula.Outcomes
import Pddl.Formula.Printer
import Pddl.Formula.Reader
import Pddl.Formula.Variables
import Pddl.Grounding
import Pddl.Main
import Pddl.Number.Basic
import Pddl.Number.Decimal
import Pddl.Number.Shortest
import Pddl.Operator.Basic
import Pddl.Operator.Reader
import Pddl.Plan.Attempt
import Pddl.Plan.Basic
import Pddl.Plan.Step
import Pddl.Problem.Basic
import Pddl.Problem.Reader
import Pddl.Proofs.Bindings
import Pddl.Proofs.Blame
import Pddl.Proofs.Declarations
import Pddl.Proofs.Domain.ActionSection
import Pddl.Proofs.Domain.Actions
import Pddl.Proofs.Domain.Blame
import Pddl.Proofs.Domain.Collect
import Pddl.Proofs.Domain.Determinize
import Pddl.Proofs.Domain.Draft
import Pddl.Proofs.Domain.Effects
import Pddl.Proofs.Domain.Entities
import Pddl.Proofs.Domain.Invariant
import Pddl.Proofs.Domain.Order
import Pddl.Proofs.Domain.Outline
import Pddl.Proofs.Domain.Reader
import Pddl.Proofs.Domain.RoundTrip
import Pddl.Proofs.Domain.Sections
import Pddl.Proofs.Domain.Shape
import Pddl.Proofs.Domain.Soundness
import Pddl.Proofs.Evaluation
import Pddl.Proofs.Formula.Blame
import Pddl.Proofs.Formula.Determinize
import Pddl.Proofs.Formula.Entities
import Pddl.Proofs.Formula.Expansion
import Pddl.Proofs.Formula.FreeVariables
import Pddl.Proofs.Formula.Grammar
import Pddl.Proofs.Formula.Keywords
import Pddl.Proofs.Formula.Modes
import Pddl.Proofs.Formula.Naming
import Pddl.Proofs.Formula.Negation
import Pddl.Proofs.Formula.Nodes
import Pddl.Proofs.Formula.Numbering
import Pddl.Proofs.Formula.Outcomes
import Pddl.Proofs.Formula.RoundTrip
import Pddl.Proofs.Formula.Satisfaction
import Pddl.Proofs.Formula.Soundness
import Pddl.Proofs.Formula.Spelling
import Pddl.Proofs.Formula.Substitution
import Pddl.Proofs.Formula.Terms
import Pddl.Proofs.Grounding.Agreement
import Pddl.Proofs.Grounding.Binding
import Pddl.Proofs.Grounding.Closed
import Pddl.Proofs.Grounding.Groundness
import Pddl.Proofs.Grounding.Meaning
import Pddl.Proofs.Grounding.Typing
import Pddl.Proofs.Number.Leading
import Pddl.Proofs.Number.Order
import Pddl.Proofs.Number.ReadBack
import Pddl.Proofs.Number.Rounding
import Pddl.Proofs.Number.Spelling
import Pddl.Proofs.Number.Sum
import Pddl.Proofs.Number.Unfinished
import Pddl.Proofs.Operator.Blame
import Pddl.Proofs.Operator.Negation
import Pddl.Proofs.Operator.Reader
import Pddl.Proofs.Operator.Renaming
import Pddl.Proofs.Operator.RoundTrip
import Pddl.Proofs.Operator.Shape
import Pddl.Proofs.Plan.Bounded
import Pddl.Proofs.Plan.Lines
import Pddl.Proofs.Plan.Parentheses
import Pddl.Proofs.Plan.Rows
import Pddl.Proofs.Plan.Steps
import Pddl.Proofs.Problem.Blame
import Pddl.Proofs.Problem.Collect
import Pddl.Proofs.Problem.Facts
import Pddl.Proofs.Problem.Order
import Pddl.Proofs.Problem.RoundTrip
import Pddl.Proofs.Problem.Sections
import Pddl.Proofs.Problem.Shape
import Pddl.Proofs.Problem.Soundness
import Pddl.Proofs.Signature
import Pddl.Proofs.Sorted
import Pddl.Proofs.Storing
import Pddl.Proofs.Subtype
import Pddl.Proofs.Success
import Pddl.Proofs.Symbols
import Pddl.Proofs.Text.Characters
import Pddl.Proofs.Text.Columns
import Pddl.Proofs.Text.Lines
import Pddl.Proofs.Text.Lower
import Pddl.Proofs.Text.Settled
import Pddl.Proofs.Tree.Balance
import Pddl.Proofs.Tree.Items
import Pddl.Proofs.Tree.Listing
import Pddl.Proofs.Tree.Places
import Pddl.Proofs.Tree.Shape
import Pddl.Proofs.Tree.Spelling
import Pddl.Proofs.TypedList
import Pddl.Proofs.TypedList.Groups
import Pddl.Proofs.Types
import Pddl.Report
import Pddl.Session
import Pddl.Sorted
import Pddl.Symbols
import Pddl.Text.Blank
import Pddl.Text.Case
import Pddl.Text.CaseTable
import Pddl.Text.Join
import Pddl.Text.Position
import Pddl.Text.Prepare
import Pddl.Toml.Document
import Pddl.Toml.Literal
import Pddl.Toml.Scanner
import Pddl.Toml.Value
import Pddl.Tree.Basic
import Pddl.Tree.Scan
import Pddl.TypedList
import Pddl.Types
