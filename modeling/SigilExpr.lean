import SigilExpr.Fields
import SigilExpr.Text.Blank
import SigilExpr.Decimal.Shortest
import SigilExpr.Json.Number
import SigilExpr.Json.Basic
import SigilExpr.Json.Printer
import SigilExpr.Json.Token
import SigilExpr.Json.Reader
import SigilExpr.Json.Path
import SigilExpr.ValueType
import SigilExpr.TypeSpec.Basic
import SigilExpr.Flaw
import SigilExpr.TypeSpec.Form
import SigilExpr.Mode
import SigilExpr.Error
import SigilExpr.Scope
import SigilExpr.Handler
import SigilExpr.Interpreter
import SigilExpr.Plan.Run
import SigilExpr.Plan.Launch
import SigilExpr.Resolve
import SigilExpr.Registry
import SigilExpr.Evaluate
import SigilExpr.Core
import SigilExpr.Stock.Values
import SigilExpr.Stock.Items
import SigilExpr.Text.Hidden
import SigilExpr.Text.Visible
import SigilExpr.Outline
import SigilExpr.Session
import SigilExpr.Command
import SigilExpr.Main
import SigilExpr.TypeSpec.Sequence
import SigilExpr.Proofs.Course.Ending
import SigilExpr.Proofs.Course.Narrow
import SigilExpr.Proofs.Course.Wide
import SigilExpr.Proofs.Course.Join
import SigilExpr.Proofs.Course.Every
import SigilExpr.Proofs.Simulation
import SigilExpr.Proofs.Backends
import SigilExpr.Proofs.Prompt
import SigilExpr.Proofs.Agreement
import SigilExpr.Proofs.Course.Tracks
import SigilExpr.Proofs.Tracking
import SigilExpr.Proofs.Budget
import SigilExpr.Proofs.Timing
import SigilExpr.Proofs.Boundary
import SigilExpr.Proofs.FirstFailure
import SigilExpr.Proofs.Build
import SigilExpr.Proofs.Declared
import SigilExpr.Proofs.Diagnostics
import SigilExpr.Proofs.Defaults
import SigilExpr.Proofs.Flat.Written
import SigilExpr.Proofs.Termination
import SigilExpr.Proofs.Flat.Ends
import SigilExpr.Proofs.Failures
import SigilExpr.Proofs.Warnings
import SigilExpr.Proofs.Course.AtOnce
import SigilExpr.Proofs.Course.Gather
import SigilExpr.Proofs.CriticalPath
import SigilExpr.Proofs.History
import SigilExpr.Proofs.Surfacing
import SigilExpr.Proofs.Forms
import SigilExpr.Proofs.Substitution
import SigilExpr.Proofs.Flat.Extension
import SigilExpr.Proofs.Lines
import SigilExpr.Proofs.Report
import SigilExpr.Proofs.Grammar
import SigilExpr.Proofs.Containers
import SigilExpr.Proofs.PlainData
import SigilExpr.Proofs.Recheck
import SigilExpr.Proofs.Shape
import SigilExpr.Proofs.Ascent
import SigilExpr.Proofs.CoreCalls
import SigilExpr.Proofs.Fallbacks
import SigilExpr.Proofs.Nesting
import SigilExpr.Proofs.Omissions
import SigilExpr.Proofs.Satisfiable
import SigilExpr.Proofs.Addresses
