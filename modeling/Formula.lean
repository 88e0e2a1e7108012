import Formula.Dialect.Load
import Formula.Expr.Printer
import Formula.Proofs.Dialects
import Formula.Proofs.DisplayCheck
import Formula.Proofs.Edits
import Formula.Proofs.Evaluation
import Formula.Proofs.Grouping
import Formula.Proofs.Layout
import Formula.Proofs.LeadingSign
import Formula.Proofs.LexicalErrors
import Formula.Proofs.Noninterference
import Formula.Proofs.Reuse
import Formula.Proofs.Signs
import Formula.Proofs.Transcript
import Formula.Scanner
import Formula.Univariate
import Formula.Proofs.Counting
import Formula.Proofs.Scopes
import Formula.Proofs.Coincidence
import Formula.Proofs.Readability
import Formula.Proofs.Links
import Formula.Proofs.Tables
import Formula.Proofs.FirstOccurrences
