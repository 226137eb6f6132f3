import FlatLisp.Main
import FlatLisp.Entry.Highlight
import FlatLisp.Entry.Completion
import FlatLisp.Proofs.WriteOnce
import FlatLisp.Proofs.LargerScope
import FlatLisp.Proofs.Reading
import FlatLisp.Proofs.Script
import FlatLisp.Proofs.Grammar
import FlatLisp.Proofs.Words
import FlatLisp.Decimal.Layout
import FlatLisp.Decimal.Literal
import FlatLisp.Text.Quoted
import FlatLisp.Proofs.Nesting
import FlatLisp.Proofs.EntryScanners
import FlatLisp.Proofs.PlainValues
import FlatLisp.Proofs.Mentioned
import FlatLisp.Proofs.Failures
import FlatLisp.Proofs.Refusals
import FlatLisp.Proofs.Blame
import FlatLisp.Proofs.Pointing
import FlatLisp.Proofs.Trimming
import FlatLisp.Proofs.Entries
import FlatLisp.Proofs.Gaps
import FlatLisp.Proofs.Histories
import FlatLisp.Proofs.Refused
import FlatLisp.Proofs.Tokenization
import FlatLisp.Proofs.Writing
import FlatLisp.Proofs.Layout
import FlatLisp.Proofs.Descent
import FlatLisp.Proofs.Resumption
import FlatLisp.Proofs.Partners
import FlatLisp.Proofs.Drawing
import FlatLisp.Proofs.Offers
import FlatLisp.Proofs.Answers
import FlatLisp.Proofs.Ledger
import FlatLisp.Proofs.Classes
import FlatLisp.Proofs.Rounding
import FlatLisp.Proofs.PrintedNumbers
import FlatLisp.Proofs.ReadBack
import FlatLisp.Proofs.Fresh
import FlatLisp.Proofs.Invocations
