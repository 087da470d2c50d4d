import TexCalc.Proofs.Agreement
import TexCalc.Proofs.Canonical
import TexCalc.Session.Window
import TexCalc.Proofs.Parentheses
import TexCalc.Proofs.Preview
import TexCalc.Proofs.Log
import TexCalc.Proofs.Translation
import TexCalc.Proofs.Trimming
import TexCalc.Proofs.Groups
import TexCalc.Proofs.Acceptance
import TexCalc.Proofs.Fractions
import TexCalc.Proofs.Recall
import TexCalc.Proofs.Removal
import TexCalc.Proofs.SizedCall
import TexCalc.Proofs.TokenText
import TexCalc.Proofs.DecimalNotation
import TexCalc.Proofs.Refusal
import TexCalc.Proofs.ExactValue
import TexCalc.Proofs.Shown
import TexCalc.Proofs.Spacing
import TexCalc.Proofs.Distinct
import TexCalc.Proofs.CorrectRounding
import TexCalc.Proofs.Retyped
import TexCalc.Proofs.Substitution
import TexCalc.Proofs.Cuts
import TexCalc.Proofs.Lexemes
import TexCalc.Proofs.LexicalFailure
import TexCalc.Proofs.WaitingOrder
import TexCalc.Proofs.Completion
import TexCalc.Proofs.Deletion
