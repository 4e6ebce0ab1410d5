import LoxTokens.Editor.Completion
import LoxTokens.Editor.Highlight
import LoxTokens.Main
import LoxTokens.Proofs.Accounting
import LoxTokens.Proofs.LineNumbers
import LoxTokens.Proofs.WordBefore
import LoxTokens.Proofs.LineByLine
import LoxTokens.Proofs.Layout
import LoxTokens.Proofs.Adjacent
import LoxTokens.Proofs.EntryScan
import LoxTokens.Proofs.InputLines
import LoxTokens.Proofs.SessionAgreement
import LoxTokens.Proofs.Blanking
import LoxTokens.Proofs.EntryLines
import LoxTokens.Proofs.Lookahead
import LoxTokens.Proofs.SessionEndings
import LoxTokens.Proofs.SessionParts
import LoxTokens.Proofs.Highlighting
import LoxTokens.Proofs.LimitedSinks
import LoxTokens.Proofs.Brackets
import LoxTokens.Proofs.CommandLines
import LoxTokens.Proofs.ListingReader
import LoxTokens.Proofs.AcceptedArguments
import LoxTokens.Proofs.ExposedFaults
import LoxTokens.Proofs.ExitStatus
import LoxTokens.Proofs.Presentation
import LoxTokens.Proofs.WaysToScan
import LoxTokens.Proofs.TokenIdentity
import LoxTokens.Proofs.CollectedFaults
import LoxTokens.Proofs.ListingLines
import LoxTokens.Proofs.DimmedComments
import LoxTokens.Proofs.Magnitudes
import LoxTokens.Proofs.Rounding
import LoxTokens.Binary64.Numeral
import LoxTokens.Proofs.Numerals
import LoxTokens.Proofs.NumberTexts
import LoxTokens.Proofs.CommandGrammar
import LoxTokens.Proofs.PlainNumbers
import LoxTokens.Proofs.Completions
import LoxTokens.Proofs.FinishedEntries
import LoxTokens.Proofs.ArgumentSpellings
import LoxTokens.Proofs.ArgumentGrammar
import LoxTokens.Proofs.EnvironmentGaps
import LoxTokens.Scan.Rounds
import LoxTokens.Proofs.Runs
