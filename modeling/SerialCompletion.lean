import SerialCompletion.Main
import SerialCompletion.Proofs.CommandLine.TruncatedLines
import SerialCompletion.Proofs.CommandLine.ValidSettings
import SerialCompletion.Proofs.Completion.AcceptedPaths
import SerialCompletion.Proofs.Completion.ArgumentLists
import SerialCompletion.Proofs.Completion.BashForm
import SerialCompletion.Proofs.Completion.Filling
import SerialCompletion.Proofs.Completion.JsonForm
import SerialCompletion.Proofs.Completion.Narrowing
import SerialCompletion.Proofs.Completion.Positions
import SerialCompletion.Proofs.Completion.QuotedLists
import SerialCompletion.Proofs.Completion.Spans
import SerialCompletion.Proofs.Completion.Tables
import SerialCompletion.Proofs.Completion.ValueForms
import SerialCompletion.Proofs.Line.Completed
import SerialCompletion.Proofs.Line.Cursor
import SerialCompletion.Proofs.Line.Discipline
import SerialCompletion.Proofs.Line.Nesting
import SerialCompletion.Proofs.Line.Runs
import SerialCompletion.Proofs.Settings.Storage
import SerialCompletion.Proofs.Word.Lists
import SerialCompletion.Proofs.Word.Quoting
import SerialCompletion.Proofs.Word.Tracking
