import RandomAccessMachine.Main
import RandomAccessMachine.Proofs.Assembly.Concatenation
import RandomAccessMachine.Proofs.Assembly.EarliestRefusal
import RandomAccessMachine.Proofs.Assembly.FinalEnd
import RandomAccessMachine.Proofs.Assembly.FirstFaultyLine
import RandomAccessMachine.Proofs.Assembly.Layout
import RandomAccessMachine.Proofs.Assembly.LongestLexeme
import RandomAccessMachine.Proofs.Assembly.Progress
import RandomAccessMachine.Proofs.Assembly.Recovery
import RandomAccessMachine.Proofs.Assembly.Rendering
import RandomAccessMachine.Proofs.Assembly.WholeStatements
import RandomAccessMachine.Proofs.CommandLine.Answers
import RandomAccessMachine.Proofs.Journal.FaithfulLog
import RandomAccessMachine.Proofs.Journal.LimitedTrace
import RandomAccessMachine.Proofs.Journal.StatesTold
import RandomAccessMachine.Proofs.Journal.Untraced
import RandomAccessMachine.Proofs.Machine.Bounds
import RandomAccessMachine.Proofs.Machine.Extension
import RandomAccessMachine.Proofs.Machine.ForwardJumps
import RandomAccessMachine.Proofs.Machine.InPlace
import RandomAccessMachine.Proofs.Machine.Meaning
import RandomAccessMachine.Proofs.Machine.Multiplication
import RandomAccessMachine.Proofs.Machine.PrintedState
import RandomAccessMachine.Proofs.Machine.ReadAlike
import RandomAccessMachine.Proofs.Machine.RunFailure
import RandomAccessMachine.Proofs.Machine.Stepping
import RandomAccessMachine.Proofs.Source.LineMargins
