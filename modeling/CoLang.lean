import CoLang.Interpreter
import CoLang.Json.Reader
import CoLang.Json.Printer
import CoLang.Wire.Machine
import CoLang.Wire.Report
import CoLang.Config.Load
import CoLang.Command.Arguments
import CoLang.Command.Folder
import CoLang.Main
import CoLang.Proofs.Refinement
import CoLang.Proofs.Suspension
import CoLang.Proofs.Checkpoint
import CoLang.Proofs.Schedule
import CoLang.Proofs.LifeCycle
import CoLang.Proofs.Snapshot
import CoLang.Proofs.Frames
import CoLang.Proofs.Jumps
import CoLang.Proofs.Bindings
import CoLang.Proofs.Termination
import CoLang.Proofs.Limit
import CoLang.Proofs.Failures
import CoLang.Proofs.Annotations
import CoLang.Proofs.Chronicle
import CoLang.Proofs.Output
import CoLang.Proofs.Scoping
import CoLang.Proofs.Untouched
import CoLang.Proofs.Rejections
import CoLang.Proofs.Brackets
import CoLang.Proofs.Declarations
import CoLang.Proofs.Completion
import CoLang.Proofs.Command
import CoLang.Proofs.Notes
import CoLang.Proofs.Integers
