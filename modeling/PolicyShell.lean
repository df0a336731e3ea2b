import PolicyShell.Host.FileTree
import PolicyShell.Host.Memory
import PolicyShell.Main
import PolicyShell.Proofs.Execution.Chains
import PolicyShell.Proofs.Execution.Conflicts
import PolicyShell.Proofs.Execution.Failures
import PolicyShell.Proofs.Execution.Output
import PolicyShell.Proofs.Execution.Relay
import PolicyShell.Proofs.Execution.Returning
import PolicyShell.Proofs.Execution.Separate
import PolicyShell.Proofs.Execution.Statuses
import PolicyShell.Proofs.Execution.Switching
import PolicyShell.Proofs.Execution.Toggles
import PolicyShell.Proofs.Expansion.Arguments
import PolicyShell.Proofs.Expansion.Assigned
import PolicyShell.Proofs.Expansion.Modes
import PolicyShell.Proofs.Expansion.Patterns
import PolicyShell.Proofs.Glob.Escaping
import PolicyShell.Proofs.Glob.Literals
import PolicyShell.Proofs.Glob.Matching
import PolicyShell.Proofs.Glob.Ranges
import PolicyShell.Proofs.Host.Walk
import PolicyShell.Proofs.Shell.Elements
import PolicyShell.Proofs.Startup.Operands
import PolicyShell.Proofs.Syntax.Acceptance
import PolicyShell.Proofs.Syntax.Advance
import PolicyShell.Proofs.Syntax.Dump
import PolicyShell.Proofs.Syntax.JoinedPrograms
import PolicyShell.Proofs.Syntax.Offsets
import PolicyShell.Proofs.Syntax.Resumption
import PolicyShell.Proofs.Syntax.Spacing
import PolicyShell.Proofs.Syntax.WellFormed
import PolicyShell.Proofs.Text.Escapes
import PolicyShell.Proofs.Text.Fields
import PolicyShell.Proofs.Text.Listing
import PolicyShell.Syntax.Cursor
