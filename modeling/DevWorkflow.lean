import DevWorkflow.CommandLine.Launch
import DevWorkflow.CommandLine.Parse
import DevWorkflow.Completion.BuiltIn
import DevWorkflow.Completion.Survey
import DevWorkflow.Completion.Validity
import DevWorkflow.Json.Parser
import DevWorkflow.Json.Printer
import DevWorkflow.Main
import DevWorkflow.Proofs.CommandLine.Operands
import DevWorkflow.Proofs.CommandLine.Parts
import DevWorkflow.Proofs.CommandLine.PassThrough
import DevWorkflow.Proofs.CommandLine.Pushing
import DevWorkflow.Proofs.CommandLine.Reading
import DevWorkflow.Proofs.CommandLine.Rendering
import DevWorkflow.Proofs.Completion.Acceptance
import DevWorkflow.Proofs.Completion.Bash.Blocks
import DevWorkflow.Proofs.Completion.Bash.Layout
import DevWorkflow.Proofs.Completion.Bash.Lines
import DevWorkflow.Proofs.Completion.Bash.Nesting
import DevWorkflow.Proofs.Completion.Bash.Reading
import DevWorkflow.Proofs.Completion.Bash.Running
import DevWorkflow.Proofs.Completion.Bash.Scope
import DevWorkflow.Proofs.Completion.Builders
import DevWorkflow.Proofs.Completion.Choices
import DevWorkflow.Proofs.Completion.Defects
import DevWorkflow.Proofs.Completion.Descriptions
import DevWorkflow.Proofs.Completion.Essence
import DevWorkflow.Proofs.Completion.Fish.Rules
import DevWorkflow.Proofs.Completion.Globals
import DevWorkflow.Proofs.Completion.Install.Hook
import DevWorkflow.Proofs.Completion.Install.Scripts
import DevWorkflow.Proofs.Completion.Listing
import DevWorkflow.Proofs.Completion.Places
import DevWorkflow.Proofs.Completion.Positions
import DevWorkflow.Proofs.Completion.Quoting
import DevWorkflow.Proofs.Completion.Transcript
import DevWorkflow.Proofs.Completion.Validity
import DevWorkflow.Proofs.Completion.Zsh.Blocks
import DevWorkflow.Proofs.Completion.Zsh.FunctionNames
import DevWorkflow.Proofs.Completion.Zsh.Quotes
import DevWorkflow.Proofs.Completion.Zsh.Specs
import DevWorkflow.Proofs.Completion.Zsh.Words
import DevWorkflow.Proofs.FileTree.Parents
import DevWorkflow.Proofs.FileTree.Places
import DevWorkflow.Proofs.FileTree.Writing
import DevWorkflow.Proofs.Git.BranchNames
import DevWorkflow.Proofs.Git.WorktreePlaces
import DevWorkflow.Proofs.Json.Exactness
import DevWorkflow.Proofs.Json.Layout
import DevWorkflow.Proofs.Json.Nesting
import DevWorkflow.Proofs.Json.Records
import DevWorkflow.Proofs.Json.RoundTrip
import DevWorkflow.Proofs.Run.History
import DevWorkflow.Proofs.Run.Init
import DevWorkflow.Proofs.Run.Launching
import DevWorkflow.Proofs.Run.Plans
import DevWorkflow.Proofs.Run.Programs
import DevWorkflow.Proofs.Run.Settings
import DevWorkflow.Proofs.Settings.Format
import DevWorkflow.Proofs.Settings.Handwritten
import DevWorkflow.Proofs.Settings.Store
import DevWorkflow.Proofs.Settings.Values
import DevWorkflow.Proofs.Text.CommandLines
import DevWorkflow.Proofs.Text.SingleLines
import DevWorkflow.Proofs.Text.Splitting
import DevWorkflow.Proofs.World.Actions
import DevWorkflow.Proofs.World.Attempts
import DevWorkflow.Settings.Store
import DevWorkflow.Text.Blank
import DevWorkflow.Text.Lines
import DevWorkflow.Text.ShellWords
import DevWorkflow.Text.Utf8
import DevWorkflow.Text.Visible
import DevWorkflow.Worktree
import DevWorkflow.World
import DevWorkflow.Proofs.FileTree.Siblings
import DevWorkflow.Proofs.FileTree.Rooted
import DevWorkflow.Proofs.Run.Replacement
import DevWorkflow.Proofs.Completion.Install.Backups
import DevWorkflow.Proofs.Run.StartupFiles
import DevWorkflow.Proofs.Completion.Bash.WordLists
import DevWorkflow.Proofs.Completion.Fish.Words
import DevWorkflow.Proofs.Completion.Zsh.Brackets
import DevWorkflow.Proofs.Completion.Zsh.Entries
import DevWorkflow.Proofs.CommandLine.CommitOptions
import DevWorkflow.Proofs.Completion.Zsh.Positions
import DevWorkflow.Proofs.Git.CommitMessages
import DevWorkflow.Proofs.Git.WorktreeListing
import DevWorkflow.Proofs.CommandLine.CommandWords
import DevWorkflow.Proofs.Run.Resetting
import DevWorkflow.Proofs.Completion.Install.HookWords
import DevWorkflow.Proofs.Completion.Flags
