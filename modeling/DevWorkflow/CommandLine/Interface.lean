import DevWorkflow.CommandLine.Declaration
import DevWorkflow.Commit
import DevWorkflow.Completion.Script

/-!
# The program's command line

The declaration of the program's own commands, from which the reader of the command line and the completion scripts are made.
-/

namespace DevWorkflow

namespace Interface

/-- The names among which a value is chosen. -/
def choiceOf (names : List Text) : ValueKind := .oneOf (names.map fun n => ⟨n, false⟩)

/-- An option without a value. -/
def flag (id long help : Text) : ArgDeclaration :=
  { id, long := some long, help := some help, action := some .setTrue }

/-- An option with one value. -/
def option (id help : Text) : ArgDeclaration := { id, long := some id, help := some help, action := some .set }

/-- A positional argument for one word. -/
def argument (id help : Text) (required : Bool) : ArgDeclaration :=
  { id, help := some help, action := some .set, required }

/-- A positional argument for all words from its first one on, whatever they look like. -/
def remainder (id help : Text) : ArgDeclaration :=
  { id, help := some help, action := some .append, words := some ⟨1, none⟩, allowHyphenValues := true
    takesRest := true }

/-- A command with nothing below it. -/
def leaf (name about : Text) (args : List ArgDeclaration) : Declaration := { name, about := some about, args }

/-- The option that asks for debug messages, which every command takes. -/
def verboseOption : ArgDeclaration :=
  { flag "verbose".toList "verbose".toList "Enable debug logging on stderr".toList with short := some 'v', isGlobal := true }

/-- A shell, by its name. -/
def shellValues : ValueKind := choiceOf (Shell.all.map Shell.name)

/-- Installing the completions. -/
def initCommand : Declaration :=
  leaf "init".toList "Install shell completions".toList
    [{ option "dir".toList "Directory to write completion scripts to".toList with values := some .nonEmpty },
      { option "shell".toList "Shell whose rc file gets the hook".toList with values := some shellValues },
      flag "no_rc".toList "no-rc".toList "Do not modify the shell rc file".toList]

/-- Reading and changing the settings. -/
def configCommand : Declaration :=
  { name := "config".toList
    about := some "Read and write configuration".toList
    subcommands :=
      [leaf "get".toList "Print a configuration value".toList
          [argument "key".toList "Dotted configuration key".toList true],
        leaf "set".toList "Set a configuration value".toList
          [argument "key".toList "Dotted configuration key".toList true,
            argument "value".toList "New value".toList true],
        leaf "list".toList "Print every configuration value".toList [],
        leaf "path".toList "Print the configuration file path".toList [],
        leaf "reset".toList "Reset configuration to defaults".toList
          [{ flag "yes".toList "yes".toList "Skip the confirmation prompt".toList with short := some 'y' }]] }

/-- Making a commit. -/
def commitCommand : Declaration :=
  leaf "commit".toList "Create a conventional commit".toList
    [{ option "type".toList "Commit type".toList with short := some 't', values := some (choiceOf commitTypes) },
      { option "scope".toList "Commit scope".toList with short := some 's' },
      { option "message".toList "Commit summary".toList with short := some 'm', required := true },
      flag "breaking".toList "breaking".toList "Mark as a breaking change".toList,
      { flag "all".toList "all".toList "Stage tracked changes first".toList with short := some 'a' }]

/-- Managing worktrees. -/
def worktreeCommand : Declaration :=
  { name := "worktree".toList
    about := some "Manage worktrees".toList
    subcommands :=
      [leaf "add".toList "Create a worktree for a branch".toList
          [argument "branch".toList "Branch to check out".toList true,
            { argument "path".toList "Worktree location".toList false with values := some .nonEmpty }],
        leaf "list".toList "List worktrees".toList [],
        leaf "remove".toList "Remove a worktree".toList
          [argument "branch".toList "Branch of the worktree".toList true,
            { flag "force".toList "force".toList "Remove even with local changes".toList with short := some 'f' }]] }

/-- Working with git. -/
def gitCommand : Declaration :=
  { name := "git".toList
    about := some "Git workflow helpers".toList
    subcommands :=
      [commitCommand,
        leaf "branch".toList "List branches, or create one".toList
          [argument "name".toList "Branch to create".toList false],
        leaf "checkout".toList "Switch to a branch".toList [argument "branch".toList "Branch to check out".toList true],
        leaf "push".toList "Push the current branch".toList
          [argument "remote".toList "Remote to push to".toList false,
            remainder "args".toList "Extra git push arguments".toList],
        leaf "pull".toList "Pull the current branch".toList
          [flag "rebase".toList "rebase".toList "Rebase instead of merge".toList],
        worktreeCommand] }

/-- The program with all its commands. -/
def declaration : Declaration :=
  { name := programName
    about := some "Developer workflow helper".toList
    longAbout := some "Git, agent and configuration helpers. Also available as `dx`.".toList
    version := some programVersion
    args := [verboseOption]
    subcommands :=
      [initCommand, configCommand, gitCommand,
        leaf "update".toList "Update devx to the latest release".toList
          [flag "check".toList "check".toList "Only print what would run".toList],
        leaf "agent".toList "Launch the configured coding agent".toList
          [remainder "args".toList "Arguments passed to the agent".toList],
        leaf "completion".toList "Print a shell completion script".toList
          [{ argument "shell".toList "Target shell".toList true with values := some shellValues },
            flag "use_static".toList "static".toList
              "Use the built-in command map instead of the live parser".toList]] }

end Interface

end DevWorkflow
