import DevWorkflow.Completion.Script

/-!
# The built-in command tree

The program's own commands, written down as a tree. It serves where scripts are made ahead of time; `CommandLine` declares the
same commands for the reader of the command line.
-/

namespace DevWorkflow

namespace BuiltIn

/-- The names of the shells, in the order in which scripts are written. -/
def shellNames : List Text := Shell.all.map Shell.name

/-- Installing the completions. -/
def initTree : CommandTree :=
  { name := "init".toList
    description := "Install shell completions".toList
    options :=
      [.value "dir".toList "Directory to write completion scripts to".toList,
        (OptionEntry.value "shell".toList "Shell whose rc file gets the hook".toList).withChoices shellNames,
        .flag "no-rc".toList "Do not modify the shell rc file".toList] }

/-- The argument that names a key of the settings. -/
def keyArgument : ArgumentEntry := (ArgumentEntry.ofName "key".toList "Dotted configuration key".toList).asRequired

/-- Reading and changing the settings. -/
def configTree : CommandTree :=
  { name := "config".toList
    description := "Read and write configuration".toList
    subcommands :=
      [{ name := "get".toList, description := "Print a configuration value".toList, arguments := [keyArgument] },
        { name := "set".toList
          description := "Set a configuration value".toList
          arguments := [keyArgument, (ArgumentEntry.ofName "value".toList "New value".toList).asRequired] },
        .ofName "list".toList "Print every configuration value".toList,
        .ofName "path".toList "Print the configuration file path".toList,
        { name := "reset".toList
          description := "Reset configuration to defaults".toList
          options := [(OptionEntry.flag "yes".toList "Skip the confirmation prompt".toList).withShort 'y'] }] }

/-- Making a commit. -/
def commitTree : CommandTree :=
  { name := "commit".toList
    description := "Create a conventional commit".toList
    options :=
      [((OptionEntry.value "type".toList "Commit type".toList).withShort 't').withChoices commitTypes,
        (OptionEntry.value "scope".toList "Commit scope".toList).withShort 's',
        (OptionEntry.value "message".toList "Commit summary".toList).withShort 'm',
        .flag "breaking".toList "Mark as a breaking change".toList,
        (OptionEntry.flag "all".toList "Stage tracked changes first".toList).withShort 'a'] }

/-- Managing worktrees. -/
def worktreeTree : CommandTree :=
  { name := "worktree".toList
    description := "Manage worktrees".toList
    subcommands :=
      [{ name := "add".toList
         description := "Create a worktree for a branch".toList
         arguments :=
           [(ArgumentEntry.ofName "branch".toList "Branch to check out".toList).asRequired,
             .ofName "path".toList "Worktree location".toList] },
        .ofName "list".toList "List worktrees".toList,
        { name := "remove".toList
          description := "Remove a worktree".toList
          options := [(OptionEntry.flag "force".toList "Remove even with local changes".toList).withShort 'f']
          arguments := [(ArgumentEntry.ofName "branch".toList "Branch of the worktree".toList).asRequired] }] }

/-- Working with git. -/
def gitTree : CommandTree :=
  { name := "git".toList
    description := "Git workflow helpers".toList
    subcommands :=
      [commitTree,
        { name := "branch".toList
          description := "List branches, or create one".toList
          arguments := [.ofName "name".toList "Branch to create".toList] },
        { name := "checkout".toList
          description := "Switch to a branch".toList
          arguments := [(ArgumentEntry.ofName "branch".toList "Branch to check out".toList).asRequired] },
        { name := "push".toList
          description := "Push the current branch".toList
          arguments :=
            [.ofName "remote".toList "Remote to push to".toList,
              (ArgumentEntry.ofName "args".toList "Extra git push arguments".toList).asVariadic]
          allowUnknownOption := true },
        { name := "pull".toList
          description := "Pull the current branch".toList
          options := [.flag "rebase".toList "Rebase instead of merge".toList] },
        worktreeTree] }

/-- The program with all its commands. -/
def tree : CommandTree :=
  { name := programName
    description := "Developer workflow helper".toList
    options := [(OptionEntry.flag "verbose".toList "Enable debug logging on stderr".toList).withShort 'v']
    subcommands :=
      [initTree, configTree, gitTree,
        { name := "update".toList
          description := "Update devx to the latest release".toList
          options := [.flag "check".toList "Only print what would run".toList] },
        { name := "agent".toList
          description := "Launch the configured coding agent".toList
          arguments := [(ArgumentEntry.ofName "args".toList "Arguments passed to the agent".toList).asVariadic]
          allowUnknownOption := true },
        { name := "completion".toList
          description := "Print a shell completion script".toList
          options := [.flag "static".toList "Use the built-in command map instead of the live parser".toList]
          arguments :=
            [(ArgumentEntry.ofName "shell".toList "Target shell".toList).asRequired.withChoices shellNames] }] }

end BuiltIn

end DevWorkflow
