import LayeredConfig.Command.Basic

/-!
# Completing words

Scripts that let a shell complete the names of commands.
-/

namespace LayeredConfig

/-- The name of the program. -/
def programName : String := "recipe-config"

namespace Shell

/-- The names of commands with blanks between them. -/
def words : String := String.intercalate " " (Command.grammar.commands.map Prod.fst)

/-- A script that completes the names of commands. -/
def script (s : Shell) : String :=
  match s with
  | .bash => "complete -W '" ++ words ++ "' " ++ programName ++ "\n"
  | .zsh =>
    "#compdef " ++ programName ++ "\n_arguments '1:command:(" ++ words ++ ")' '*:file:_files'\n"
  | .fish => "complete -c " ++ programName ++ " -n __fish_use_subcommand -a '" ++ words ++ "'\n"
  | .powershell =>
    "Register-ArgumentCompleter -Native -CommandName " ++ programName
      ++ " -ScriptBlock \x7b -split '" ++ words ++ "' \x7d\n"
  | .elvish =>
    "set edit:completion:arg-completer[" ++ programName ++ "] = \x7b|@args| put " ++ words
      ++ " \x7d\n"

end Shell

end LayeredConfig
