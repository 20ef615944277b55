/-! # The commands and their options

    The program has four commands.  Options stand before the command, where they
    belong to the program as a whole, or after it, where they belong to the
    command.  Each of these places is a scope with options, an operand and a
    help text of its own. -/

namespace ShellInliner.CommandLine

/-! ### Commands -/

/-- What the program can be told to do. -/
inductive Command
  | build
  | ast
  | functions
  | init
  deriving DecidableEq, Repr

namespace Command

/-- All commands, in the order in which they are listed. -/
def all : List Command := [build, ast, functions, init]

def name : Command → String
  | build => "build"
  | ast => "ast"
  | functions => "functions"
  | init => "init"

/-- The command of a name; names are not shortened. -/
def named? (s : String) : Option Command :=
  all.find? (·.name == s)

theorem named?_name (c : Command) : named? c.name = some c := by
  cases c <;> decide

end Command

/-! ### Options -/

inductive Switch
  | help
  | verbose
  | config
  | output
  | resolve
  deriving DecidableEq, Repr

namespace Switch

/-- The ways to write an option. -/
def names : Switch → List String
  | help => ["-h", "--help"]
  | verbose => ["--verbose"]
  | config => ["--config"]
  | output => ["-o", "--output"]
  | resolve => ["--resolve"]

/-- Does the option come with a value? -/
def takesValue : Switch → Bool
  | config | output => true
  | help | verbose | resolve => false

/-- The option as messages call it. -/
def title (s : Switch) : String :=
  String.intercalate "/" s.names

end Switch

/-! ### Scopes -/

/-- A place for options: before a command or after it. -/
inductive Scope
  | program
  | command (c : Command)
  deriving DecidableEq, Repr

/-- What stands in a scope besides options. -/
inductive Operand
  | command
  | optionalFile
  | requiredFile
  | nothing
  deriving DecidableEq, Repr

/-- Lines, each with its end. -/
def lines (ls : List String) : String :=
  String.join (ls.map (· ++ "\n"))

namespace Scope

/-- The program, with the command if there is one. -/
def title : Scope → String
  | program => "shinline"
  | command c => "shinline " ++ c.name

def switches : Scope → List Switch
  | program => [.help, .verbose, .config]
  | command .build => [.help, .output]
  | command .ast => [.help, .resolve]
  | command .functions => [.help]
  | command .init => [.help]

def operand : Scope → Operand
  | program => .command
  | command .build => .optionalFile
  | command .ast => .optionalFile
  | command .functions => .requiredFile
  | command .init => .nothing

/-- All ways to write an option in the scope. -/
def names (s : Scope) : List (List Char × Switch) :=
  s.switches.flatMap fun w => w.names.map fun n => (n.toList, w)

/-- The option that is written so, in full. -/
def named? (s : Scope) (name : List Char) : Option Switch :=
  s.names.lookup name

/-- How a scope is used, in brief. -/
def usage : Scope → String
  | program => lines
      ["usage: shinline [-h] [--verbose] [--config CONFIG]",
       "                \x7bbuild,ast,functions,init\x7d ..."]
  | command .build => lines ["usage: shinline build [-h] [-o OUTPUT] [filename]"]
  | command .ast => lines ["usage: shinline ast [-h] [--resolve] [filename]"]
  | command .functions => lines ["usage: shinline functions [-h] filename"]
  | command .init => lines ["usage: shinline init [-h]"]

/-- What a scope offers. -/
def details : Scope → String
  | program => lines
      ["Shinline - inline shell imports",
       "",
       "positional arguments:",
       "  \x7bbuild,ast,functions,init\x7d",
       "    build               Inline imports and print the resulting script",
       "    ast                 Print the syntax tree as JSON",
       "    functions           List the functions an import of a file would define",
       "    init                Write a default configuration file",
       "",
       "options:",
       "  -h, --help            show this help message and exit",
       "  --verbose             Enable verbose output (sent to stderr)",
       "  --config CONFIG       Configuration file (default: ./shinline.json if",
       "                        present)"]
  | command .build => lines
      ["positional arguments:",
       "  filename              Script to transform (default: read from stdin)",
       "",
       "options:",
       "  -h, --help            show this help message and exit",
       "  -o OUTPUT, --output OUTPUT",
       "                        Write the result to this file instead of stdout"]
  | command .ast => lines
      ["positional arguments:",
       "  filename",
       "",
       "options:",
       "  -h, --help  show this help message and exit",
       "  --resolve   Inline imports before printing"]
  | command .functions => lines
      ["positional arguments:",
       "  filename",
       "",
       "options:",
       "  -h, --help  show this help message and exit"]
  | command .init => lines
      ["options:",
       "  -h, --help  show this help message and exit"]

def help (s : Scope) : String :=
  s.usage ++ "\n" ++ s.details

end Scope

end ShellInliner.CommandLine
