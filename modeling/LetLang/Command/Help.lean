import LetLang.Command.Options

/-!
# Help

What the command says of itself, on lines that fit a terminal of eighty columns.
-/

namespace LetLang.Command

def usage : String :=
  "usage: " ++ name ++ " [-h] [--src SRC] [--no-check] [--graph \x7bnodes,scopes,types\x7d]\n" ++
    "            [--viz OUTPUT] [--visualize] [--dump-ir] [-v]\n" ++
    "            [file]"

def optionHelp : List String :=
  ["positional arguments:",
   "  file                  Gale source file to compile",
   "",
   "options:",
   "  -h, --help            show this help message and exit",
   "  --src SRC             Inline Gale source",
   "  --no-check            Skip the type checker and lower the parsed program",
   "                        directly",
   "  --graph \x7bnodes,scopes,types\x7d",
   "                        Print an analysis graph in Graphviz DOT format instead",
   "                        of running",
   "  --viz OUTPUT          Export the selected graph (default: nodes) to an SVG",
   "                        file",
   "  --visualize           Show the selected graph (default: nodes) in a",
   "                        matplotlib window",
   "  --dump-ir             Print the lowered arena tree as JSON",
   "  -v, --verbose         Log compiler pass details to stderr"]

def help : String :=
  usage ++ "\n\nGale Language Compiler\n\n" ++ String.intercalate "\n" optionHelp

end LetLang.Command
