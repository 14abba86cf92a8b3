import LetLang.Text.Digit
import LetLang.Text.Quoted

/-!
# Command line options

Words that begin with a dash are options, up to the separator of two dashes. A long option may be
cut short as long as one option alone begins so; a value follows as the next word or after an
equals sign; one-letter options without values can be written together. One word that is no option
names a file.
-/

namespace LetLang.Command

def name : String := "gale"

inductive GraphKind where
  | nodes | scopes | types
  deriving Repr, DecidableEq

def GraphKind.names : List (String × GraphKind) :=
  [("nodes", .nodes), ("scopes", .scopes), ("types", .types)]

structure Options where
  file : Option String
  source : String
  checked : Bool
  graph : Option GraphKind
  output : Option String
  window : Bool
  listing : Bool
  verbose : Bool
  deriving Repr

def defaultSource : String := "let main : ui8 -> ui8 = \\x => x * x;"

def Options.standard : Options := ⟨none, defaultSource, true, none, none, false, false, false⟩

inductive Flag where
  | help | source | noCheck | graph | output | window | listing | verbose
  deriving Repr, DecidableEq

/-- The spellings of the options, in the order in which they are listed. -/
def spellings : List (String × Flag) :=
  [("-h", .help), ("--help", .help), ("--src", .source), ("--no-check", .noCheck),
   ("--graph", .graph), ("--viz", .output), ("--visualize", .window), ("--dump-ir", .listing),
   ("-v", .verbose), ("--verbose", .verbose)]

def Flag.name (f : Flag) : String :=
  String.intercalate "/" ((spellings.filter fun s => s.2 = f).map Prod.fst)

def Flag.takesValue : Flag → Bool
  | .source | .graph | .output => true
  | _ => false

inductive UsageError where
  | ambiguous (word : String) (candidates : List String)
  | expectedValue (flag : Flag)
  | unexpectedValue (flag : Flag) (value : String)
  | invalidChoice (flag : Flag) (value : String)
  | unrecognized (words : List String)
  deriving Repr, DecidableEq

def UsageError.message : UsageError → String
  | .ambiguous word candidates =>
    "ambiguous option: " ++ word ++ " could match " ++ String.intercalate ", " candidates
  | .expectedValue f => "argument " ++ f.name ++ ": expected one argument"
  | .unexpectedValue f value =>
    "argument " ++ f.name ++ ": ignored explicit argument " ++ Text.quote value
  | .invalidChoice f value =>
    "argument " ++ f.name ++ ": invalid choice: " ++ Text.quote value ++ " (choose from " ++
      String.intercalate ", " (GraphKind.names.map fun g => Text.quote g.1) ++ ")"
  | .unrecognized words => "unrecognized arguments: " ++ String.intercalate " " words

/-- A command line is not carried out: it is refused, or it asks for help. -/
inductive Stop where
  | usage (e : UsageError)
  | help
  deriving Repr, DecidableEq

/-- A word of the command line, by its form. -/
inductive Word where
  | plain (text : String)
  | separator
  /-- An option, whether it is spelled with one dash, and the value written with it. -/
  | flag (flag : Flag) (short : Bool) (value : Option (List Char))
  /-- A word that begins with a dash and is no option. -/
  | unknown (text : String)
  deriving Repr, DecidableEq

/-- A word and its value, if an equals sign separates them. -/
def splitValue (word : List Char) : List Char × Option (List Char) :=
  match word.dropWhile (· ≠ '=') with
  | [] => (word, none)
  | _ :: value => (word.takeWhile (· ≠ '='), some value)

/-- The options that a word with two dashes can be short for, with their spellings. -/
def longCandidates (word : List Char) : List (String × Word) :=
  let (stem, value) := splitValue word
  (spellings.filter fun s => stem.isPrefixOf s.1.toList).map
    fun s => (s.1, .flag s.2 false value)

/-- The options that a word with one dash can mean: the one of its first letter, with the other
letters as a value, and those that it is short for. -/
def shortCandidates (word : List Char) : List (String × Word) :=
  spellings.filterMap fun s =>
    if s.1.toList = word.take 2 then some (s.1, .flag s.2 true (some (word.drop 2)))
    else if word.isPrefixOf s.1.toList then
      some (s.1, .flag s.2 (s.1.toList.take 2 ≠ ['-', '-']) none)
    else none

/-- The word is a negative number: digits of any script, perhaps with a point before the last ones,
and perhaps a newline at the end. -/
def isNegativeNumber (word : List Char) : Bool :=
  match if word.getLast? = some '\n' then word.dropLast else word with
  | '-' :: ds =>
    match ds.dropWhile Text.isDecimalDigit with
    | [] => !ds.isEmpty
    | '.' :: es => !es.isEmpty && es.all Text.isDecimalDigit
    | _ => false
  | _ => false

/-- The form of a word before the separator. -/
def classify (text : String) : Except UsageError Word :=
  let word := text.toList
  match word with
  | [] => .ok (.plain text)
  | ['-'] => .ok (.plain text)
  | '-' :: second :: _ =>
    match spellings.lookup text with
    | some f => .ok (.flag f (second ≠ '-') none)
    | none =>
      let (stem, value) := splitValue word
      match value, spellings.lookup (String.ofList stem) with
      | some v, some f => .ok (.flag f (second ≠ '-') (some v))
      | _, _ =>
        match if second = '-' then longCandidates word else shortCandidates word with
        | [] =>
          if isNegativeNumber word || word.contains ' ' then .ok (.plain text)
          else .ok (.unknown text)
        | [c] => .ok c.2
        | cs => .error (.ambiguous text (cs.map Prod.fst))
  | _ => .ok (.plain text)

/-- The forms of the words of a command line. After the first separator all words are plain. -/
def classifyAll : List String → Except UsageError (List Word)
  | [] => .ok []
  | text :: rest =>
    if text = "--" then .ok (.separator :: rest.map .plain)
    else do return (← classify text) :: (← classifyAll rest)

/-- Carries out an option. A value that is just the separator counts as no value. -/
def apply (o : Options) (f : Flag) (value : String) : Except Stop Options :=
  match f with
  | .help => .error .help
  | .source => .ok { o with source := if value = "--" then "" else value }
  | .noCheck => .ok { o with checked := false }
  | .graph =>
    if value = "--" then .ok { o with graph := none }
    else
      match GraphKind.names.lookup value with
      | some g => .ok { o with graph := some g }
      | none => .error (.usage (.invalidChoice .graph value))
  | .output => .ok { o with output := if value = "--" ∨ value = "" then none else some value }
  | .window => .ok { o with window := true }
  | .listing => .ok { o with listing := true }
  | .verbose => .ok { o with verbose := true }

/-- The options written in one word as letters after one dash: `f`, and those of `letters`. -/
def cluster (f : Flag) : (letters : List Char) → Except UsageError (List Flag)
  | [] => .ok [f]
  | c :: cs =>
    match spellings.lookup (String.ofList ['-', c]) with
    | some g => (cluster g cs).map (f :: ·)
    | none => .error (.unexpectedValue f (String.ofList (c :: cs)))

def applyWord (o : Options) (f : Flag) (short : Bool) (value : List Char) : Except Stop Options :=
  if f.takesValue then apply o f (String.ofList value)
  else if short ∧ value ≠ [] then
    match cluster f value with
    | .ok flags => flags.foldlM (fun o f => apply o f "") o
    | .error e => .error (.usage e)
  else .error (.usage (.unexpectedValue f (String.ofList value)))

/-- Reads the words that are left. `taken` says that the place of the file is filled; words for
which there is no place are collected. -/
def read (o : Options) (taken : Bool) (extra : List String) : List Word → Except Stop Options
  | [] => if extra.isEmpty then .ok o else .error (.usage (.unrecognized extra))
  | .unknown text :: ws => read o taken (extra ++ [text]) ws
  | .flag f short (some value) :: ws =>
    match applyWord o f short value with
    | .ok o => read o taken extra ws
    | .error e => .error e
  | .flag f _ none :: ws =>
    if f.takesValue then
      match ws with
      | .plain text :: ws =>
        match apply o f text with
        | .ok o => read o taken extra ws
        | .error e => .error e
      | _ => .error (.usage (.expectedValue f))
    else
      match apply o f "" with
      | .ok o => read o taken extra ws
      | .error e => .error e
  | .plain text :: ws =>
    if taken then read o taken (extra ++ [text]) ws
    else
      match ws with
      | .separator :: ws => read { o with file := some text } true extra ws
      | ws => read { o with file := some text } true extra ws
  | .separator :: ws =>
    if taken then read o taken (extra ++ ["--"]) ws
    else
      match ws with
      | .plain text :: ws => read { o with file := some text } true extra ws
      | ws => read o true extra ws

def Options.ofArguments (arguments : List String) : Except Stop Options :=
  match classifyAll arguments with
  | .error e => .error (.usage e)
  | .ok words => read .standard false [] words

end LetLang.Command
