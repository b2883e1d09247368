import MonkeyLang.Text.Digit
import MonkeyLang.Text.Quoted

/-!
# Arguments

The arguments of the command line: flags, none of which takes an argument, and one optional operand,
the source. Long flags may be abbreviated as long as the abbreviation fits only one, short flags may
be joined, and after two dashes every argument is an operand. An argument that starts with a dash is
still an operand if it looks like a negative number or contains a blank and is no flag.

All arguments are told apart before the first of them takes effect.
-/

namespace MonkeyLang

/-! ## Flags -/

/-- The flags of the command line. -/
inductive Flag
  | help | string | ast | pretty | repl | verbose
deriving DecidableEq, Repr

namespace Flag

/-- Every flag, in the order of the help text. -/
def all : List Flag :=
  [help, string, ast, pretty, repl, verbose]

/-- The long spelling of a flag. -/
def long : Flag → String
  | help => "--help"
  | string => "--string"
  | ast => "--ast"
  | pretty => "--pretty"
  | repl => "--repl"
  | verbose => "--verbose"

/-- The letter of a flag that has a short spelling. -/
def letter? : Flag → Option Char
  | help => some 'h'
  | string => some 's'
  | pretty => some 'p'
  | ast | repl | verbose => none

def ofLetter? (c : Char) : Option Flag :=
  all.find? fun f => f.letter? == some c

/-- A flag in messages: all its spellings. -/
def title (f : Flag) : String :=
  match f.letter? with
  | some c => "-" ++ c.toString ++ "/" ++ f.long
  | none => f.long

end Flag

/-! ## Errors -/

/-- Why the arguments are refused. -/
inductive UsageError
  /-- An abbreviation fits several flags. -/
  | ambiguous (argument : String) (candidates : List Flag)
  /-- A flag is given an argument. -/
  | unwantedArgument (flag : Flag) (text : String)
  /-- Some arguments have no meaning. -/
  | unrecognized (arguments : List String)
deriving DecidableEq, Repr

def UsageError.message : UsageError → String
  | .ambiguous argument candidates =>
    "ambiguous option: " ++ argument ++ " could match " ++
      ", ".intercalate (candidates.map Flag.long)
  | .unwantedArgument flag text =>
    "argument " ++ flag.title ++ ": ignored explicit argument " ++ Text.quote text
  | .unrecognized arguments => "unrecognized arguments: " ++ " ".intercalate arguments

/-! ## Telling arguments apart -/

/-- What an argument is. -/
inductive Word
  | operand (text : String)
  /-- Two dashes: the arguments after them are operands. -/
  | separator
  /-- A flag by its long spelling, and the text after an equals sign. -/
  | long (flag : Flag) (assigned : Option String)
  /-- A flag by its letter, and the characters that are attached to it. -/
  | short (flag : Flag) (attached : Option (List Char))
  | unknown (text : String)
deriving DecidableEq, Repr

/-- A text with at most one line feed less at its end. -/
def dropFinalNewline (cs : List Char) : List Char :=
  if cs.getLast? = some '\n' then cs.dropLast else cs

/-- What follows a dash in a negative number: decimal digits, or a point with decimal digits after
it and perhaps before it. -/
def looksNumeric (cs : List Char) : Bool :=
  let body := dropFinalNewline cs
  match body.dropWhile Text.isDecimal with
  | [] => !body.isEmpty
  | '.' :: fraction => !fraction.isEmpty && fraction.all Text.isDecimal
  | _ => false

/-- What an argument is that starts with a dash and is no flag. -/
def Word.withoutFlag (argument : String) : Word :=
  if looksNumeric argument.toList.tail ∨ argument.toList.contains ' ' then .operand argument
  else .unknown argument

/-- A text up to its first equals sign, and what follows the sign if there is one. -/
def splitEquals (cs : List Char) : List Char × Option (List Char) :=
  (cs.takeWhile (· != '='),
    match cs.dropWhile (· != '=') with
    | [] => none
    | _ :: rest => some rest)

/-- What the characters after the letter of a flag attach to it. An equals sign right after the
letter is left out, but attaches even the empty text. -/
def attachment : List Char → Option (List Char)
  | [] => none
  | '=' :: cs => some cs
  | cs => some cs

/-- What one argument is. No long spelling starts another one, so a full spelling fits one flag. -/
def Word.ofArgument (argument : String) : Except UsageError Word :=
  match argument.toList with
  | ['-', '-'] => .ok .separator
  | '-' :: '-' :: cs =>
    let parts := splitEquals ('-' :: '-' :: cs)
    match Flag.all.filter fun f => parts.1.isPrefixOf f.long.toList with
    | [] => .ok (.withoutFlag argument)
    | [f] => .ok (.long f (parts.2.map String.ofList))
    | candidates => .error (.ambiguous argument candidates)
  | '-' :: c :: cs =>
    match Flag.ofLetter? c with
    | some f => .ok (.short f (attachment cs))
    | none => .ok (.withoutFlag argument)
  | _ => .ok (.operand argument)

/-- What all arguments are, or the first error among them. -/
def Word.ofArguments : List String → Except UsageError (List Word)
  | [] => .ok []
  | argument :: arguments =>
    match Word.ofArgument argument with
    | .error e => .error e
    | .ok .separator => .ok (.separator :: arguments.map .operand)
    | .ok w => (Word.ofArguments arguments).map (w :: ·)

/-! ## Taking effect -/

/-- The flags that a flag and the letters joined to it stand for. Characters that start with no
letter of a flag are an unwanted argument of the flag before them. -/
def joinedFlags (flag : Flag) : List Char → Except UsageError (List Flag)
  | [] => .ok [flag]
  | c :: cs =>
    match Flag.ofLetter? c with
    | some next => (joinedFlags next cs).map (flag :: ·)
    | none => .error (.unwantedArgument flag (String.ofList (c :: cs)))

/-- The flags that a flag by its letter stands for. An attachment without characters is an unwanted
argument. -/
def shortFlags (flag : Flag) : Option (List Char) → Except UsageError (List Flag)
  | none => .ok [flag]
  | some [] => .error (.unwantedArgument flag "")
  | some cs => joinedFlags flag cs

/-- The meaning of a command line: the flags in the order in which they are given, and the
source. -/
structure Arguments where
  flags : List Flag
  source : Option String
deriving DecidableEq, Repr

/-- What a command line asks for. -/
inductive Command
  | help
  | run (arguments : Arguments)
deriving DecidableEq, Repr

/-- Takes up words one after another. The first operand is the source. `extras` are the arguments
without a meaning so far, and `atSource` says that the word before was the source: two dashes right
after it, or before any source, have done their duty, others have no meaning. -/
def takeWords (flags : List Flag) (source : Option String) (atSource : Bool)
    (extras : List String) : List Word → Except UsageError Command
  | [] =>
    if extras.isEmpty then .ok (.run ⟨flags, source⟩) else .error (.unrecognized extras)
  | .operand text :: words =>
    match source with
    | none => takeWords flags (some text) true extras words
    | some _ => takeWords flags source false (extras ++ [text]) words
  | .separator :: words =>
    if source.isNone ∨ atSource then takeWords flags source false extras words
    else takeWords flags source false (extras ++ ["--"]) words
  | .unknown text :: words => takeWords flags source false (extras ++ [text]) words
  | .long f (some text) :: _ => .error (.unwantedArgument f text)
  | .long f none :: words =>
    if f = .help then .ok .help else takeWords (flags ++ [f]) source false extras words
  | .short f attached :: words =>
    match shortFlags f attached with
    | .error e => .error e
    | .ok fs =>
      if fs.contains .help then .ok .help else takeWords (flags ++ fs) source false extras words

/-- What a command line asks for, or why it is refused. -/
def Command.ofArguments (arguments : List String) : Except UsageError Command :=
  match Word.ofArguments arguments with
  | .error e => .error e
  | .ok words => takeWords [] none false [] words

/-! ## Help -/

/-- How the program is called. -/
def usage : String :=
  "usage: monkey [-h] [-s] [--ast] [-p] [--repl] [--verbose] [source]\n"

def helpText : String :=
  usage ++
  "\npositional arguments:\n" ++
  "  source        Filename or raw source (with -s)\n" ++
  "\noptions:\n" ++
  "  -h, --help    show this help message and exit\n" ++
  "  -s, --string  Interpret source as literal string\n" ++
  "  --ast         Print the parsed program as JSON instead of evaluating it\n" ++
  "  -p, --pretty  Show result with banners\n" ++
  "  --repl        Launch interactive REPL instead of running a program\n" ++
  "  --verbose     Debug logging; echo ASTs in the REPL\n"

end MonkeyLang
