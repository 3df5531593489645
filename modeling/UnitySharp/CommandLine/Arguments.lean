import UnitySharp.Document.Value

/-!
# Arguments

Flags have a letter and a word each; letters may be bunched, a value may be attached to its flag,
and a word may be cut short as long as it is clear which one is meant.  The documents stand together
in one run; after `--` every word is a document.  An attached value that is nothing but `--` counts
as given and stands for nothing.
-/

namespace UnitySharp.CommandLine

inductive Flag where
  | help
  | output
  | keepGoing
  | verbose
  | maxIssues
  | check
  | source
deriving DecidableEq, Repr

namespace Flag

def letter : Flag → Char
  | .help => 'h'
  | .output => 'o'
  | .keepGoing => 'k'
  | .verbose => 'v'
  | .maxIssues => 'm'
  | .check => 'c'
  | .source => 's'

def word : Flag → String
  | .help => "--help"
  | .output => "--output"
  | .keepGoing => "--keep-going"
  | .verbose => "--verbose"
  | .maxIssues => "--max-issues"
  | .check => "--check"
  | .source => "--source"

def all : List Flag :=
  [.help, .output, .keepGoing, .verbose, .maxIssues, .check, .source]

def takesValue : Flag → Bool
  | .output | .maxIssues | .source => true
  | _ => false

def ofLetter? (c : Char) : Option Flag :=
  all.find? fun flag => flag.letter == c

def label (flag : Flag) : String :=
  "-" ++ String.singleton flag.letter ++ "/" ++ flag.word

end Flag

/-- What is wrong with the arguments.  Asking for help ends the reading like a fault does. -/
inductive ArgumentFault where
  | helpWanted
  | ambiguous (word : String) (flags : List Flag)
  | valueMissing (flag : Flag)
  | valueIgnored (flag : Flag) (value : String)
  | notAnInteger (flag : Flag) (value : String)
  | noDocuments
  | unrecognized (words : List String)
  | sourceOfMany
deriving DecidableEq, Repr

def ArgumentFault.message : ArgumentFault → String
  | .helpWanted => ""
  | .ambiguous word flags =>
    "ambiguous option: " ++ word ++ " could match " ++ ", ".intercalate (flags.map Flag.word)
  | .valueMissing flag => "argument " ++ flag.label ++ ": expected one argument"
  | .valueIgnored flag value =>
    "argument " ++ flag.label ++ ": ignored explicit argument " ++ shownText value
  | .notAnInteger flag value => "argument " ++ flag.label ++ ": invalid int value: " ++
    shownText value
  | .noDocuments => "the following arguments are required: documents"
  | .unrecognized words => "unrecognized arguments: " ++ " ".intercalate words
  | .sourceOfMany => "--source only makes sense with a single document."

/-- A value on the command line: left out, given, or given as nothing. -/
inductive Setting (α : Type) where
  | absent
  | given (value : α)
  | void
deriving Repr

def Setting.isAbsent {α : Type} : Setting α → Bool
  | .absent => true
  | _ => false

def Setting.value? {α : Type} : Setting α → Option α
  | .given value => some value
  | _ => none

structure Options where
  documents : List String
  output : Setting String
  keepGoing : Bool
  verbosity : Nat
  maxIssues : Setting Int
  check : Bool
  source : Setting String
deriving Repr

def Options.initial : Options :=
  { documents := [], output := .absent, keepGoing := false, verbosity := 0, maxIssues := .absent,
    check := false, source := .absent }

def settingOf (value : String) : Setting String :=
  if value = "--" then .void else .given value

def integerSetting (flag : Flag) (value : String) : Except ArgumentFault (Setting Int) :=
  match settingOf value with
  | .given value =>
    match integerOfText? value with
    | some n => .ok (.given n)
    | none => .error (.notAnInteger flag value)
  | _ => .ok .void

def Options.set (options : Options) (flag : Flag) (value : String) : Except ArgumentFault Options :=
  match flag with
  | .help => .error .helpWanted
  | .output => .ok { options with output := settingOf value }
  | .keepGoing => .ok { options with keepGoing := true }
  | .verbose => .ok { options with verbosity := options.verbosity + 1 }
  | .maxIssues => (integerSetting flag value).map fun maxIssues => { options with maxIssues }
  | .check => .ok { options with check := true }
  | .source => .ok { options with source := settingOf value }

/-- How a word of the command line is taken: as it is, as the mark after which there are no more
flags, as a flag by its word or its letter with what is attached to it, or as a flag that does not
exist. -/
inductive Word where
  | plain (text : String)
  | separator
  | long (flag : Flag) (attached : Option String)
  | short (flag : Flag) (attached : List Char)
  | stray (text : String)
deriving Repr

def splitAtEquals (cs : List Char) : String × Option String :=
  let before := cs.takeWhile (· != '=')
  match cs.drop before.length with
  | [] => (String.ofList before, none)
  | _ :: after => (String.ofList before, some (String.ofList after))

def isNegativeNumber : List Char → Bool
  | '-' :: cs =>
    isRunThen isDigitChar isAtEnd cs ||
      (match cs.dropWhile isDigitChar with
        | '.' :: fraction => isRunThen isDigitChar isAtEnd fraction
        | _ => false)
  | _ => false

/-- A word with a dash in front that names no flag. -/
def strayOrPlain (word : String) : Word :=
  if isNegativeNumber word.toList || word.toList.contains ' ' then .plain word else .stray word

def readWord (word : String) : Except ArgumentFault Word :=
  match word.toList with
  | '-' :: '-' :: rest =>
    let (name, attached) := splitAtEquals ('-' :: '-' :: rest)
    match Flag.all.find? fun flag => flag.word == name with
    | some flag => .ok (.long flag attached)
    | none =>
      match Flag.all.filter fun flag => name.toList.isPrefixOf flag.word.toList with
      | [] => .ok (strayOrPlain word)
      | [flag] => .ok (.long flag attached)
      | flags => .error (.ambiguous word flags)
  | '-' :: c :: rest =>
    match Flag.ofLetter? c with
    | some flag => .ok (.short flag rest)
    | none => .ok (strayOrPlain word)
  | _ => .ok (.plain word)

def readWords : List String → Except ArgumentFault (List Word)
  | [] => .ok []
  | word :: rest =>
    if word = "--" then .ok (.separator :: rest.map .plain)
    else
      match readWord word with
      | .error fault => .error fault
      | .ok taken => (readWords rest).map (taken :: ·)

/-- What a word of flags comes to: flags with their values, a last flag whose value is the next
word, and what is left over. -/
structure Bunch where
  settings : List (Flag × String)
  wanting : Option Flag
  extra : List String
deriving Repr

def bunchOfFlag (flag : Flag) : Bunch :=
  if flag.takesValue then ⟨[], some flag, []⟩ else ⟨[(flag, "")], none, []⟩

def bunchOfValue (flag : Flag) (value : String) : Except ArgumentFault Bunch :=
  if flag.takesValue then .ok ⟨[(flag, value)], none, []⟩ else .error (.valueIgnored flag value)

/-- A flag by its letter with the letters that follow in the same word: its value, or further
flags. -/
def bunchOfLetters : Flag → List Char → Except ArgumentFault Bunch
  | flag, [] => .ok (bunchOfFlag flag)
  | flag, c :: rest =>
    if flag.takesValue then bunchOfValue flag (String.ofList (c :: rest))
    else
      match Flag.ofLetter? c with
      | none => .error (.valueIgnored flag (String.ofList (c :: rest)))
      | some next =>
        (bunchOfLetters next rest).map fun bunch =>
        { bunch with settings := (flag, "") :: bunch.settings }

/-- A flag by its letter with whatever follows in the same word.  An equals sign right after the
first letter only joins it to what follows, which has to be there if the flag takes no value. -/
def bunchOfShort (flag : Flag) : List Char → Except ArgumentFault Bunch
  | ['='] => bunchOfValue flag ""
  | '=' :: c :: rest => bunchOfLetters flag (c :: rest)
  | attached => bunchOfLetters flag attached

def bunchOf : Word → Except ArgumentFault Bunch
  | .long flag (some value) => bunchOfValue flag value
  | .long flag none => .ok (bunchOfFlag flag)
  | .short flag attached => bunchOfShort flag attached
  | .stray text => .ok ⟨[], none, [text]⟩
  | .plain _ => .ok ⟨[], none, []⟩
  | .separator => .ok ⟨[], none, []⟩

inductive DocumentRun where
  | ahead
  | current
  | past
deriving DecidableEq, Repr

structure Reading where
  options : Options
  run : DocumentRun
  extras : List String

namespace Reading

def endRun (reading : Reading) : Reading :=
  if reading.run = .current then { reading with run := .past } else reading

/-- A word that is no flag is a document, or one too many. -/
def addPlain (reading : Reading) (text : String) : Reading :=
  if reading.run = .past then { reading with extras := reading.extras ++ [text] }
  else
    { reading with
      options := { reading.options with documents := reading.options.documents ++ [text] }
      run := .current }

def addSeparator (reading : Reading) : Reading :=
  if reading.run = .past then { reading with extras := reading.extras ++ ["--"] } else reading

def setAll (reading : Reading) (settings : List (Flag × String)) :
    Except ArgumentFault Reading := do
  let options ← settings.foldlM (fun options (flag, value) => options.set flag value)
    reading.options
  .ok { reading with options }

end Reading

def readAll : Reading → List Word → Except ArgumentFault Reading
  | reading, [] => .ok reading
  | reading, .plain text :: rest => readAll (reading.addPlain text) rest
  | reading, .separator :: rest => readAll reading.addSeparator rest
  | reading, word :: rest => do
    let bunch ← bunchOf word
    let reading := { reading.endRun with extras := reading.extras ++ bunch.extra }
    match bunch.wanting, rest with
    | none, rest => readAll (← reading.setAll bunch.settings) rest
    | some flag, .plain value :: rest =>
      readAll (← reading.setAll (bunch.settings ++ [(flag, value)])) rest
    | some flag, _ => .error (.valueMissing flag)

def Options.read (arguments : List String) : Except ArgumentFault Options := do
  let words ← readWords arguments
  let reading ← readAll ⟨.initial, .ahead, []⟩ words
  if reading.options.documents.isEmpty then .error .noDocuments
  else if !reading.extras.isEmpty then .error (.unrecognized reading.extras)
  else .ok reading.options

end UnitySharp.CommandLine
