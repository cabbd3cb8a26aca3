/-!
# Command-line arguments

Options may stand anywhere, short ones may be joined in one word, and `--` ends them. Help, version and
words that cannot be understood take effect where they stand; what is missing or given twice is refused
only when all words have been read.
-/

namespace T21.Cli

structure Options where
  /-- The file to read; `-` is standard input. -/
  input : String
  verbosity : Nat
  showListing : Bool
  /-- Where the raw image goes. -/
  image : Option String
  /-- Where the image goes as hex records. -/
  records : Option String
  deriving DecidableEq, Repr

inductive UsageError where
  | unknown (word : String)
  | surplus (word : String)
  | missingInput
  | missingValue (option : String)
  | repeated (option : String)
  deriving DecidableEq, Repr

def UsageError.message : UsageError → String
  | unknown word => "Found argument '" ++ word ++ "' which wasn't expected"
  | surplus word => "Found a second input '" ++ word ++ "'"
  | missingInput => "The argument <INPUT> was not provided"
  | missingValue option => "The option '" ++ option ++ "' requires a value"
  | repeated option => "The option '" ++ option ++ "' was given more than once"

/-- What ends the reading of arguments before the last of them. -/
inductive Stop where
  | help
  | version
  | refused (cause : UsageError)
  deriving DecidableEq, Repr

inductive Setting where
  | image
  | records
  deriving DecidableEq, Repr

/-- The arguments read so far. Each list has one item per use of its option, the last use first; a use
has no value until one is read. -/
structure Draft where
  input : Option String := none
  verbosity : Nat := 0
  listings : Nat := 0
  images : List (Option String) := []
  records : List (Option String) := []
  /-- The option that takes the next word as its value, unless that word begins an option. -/
  awaiting : Option Setting := none
  /-- Whether `--` has been read. -/
  ended : Bool := false
  deriving DecidableEq, Repr

namespace Draft

def alter (d : Draft) (f : List (Option String) → List (Option String)) : Setting → Draft
  | .image => { d with images := f d.images }
  | .records => { d with records := f d.records }

def addInput (d : Draft) (word : String) : Except Stop Draft :=
  if d.input.isSome then .error (.refused (.surplus word)) else .ok { d with input := some word }

/-- An option with its value in the same word. Equals signs before the value do not belong to it. -/
def attach (d : Draft) (s : Setting) (value : List Char) : Draft :=
  d.alter (some (String.ofList (value.dropWhile (· == '='))) :: ·) s

def await (d : Draft) (s : Setting) : Draft :=
  { d.alter (none :: ·) s with awaiting := some s }

def supply (d : Draft) (s : Setting) (value : String) : Draft :=
  { d.alter (fun uses => some value :: uses.tail) s with awaiting := none }

def setting (d : Draft) (s : Setting) (value : List Char) : Draft :=
  if value.isEmpty then d.await s else d.attach s value

def readShort (word : String) (d : Draft) : List Char → Except Stop Draft
  | [] => .ok d
  | c :: cs =>
    if c = 'v' then readShort word { d with verbosity := d.verbosity + 1 } cs
    else if c = 'd' then readShort word { d with listings := d.listings + 1 } cs
    else if c = 'o' then .ok (d.setting .image cs)
    else if c = 'x' then .ok (d.setting .records cs)
    else if c = 'h' then .error .help
    else if c = 'V' then .error .version
    else .error (.refused (.unknown word))

def readLong (word : String) (d : Draft) (body : List Char) : Except Stop Draft :=
  let name := String.ofList (body.takeWhile (· ≠ '='))
  if name = "ihex" then .ok (d.setting .records (body.dropWhile (· ≠ '=')))
  else if name = "help" then .error .help
  else if name = "version" then .error .version
  else .error (.refused (.unknown word))

/-- A dash and more begins an option; a dash alone is an ordinary word. -/
def isOption : List Char → Bool
  | '-' :: _ :: _ => true
  | _ => false

def readOption (d : Draft) (word : String) : Except Stop Draft :=
  let cs := word.toList
  let body := cs.dropWhile (· == '-')
  if ['-', '-'].isPrefixOf cs then readLong word d body else readShort word d body

def read (d : Draft) (word : String) : Except Stop Draft :=
  if d.ended then d.addInput word
  else if word = "--" then .ok { d with ended := true }
  else if isOption word.toList then readOption { d with awaiting := none } word
  else match d.awaiting with
    | some s => .ok (d.supply s word)
    | none => d.addInput word

def single (name : String) : List (Option String) → Except Stop (Option String)
  | [] => .ok none
  | [some value] => .ok (some value)
  | [none] => .error (.refused (.missingValue name))
  | _ => .error (.refused (.repeated name))

def finish (d : Draft) : Except Stop Options := do
  let image ← single "-o" d.images
  let records ← single "--ihex" d.records
  if d.listings > 1 then throw (.refused (.repeated "-d"))
  match d.input with
  | none => throw (.refused .missingInput)
  | some input =>
    return { input, verbosity := d.verbosity, showListing := d.listings == 1, image, records }

end Draft

def Options.read (args : List String) : Except Stop Options := do
  let d ← args.foldlM Draft.read {}
  d.finish

/-! ## What the program says about itself -/

def versionText : String := "t21asm 0.1.0\n"

def usageText : String := "USAGE:\n    t21asm [FLAGS] [OPTIONS] <INPUT>\n"

def helpText : String :=
  versionText ++
  "Nicolas 'Montessquio' Suarez <nsuarez@kernelstack.net>\n" ++
  "A two-pass assembler for the T21 single-core instruction set.\n" ++
  "\n" ++
  usageText ++
  "\n" ++
  "FLAGS:\n" ++
  "    -h, --help       Prints help information\n" ++
  "    -d               prints a listing of each instruction and its bytes to STDOUT\n" ++
  "    -V, --version    Prints version information\n" ++
  "    -v               Sets the level of verbosity\n" ++
  "\n" ++
  "OPTIONS:\n" ++
  "    -x, --ihex <ihex>    write the image as Intel HEX records to an outfile\n" ++
  "    -o <output>          write the raw image to an outfile\n" ++
  "\n" ++
  "ARGS:\n" ++
  "    <INPUT>    Sets the input file to use, or - for STDIN\n"

end T21.Cli
