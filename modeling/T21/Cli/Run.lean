import T21.Assembler
import T21.Cli.Arguments
import T21.HexRecord

/-!
# The command line

One run of the program: read the arguments and the input, assemble, print a report, write the files that
are asked for. What the run needs of its surroundings is a `Host`, so the same run works on the real file
system and on a workspace in memory.
-/

namespace T21.Cli

/-! ## Log lines

A log line names the part of the program it comes from and its level. How many `-v` flags are given decides which
levels are shown. -/

structure LogLine where
  origin : String
  level : Level
  message : String
  deriving DecidableEq, Repr

namespace LogLine

def ofEvent (e : Event) : LogLine where
  origin := match e with
    | .surplus .. => "t21asm::assembler::encoder"
    | _ => "t21asm::assembler::session"
  level := e.level
  message := e.message

def own (level : Level) (message : String) : LogLine := ⟨"t21asm", level, message⟩

def text (l : LogLine) : String :=
  "[" ++ l.origin ++ "][" ++ l.level.name ++ "] " ++ l.message ++ "\n"

end LogLine

def threshold : Nat → Level
  | 0 => .error
  | 1 => .warn
  | 2 => .info
  | 3 => .debug
  | _ => .trace

def shown (verbosity : Nat) (lines : List LogLine) : String :=
  String.join ((lines.filter (·.level.rank ≤ (threshold verbosity).rank)).map LogLine.text)

/-! ## Reports

What a run prints about an assembly: its labels, on demand a listing, and the code. -/

structure Row where
  address : String
  instruction : String
  bytes : String
  deriving DecidableEq, Repr

def Row.ofEntry (a : Assembly) (e : Entry) : Row where
  address := "0x" ++ Text.Hex.padded 2 e.offset ++ ":"
  instruction := e.instruction.text
  bytes := Text.Hex.joined " " (a.bytesOf e).toList

def fill (width : Nat) (cell : String) : String :=
  cell ++ String.ofList (List.replicate (width - cell.length) ' ')

def widest (cells : List String) : Nat :=
  (cells.map String.length).foldl max 0

/-- One line per instruction. Every column but the last is as wide as its widest cell and one blank. -/
def listing (a : Assembly) : String :=
  let rows := a.listing.toList.map (Row.ofEntry a)
  let addressWidth := widest (rows.map (·.address)) + 1
  let instructionWidth := widest (rows.map (·.instruction)) + 1
  String.join (rows.map fun r =>
    fill addressWidth r.address ++ fill instructionWidth r.instruction ++ "=> " ++ r.bytes ++ "\n")

def labels (a : Assembly) : String :=
  String.join (a.labels.toList.map fun l => l.name ++ ": " ++ toString l.offset ++ "\n")

def report (showListing : Bool) (a : Assembly) : String :=
  labels a ++ (if showListing then listing a ++ "\n" else "") ++ a.hexDump ++ "\n"

/-! ## Surroundings -/

inductive PathError where
  | notFound
  | notFolder
  | isFolder
  | nameTooLong
  deriving DecidableEq, Repr

namespace PathError

def all : List PathError := [notFound, notFolder, isFolder, nameTooLong]

def code : PathError → Nat
  | notFound => 2
  | notFolder => 20
  | isFolder => 21
  | nameTooLong => 36

def text : PathError → String
  | notFound => "No such file or directory"
  | notFolder => "Not a directory"
  | isFolder => "Is a directory"
  | nameTooLong => "File name too long"

def message (e : PathError) : String :=
  e.text ++ " (os error " ++ toString e.code ++ ")"

end PathError

/-- The surroundings of a run. An operation that can fail gives the reason. -/
structure Host (m : Type → Type) where
  File : Type
  standardInput : m Stream
  /-- Opens a file to read it. Reading it may still fail. -/
  openFile : String → m (Except String Stream)
  /-- Opens a new file, or an old one without its content. -/
  createFile : String → m (Except String File)
  writeFile : File → List UInt8 → m (Except String Unit)
  print : String → m Unit
  printError : String → m Unit

inductive Exit where
  | success
  | failure
  | usage
  deriving DecidableEq, Repr

def Exit.code : Exit → UInt32
  | success => 0
  | failure => 1
  | usage => 1

def recordSize : Nat := 16

def describe (o : Options) : LogLine :=
  .own .debug ("Arguments:\n\tVerbosity: " ++ (threshold o.verbosity).name ++
    "\n\tOutfile: " ++ o.image.getD "None" ++
    "\n\tHex outfile: " ++ o.records.getD "None" ++
    "\n\tInfile: " ++ o.input)

def unableTo (action name reason : String) : LogLine :=
  .own .error ("fatal: unable to " ++ action ++ " `" ++ name ++ "`: " ++ reason)

def recordFile (records : List HexRecord) : List UInt8 :=
  Text.Utf8.encode (String.join (records.map fun r => r.text ++ "\n"))

section
variable {m : Type → Type} [Monad m] (host : Host m) (o : Options)

def log (lines : List LogLine) : m Unit :=
  host.printError (shown o.verbosity lines)

def fail (line : LogLine) : m Exit := do
  log host o [line]
  return .failure

def openInput : m (Except String Stream) := do
  if o.input = "-" then return .ok (← host.standardInput) else host.openFile o.input

def write (name : String) (content : List UInt8) (next : m Exit) : m Exit := do
  match ← host.createFile name with
  | .error reason => fail host o (unableTo "open output file" name reason)
  | .ok file =>
    match ← host.writeFile file content with
    | .error reason => fail host o (unableTo "write to output file" name reason)
    | .ok () =>
      log host o [.own .info ("wrote `" ++ name ++ "`")]
      next

def writeImage (a : Assembly) (next : m Exit) : m Exit :=
  match o.image with
  | none => next
  | some name => write host o name a.code.toList next

def writeRecords (a : Assembly) (next : m Exit) : m Exit :=
  match o.records with
  | none => next
  | some name =>
    match HexRecord.ofImage a.code recordSize with
    | .error e => fail host o (.own .error
        ("fatal: unable to encode `" ++ name ++ "` as Intel HEX: " ++ e.message))
    | .ok records => write host o name (recordFile records) next

def conclude (a : Assembly) : m Exit :=
  if a.hasErrors then
    fail host o (.own .error
      (toString a.diagnostics.size ++ " error(s) while assembling `" ++ o.input ++ "`"))
  else return .success

def deliver (a : Assembly) : m Exit := do
  log host o (a.diagnostics.toList.map fun d => .own .error d.text)
  host.print (report o.showListing a)
  writeImage host o a (writeRecords host o a (conclude host o a))

def execute : m Exit := do
  log host o [describe o]
  match ← openInput host o with
  | .error reason => fail host o (unableTo "open input file" o.input reason)
  | .ok stream =>
    match assembleStream o.input stream with
    | .error stopped =>
      log host o (stopped.log.toList.map .ofEvent)
      fail host o (unableTo "read input file" o.input stopped.reason)
    | .ok outcome =>
      log host o (outcome.log.toList.map .ofEvent)
      deliver host o outcome.assembly

end

def run {m : Type → Type} [Monad m] (host : Host m) (args : List String) : m Exit := do
  match Options.read args with
  | .ok o => execute host o
  | .error .help =>
    host.print helpText
    return .success
  | .error .version =>
    host.print versionText
    return .success
  | .error (.refused cause) =>
    host.printError ("error: " ++ cause.message ++ "\n\n" ++ usageText)
    return .usage

end T21.Cli
