import T21.Cli.Run

/-!
# Workspaces

A small file system in memory, with the standard streams of one run. The run starts in a folder of its
own, from which paths are read unless they begin with a slash. Outside that folder there are only the
folders that lead to it and what the run itself puts there.
-/

namespace T21.Cli

/-- The names along a path, from the root of the file system down. -/
abbrev Path := List String

structure Workspace where
  home : Path := ["tmp", "t21"]
  files : List (Path × List UInt8) := []
  /-- The folders besides `home` and those that it lies in. -/
  folders : List Path := []
  input : List UInt8 := []
  output : String := ""
  errors : String := ""

namespace Workspace

/-- The longest path, in bytes. -/
def maxPath : Nat := 4095

/-- The longest name of a file or folder, in bytes. -/
def maxName : Nat := 255

/-- The parts between the slashes of a path. A path that begins with a slash has an empty first part. -/
def parts (name : String) : Path :=
  (name.toList.splitOnP (· == '/')).map String.ofList

def content? (w : Workspace) (p : Path) : Option (List UInt8) :=
  w.files.lookup p

def isFolder (w : Workspace) (p : Path) : Bool :=
  p.isPrefixOf w.home || w.folders.contains p

/-- Goes from one place to the next part of a path, which has to start in a folder. Above the root of the
file system there is only the root. -/
def descend (w : Workspace) (here : Path) (part : String) : Except PathError Path :=
  if (w.content? here).isSome then .error .notFolder
  else if !w.isFolder here then .error .notFound
  else if part = "" ∨ part = "." then .ok here
  else if part = ".." then .ok here.dropLast
  else if part.utf8ByteSize > maxName then .error .nameTooLong
  else .ok (here ++ [part])

/-- Where the parts of a path lead to, whether or not something is there. -/
def walk (w : Workspace) (ps : Path) : Except PathError Path :=
  ps.foldlM w.descend (if ps.head? = some "" then [] else w.home)

def checked (name : String) : Except PathError Path :=
  if name = "" then .error .notFound
  else if name.utf8ByteSize > maxPath then .error .nameTooLong
  else .ok (parts name)

/-- A folder can be opened, but not read. -/
def openFile (w : Workspace) (name : String) : Except PathError Stream := do
  let p ← w.walk (← checked name)
  match w.content? p with
  | some data => return { data }
  | none =>
    if w.isFolder p then return { data := [], failure := some PathError.isFolder.message }
    else throw .notFound

def chopSlashes : Path → Path
  | [] => []
  | part :: rest => part :: (rest.reverse.dropWhile (· == "")).reverse

def put (w : Workspace) (p : Path) (data : List UInt8) : Workspace :=
  { w with files := (p, data) :: w.files.filter (·.1 ≠ p) }

/-- Where a new file goes. A path that ends in a slash is that of a folder, which cannot be written even if nothing is
there. -/
def newFile (w : Workspace) (name : String) : Except PathError Path := do
  let whole ← checked name
  let chopped := chopSlashes whole
  if chopped ≠ whole then
    let _ ← w.walk (chopped.dropLast ++ ["."])
    throw .isFolder
  let p ← w.walk whole
  if w.isFolder p then throw .isFolder
  return p

/-- A workspace with the given files and folders in its own folder, and the folders that they lie in. -/
def ofNames (files : List (String × List UInt8)) (folders : List String) (input : List UInt8) :
    Workspace :=
  let w : Workspace := { input }
  let files := files.map fun (name, data) => (w.home ++ parts name, data)
  let ends := files.map (·.1.dropLast) ++ folders.map (w.home ++ parts ·)
  { w with
    files
    folders := ends.flatMap fun p => (List.range (p.length + 1)).map p.take }

def contents (w : Workspace) : List (String × List UInt8) :=
  w.files.filterMap fun (p, data) =>
    (w.home.isPrefixOf? p).map fun below => ("/".intercalate below, data)

end Workspace

/-- The workspace as the surroundings of a run. A file that has been created can be written. -/
def Workspace.host : Host (StateM Workspace) where
  File := Path
  standardInput := return { data := (← get).input }
  openFile name := return ((← get).openFile name).mapError PathError.message
  createFile name := do
    match (← get).newFile name with
    | .error e => return .error e.message
    | .ok p =>
      modify (·.put p [])
      return .ok p
  writeFile p data := do
    modify (·.put p data)
    return .ok ()
  print text := modify fun w => { w with output := w.output ++ text }
  printError text := modify fun w => { w with errors := w.errors ++ text }

end T21.Cli
