import Typings.Download.Documents
import Typings.Run

/-!
The command line. It compiles a symbol dump, from a file or from the network,
and writes one file for each module.
-/

namespace Typings

namespace Command

def usage : String :=
  "Usage: python -m mcdoc_typegen [-v] <symbols.json | --fetch> <output_folder>"

/-- The word that stands for the network in place of a file. -/
def fetchWord : String := "--fetch"

/-- The word that asks for a report of all events. -/
def verboseWord : String := "-v"

/-- The text of an event, and the part of the program that tells it. -/
def eventText : Event → String × String
  | .resolving phase => ("generator", "Resolving " ++ phase.words)
  | .resolved modules =>
      ("generator", "Resolved " ++ toString modules ++ " modules")
  | .reusedCache url => ("downloader", "Reusing cache for " ++ url)
  | .updatedCache url => ("downloader", "Updated cache for " ++ url)
  | .fellBack url =>
      ("downloader", "Request to " ++ url ++ " failed, falling back to cache")

/-- Does the event tell of something that went wrong? -/
def isWarning : Event → Bool
  | .fellBack _ => true
  | _ => false

/-- The line for an event: every event with its origin if asked for,
else warnings alone. -/
def eventLine? (verbose : Bool) (event : Event) : Option String :=
  let (origin, text) := eventText event
  if verbose then
    some ((if isWarning event then "WARNING" else "INFO") ++
      ":mcdoc_typegen." ++ origin ++ ":" ++ text)
  else if isWarning event then some text
  else none

/-- Runs every phase over a dump, and tells what the run tells. -/
def fromDump (data registries translationKeys blockProperties : Json) :
    Job (List OutputModule) := do
  let g ←
    Job.compute (Run.ofDump data registries translationKeys blockProperties)
  let (outcome, g) := Run.runAll g
  Job.tell g.journal
  Job.compute outcome

def fromFile (source : Location) : Job (List OutputModule) := do
  let bytes ← Job.inspect fun s => s.read source
  match Text.ofBytes? bytes with
  | none => throw (.unreadable .notUnicode)
  | some text =>
    match Json.ofText text with
    | .ok data => fromDump data .null .null .null
    | .error reason => throw (.unreadable reason)

/-- Compiles the dump and the game data that the network serves. -/
def fromNetwork (cache : Cache) : Job (List OutputModule) := do
  Job.say "Downloading symbols..."
  let data ← Documents.dump cache
  let version ← Documents.newestRelease cache
  Job.say ("Downloading registries for " ++ version.plain ++ "...")
  let registries ← Documents.registries cache version
  let states ← Documents.blocks cache version
  let keys ← Job.compute (Fault.ofMisuse (blockProperties states))
  let translations ← Documents.translations cache
  fromDump data registries (.arr translations) (.arr keys)

/-- Where a module is written: its file below the output folder, less the folder
of generated files. -/
def outputLocation (file : String) (folder : Location) : Location :=
  let relative :=
    match Text.after? (generatedFolder ++ "/").toList file.toList with
    | some rest => String.ofList rest
    | none => file
  folder.child (relative ++ ".ts")

/-- Writes a module. The file is there, and empty, before the text is. -/
def writeModule (folder : Location) (m : OutputModule) : Job Unit := do
  let target := outputLocation m.file folder
  Job.makeFolders target.parent
  Job.change fun s => s.write target []
  let text ← Job.compute (Fault.ofMisuse m.print)
  Job.change fun s => s.write target (Text.toBytes text)
  Job.say ("Generated " ++ target.text)

def reporting (body : Job Nat) : Job Nat :=
  tryCatch body fun fault =>
    match fault.message? with
    | some message => do
      Job.say ("Error: " ++ message)
      return 1
    | none => throw fault

def compile (source folder : String) : Job Nat := do
  let write (modules : List OutputModule) : Job Nat := do
    modules.forM (writeModule (.ofText folder))
    return 0
  if source = fetchWord then write (← fromNetwork .standard)
  else
    let file := Location.ofText source
    if ← Job.inspect fun s => s.has file then
      Job.say ("Compiling " ++ file.text)
      write (← fromFile file)
    else
      Job.say ("Input file " ++ file.text ++ " does not exist")
      return 1

/-- Runs the command and gives its exit code. -/
def run (args : List String) : Job Nat := do
  match args.filter (· != verboseWord) with
  | [source, folder] =>
    let code ← reporting (compile source folder)
    if code = 0 then Job.say "Compilation complete!"
    return code
  | _ =>
    Job.say usage
    return 1

/-- The lines that a run writes to its log. -/
def logLines (args : List String) (events : List Event) : List String :=
  events.filterMap (eventLine? (args.contains verboseWord))

end Command

end Typings
