import Typings.Command

/-!
The command as a program. What the arguments name is read beforehand and
everything written is put on disk afterwards; there is no network.
-/

open Typings

/-- The store with what an argument names on disk, a file or a folder. -/
def storeWith (store : Store) (arg : String) : IO Store := do
  let location := Location.ofText arg
  try
    let bytes ← IO.FS.readBinFile arg
    let (_, around) := store.makeFolders location.parent
    match around.write location bytes.toList with
    | .ok store => return store
    | .error _ => return store
  catch
    | .inappropriateType _ _ _ => return (store.makeFolders location).2
    | _ => return store

/-- The session that holds what the command may read. -/
def sessionFor (args : List String) : IO Session := do
  let working := Location.ofText (toString (← IO.currentDir))
  let store ← args.foldlM storeWith (Store.startingAt working.parts)
  return { store }

/-- Puts a file on disk, with the folders around it. -/
def saveFile (file : List String × List UInt8) : IO Unit := do
  let location : Location := { anchor := "/", parts := file.1 }
  IO.FS.createDirAll location.parent.text
  IO.FS.writeBinFile location.text (ByteArray.mk file.2.toArray)

def main (args : List String) : IO UInt32 := do
  let before ← sessionFor args
  let (outcome, after) := Command.run args before
  for line in Command.logLines args after.events do
    IO.eprintln line
  for line in after.lines do
    IO.println line
  for file in after.store.files do
    unless before.store.files.contains file do saveFile file
  match outcome with
  | .ok code => return UInt32.ofNat code
  | .error _ => return 1
