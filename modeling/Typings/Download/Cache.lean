import Typings.Session
import Typings.Text.Base64
import Typings.Text.Blank
import Typings.Text.Encoding
import Typings.Text.Newline

/-!
A cache of documents. Each document is a file of its own, next to a file
with the tag it was served with. The file names spell the URL, so no two
documents share one.
-/

namespace Typings

/-- Where documents are kept; nowhere if there is no folder. -/
structure Cache where
  folder : Option Location

namespace Cache

def inFolder (name : String) : Cache :=
  ⟨some ((Location.ofText name).child "http")⟩

/-- The cache that is used unless another one is asked for. -/
def standard : Cache :=
  inFolder "cache"

/-- A cache that keeps nothing. -/
def disabled : Cache :=
  ⟨none⟩

def nameFor (url : String) : String :=
  String.ofList (Text.base64 (Text.toBytes url))

def bodyFile (folder : Location) (url : String) : Location :=
  folder.child (nameFor url ++ ".bin")

def tagFile (folder : Location) (url : String) : Location :=
  folder.child (nameFor url ++ ".etag")

/-- The tag that the bytes of a tag file spell, without blanks around it. -/
def readTag (bytes : List UInt8) : Except Fault String :=
  match Text.ofBytes? bytes with
  | some text =>
      .ok (Text.strip (String.ofList (Text.unifyNewlines text.toList)))
  | none => .error (.unreadable .notUnicode)

/-- The cached document with its tag. Both files have to be there. -/
def find? (cache : Cache) (url : String) :
    Job (Option (String × List UInt8)) := do
  match cache.folder with
  | none => return none
  | some folder =>
    if ← Job.inspect fun s => s.has (tagFile folder url) then
      if ← Job.inspect fun s => s.has (bodyFile folder url) then
        let tag ← Job.compute
          (readTag (← Job.inspect fun s => s.read (tagFile folder url)))
        let body ← Job.inspect fun s => s.read (bodyFile folder url)
        return some (tag, body)
    return none

/-- Keeps a document that came with a tag. -/
def keep (cache : Cache) (url : String) (tag : Option String)
    (body : List UInt8) : Job Unit := do
  match cache.folder, tag with
  | some folder, some tag =>
    if tag = "" then return ()
    Job.makeFolders folder
    Job.change fun s => s.write (bodyFile folder url) body
    Job.change fun s =>
      s.write (tagFile folder url) (Text.toBytes (tag ++ "\n"))
  | _, _ => return ()

end Cache

end Typings
