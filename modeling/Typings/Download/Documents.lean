import Typings.Download.Cache
import Typings.Json.Inspect
import Typings.Json.Reader

/-!
Documents from the network: the symbol dump, and the registries, block states
and translation keys of the newest release. A cached document is revalidated by
its tag, and stands in when the network fails.
-/

namespace Typings

namespace Documents

/-- Where the documents of the schema and of the releases are served. -/
def service : String := "https://api.spyglassmc.com"

def dumpUrl : String := service ++ "/vanilla-mcdoc/symbols"

/-- The list of versions, newest first. -/
def releasesUrl : String := service ++ "/mcje/versions"

/-- The English texts of the game. -/
def languageUrl : String :=
  "https://raw.githubusercontent.com/misode/mcmeta/assets-json/assets/minecraft/lang/en_us.json"

def versionUrl (version : Json) (name : String) : String :=
  releasesUrl ++ "/" ++ version.plain ++ "/" ++ name

/-- The headers of a request, with the tag of the cached document
if there is one. -/
def requestHeaders (tag : Option String) : List (String × String) :=
  [("Accept", "application/json"), ("User-Agent", "mcdoc-typegen")] ++
    (match tag with
      | some tag => [("If-None-Match", tag)]
      | none => [])

/-- Does the status say that the request succeeded? -/
def isSuccess (status : Int) : Bool :=
  decide (200 ≤ status) && decide (status < 300)

def download (cache : Cache) (url : String) : Job (List UInt8) := do
  let cached ← cache.find? url
  match ← Job.request { url, headers := requestHeaders (cached.map (·.1)) },
    cached with
  | .trouble _ _, some (_, body) =>
    Job.tell [.fellBack url]
    return body
  | .trouble kind text, none => throw (.network kind text)
  | .response r, cached =>
    match cached with
    | some (_, body) =>
      if r.status = 304 then
        Job.tell [.reusedCache url]
        return body
    | none => pure ()
    if !isSuccess r.status then throw (.download url r.status)
    cache.keep url r.tag r.body
    Job.tell [.updatedCache url]
    return r.body

def document (cache : Cache) (url : String) : Job Json := do
  match Json.ofBytes (← download cache url) with
  | .ok v => return v
  | .error reason => throw (.unreadable reason)

/-- The identifier of the first version that is a release, which is what a
version without a type is. -/
def firstRelease : List Json → Except Fault Json
  | [] => .error (.run (.noRelease releasesUrl))
  | version :: rest => do
    let entries ← version.asEntries
    if ((Json.get? entries "type").getD (.str "release")).isText "release" then
      match Json.get? entries "id" with
      | some id => return id
      | none => throw (.misuse .missingEntry)
    else firstRelease rest

def dump (cache : Cache) : Job Json :=
  document cache dumpUrl

def newestRelease (cache : Cache) : Job Json := do
  let versions ← document cache releasesUrl
  Job.compute do firstRelease (← versions.walk)

def registries (cache : Cache) (version : Json) : Job Json :=
  document cache (versionUrl version "registries")

def blocks (cache : Cache) (version : Json) : Job Json :=
  document cache (versionUrl version "block_states")

/-- The translation keys in increasing order. -/
def translations (cache : Cache) : Job (List Json) := do
  let texts ← document cache languageUrl
  Job.compute do return ← Json.ordered (← texts.walk)

/-- How many entries, items or characters there are. -/
def count (v : Json) : Except Fault Nat := do
  return (← v.walk).length

/-- Downloads symbols and registries, and says how many there are. -/
def report : Job Unit := do
  Job.say "Downloading symbols..."
  let dump ← dump .standard
  let found ← Job.compute do
    let entries ← dump.asEntries
    count ((Json.get? entries "mcdoc").getD (.obj []))
  Job.say ("Downloaded: " ++ toString found ++ " symbols")
  let version ← newestRelease .standard
  let registries ← registries .standard version
  let found ← Job.compute (count registries)
  Job.say ("Downloaded: " ++ toString found ++ " registries for " ++
    version.plain)

end Documents

end Typings
