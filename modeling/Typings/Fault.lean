import Typings.Json.Inspect
import Typings.Json.Reader

/-!
What can go wrong. A fault is recorded by its cause; the wording is in
`message?`. Faults of the schema, of the run and of the network have a message;
values of the wrong kind, files in the way and unreadable documents have none.
-/

namespace Typings

/-- Why a schema does not have the shape it needs. -/
inductive ShapeCause where
  | notType (value : Json)
  | missingField (name : String)
  | unknownIndexKind (kind : Json)
  | unknownFieldKind (kind : Json)
  | unsupportedKind (kind : Json)
  | noSymbolName (path : String)
  | emptyModulePath
  | unsupportedRoot (root : String)
  | unexpectedType (wanted got : String)
  | requestThroughList (property : String)
  | unknownLiteralKind (kind : Json)
  | unsupportedTextAttribute (name : Json)
  | referenceWithoutPath
  | concreteOverOther (kind : String)
  | templateInside
  | unsupportedKeyAttribute (name : Json)
  | keyReferenceWithoutPath
  | keyConcreteOverOther
  | unsupportedKey (kind : String)
  | unsupportedSpread (kind : String)
  | twoSelectors (first second : String)
  | missingSelector (property : String)
  | unnamedStruct
  | indexedOverOther (kind : String)

def ShapeCause.message : ShapeCause → String
  | .notType value => "Expected a type object, got " ++ value.inspect
  | .missingField name => "Missing required field '" ++ name ++ "'"
  | .unknownIndexKind kind => "Unknown index kind " ++ kind.inspect
  | .unknownFieldKind kind => "Unknown struct field kind " ++ kind.inspect
  | .unsupportedKind kind => "Unsupported type kind " ++ kind.inspect
  | .noSymbolName path =>
      "Import path has no symbol name: " ++ Text.inspect path
  | .emptyModulePath => "Empty module path"
  | .unsupportedRoot root => "Unsupported import root " ++ Text.inspect root
  | .unexpectedType wanted got => "Expected " ++ wanted ++ ", got " ++ got
  | .requestThroughList property =>
    "Dynamic dispatcher on '" ++ property ++
      "' cannot be resolved through a list"
  | .unknownLiteralKind kind => "Unknown literal kind " ++ kind.inspect
  | .unsupportedTextAttribute name =>
      "Unsupported string attribute '" ++ name.plain ++ "'"
  | .referenceWithoutPath => "Reference has no path"
  | .concreteOverOther kind =>
      "Concrete type must wrap a reference, got " ++ kind
  | .templateInside => "Template must be declared at the root of a named symbol"
  | .unsupportedKeyAttribute name =>
      "Unsupported struct key attribute '" ++ name.plain ++ "'"
  | .keyReferenceWithoutPath => "Struct key reference has no path"
  | .keyConcreteOverOther => "Struct key concrete type must wrap a reference"
  | .unsupportedKey kind =>
      "Struct key must be a reference, string or union, got " ++ kind
  | .unsupportedSpread kind =>
      "Struct spread must be a reference-like type, got " ++ kind
  | .twoSelectors first second =>
      "Struct dispatches on both '" ++ first ++ "' and '" ++ second ++ "'"
  | .missingSelector property =>
      "Dynamic dispatcher refers to missing property '" ++ property ++ "'"
  | .unnamedStruct => "Struct with an unresolved dispatcher needs a name"
  | .indexedOverOther kind =>
      "Indexed type must wrap a dispatcher, got " ++ kind

/-- A schema fault with the kind of type it was met in and the path of the
symbol, where known. -/
structure ShapeFault where
  cause : ShapeCause
  kind : Json := .null
  path : Option String := none

def ShapeFault.message (f : ShapeFault) : String :=
  let kind := match f.kind with
    | .null => ""
    | k => "[" ++ k.plain ++ "] "
  let path := match f.path with
    | none => ""
    | some p => p ++ ": "
  kind ++ path ++ f.cause.message

inductive AttributeCause where
  | unrecognized
  | expected (description : String)
  | unknownArgument (key : String)
  | notExactlyOne (keys : List String)
  | missingArgument (key : String)

def AttributeCause.message : AttributeCause → String
  | .unrecognized => "unrecognized attribute"
  | .expected description => "expected " ++ description
  | .unknownArgument key => "unknown argument '" ++ key ++ "'"
  | .notExactlyOne keys =>
      "exactly one of " ++ ", ".intercalate keys ++ " is required"
  | .missingArgument key => "missing argument '" ++ key ++ "'"

/-- A refused attribute with a description of the value it came with. -/
structure AttributeFault where
  name : String
  cause : AttributeCause
  received : String

def AttributeFault.message (f : AttributeFault) : String :=
  "Attribute '" ++ f.name ++ "': " ++ f.cause.message ++ " (received " ++
    Text.inspect f.received ++ ")"

/-- Why a dispatcher cannot be used. -/
inductive DispatcherCause where
  | unknown
  | unsupportedIndex (shown : String)
  | dynamicIndex
  | withoutMetadata

def DispatcherCause.message : DispatcherCause → String
  | .unknown => "unknown dispatcher"
  | .unsupportedIndex shown => "unsupported index pattern " ++ shown
  | .dynamicIndex => "dynamic index on an indexed access"
  | .withoutMetadata => "metadata was not precomputed"

/-- Why a run cannot go on. -/
inductive RunCause where
  | outOfOrder (phase : String) (expected : Option String)
  | closed (path : String)
  | noRelease (url : String)

def RunCause.message : RunCause → String
  | .outOfOrder phase expected =>
    "Cannot run the " ++ phase ++ " pass now, expected " ++
      expected.getD "nothing"
  | .closed path =>
      "Cannot write to " ++ path ++ " after the modules were finalized"
  | .noRelease url => "No release listed at " ++ url

/-- How a request can fail before there is a response. -/
inductive NetworkTrouble where
  | connection
  | timeout
  | protocol
  | other
  deriving DecidableEq, Repr

inductive StoreTrouble where
  | missing
  | isFolder
  | notFolder
  | alreadyThere
  /-- The path, or a name on the way, is longer than the limit. -/
  | tooLong
  /-- A NUL stands in the path, so nothing can be there. -/
  | unusable
  deriving DecidableEq, Repr

/-- What can go wrong. -/
inductive Fault where
  | shape (fault : ShapeFault)
  | attribute (fault : AttributeFault)
  | dispatcher (registry : String) (cause : DispatcherCause)
  | run (cause : RunCause)
  | download (url : String) (status : Int)
  | network (trouble : NetworkTrouble) (text : String)
  | misuse (misuse : Misuse)
  | unreadable (reason : Json.Unreadable)
  | store (trouble : StoreTrouble)

def Fault.message? : Fault → Option String
  | .shape fault => some fault.message
  | .attribute fault => some fault.message
  | .dispatcher registry cause =>
      some ("Dispatcher '" ++ registry ++ "': " ++ cause.message)
  | .run cause => some cause.message
  | .download url status => some
      ("Failed to download " ++ url ++ " (status " ++ toString status ++ ")")
  | .network _ text => some text
  | .misuse _ => none
  | .unreadable _ => none
  | .store _ => none

/-- A value of the wrong kind as a fault. -/
def Fault.ofMisuse {α : Type} : Except Misuse α → Except Fault α
  | .ok a => .ok a
  | .error m => .error (.misuse m)

instance : MonadLift (Except Misuse) (Except Fault) := ⟨Fault.ofMisuse⟩

end Typings
