import Typings.Compiled.Basic
import Typings.Plan.Basic

/-!
Access into the table of a dispatcher. A key that is not known to be one
of the table's is guarded by a check, and the type behind a failed check
is an unknown record.
-/

namespace Typings

/-- The case of a dispatcher's symbol that joins all its members. -/
def fallbackCase : TypeExpr := .text "%fallback"

/-- The case of a dispatcher's symbol for a discriminator that is missing. -/
def noneCase : TypeExpr := .text "%none"

/-- The discriminator inside the mapped type that binds it. -/
def discriminator : TypeExpr := .named "S"

/-- `base['a']['b']`, each step guarded by a check for the key. -/
def guardedPath (base : TypeExpr) : List Json → TypeExpr
  | [] => base
  | key :: rest =>
    .conditional (.ofValue key) base.keyof
      (guardedPath (.access base (.ofValue key)) rest) .openRecord true

/-- `table[key]` followed by further keys; only a literal key
is taken on trust. -/
def guardedAccess (table key : TypeExpr) (keys : List Json) : TypeExpr :=
  let body := guardedPath (.access table key) keys
  if key.isLiteral then body
  else .conditional key table.keyof body .openRecord true

/-- The type arguments of a dispatcher's symbol: those given,
then unknown ones. -/
def DispatcherHead.fill (info : DispatcherHead) (args : List TypeExpr) :
    List TypeExpr :=
  args ++ List.replicate (info.params.length - args.length) .unknown

/-- The type of an index into a dispatcher, and the request it leaves open. At
the root nothing can supply a discriminator, so every member is admitted. -/
def DispatcherHead.access (info : DispatcherHead)
    (index : IndexForm) (isRoot : Bool) (args : List TypeExpr)
    (keys : List Json) : TypeExpr × List Request :=
  let args := info.fill args
  let table := TypeExpr.reference info.tableName args
  let fallback :=
    guardedPath (.reference info.tableName (args ++ [fallbackCase])) keys
  match index with
  | .dynamic parents property =>
    if isRoot then (fallback, [])
    else
      let found := guardedAccess table discriminator keys
      let type :=
        if info.hasAbsent then
          .conditional discriminator .undefined
            (.reference info.tableName (args ++ [noneCase])) found true
        else found
      (type, [{ parents, property }])
  | .static value =>
    if value.isText "%fallback" then (fallback, [])
    else (guardedAccess table (.ofValue value) keys, [])
  | .mapKey => (guardedAccess table (.named "Key") keys, [])

end Typings
