import Typings.Json.Inspect
import Typings.Json.Writer
import Typings.TypeExpr.Basic
import Typings.TypeExpr.Docs
import Typings.TypeExpr.Naming

/-!
Printing type expressions. An expression prints when no place of a string
literal in it holds anything but text.
-/

namespace Typings

/-- A number literal: a whole number has no fraction part, and any other value
is written as data. -/
def numberText : Json → String
  | .double x =>
      if x.isWhole then (Json.double x).wholePlain else (Json.double x).write
  | v => v.write

mutual

def TypeExpr.render : TypeExpr → String
  | .keyword name => name
  | .reference name args =>
    if args.isEmpty then name
    else name ++ "<" ++ ", ".intercalate (renderAll args) ++ ">"
  | .text value => Text.quote value
  | .misfit _ => ""
  | .number value => numberText value
  | .truth value => if value then "true" else "false"
  | .union members =>
    match renderAll members with
    | [one] => one
    | all => "(" ++ " | ".intercalate all ++ ")"
  | .intersection members =>
    match renderAll members with
    | [one] => one
    | all => "(" ++ " & ".intercalate all ++ ")"
  | .object members =>
    if members.isEmpty then "\x7b\x7d"
    else if members.all (·.docs.isEmpty) then
      "\x7b " ++ ", ".intercalate (renderProperties members) ++ " \x7d"
    else "\x7b\n" ++ String.join (renderLines members) ++ "\x7d"
  | .mapped key keys value optional name =>
    "\x7b [" ++ key ++ " in " ++ keys.render ++ renderName name ++ "]" ++
      (if optional then "?" else "") ++ ": " ++ value.render ++ " \x7d"
  | .access object index => object.render ++ "[" ++ index.render ++ "]"
  | .conditional check bound yes no parenthesized =>
    let body := check.render ++ " extends " ++ bound.render ++ " ? " ++
      yes.render ++ " : " ++ no.render
    if parenthesized then "(" ++ body ++ ")" else body
  | .operator name operand => name ++ " " ++ operand.render
  | .template head spans =>
      "`" ++ head ++ String.join (renderSpans spans) ++ "`"
  | .optional element => element.render ++ "?"
  | .tuple elements => "[" ++ ", ".intercalate (renderAll elements) ++ "]"

def renderAll : List TypeExpr → List String
  | [] => []
  | t :: rest => t.render :: renderAll rest

/-- The new name of a mapped key. -/
def renderName : Option TypeExpr → String
  | none => ""
  | some t => " as " ++ t.render

def Property.render : Property → String
  | .mk name type optional _ =>
      keyText name ++ (if optional then "?" else "") ++ ": " ++ type.render

def renderProperties : List Property → List String
  | [] => []
  | p :: rest => p.render :: renderProperties rest

/-- Properties on lines of their own, below their docs. -/
def renderLines : List Property → List String
  | [] => []
  | p :: rest => (docComment p.docs "    " ++ "    " ++ p.render ++ ",\n") ::
      renderLines rest

/-- The types of a template literal, each with the text behind it. -/
def renderSpans : List Span → List String
  | [] => []
  | .mk type tail :: rest =>
      ("$\x7b" ++ type.render ++ "\x7d" ++ tail) :: renderSpans rest

end

mutual

/-- Does the expression have a printed form? -/
def TypeExpr.printable : TypeExpr → Bool
  | .keyword _ => true
  | .reference _ args => allPrintable args
  | .text _ => true
  | .misfit _ => false
  | .number _ => true
  | .truth _ => true
  | .union members => allPrintable members
  | .intersection members => allPrintable members
  | .object members => propertiesPrintable members
  | .mapped _ keys value _ name =>
      keys.printable && namePrintable name && value.printable
  | .access object index => object.printable && index.printable
  | .conditional check bound yes no _ =>
      check.printable && bound.printable && yes.printable && no.printable
  | .operator _ operand => operand.printable
  | .template _ spans => spansPrintable spans
  | .optional element => element.printable
  | .tuple elements => allPrintable elements

def allPrintable : List TypeExpr → Bool
  | [] => true
  | t :: rest => t.printable && allPrintable rest

/-- Does the new name of a mapped key print? -/
def namePrintable : Option TypeExpr → Bool
  | none => true
  | some t => t.printable

def propertiesPrintable : List Property → Bool
  | [] => true
  | .mk _ type _ _ :: rest => type.printable && propertiesPrintable rest

/-- Do all types of a template literal print? -/
def spansPrintable : List Span → Bool
  | [] => true
  | .mk type _ :: rest => type.printable && spansPrintable rest

end

def TypeExpr.print (t : TypeExpr) : Except Misuse String :=
  if t.printable then .ok t.render else .error .notText

end Typings
