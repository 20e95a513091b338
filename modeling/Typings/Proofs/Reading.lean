import Typings.Proofs.DocComments
import Typings.Proofs.NumberLiterals
import Typings.Proofs.PropertyKeys
import Mathlib.Data.String.Basic
import Mathlib.Order.Filter.AtTopBot.Basic

/-!
Reading printed type expressions back. The reader is a descent over the
characters, with fuel for its depth. What it gives for the text of an expression
is the expression without docs and with every whole number held as one, whatever
the text goes on with. This holds for expressions in which every nesting can be
told from its text: unions and intersections have several members, conditionals
stand in parentheses, and `keyof` is not indexed into.
-/

namespace Typings

mutual

/-- The expression without docs, with whole numbers held as such. -/
def TypeExpr.bare : TypeExpr → TypeExpr
  | .keyword name => .keyword name
  | .reference name args => .reference name (bareAll args)
  | .text value => .text value
  | .misfit value => .misfit value
  | .number value => .number value.plainNumber
  | .truth value => .truth value
  | .union members => .union (bareAll members)
  | .intersection members => .intersection (bareAll members)
  | .object members => .object (bareProperties members)
  | .mapped key keys value optional name =>
      .mapped key keys.bare value.bare optional (bareName name)
  | .access object index => .access object.bare index.bare
  | .conditional check bound yes no parenthesized =>
      .conditional check.bare bound.bare yes.bare no.bare parenthesized
  | .operator name operand => .operator name operand.bare
  | .template head spans => .template head (bareSpans spans)
  | .optional element => .optional element.bare
  | .tuple elements => .tuple (bareAll elements)

def bareAll : List TypeExpr → List TypeExpr
  | [] => []
  | t :: rest => t.bare :: bareAll rest

/-- The new name of a mapped key. -/
def bareName : Option TypeExpr → Option TypeExpr
  | none => none
  | some t => some t.bare

def Property.bare : Property → Property
  | .mk name type optional _ => .mk name type.bare optional []

def bareProperties : List Property → List Property
  | [] => []
  | p :: rest => p.bare :: bareProperties rest

/-- The types of a template literal, each with the text behind it. -/
def bareSpans : List Span → List Span
  | [] => []
  | .mk type tail :: rest => .mk type.bare tail :: bareSpans rest

end

/-- The built-in names that a type expression may hold. -/
def keywordNames : List String :=
  ["string", "number", "boolean", "unknown", "never", "undefined", "any"]

/-- The words that are read as something other than a named type. -/
def reservedWords : List String :=
  keywordNames ++ ["true", "false", "keyof"]

/-- The template literals that are printed, with their texts. -/
def templateTexts : List (TypeExpr × String) :=
  [(.someText, "`$\x7bany\x7d$\x7bstring\x7d`"),
    (.identifierText, "`$\x7bstring\x7d:$\x7bstring\x7d`"),
    (.tagText, "`#$\x7bstring\x7d:$\x7bstring\x7d`")]

/-- What stands behind the first end mark of a comment. -/
def afterCommentEnd : List Char → Option (List Char)
  | '*' :: '/' :: rest => some rest
  | _ :: rest => afterCommentEnd rest
  | [] => none

/-- A mark for what may be missing, and what follows. -/
def cutMark : List Char → Bool × List Char
  | '?' :: rest => (true, rest)
  | cs => (false, cs)

/-- Something is read from the front of a text, and the rest is left. -/
abbrev Reader (α : Type) := List Char → Option (α × List Char)

/-- Items one after the other, as long as the separator follows. -/
def readItems {α : Type} (read : Reader α) (separator : List Char) :
    Nat → Reader (List α)
  | 0, _ => none
  | fuel + 1, cs => do
    let (item, rest) ← read cs
    match rest.dropPrefix? separator with
    | some rest => do
      let (items, rest) ← readItems read separator fuel rest
      return (item :: items, rest)
    | none => return ([item], rest)

section Descent

variable (read : Reader TypeExpr)

def readUntil {α : Type} (read : Reader α) (separator close : List Char)
    (fuel : Nat) : Reader (List α) := fun cs => do
  let (items, rest) ← readItems read separator fuel cs
  let rest ← rest.dropPrefix? close
  return (items, rest)

def readConditional (check : TypeExpr) : Reader TypeExpr := fun cs => do
  let (bound, rest) ← read cs
  let rest ← rest.dropPrefix? " ? ".toList
  let (yes, rest) ← read rest
  let rest ← rest.dropPrefix? " : ".toList
  let (no, rest) ← read rest
  let rest ← rest.dropPrefix? ")".toList
  return (.conditional check bound yes no true, rest)

/-- What stands in parentheses: a union, an intersection or a conditional. -/
def readGroup (fuel : Nat) : Reader TypeExpr := fun cs => do
  let (first, rest) ← read cs
  match rest.dropPrefix? " | ".toList with
  | some rest => do
    let (others, rest) ← readUntil read " | ".toList ")".toList fuel rest
    return (.union (first :: others), rest)
  | none =>
    match rest.dropPrefix? " & ".toList with
    | some rest => do
      let (others, rest) ← readUntil read " & ".toList ")".toList fuel rest
      return (.intersection (first :: others), rest)
    | none => do
      let rest ← rest.dropPrefix? " extends ".toList
      readConditional read first rest

def readTuple (fuel : Nat) : Reader TypeExpr
  | ']' :: rest => some (.tuple [], rest)
  | cs => do
    let (elements, rest) ← readUntil read ", ".toList "]".toList fuel cs
    return (.tuple elements, rest)

def readProperty : Reader Property := fun cs => do
  let (name, rest) ← readKey cs
  let (optional, rest) := cutMark rest
  let rest ← rest.dropPrefix? ": ".toList
  let (type, rest) ← read rest
  return (.mk (String.ofList name) type optional [], rest)

/-- What stands behind the docs of a property, if there are any. -/
def skipDocs : List Char → Option (List Char)
  | '/' :: rest => do (← afterCommentEnd rest).dropPrefix? "\n    ".toList
  | cs => some cs

def readLine : Reader Property := fun cs => do
  let rest ← cs.dropPrefix? "    ".toList
  let rest ← skipDocs rest
  let (p, rest) ← readProperty read rest
  let rest ← rest.dropPrefix? ",\n".toList
  return (p, rest)

/-- Properties on lines of their own, up to the closing brace. -/
def readLines : Nat → Reader (List Property)
  | 0, _ => none
  | _ + 1, '\x7d' :: rest => some ([], rest)
  | fuel + 1, cs => do
    let (p, rest) ← readLine read cs
    let (ps, rest) ← readLines fuel rest
    return (p :: ps, rest)

/-- A mapped type behind its opening bracket. -/
def readMapped : Reader TypeExpr := fun cs => do
  let rest ← (cs.dropWhile continuesIdentifier).dropPrefix? " in ".toList
  let (keys, rest) ← read rest
  let rest ← rest.dropPrefix? "]".toList
  let (optional, rest) := cutMark rest
  let rest ← rest.dropPrefix? ": ".toList
  let (value, rest) ← read rest
  let rest ← rest.dropPrefix? " \x7d".toList
  return (.mapped (String.ofList (cs.takeWhile continuesIdentifier)) keys value
    optional none, rest)

/-- What stands in braces: properties on one line or on several,
or a mapped type. -/
def readBraces (fuel : Nat) : Reader TypeExpr
  | '\x7d' :: rest => some (.object [], rest)
  | '\n' :: rest => do
    let (ps, rest) ← readLines read fuel rest
    return (.object ps, rest)
  | ' ' :: '[' :: rest => readMapped read rest
  | ' ' :: rest => do
    let (ps, rest) ←
      readUntil (readProperty read) ", ".toList " \x7d".toList fuel rest
    return (.object ps, rest)
  | _ => none

/-- A named type, applied to the arguments that follow. -/
def readArguments (fuel : Nat) (name : String) : Reader TypeExpr
  | '<' :: rest => do
    let (args, rest) ← readUntil read ", ".toList ">".toList fuel rest
    return (.reference name args, rest)
  | cs => some (.named name, cs)

def readWord (fuel : Nat) (name : String) : Reader TypeExpr := fun cs =>
  if keywordNames.contains name then some (.keyword name, cs)
  else if name = "true" then some (.truth true, cs)
  else if name = "false" then some (.truth false, cs)
  else if name = "keyof" then do
    let rest ← cs.dropPrefix? " ".toList
    let (operand, rest) ← read rest
    return (.keyof operand, rest)
  else readArguments read fuel name cs

def readTemplate : Reader TypeExpr := fun cs =>
  templateTexts.findSome? fun e => (cs.dropPrefix? e.2.toList).map fun rest =>
    (e.1, rest)

/-- A type expression up to the indices that follow it. -/
def readAtom (fuel : Nat) : Reader TypeExpr
  | '(' :: rest => readGroup read fuel rest
  | '[' :: rest => readTuple read fuel rest
  | '\x7b' :: rest => readBraces read fuel rest
  | '\'' :: rest =>
      (Text.scanQuoted rest).map fun r => (.text (String.ofList r.1), r.2)
  | c :: rest =>
    if startsIdentifier c then
      readWord read fuel
        (String.ofList ((c :: rest).takeWhile continuesIdentifier))
        ((c :: rest).dropWhile continuesIdentifier)
    else if inNumeral c then
      (readNumber ((c :: rest).takeWhile inNumeral)).map fun v =>
        (.number v, (c :: rest).dropWhile inNumeral)
    else readTemplate (c :: rest)
  | [] => none

end Descent

mutual

def readExpr : Nat → Reader TypeExpr
  | 0, _ => none
  | fuel + 1, cs => do
    let (atom, rest) ← readAtom (readExpr fuel) fuel cs
    readAccesses fuel atom rest

/-- Reads the indices behind an expression. -/
def readAccesses : Nat → TypeExpr → Reader TypeExpr
  | 0, _, _ => none
  | fuel + 1, object, '[' :: rest => do
    let (index, rest) ← readExpr fuel rest
    let rest ← rest.dropPrefix? "]".toList
    readAccesses fuel (.access object index) rest
  | _ + 1, object, cs => some (object, cs)

end

theorem renderAll_eq (ts : List TypeExpr) :
    renderAll ts = ts.map (·.render) := by
  induction ts with
  | nil => rfl
  | cons t rest ih => rw [renderAll, List.map_cons, ih]

theorem renderProperties_eq (ps : List Property) :
    renderProperties ps = ps.map (·.render) := by
  induction ps with
  | nil => rfl
  | cons p rest ih => rw [renderProperties, List.map_cons, ih]

theorem bareAll_eq (ts : List TypeExpr) : bareAll ts = ts.map (·.bare) := by
  induction ts with
  | nil => rfl
  | cons t rest ih => rw [bareAll, List.map_cons, ih]

theorem bareProperties_eq (ps : List Property) :
    bareProperties ps = ps.map (·.bare) := by
  induction ps with
  | nil => rfl
  | cons p rest ih => rw [bareProperties, List.map_cons, ih]

/-- Is the expression an operator applied to a type? -/
def TypeExpr.isOperator : TypeExpr → Bool
  | .operator _ _ => true
  | _ => false

/-- What follows cannot continue the expression before it,
except by an index. -/
def Stops (rest : List Char) : Prop :=
  ∀ c ∈ rest.head?, c ∈ ['[', ' ', ',', '>', ')', ']', '\x7d']

/-- What follows cannot continue the expression before it. -/
def Ends (rest : List Char) : Prop :=
  ∀ c ∈ rest.head?, c ∈ [' ', ',', '>', ')', ']', '\x7d']

theorem Ends.stops {rest : List Char} (h : Ends rest) : Stops rest :=
  fun c hc => List.mem_cons_of_mem _ (h c hc)

theorem ends_cons {c : Char} {rest : List Char}
    (h : c ∈ [' ', ',', '>', ')', ']', '\x7d']) : Ends (c :: rest) := by
  rintro d hd
  cases hd
  exact h

theorem ends_nil : Ends [] := by
  simp [Ends]

/-- What follows continues neither a word nor a numeral, and it is no
list of arguments. -/
theorem Stops.head {rest : List Char} (h : Stops rest) :
    ∀ c ∈ rest.head?, continuesIdentifier c = false ∧ inNumeral c = false ∧
      c ≠ '<' := by
  have hall : ∀ c ∈ ['[', ' ', ',', '>', ')', ']', '\x7d'],
      continuesIdentifier c = false ∧ inNumeral c = false ∧ c ≠ '<' := by
    simp [continuesIdentifier, inNumeral]
  exact fun c hc => hall c (h c hc)

theorem dropPrefix?_append_self (front rest : List Char) :
    (front ++ rest).dropPrefix? front = some rest :=
  List.dropPrefix?_eq_some_iff.mpr ⟨front, rfl, beq_self_eq_true front⟩

section Fuel

open Filter

variable {α β : Type}

theorem eventually_succ {p : Nat → Prop} (h : ∀ᶠ n in atTop, p (n + 1)) :
    ∀ᶠ n in atTop, p n := by
  rw [← map_add_atTop_eq_nat 1]
  exact h

/-- With enough fuel the reader gives `a` for the text, whatever the
text goes on with. -/
def Recovers (read : Nat → Reader α) (text : List Char) (a : α) : Prop :=
  ∀ rest, Ends rest → ∀ᶠ n in atTop, read n (text ++ rest) = some (a, rest)

section Items

variable {read : Nat → Reader α} {text : β → List Char} {form : β → α}
  {separator : List Char}

/-- Items that are read back one by one are read back as a list. -/
theorem eventually_readItems (hseparator : ∀ after, Ends (separator ++ after))
    {rest : List Char} (hrest : Ends rest)
    (hclose : rest.dropPrefix? separator = none) : ∀ (x : β) (xs : List β),
      (∀ y ∈ x :: xs, Recovers read (text y) (form y)) →
      ∀ᶠ n in atTop, ∀ fuel, (x :: xs).length ≤ fuel →
        readItems (read n) separator fuel
          (separator.intercalate ((x :: xs).map text) ++ rest) =
          some ((x :: xs).map form, rest)
  | x, [], h => by
      filter_upwards [h x List.mem_cons_self rest hrest] with n hx fuel hfuel
      obtain ⟨fuel, rfl⟩ : ∃ k, fuel = k + 1 :=
        ⟨fuel - 1, by rw [List.length_singleton] at hfuel; omega⟩
      simp [readItems, hx, hclose]
  | x, y :: ys, h => by
      have hx := h x List.mem_cons_self _
        (hseparator (separator.intercalate ((y :: ys).map text) ++ rest))
      have hys := eventually_readItems hseparator hrest hclose y ys fun z hz =>
        h z (List.mem_cons_of_mem _ hz)
      filter_upwards [hx, hys] with n hx hys fuel hfuel
      obtain ⟨fuel, rfl⟩ : ∃ k, fuel = k + 1 :=
        ⟨fuel - 1, by rw [List.length_cons] at hfuel; omega⟩
      have hys := hys fuel (by simpa using hfuel)
      rw [List.map_cons, List.map_cons, List.intercalate_cons_cons,
        ← List.map_cons, List.append_assoc, List.append_assoc]
      simp only [readItems, hx, Option.bind_eq_bind, Option.bind_some,
        dropPrefix?_append_self, hys]
      rfl

/-- Items up to the mark that ends them. -/
theorem eventually_readUntil {close : List Char} {xs : List β} (hsome : xs ≠ [])
    (hxs : ∀ x ∈ xs, Recovers read (text x) (form x))
    (hseparator : ∀ after, Ends (separator ++ after))
    (hclose : ∀ after, Ends (close ++ after))
    (hdiffer : ∀ after, (close ++ after).dropPrefix? separator = none)
    (rest : List Char) :
    ∀ᶠ n in atTop, readUntil (read n) separator close n
      (separator.intercalate (xs.map text) ++ (close ++ rest)) =
      some (xs.map form, rest) := by
  obtain ⟨x, xs, rfl⟩ := List.exists_cons_of_ne_nil hsome
  filter_upwards
    [eventually_readItems hseparator (hclose rest) (hdiffer rest) x xs hxs,
    eventually_ge_atTop (x :: xs).length] with n hitems hfuel
  simp only [readUntil, hitems n hfuel, Option.bind_eq_bind, Option.bind_some,
    dropPrefix?_append_self]
  rfl

end Items

/-- Nothing is read where the first item is not. -/
theorem readUntil_eq_none {α : Type} {read : Reader α}
    {separator close cs : List Char} {fuel : Nat}
    (h : read cs = none) : readUntil read separator close fuel cs = none := by
  cases fuel <;> simp [readUntil, readItems, h]

section Atoms

variable {rest : List Char}

/-- An expression is read once its front is, and the indices behind it. -/
theorem eventually_readExpr {cs : List Char}
    {atom : TypeExpr} {r : TypeExpr × List Char}
    (hatom : ∀ᶠ n in atTop, readAtom (readExpr n) n cs = some (atom, rest))
    (hrest : ∀ᶠ n in atTop, readAccesses n atom rest = some r) :
    ∀ᶠ n in atTop, readExpr n cs = some r := by
  refine eventually_succ ?_
  filter_upwards [hatom, hrest] with n hatom hrest
  simp only [readExpr, hatom, Option.bind_eq_bind, Option.bind_some, hrest]

/-- Where no index follows, the expression is complete. -/
theorem eventually_readAccesses (hrest : Ends rest) (object : TypeExpr) :
    ∀ᶠ n in atTop, readAccesses n object rest = some (object, rest) := by
  refine eventually_succ (Eventually.of_forall fun n => ?_)
  rw [readAccesses]
  rintro after rfl
  exact absurd (hrest '[' rfl) (by decide)

/-- The expression is read back from its text up to the indices that may follow.
Behind an operator an index would belong to the operand. -/
def TypeExpr.IsReadBack (t : TypeExpr) : Prop :=
  ∀ rest r, Stops rest → (t.isOperator = true → Ends rest) →
    (∀ᶠ n in atTop, readAccesses n t.bare rest = some r) →
      ∀ᶠ n in atTop, readExpr n (t.render.toList ++ rest) = some r

theorem TypeExpr.IsReadBack.recovers {t : TypeExpr} (h : t.IsReadBack) :
    Recovers readExpr t.render.toList t.bare :=
  fun rest hrest =>
    h rest _ hrest.stops (fun _ => hrest) (eventually_readAccesses hrest t.bare)

theorem TypeExpr.IsReadBack.before {t : TypeExpr} (h : t.IsReadBack)
    (mark : String)
    (hmark : ∀ after, Ends (mark.toList ++ after)) (after : List Char) :
    ∀ᶠ n in atTop, readExpr n (t.render.toList ++ (mark.toList ++ after)) =
      some (t.bare, mark.toList ++ after) :=
  h.recovers _ (hmark after)

theorem TypeExpr.isReadBack_of_atom {t : TypeExpr}
    (hatom : ∀ rest, Stops rest → (t.isOperator = true → Ends rest) →
    ∀ᶠ n in atTop, readAtom (readExpr n) n (t.render.toList ++ rest) =
      some (t.bare, rest)) : t.IsReadBack :=
  fun rest _ hstops hends hr => eventually_readExpr (hatom rest hstops hends) hr

theorem readAtom_word {read : Reader TypeExpr} {fuel : Nat}
    {name : String} (hname : IsWord name.toList)
    (hrest : ∀ c ∈ rest.head?, continuesIdentifier c = false) :
    readAtom read fuel (name.toList ++ rest) =
      readWord read fuel name rest := by
  obtain ⟨htake, hdrop⟩ := span_append hname.all hrest
  have hback : String.ofList name.toList = name := String.ofList_toList
  obtain ⟨c, tail, heq, hstart, -⟩ := hname
  rw [heq, List.cons_append] at htake hdrop ⊢
  rw [readAtom, if_pos hstart, htake, hdrop, ← heq, hback]
  -- What opens a group, a tuple, an object or a literal begins no word.
  all_goals
    rintro rfl
    cases hstart

theorem isWord_of_mem_reservedWords :
    ∀ name ∈ reservedWords, IsWord name.toList := by
  decide

theorem TypeExpr.isReadBack_keyword {name : String}
    (hname : name ∈ keywordNames) :
    (TypeExpr.keyword name).IsReadBack := by
  refine isReadBack_of_atom fun rest hstops _ =>
    Eventually.of_forall fun n => ?_
  have hword := isWord_of_mem_reservedWords name (List.mem_append_left _ hname)
  rw [render, readAtom_word hword fun c hc => (hstops.head c hc).1, readWord,
    if_pos (List.contains_iff_mem.mpr hname), bare]

theorem TypeExpr.isReadBack_truth (value : Bool) :
    (TypeExpr.truth value).IsReadBack := by
  refine isReadBack_of_atom fun rest hstops _ =>
    Eventually.of_forall fun n => ?_
  have hends : ∀ c ∈ rest.head?, continuesIdentifier c = false :=
    fun c hc => (hstops.head c hc).1
  rw [render, bare]
  cases value with
  | true =>
      exact readAtom_word (isWord_of_mem_reservedWords "true" (by decide)) hends
  | false =>
      exact readAtom_word
        (isWord_of_mem_reservedWords "false" (by decide)) hends

/-- A named type can be printed under the name. -/
def IsTypeName (name : String) : Prop :=
  IsWord name.toList ∧ name ∉ reservedWords

instance : DecidablePred IsTypeName :=
  fun name =>
    inferInstanceAs (Decidable (IsWord name.toList ∧ name ∉ reservedWords))

theorem readWord_of_isTypeName {read : Reader TypeExpr} {fuel : Nat}
    {name : String} (hname : IsTypeName name) (cs : List Char) :
    readWord read fuel name cs = readArguments read fuel name cs := by
  have hnot := hname.2
  simp only [reservedWords, List.mem_append, List.mem_cons, List.not_mem_nil,
    or_false, not_or] at hnot
  obtain ⟨hkeyword, htrue, hfalse, hkeyof⟩ := hnot
  rw [readWord, if_neg (by simpa using hkeyword), if_neg htrue, if_neg hfalse,
    if_neg hkeyof]

theorem TypeExpr.isReadBack_reference {name : String} {args : List TypeExpr}
    (hname : IsTypeName name) (hargs : ∀ t ∈ args, t.IsReadBack) :
    (TypeExpr.reference name args).IsReadBack := by
  refine isReadBack_of_atom fun rest hstops _ => ?_
  rw [render, bare, bareAll_eq]
  split
  · rename_i hempty
    obtain rfl := List.isEmpty_iff.mp hempty
    refine Eventually.of_forall fun n => ?_
    rw [readAtom_word hname.1 fun c hc => (hstops.head c hc).1,
      readWord_of_isTypeName hname, readArguments.eq_def]
    split
    · exact absurd rfl (hstops.head '<' rfl).2.2
    · rfl
  · rename_i hsome
    have hread : ∀ᶠ n in atTop, readUntil (readExpr n) ", ".toList ">".toList n
        (", ".toList.intercalate (args.map (·.render.toList)) ++
            (">".toList ++ rest)) =
          some (args.map (·.bare), rest) :=
      eventually_readUntil (by simpa using hsome)
        (fun t ht => (hargs t ht).recovers) (fun _ => ends_cons (by decide))
        (fun _ => ends_cons (by decide)) (fun _ => rfl) rest
    filter_upwards [hread] with n hread
    have htext : (name ++ "<" ++ ", ".intercalate (renderAll args) ++
          ">").toList ++ rest =
        name.toList ++ '<' :: (", ".toList.intercalate
          (args.map (·.render.toList)) ++ (">".toList ++ rest)) := by
      simp [renderAll_eq, String.toList_intercalate, Function.comp_def]
    have hopen :
        ∀ c ∈ ('<' :: (", ".toList.intercalate (args.map (·.render.toList)) ++
          (">".toList ++ rest))).head?, continuesIdentifier c = false := by
      rintro c hc
      cases hc
      rfl
    rw [htext, readAtom_word hname.1 hopen, readWord_of_isTypeName hname,
      readArguments, hread]
    rfl

theorem TypeExpr.isReadBack_keyof {operand : TypeExpr}
    (h : operand.IsReadBack) : operand.keyof.IsReadBack := by
  refine isReadBack_of_atom fun rest _ hends => ?_
  filter_upwards [h.recovers rest (hends rfl)] with n hread
  have htext : operand.keyof.render.toList ++ rest =
      "keyof".toList ++ (" ".toList ++ (operand.render.toList ++ rest)) := by
    rw [keyof, render]
    simp
  have hword : IsWord "keyof".toList :=
    isWord_of_mem_reservedWords "keyof" (by decide)
  rw [htext, readAtom_word hword (by simp [continuesIdentifier])]
  change ((" ".toList ++ (operand.render.toList ++ rest)).dropPrefix?
    " ".toList).bind _ = _
  rw [dropPrefix?_append_self, Option.bind_some, hread]
  rfl

theorem TypeExpr.isReadBack_text (value : String) :
    (TypeExpr.text value).IsReadBack := by
  refine isReadBack_of_atom fun rest _ _ => Eventually.of_forall fun n => ?_
  have hback : String.ofList value.toList = value := String.ofList_toList
  rw [render, bare, Text.toList_quote, List.cons_append,
    List.append_assoc, List.singleton_append, readAtom,
    Text.scanQuoted_flatMap, Option.map_some, hback]

theorem startsIdentifier_of_isDigit {c : Char} (h : c.isDigit = true) :
    startsIdentifier c = false := by
  have hall : ∀ d ∈ "0123456789".toList, startsIdentifier d = false := by
    simp [startsIdentifier]
  exact hall c (Binary64.mem_digits_of_isDigit h)

theorem readAtom_numeral {read : Reader TypeExpr} {fuel : Nat} {cs : List Char}
    {v : Json} (hcs : IsNumeral cs) (hv : readNumber cs = some v)
    (hrest : ∀ c ∈ rest.head?, inNumeral c = false) :
    readAtom read fuel (cs ++ rest) = some (.number v, rest) := by
  obtain ⟨htake, hdrop⟩ := span_append hcs.all hrest
  have hfront : ∃ c tail, cs = c :: tail ∧ (c = '-' ∨ c.isDigit = true) := by
    obtain ⟨negative, c, tail, heq, hc⟩ := hcs.body
    cases negative with
    | true => exact ⟨'-', c :: tail, heq, Or.inl rfl⟩
    | false => exact ⟨c, tail, heq, Or.inr hc⟩
  obtain ⟨c, tail, rfl, hc⟩ := hfront
  have hnumeral : inNumeral c = true := hcs.all c List.mem_cons_self
  have hstart : startsIdentifier c = false := by
    rcases hc with rfl | hc
    · rfl
    · exact startsIdentifier_of_isDigit hc
  rw [List.cons_append] at htake hdrop ⊢
  rw [readAtom, if_neg (by simp [hstart]), if_pos hnumeral, htake, hdrop, hv]
  · rfl
  -- Nor does it begin a numeral.
  all_goals
    rintro rfl
    cases hnumeral

theorem TypeExpr.isReadBack_number {value : Json} (h : value.IsFiniteNumber) :
    (TypeExpr.number value).IsReadBack := by
  refine isReadBack_of_atom fun rest hstops _ =>
    Eventually.of_forall fun n => ?_
  obtain ⟨hnumeral, hread⟩ := isNumeral_numberText h
  rw [render, bare]
  exact readAtom_numeral hnumeral hread fun c hc => (hstops.head c hc).2.1

theorem render_templateTexts : ∀ e ∈ templateTexts, e.1.render = e.2 := by
  decide +kernel

theorem readAtom_template {read : Reader TypeExpr} {fuel : Nat} :
    ∀ e ∈ templateTexts, ∀ rest,
    readAtom read fuel (e.2.toList ++ rest) = some (e.1, rest) := by
  simp only [templateTexts, List.forall_mem_cons]
  refine ⟨fun rest => ?_, fun rest => ?_, fun rest => ?_, by simp⟩ <;>
    simp [readAtom, readTemplate, templateTexts, List.dropPrefix?,
      startsIdentifier, inNumeral]

theorem TypeExpr.isReadBack_template {e : TypeExpr × String}
    (he : e ∈ templateTexts) : e.1.IsReadBack := by
  refine isReadBack_of_atom fun rest _ _ => Eventually.of_forall fun n => ?_
  have hbare : e.1.bare = e.1 := by
    simp only [templateTexts, List.mem_cons, List.not_mem_nil, or_false] at he
    rcases he with rfl | rfl | rfl <;> rfl
  rw [hbare, render_templateTexts e he]
  exact readAtom_template e he rest

/-- The members of a union or an intersection: the first one, and the
others behind it. -/
theorem eventually_readMembers (separator : List Char)
    {first second : TypeExpr} {more : List TypeExpr}
    (hfirst : first.IsReadBack) (hothers : ∀ t ∈ second :: more, t.IsReadBack)
    (hseparator : ∀ after, Ends (separator ++ after))
    (hdiffer : ∀ after, (")".toList ++ after).dropPrefix? separator = none)
    (rest : List Char) :
    let tail :=
      separator.intercalate ((second :: more).map (·.render.toList)) ++
      (")".toList ++ rest)
    ∀ᶠ n in atTop, readExpr n (first.render.toList ++ (separator ++ tail)) =
      some (first.bare, separator ++ tail) ∧
      readUntil (readExpr n) separator ")".toList n tail =
        some ((second :: more).map (·.bare), rest) := by
  intro tail
  have hread := eventually_readUntil (List.cons_ne_nil second more)
    (fun t ht => (hothers t ht).recovers) hseparator
    (fun _ => ends_cons (by decide)) hdiffer rest
  exact (hfirst.recovers _ (hseparator tail)).and hread

/-- A group of several members: the first one, then the
separator and the others. -/
theorem toList_group (separator : String) (first second : TypeExpr)
    (more : List TypeExpr) (rest : List Char) :
    ("(" ++ separator.intercalate (renderAll (first :: second :: more)) ++
        ")").toList ++ rest =
      '(' :: (first.render.toList ++ (separator.toList ++
        (separator.toList.intercalate ((second :: more).map
          (·.render.toList)) ++ (")".toList ++ rest)))) := by
  simp [renderAll_eq, String.toList_intercalate, Function.comp_def]

theorem TypeExpr.isReadBack_union {first second : TypeExpr}
    {more : List TypeExpr} (h : ∀ t ∈ first :: second :: more, t.IsReadBack) :
    (TypeExpr.union (first :: second :: more)).IsReadBack := by
  obtain ⟨hfirst, hothers⟩ := List.forall_mem_cons.mp h
  refine isReadBack_of_atom fun rest _ _ => ?_
  filter_upwards [eventually_readMembers " | ".toList hfirst hothers
    (fun _ => ends_cons (by decide)) (fun _ => rfl) rest] with n ⟨hread, htail⟩
  rw [render]
  change readAtom _ _ (("(" ++ " | ".intercalate
    (renderAll (first :: second :: more)) ++ ")").toList ++ rest) = _
  rw [toList_group " | ", readAtom, readGroup, hread]
  simp only [Option.bind_eq_bind, Option.bind_some, dropPrefix?_append_self,
    htail, bare, bareAll_eq]
  rfl

theorem TypeExpr.isReadBack_intersection {first second : TypeExpr}
    {more : List TypeExpr} (h : ∀ t ∈ first :: second :: more, t.IsReadBack) :
    (TypeExpr.intersection (first :: second :: more)).IsReadBack := by
  obtain ⟨hfirst, hothers⟩ := List.forall_mem_cons.mp h
  refine isReadBack_of_atom fun rest _ _ => ?_
  filter_upwards [eventually_readMembers " & ".toList hfirst hothers
    (fun _ => ends_cons (by decide)) (fun _ => rfl) rest] with n ⟨hread, htail⟩
  have hunion : ∀ after, (" & ".toList ++ after).dropPrefix? " | ".toList =
      none := fun _ => rfl
  rw [render]
  change readAtom _ _ (("(" ++ " & ".intercalate
    (renderAll (first :: second :: more)) ++ ")").toList ++ rest) = _
  rw [toList_group " & ", readAtom, readGroup, hread]
  simp only [Option.bind_eq_bind, Option.bind_some, hunion,
    dropPrefix?_append_self, htail, bare, bareAll_eq]
  rfl

theorem TypeExpr.isReadBack_conditional {check bound yes no : TypeExpr}
    (hcheck : check.IsReadBack)
    (hbound : bound.IsReadBack) (hyes : yes.IsReadBack) (hno : no.IsReadBack) :
    (TypeExpr.conditional check bound yes no true).IsReadBack := by
  refine isReadBack_of_atom fun rest _ _ => ?_
  have htext :
      (TypeExpr.conditional check bound yes no true).render.toList ++ rest =
      '(' :: (check.render.toList ++
        (" extends ".toList ++ (bound.render.toList ++ (" ? ".toList ++
        (yes.render.toList ++ (" : ".toList ++
          (no.render.toList ++ (")".toList ++ rest)))))))) := by
    rw [render]
    simp
  have hunion :
      ∀ after, (" extends ".toList ++ after).dropPrefix? " | ".toList = none :=
    fun _ => rfl
  have hintersection :
      ∀ after, (" extends ".toList ++ after).dropPrefix? " & ".toList = none :=
    fun _ => rfl
  rw [htext]
  filter_upwards [hcheck.before " extends " (fun _ => ends_cons (by decide))
    (bound.render.toList ++ (" ? ".toList ++ (yes.render.toList ++
      (" : ".toList ++ (no.render.toList ++ (")".toList ++ rest)))))),
    hbound.before " ? " (fun _ => ends_cons (by decide))
      (yes.render.toList ++ (" : ".toList ++
      (no.render.toList ++ (")".toList ++ rest)))),
    hyes.before " : " (fun _ => ends_cons (by decide))
      (no.render.toList ++ (")".toList ++ rest)),
    hno.before ")" (fun _ => ends_cons (by decide)) rest] with n hcheck
    hbound hyes hno
  rw [readAtom, readGroup, hcheck]
  simp only [Option.bind_eq_bind, Option.bind_some, hunion, hintersection,
    dropPrefix?_append_self, readConditional, hbound, hyes, hno, bare]
  rfl

theorem readExpr_closed (fuel : Nat) (cs : List Char) :
    readExpr fuel (']' :: cs) = none := by
  cases fuel with
  | zero => rfl
  | succ fuel =>
      simp [readExpr, readAtom, startsIdentifier, inNumeral, readTemplate,
        templateTexts, List.dropPrefix?]

theorem TypeExpr.isReadBack_tuple {elements : List TypeExpr}
    (h : ∀ t ∈ elements, t.IsReadBack) :
    (TypeExpr.tuple elements).IsReadBack := by
  refine isReadBack_of_atom fun rest _ _ => ?_
  rw [render, bare, bareAll_eq]
  cases elements with
  | nil => exact Eventually.of_forall fun n => rfl
  | cons first others =>
      have hread :
          ∀ᶠ n in atTop, readUntil (readExpr n) ", ".toList "]".toList n
          (", ".toList.intercalate ((first :: others).map (·.render.toList)) ++
              ("]".toList ++ rest)) =
            some ((first :: others).map (·.bare), rest) :=
        eventually_readUntil (List.cons_ne_nil first others)
          (fun t ht => (h t ht).recovers)
          (fun _ => ends_cons (by decide)) (fun _ => ends_cons (by decide))
            (fun _ => rfl) rest
      filter_upwards [hread] with n hread
      have htext : ("[" ++ ", ".intercalate (renderAll (first :: others)) ++
            "]").toList ++ rest =
          '[' :: (", ".toList.intercalate ((first :: others).map
            (·.render.toList)) ++ ("]".toList ++ rest)) := by
        simp [renderAll_eq, String.toList_intercalate, Function.comp_def]
      rw [htext, readAtom, readTuple, hread]
      · rfl
      · -- No expression begins with the mark that ends the tuple.
        intro after hafter
        rw [hafter, readUntil_eq_none (readExpr_closed n after)] at hread
        cases hread

theorem TypeExpr.isReadBack_access {object index : TypeExpr}
    (hobject : object.IsReadBack)
    (hplain : object.isOperator = false) (hindex : index.IsReadBack) :
    (TypeExpr.access object index).IsReadBack := by
  intro rest r hstops _ hr
  have htext : (TypeExpr.access object index).render.toList ++ rest =
      object.render.toList ++
        '[' :: (index.render.toList ++ ("]".toList ++ rest)) := by
    rw [render]
    simp
  rw [htext]
  refine hobject _ r ?_ (fun hoperator => absurd hoperator (by simp [hplain]))
    (eventually_succ ?_)
  · rintro c hc
    cases hc
    decide
  · filter_upwards [hindex.before "]" (fun _ => ends_cons (by decide)) rest,
      hr] with n hindex hr
    rw [bare] at hr
    simp only [readAccesses, hindex, Option.bind_eq_bind, Option.bind_some,
      dropPrefix?_append_self, hr]

/-- A property begins neither like a mapped type nor like docs. -/
theorem readProperty_eq_none {c : Char} (hc : c = '[' ∨ c = '/')
    (read : Reader TypeExpr) (cs : List Char) :
    readProperty read (c :: cs) = none := by
  rcases hc with rfl | rfl <;> simp [readProperty, readKey, continuesIdentifier,
    cutMark, List.dropPrefix?]

/-- What is printed between a key and its type. -/
theorem endsKey_mark (optional : Bool) (cs : List Char) :
    EndsKey ((if optional then "?" else "").toList ++ (": ".toList ++ cs)) := by
  cases optional with
  | true => exact ⟨'?', _, rfl, Or.inl rfl⟩
  | false => exact ⟨':', _, rfl, Or.inr rfl⟩

theorem cutMark_mark (optional : Bool) (cs : List Char) :
    cutMark ((if optional then "?" else "").toList ++ (": ".toList ++ cs)) =
      (optional, ": ".toList ++ cs) := by
  cases optional <;> rfl

theorem Property.recovers {p : Property} (h : p.type.IsReadBack) :
    Recovers (fun n => readProperty (readExpr n)) p.render.toList p.bare := by
  obtain ⟨name, type, optional, docs⟩ := p
  intro rest hrest
  have htext : (Property.mk name type optional docs).render.toList ++ rest =
      (keyText name).toList ++ ((if optional then "?" else "").toList ++
        (": ".toList ++ (type.render.toList ++ rest))) := by
    simp only [render, String.toList_append, List.append_assoc]
  have hback : String.ofList name.toList = name := String.ofList_toList
  filter_upwards [h.recovers rest hrest] with n hread
  rw [Property.type] at hread
  rw [htext]
  simp only [readProperty, readKey_keyText name (endsKey_mark optional _),
    Option.bind_eq_bind, Option.bind_some,
    cutMark_mark, dropPrefix?_append_self, hread, hback]
  rfl

/-- A comment ends at its first end mark. -/
theorem afterCommentEnd_append {cs : List Char} (hcs : HasNoEnd cs)
    (rest : List Char) :
    afterCommentEnd (cs ++ '*' :: '/' :: rest) = some rest := by
  induction cs with
  | nil => rfl
  | cons c cs ih =>
      obtain ⟨happart, hcs⟩ := List.isChain_cons.mp hcs
      rw [List.cons_append, afterCommentEnd, ih hcs]
      rintro after rfl hafter
      cases cs with
      | nil => cases hafter
      | cons d cs =>
          obtain ⟨rfl, -⟩ := List.cons.inj hafter
          exact happart '/' rfl rfl rfl

/-- The docs above a property are skipped, and so is the indent
of the property. -/
theorem exists_docs_eq (docs : List String) {cs : List Char}
    (hcs : ∀ after, cs ≠ '/' :: after) :
    ∃ tail, (docComment docs "    ").toList ++ ("    ".toList ++ cs) =
      "    ".toList ++ tail ∧
      skipDocs tail = some cs := by
  rw [docComment, String.toList_ofList]
  cases docs with
  | nil => exact ⟨cs, rfl, by rw [skipDocs]; exact hcs⟩
  | cons doc more =>
      obtain ⟨body, hbody, hnoEnd⟩ :=
        exists_docChars_eq (List.cons_ne_nil doc more)
        (by simp : ∀ c ∈ "    ".toList, c = ' ')
      refine ⟨'/' ::
        ("**".toList ++ body ++ '*' :: '/' :: ("\n    ".toList ++ cs)), ?_, ?_⟩
      · rw [hbody]
        simp
      · have hinside : HasNoEnd ("**".toList ++ body) :=
          List.IsChain.infix hnoEnd ⟨"    /".toList, [], by simp⟩
        rw [skipDocs, afterCommentEnd_append hinside]
        exact dropPrefix?_append_self "\n    ".toList cs

/-- The text of a property on a line of its own. -/
def Property.line (p : Property) : String :=
  docComment p.docs "    " ++ "    " ++ p.render ++ ",\n"

theorem renderLines_eq (ps : List Property) :
    renderLines ps = ps.map (·.line) := by
  induction ps with
  | nil => rfl
  | cons p rest ih => rw [renderLines, List.map_cons, ih, Property.line]

theorem Property.eventually_readLine {p : Property} (h : p.type.IsReadBack)
    (rest : List Char) :
    ∀ᶠ n in atTop,
      readLine (readExpr n) (p.line.toList ++ rest) = some (p.bare, rest) := by
  filter_upwards [Property.recovers h (",\n".toList ++ rest)
    (ends_cons (by decide))] with n hread
  have hfront :
      ∀ after, p.render.toList ++ (",\n".toList ++ rest) ≠ '/' :: after := by
    intro after hafter
    rw [hafter, readProperty_eq_none (Or.inr rfl)] at hread
    cases hread
  obtain ⟨tail, htail, hskip⟩ := exists_docs_eq p.docs hfront
  have htext : p.line.toList ++ rest = "    ".toList ++ tail := by
    rw [← htail]
    simp [line]
  rw [htext]
  simp only [readLine, dropPrefix?_append_self, Option.bind_eq_bind,
    Option.bind_some, hskip, hread]
  rfl

theorem eventually_readLines (rest : List Char) :
    ∀ ps : List Property, (∀ p ∈ ps, p.type.IsReadBack) →
    ∀ᶠ n in atTop, ∀ fuel, ps.length < fuel →
      readLines (readExpr n) fuel (ps.flatMap (·.line.toList) ++ '\x7d' ::
        rest) = some (ps.map (·.bare), rest)
  | [], _ => by
      refine Eventually.of_forall fun n fuel hfuel => ?_
      obtain ⟨fuel, rfl⟩ : ∃ k, fuel = k + 1 := ⟨fuel - 1, by omega⟩
      rfl
  | p :: ps, h => by
      rw [List.forall_mem_cons] at h
      filter_upwards [Property.eventually_readLine h.1
        (ps.flatMap (·.line.toList) ++ '\x7d' :: rest),
        eventually_readLines rest ps h.2] with n hline hlines fuel hfuel
      obtain ⟨fuel, rfl⟩ : ∃ k, fuel = k + 1 := ⟨fuel - 1, by omega⟩
      have hlines := hlines fuel (by simpa using hfuel)
      rw [List.flatMap_cons, List.append_assoc, readLines]
      · simp only [hline, Option.bind_eq_bind, Option.bind_some, hlines]
        rfl
      · intro after hafter
        rw [hafter] at hline
        cases hline

theorem TypeExpr.isReadBack_object {members : List Property}
    (h : ∀ p ∈ members, p.type.IsReadBack) :
    (TypeExpr.object members).IsReadBack := by
  refine isReadBack_of_atom fun rest _ _ => ?_
  rw [render, bare, bareProperties_eq, renderProperties_eq, renderLines_eq]
  split
  · rename_i hempty
    obtain rfl := List.isEmpty_iff.mp hempty
    exact Eventually.of_forall fun n => rfl
  · rename_i hsome
    split
    · obtain ⟨p, ps, rfl⟩ := List.exists_cons_of_ne_nil (by simpa using hsome)
      have hread : ∀ᶠ n in atTop,
          readUntil (readProperty (readExpr n)) ", ".toList " \x7d".toList n
          (", ".toList.intercalate ((p :: ps).map (·.render.toList)) ++
              (" \x7d".toList ++ rest)) =
            some ((p :: ps).map (·.bare), rest) :=
        eventually_readUntil (List.cons_ne_nil p ps)
          (fun q hq => Property.recovers (h q hq))
          (fun _ => ends_cons (by decide)) (fun _ => ends_cons (by decide))
            (fun _ => rfl) rest
      filter_upwards [hread] with n hread
      have htext : ("\x7b " ++ ", ".intercalate ((p :: ps).map (·.render)) ++
            " \x7d").toList ++ rest =
          '\x7b' :: ' ' :: (", ".toList.intercalate
            ((p :: ps).map (·.render.toList)) ++ (" \x7d".toList ++ rest)) := by
        simp [String.toList_intercalate, Function.comp_def]
      rw [htext, readAtom, readBraces, hread]
      · rfl
      · intro after hafter
        rw [hafter, readUntil_eq_none
          (readProperty_eq_none (Or.inl rfl) _ after)] at hread
        cases hread
    · filter_upwards [eventually_readLines rest members h,
        eventually_gt_atTop members.length] with n hread hfuel
      have htext : ("\x7b\n" ++ String.join (members.map (·.line)) ++
            "\x7d").toList ++ rest =
          '\x7b' :: '\n' ::
            (members.flatMap (·.line.toList) ++ '\x7d' :: rest) := by
        simp [String.join_eq, List.flatMap_def, Function.comp_def]
      rw [htext, readAtom, readBraces, hread n hfuel]
      rfl

theorem TypeExpr.isReadBack_mapped {key : String} {keys value : TypeExpr}
    {optional : Bool} (hkey : IsWord key.toList) (hkeys : keys.IsReadBack)
    (hvalue : value.IsReadBack) :
    (TypeExpr.mapped key keys value optional none).IsReadBack := by
  refine isReadBack_of_atom fun rest _ _ => ?_
  have htext :
      (TypeExpr.mapped key keys value optional none).render.toList ++ rest =
      '\x7b' :: ' ' :: '[' ::
        (key.toList ++ (" in ".toList ++ (keys.render.toList ++ ("]".toList ++
        ((if optional then "?" else "").toList ++ (": ".toList ++
          (value.render.toList ++ (" \x7d".toList ++ rest)))))))) := by
    rw [render, renderName]
    simp
  obtain ⟨htake, hdrop⟩ := span_append hkey.all (by simp [continuesIdentifier] :
    ∀ c ∈ (" in ".toList ++ (keys.render.toList ++
        ("]".toList ++ ((if optional then "?" else "").toList ++ (": ".toList ++
        (value.render.toList ++ (" \x7d".toList ++ rest))))))).head?,
      continuesIdentifier c = false)
  have hback : String.ofList key.toList = key := String.ofList_toList
  filter_upwards [hkeys.before "]" (fun _ => ends_cons (by decide))
    ((if optional then "?" else "").toList ++
      (": ".toList ++ (value.render.toList ++ (" \x7d".toList ++ rest)))),
    hvalue.before " \x7d" (fun _ => ends_cons (by decide)) rest]
    with n hkeys hvalue
  rw [htext, readAtom, readBraces]
  simp only [readMapped, htake, hdrop, hback, hkeys,
    hvalue, cutMark_mark, dropPrefix?_append_self,
    Option.bind_eq_bind, Option.bind_some, bare, bareName]
  rfl

end Atoms

theorem allPrintable_iff {ts : List TypeExpr} :
    allPrintable ts = true ↔ ∀ t ∈ ts, t.printable = true := by
  induction ts with
  | nil => simp [allPrintable]
  | cons t rest ih =>
      rw [allPrintable, Bool.and_eq_true, ih, List.forall_mem_cons]

theorem propertiesPrintable_iff {ps : List Property} :
    propertiesPrintable ps = true ↔ ∀ p ∈ ps, p.type.printable = true := by
  induction ps with
  | nil => simp [propertiesPrintable]
  | cons p rest ih =>
      obtain ⟨name, type, optional, docs⟩ := p
      rw [propertiesPrintable, Bool.and_eq_true, ih, List.forall_mem_cons,
        Property.type]

/-- The expression is put together in such a way that every nesting can be
told from its text. -/
inductive TypeExpr.IsReadable : TypeExpr → Prop where
  | keyword {name : String} (hname : name ∈ keywordNames) :
      IsReadable (.keyword name)
  | reference {name : String} {args : List TypeExpr} (hname : IsTypeName name)
      (hargs : ∀ t ∈ args, t.IsReadable) :
      IsReadable (.reference name args)
  | text (value : String) : IsReadable (.text value)
  | misfit (value : Json) : IsReadable (.misfit value)
  | number {value : Json} (hvalue : value.IsFiniteNumber) :
      IsReadable (.number value)
  | truth (value : Bool) : IsReadable (.truth value)
  | union {first second : TypeExpr} {more : List TypeExpr}
      (h : ∀ t ∈ first :: second :: more, t.IsReadable) :
      IsReadable (.union (first :: second :: more))
  | intersection {first second : TypeExpr} {more : List TypeExpr}
      (h : ∀ t ∈ first :: second :: more, t.IsReadable) :
      IsReadable (.intersection (first :: second :: more))
  | object {members : List Property} (h : ∀ p ∈ members, p.type.IsReadable) :
      IsReadable (.object members)
  | mapped {key : String} {keys value : TypeExpr} {optional : Bool}
      (hkey : IsWord key.toList) (hkeys : keys.IsReadable)
      (hvalue : value.IsReadable) :
      IsReadable (.mapped key keys value optional none)
  | access {object index : TypeExpr}
      (hobject : object.IsReadable) (hplain : object.isOperator = false)
      (hindex : index.IsReadable) : IsReadable (.access object index)
  | conditional {check bound yes no : TypeExpr}
      (hcheck : check.IsReadable) (hbound : bound.IsReadable)
      (hyes : yes.IsReadable) (hno : no.IsReadable) :
      IsReadable (.conditional check bound yes no true)
  | keyof {operand : TypeExpr} (h : operand.IsReadable) :
      IsReadable operand.keyof
  | template {e : TypeExpr × String} (he : e ∈ templateTexts) : IsReadable e.1
  | tuple {elements : List TypeExpr} (h : ∀ t ∈ elements, t.IsReadable) :
      IsReadable (.tuple elements)

/-- Such an expression is read back if it prints. -/
theorem TypeExpr.IsReadable.isReadBack {t : TypeExpr} (h : t.IsReadable)
    (hprint : t.printable = true) :
    t.IsReadBack := by
  induction h with
  | keyword hname => exact isReadBack_keyword hname
  | reference hname _ ih =>
      rw [printable, allPrintable_iff] at hprint
      exact isReadBack_reference hname fun t ht => ih t ht (hprint t ht)
  | text value => exact isReadBack_text value
  | misfit => cases hprint
  | number hvalue => exact isReadBack_number hvalue
  | truth value => exact isReadBack_truth value
  | union _ ih =>
      rw [printable, allPrintable_iff] at hprint
      exact isReadBack_union fun t ht => ih t ht (hprint t ht)
  | intersection _ ih =>
      rw [printable, allPrintable_iff] at hprint
      exact isReadBack_intersection fun t ht => ih t ht (hprint t ht)
  | object _ ih =>
      rw [printable, propertiesPrintable_iff] at hprint
      exact isReadBack_object fun p hp => ih p hp (hprint p hp)
  | mapped hkey _ _ ihkeys ihvalue =>
      simp only [printable, Bool.and_eq_true] at hprint
      exact isReadBack_mapped hkey (ihkeys hprint.1.1) (ihvalue hprint.2)
  | access _ hplain _ ihobject ihindex =>
      simp only [printable, Bool.and_eq_true] at hprint
      exact isReadBack_access (ihobject hprint.1) hplain (ihindex hprint.2)
  | conditional _ _ _ _ ihcheck ihbound ihyes ihno =>
      simp only [printable, Bool.and_eq_true] at hprint
      obtain ⟨⟨⟨hcheck, hbound⟩, hyes⟩, hno⟩ := hprint
      exact isReadBack_conditional (ihcheck hcheck) (ihbound hbound)
        (ihyes hyes) (ihno hno)
  | keyof _ ih =>
      rw [TypeExpr.keyof, printable] at hprint
      exact isReadBack_keyof (ih hprint)
  | template he => exact isReadBack_template he
  | tuple _ ih =>
      rw [printable, allPrintable_iff] at hprint
      exact isReadBack_tuple fun t ht => ih t ht (hprint t ht)

theorem TypeExpr.print_eq_ok_iff {t : TypeExpr} {text : String} :
    t.print = .ok text ↔ t.printable = true ∧ t.render = text := by
  rw [print]
  split <;> simp_all

/-- Two such expressions with one text are the same, up to docs and the form
of whole numbers. -/
theorem TypeExpr.IsReadable.bare_eq {t u : TypeExpr}
    (ht : t.IsReadable) (hu : u.IsReadable) {text : String}
    (htext : t.print = .ok text) (hutext : u.print = .ok text) :
    t.bare = u.bare := by
  obtain ⟨htprint, rfl⟩ := print_eq_ok_iff.mp htext
  obtain ⟨huprint, hrender⟩ := print_eq_ok_iff.mp hutext
  have hread := (ht.isReadBack htprint).recovers [] ends_nil
  have hread' := (hu.isReadBack huprint).recovers [] ends_nil
  rw [hrender] at hread'
  obtain ⟨n, hn, hn'⟩ := (hread.and hread').exists
  rw [hn, Option.some.injEq, Prod.mk.injEq] at hn'
  exact hn'.1

end Fuel

end Typings
