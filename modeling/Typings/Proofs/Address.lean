import Typings.Compiled.Access
import Mathlib.Data.List.Basic

/-!
Addresses in type expressions. An address is a list of turns from the whole
expression down to one of its parts, and the binder of a name at an address is
the innermost mapped type `[Name in ...]` whose value the address leads into.
-/

namespace Typings

/-- The step from a type expression to one of its parts. -/
inductive Turn where
  /-- To a type argument of a reference. -/
  | argument (i : Nat)
  /-- To a member of a union, an intersection or a tuple. -/
  | member (i : Nat)
  /-- To the type of a property of an object. -/
  | property (i : Nat)
  | keys
  | value
  | naming
  | object
  | index
  | check
  | bound
  | yes
  | no
  | operand
  /-- To a type inside a template literal. -/
  | span (i : Nat)
  deriving DecidableEq

/-- The type inside a template literal. -/
def Span.type : Span → TypeExpr
  | .mk t _ => t

namespace TypeExpr

def part? : TypeExpr → Turn → Option TypeExpr
  | .reference _ args, .argument i => args[i]?
  | .union members, .member i => members[i]?
  | .intersection members, .member i => members[i]?
  | .tuple elements, .member i => elements[i]?
  | .object members, .property i => members[i]?.map (·.type)
  | .mapped _ keys _ _ _, .keys => some keys
  | .mapped _ _ value _ _, .value => some value
  | .mapped _ _ _ _ name, .naming => name
  | .access base _, .object => some base
  | .access _ index, .index => some index
  | .conditional check _ _ _ _, .check => some check
  | .conditional _ bound _ _ _, .bound => some bound
  | .conditional _ _ yes _ _, .yes => some yes
  | .conditional _ _ _ no _, .no => some no
  | .operator _ operand, .operand => some operand
  | .optional element, .operand => some element
  | .template _ spans, .span i => spans[i]?.map (·.type)
  | _, _ => none

def at? : TypeExpr → List Turn → Option TypeExpr
  | t, [] => some t
  | t, turn :: rest => (t.part? turn).bind fun u => u.at? rest

/-- Does the expression bind the name in the part that the turn leads to? -/
def bindsAt (name : String) : TypeExpr → Turn → Bool
  | .mapped key _ _ _ _, .value => key == name
  | _, _ => false

/-- The address of the innermost mapped type that binds the
name at an address. -/
def binder? (name : String) : TypeExpr → List Turn → Option (List Turn)
  | _, [] => none
  | t, turn :: rest =>
    match (t.part? turn).bind fun u => u.binder? name rest with
    | some inner => some (turn :: inner)
    | none => if t.bindsAt name turn then some [] else none

variable {t u : TypeExpr} {name : String} {p q : List Turn} {turn : Turn}

@[simp] theorem at?_nil (t : TypeExpr) : t.at? [] = some t := rfl

theorem at?_cons (h : t.part? turn = some u) : t.at? (turn :: p) = u.at? p := by
  rw [at?, h, Option.bind_some]

theorem at?_append (h : t.at? p = some u) : t.at? (p ++ q) = u.at? q := by
  induction p generalizing t with
  | nil =>
      obtain rfl : t = u := by simpa using h
      rfl
  | cons turn rest ih =>
      rw [at?] at h
      obtain ⟨v, hv, hrest⟩ := Option.bind_eq_some_iff.mp h
      rw [List.cons_append, at?_cons hv]
      exact ih hrest

/-- The binder lies in what stands at the first address, or else
on the way there. -/
theorem binder?_append (h : t.at? p = some u) :
    t.binder? name (p ++ q) =
      ((u.binder? name q).map (p ++ ·)).or (t.binder? name p) := by
  induction p generalizing t with
  | nil =>
      obtain rfl : t = u := by simpa using h
      cases hbinder : t.binder? name q <;> simp [hbinder, binder?]
  | cons turn rest ih =>
      rw [at?] at h
      obtain ⟨v, hv, hrest⟩ := Option.bind_eq_some_iff.mp h
      rw [List.cons_append, binder?, binder?, hv, Option.bind_some,
        Option.bind_some, ih hrest]
      cases u.binder? name q <;> simp

/-- A name is bound in the value of a mapped type only. -/
theorem binder?_of_value_not_mem (h : .value ∉ p) :
    t.binder? name p = none := by
  induction p generalizing t with
  | nil => rfl
  | cons turn rest ih =>
      rw [List.mem_cons, not_or] at h
      have hhere : t.bindsAt name turn = false := by
        cases turn with
        | value => exact absurd rfl h.1
        | _ => cases t <;> rfl
      have hbelow : ((t.part? turn).bind fun u => u.binder? name rest) = none :=
        Option.bind_eq_none_iff.mpr fun u _ => ih h.2
      rw [binder?, hbelow, hhere]
      rfl

/-- No part of the expression is a mapped type. -/
def IsUnmapped (t : TypeExpr) : Prop :=
  ∀ p key keys value optional naming,
    t.at? p ≠ some (.mapped key keys value optional naming)

/-- Where no mapped type is, nothing is bound. -/
theorem binder?_eq_none (h : t.IsUnmapped) (q : List Turn) :
    t.binder? name q = none := by
  induction q generalizing t with
  | nil => rfl
  | cons turn rest ih =>
      have hhere : t.bindsAt name turn = false := by
        cases t with
        | mapped key keys value optional naming =>
            exact absurd rfl (h [] _ _ _ _ _)
        | _ => rfl
      have hbelow :
          ((t.part? turn).bind fun u => u.binder? name rest) = none := by
        rw [Option.bind_eq_none_iff]
        intro u hu
        refine ih fun p key keys value optional naming hat => ?_
        exact h (turn :: p) _ _ _ _ _ ((at?_cons hu).trans hat)
      rw [binder?, hbelow, hhere]
      rfl

/-- The property holds of the expression and of all of its parts. -/
def Everywhere (P : TypeExpr → Prop) (t : TypeExpr) : Prop :=
  ∀ p u, t.at? p = some u → P u

theorem isUnmapped_of_everywhere
    (h : t.Everywhere fun u => ∀ key keys value optional naming,
      u ≠ .mapped key keys value optional naming) :
    t.IsUnmapped := by
  intro p key keys value optional naming hat
  exact h p _ hat _ _ _ _ _ rfl

section Everywhere

variable {P : TypeExpr → Prop}

theorem everywhere_of_parts (hhere : P t)
    (hparts : ∀ turn u, t.part? turn = some u → u.Everywhere P) :
    t.Everywhere P := by
  intro p u hat
  cases p with
  | nil => exact Option.some.inj hat ▸ hhere
  | cons turn rest =>
      obtain ⟨v, hv, hrest⟩ := Option.bind_eq_some_iff.mp hat
      exact hparts turn v hv rest u hrest

theorem everywhere_keyword (h : P (keyword name)) :
    (keyword name).Everywhere P := by
  refine everywhere_of_parts h fun turn u hu => ?_
  cases turn <;> cases hu

theorem everywhere_ofValue {v : Json} (h : P (ofValue v)) :
    (ofValue v).Everywhere P := by
  refine everywhere_of_parts h fun turn u hu => ?_
  cases v <;> cases turn <;> cases hu

theorem everywhere_reference {args : List TypeExpr}
    (h : P (reference name args)) (hargs : ∀ t ∈ args, t.Everywhere P) :
    (reference name args).Everywhere P := by
  refine everywhere_of_parts h fun turn u hu => ?_
  cases turn with
  | argument i => exact hargs u (List.mem_of_getElem? hu)
  | _ => cases hu

theorem everywhere_access {base index : TypeExpr}
    (h : P (access base index)) (hbase : base.Everywhere P)
    (hindex : index.Everywhere P) : (access base index).Everywhere P := by
  refine everywhere_of_parts h fun turn u hu => ?_
  cases turn with
  | object => exact Option.some.inj hu ▸ hbase
  | index => exact Option.some.inj hu ▸ hindex
  | _ => cases hu

theorem everywhere_keyof (h : P t.keyof) (ht : t.Everywhere P) :
    t.keyof.Everywhere P := by
  refine everywhere_of_parts h fun turn u hu => ?_
  cases turn with
  | operand => exact Option.some.inj hu ▸ ht
  | _ => cases hu

theorem everywhere_conditional {check bound yes no : TypeExpr}
    {parenthesized : Bool}
    (h : P (conditional check bound yes no parenthesized))
    (hcheck : check.Everywhere P) (hbound : bound.Everywhere P)
    (hyes : yes.Everywhere P) (hno : no.Everywhere P) :
    (conditional check bound yes no parenthesized).Everywhere P := by
  refine everywhere_of_parts h fun turn u hu => ?_
  cases turn with
  | check => exact Option.some.inj hu ▸ hcheck
  | bound => exact Option.some.inj hu ▸ hbound
  | yes => exact Option.some.inj hu ▸ hyes
  | no => exact Option.some.inj hu ▸ hno
  | _ => cases hu

end Everywhere

/-- Is the expression neither a mapped type nor a reference? -/
def isPlain : TypeExpr → Bool
  | .mapped _ _ _ _ _ => false
  | .reference _ _ => false
  | _ => true

theorem isPlain_ofValue (v : Json) : (ofValue v).isPlain = true := by
  cases v <;> rfl

section Access

variable {P : TypeExpr → Prop} (hplain : ∀ u : TypeExpr, u.isPlain = true → P u)

include hplain

theorem everywhere_openRecord (hrecord : P openRecord) :
    openRecord.Everywhere P := by
  refine everywhere_reference hrecord fun t ht => ?_
  rcases List.mem_pair.mp ht with rfl | rfl
  · exact everywhere_keyword (hplain _ rfl)
  · exact everywhere_keyword (hplain _ rfl)

variable (hrecord : P openRecord)

include hrecord

theorem everywhere_guardedPath {base : TypeExpr} (hbase : base.Everywhere P)
    (keys : List Json) :
    (guardedPath base keys).Everywhere P := by
  induction keys generalizing base with
  | nil => exact hbase
  | cons key rest ih =>
      have hkey : (ofValue key).Everywhere P :=
        everywhere_ofValue (hplain _ (isPlain_ofValue key))
      exact everywhere_conditional (hplain _ rfl) hkey
        (everywhere_keyof (hplain _ rfl) hbase)
        (ih (everywhere_access (hplain _ rfl) hbase hkey))
          (everywhere_openRecord hplain hrecord)

theorem everywhere_guardedAccess {table key : TypeExpr}
    (htable : table.Everywhere P) (hkey : key.Everywhere P) (keys : List Json) :
    (guardedAccess table key keys).Everywhere P := by
  have hbody := everywhere_guardedPath hplain hrecord
    (everywhere_access (hplain _ rfl) htable hkey) keys
  rw [guardedAccess]
  split
  · exact hbody
  · exact everywhere_conditional (hplain _ rfl) hkey
      (everywhere_keyof (hplain _ rfl) htable) hbody
      (everywhere_openRecord hplain hrecord)

end Access

end TypeExpr

/-- The type arguments that an index gives to the symbol of its
dispatcher, if it has been given none: one unknown type for each
parameter, then a case or none. -/
def DispatcherHead.IsFilled (info : DispatcherHead)
    (args : List TypeExpr) : Prop :=
  ∃ case, args = .replicate info.params.length .unknown ++ case ∧
    (case = [] ∨ case = [fallbackCase] ∨ case = [noneCase] ∧
      info.hasAbsent = true)

/-- What holds of the symbol of the dispatcher as an index applies it, and of
all that is no mapped type and no reference, holds everywhere in an index. -/
theorem DispatcherHead.everywhere_access (info : DispatcherHead)
    {P : TypeExpr → Prop} (hplain : ∀ u : TypeExpr, u.isPlain = true → P u)
    (hnamed : ∀ name args,
      name ∈ ["Record", "S", "Key"] → P (.reference name args))
    (htable : ∀ args, info.IsFilled args → P (.reference info.tableName args))
    (index : IndexForm) (isRoot : Bool) (keys : List Json) :
    (info.access index isRoot [] keys).1.Everywhere P := by
  have hrecord : P .openRecord := hnamed _ _ (by decide)
  have hname :
      ∀ name ∈ ["Record", "S", "Key"], (TypeExpr.named name).Everywhere P := by
    intro name hname
    exact TypeExpr.everywhere_reference (hnamed _ _ hname) (by simp)
  have happlied : ∀ case, (case = [] ∨ case = [fallbackCase] ∨
        case = [noneCase] ∧ info.hasAbsent = true) →
      (TypeExpr.reference info.tableName (info.fill [] ++ case)).Everywhere
        P := by
    intro case hcase
    refine TypeExpr.everywhere_reference (htable _ ⟨case, rfl, hcase⟩)
      fun t ht => ?_
    rcases List.mem_append.mp ht with ht | ht
    · rw [List.eq_of_mem_replicate ht]
      exact TypeExpr.everywhere_keyword (hplain _ rfl)
    · rcases hcase with rfl | rfl | ⟨rfl, -⟩
      · cases ht
      · rw [List.mem_singleton.mp ht]
        exact TypeExpr.everywhere_ofValue (v := .str "%fallback") (hplain _ rfl)
      · rw [List.mem_singleton.mp ht]
        exact TypeExpr.everywhere_ofValue (v := .str "%none") (hplain _ rfl)
  have hbare :
      (TypeExpr.reference info.tableName (info.fill [])).Everywhere P := by
    have h := happlied [] (Or.inl rfl)
    rwa [List.append_nil] at h
  have hfallback := TypeExpr.everywhere_guardedPath hplain hrecord
    (happlied _ (Or.inr (Or.inl rfl))) keys
  have hfound : ∀ key : TypeExpr, key.Everywhere P →
      (guardedAccess (.reference info.tableName (info.fill [])) key
        keys).Everywhere P := by
    intro key hkey
    exact TypeExpr.everywhere_guardedAccess hplain hrecord hbare hkey keys
  rw [access.eq_def]
  cases index with
  | dynamic parents property =>
      dsimp only
      split
      · exact hfallback
      · split
        · rename_i habsent
          exact TypeExpr.everywhere_conditional (hplain _ rfl)
            (hname "S" (by decide)) (TypeExpr.everywhere_keyword (hplain _ rfl))
            (happlied _ (Or.inr (Or.inr ⟨rfl, habsent⟩)))
            (hfound _ (hname "S" (by decide)))
        · exact hfound _ (hname "S" (by decide))
  | static value =>
      dsimp only
      split
      · exact hfallback
      · exact hfound _ (TypeExpr.everywhere_ofValue
          (hplain _ (TypeExpr.isPlain_ofValue value)))
  | mapKey => exact hfound _ (hname "Key" (by decide))

/-- The type of an index that asks for a property. -/
def DispatcherHead.dynamicAccess (info : DispatcherHead) (args : List TypeExpr)
    (keys : List Json) (r : Request) : TypeExpr :=
  (info.access (.dynamic r.parents r.property) false args keys).1

/-- A property is asked for by checking the discriminator. -/
theorem DispatcherHead.at?_dynamicAccess (info : DispatcherHead)
    (args : List TypeExpr) (keys : List Json) (r : Request) :
    (info.dynamicAccess args keys r).at? [.check] = some discriminator := by
  rw [dynamicAccess, access]
  cases info.hasAbsent <;> rfl

theorem DispatcherHead.isUnmapped_dynamicAccess (info : DispatcherHead)
    (keys : List Json)
    (r : Request) : (info.dynamicAccess [] keys r).IsUnmapped := by
  refine TypeExpr.isUnmapped_of_everywhere
    (info.everywhere_access (fun u hu => ?_) (by simp) (by simp) _ _ keys)
  rintro _ _ _ _ _ rfl
  cases hu

end Typings
