import Typings.Schema.Basic

/-!
Walking over a schema. Whatever can stand in one is a node: a type, a field, an
index, plain data or a row of nodes. The walk keeps a stack of nodes. It takes
the first one off, notes the path if it is a reference, and puts what stands in
it on the stack.
-/

namespace Typings

/-- A part of a schema, plain data, or a row of these. -/
inductive Node where
  | type (type : Schema)
  | field (field : Field)
  | enumValue (value : EnumValue)
  | attr (attr : Attribute)
  /-- The named arguments of an attribute. -/
  | tree (arguments : List (String × AttributeValue))
  | index (index : Index)
  | accessor (step : Accessor)
  | range (range : Range)
  | data (value : Json)
  | row (nodes : List Node)

namespace Node

def ofRange : Option Range → Node
  | none => .data .null
  | some bounds => .range bounds

def ofKey : FieldKey → Node
  | .name name => .data (.str name)
  | .type t => .type t

/-- What an attribute carries; null if it carries nothing. -/
def ofArgument : AttributeValue → Node
  | .absent => .data .null
  | .type t => .type t
  | .tree arguments => .tree arguments

/-- What stands in a node, its attributes apart. -/
def inner : Node → List Node
  | .type (.any _) => []
  | .type (.unchecked _) => []
  | .type (.boolean _) => []
  | .type (.string length _) => [ofRange length]
  | .type (.numeric kind bounds _) => [.data (.str kind.word), ofRange bounds]
  | .type (.array kind bounds length _) =>
      [.data (.str kind.word), ofRange bounds, ofRange length]
  | .type (.list item length _) => [.type item, ofRange length]
  | .type (.tuple items _) => [.row (items.map .type)]
  | .type (.enum kind values _) => [.data kind, .row (values.map .enumValue)]
  | .type (.literal kind value _) => [.data kind, .data value]
  | .type (.struct fields _) => [.row (fields.map .field)]
  | .type (.reference path _) => [.data path]
  | .type (.concrete child args _) => [.type child, .row (args.map .type)]
  | .type (.template child params _) => [.type child, .row (params.map .data)]
  | .type (.dispatcher registry indices _) =>
      [.data registry, .row (indices.map .index)]
  | .type (.indexed child indices _) => [.type child, .row (indices.map .index)]
  | .type (.union members _) => [.row (members.map .type)]
  | .field (.pair key t optional deprecated description _) =>
    [ofKey key, .type t, .data (.bool optional), .data (.bool deprecated),
      .data description]
  | .field (.spread t _) => [.type t]
  | .enumValue (.mk identifier value description _) =>
      [.data identifier, .data value, .data description]
  | .attr (.mk name value) => [.data name, ofArgument value]
  | .tree arguments =>
      [.row (arguments.map fun a => .row [.data (.str a.1), ofArgument a.2])]
  | .index (.static value) => [.data value]
  | .index (.dynamic steps) => [.row (steps.map .accessor)]
  | .accessor (.property name) => [.data (.str name)]
  | .accessor (.keyword word) => [.data word]
  | .range bounds => [.data bounds.kind, .data bounds.low, .data bounds.high]
  | .data (.arr items) => items.map .data
  | .data _ => []
  | .row nodes => nodes

/-- A list of data weighs twice its size, like the lists of a schema, and other
data is one node. -/
noncomputable def dataWeight : Json → Nat
  | .arr items => 2 * sizeOf items
  | _ => 1

mutual

/-- No fewer than the nodes that a walk meets in a node. A list is met as a row
before its items, so twice the size is enough. -/
noncomputable def weight : Node → Nat
  | .type t => 2 * sizeOf t
  | .field f => 2 * sizeOf f
  | .enumValue v => 2 * sizeOf v
  | .attr a => 2 * sizeOf a
  | .tree arguments => 2 * sizeOf arguments
  | .index i => 2 * sizeOf i
  | .accessor step => 2 * sizeOf step
  | .range bounds => 2 * sizeOf bounds
  | .data value => dataWeight value
  | .row nodes => 1 + weights nodes

noncomputable def weights : List Node → Nat
  | [] => 0
  | node :: rest => node.weight + weights rest

end

theorem weights_append (nodes rest : List Node) :
    weights (nodes ++ rest) = weights nodes + weights rest := by
  induction nodes with
  | nil => rw [List.nil_append, weights, Nat.zero_add]
  | cons node nodes ih =>
      rw [List.cons_append, weights, weights, ih, Nat.add_assoc]

/-- A row of parts weighs less than the list of the parts. -/
theorem weights_map_lt {α : Type} [SizeOf α]
    {f : α → Node} (hf : ∀ a, (f a).weight ≤ 2 * sizeOf a)
    (parts : List α) : weights (parts.map f) + 1 < 2 * sizeOf parts := by
  induction parts with
  | nil => simp [weights]
  | cons part rest ih =>
      have hpart := hf part
      simp only [List.map_cons, weights, List.cons.sizeOf_spec]
      omega

theorem dataWeight_le (value : Json) : dataWeight value ≤ 2 * sizeOf value := by
  cases value <;> simp only [dataWeight, Json.null.sizeOf_spec,
    Json.bool.sizeOf_spec, Json.int.sizeOf_spec, Json.double.sizeOf_spec,
    Json.str.sizeOf_spec, Json.arr.sizeOf_spec, Json.obj.sizeOf_spec] <;> omega

theorem weight_data_le (value : Json) :
    (data value).weight ≤ 2 * sizeOf value := by
  rw [weight]
  exact dataWeight_le value

theorem weight_ofRange_le (length : Option Range) :
    (ofRange length).weight ≤ 2 * sizeOf length := by
  cases length <;> simp only [ofRange, weight, dataWeight,
    Option.none.sizeOf_spec, Option.some.sizeOf_spec] <;> omega

theorem weight_ofKey_le (key : FieldKey) :
    (ofKey key).weight ≤ 2 * sizeOf key := by
  cases key <;> simp only [ofKey, weight, dataWeight, FieldKey.name.sizeOf_spec,
    FieldKey.type.sizeOf_spec] <;> omega

theorem weight_ofArgument_le (value : AttributeValue) :
    (ofArgument value).weight ≤ 2 * sizeOf value := by
  cases value <;> simp only [ofArgument, weight,
    dataWeight, AttributeValue.absent.sizeOf_spec,
    AttributeValue.type.sizeOf_spec, AttributeValue.tree.sizeOf_spec] <;> omega

theorem weight_type (t : Schema) : (type t).weight = 2 * sizeOf t := by
  rw [weight]

theorem weight_field (f : Field) : (field f).weight = 2 * sizeOf f := by
  rw [weight]

theorem weight_enumValue (v : EnumValue) :
    (enumValue v).weight = 2 * sizeOf v := by
  rw [weight]

theorem weight_index (i : Index) : (index i).weight = 2 * sizeOf i := by
  rw [weight]

theorem weight_accessor (step : Accessor) :
    (accessor step).weight = 2 * sizeOf step := by
  rw [weight]

theorem weights_inner_type_lt (t : Schema) :
    weights (inner (.type t)) < 2 * sizeOf t := by
  -- each list in a type leaves room for the row that it is met as
  have htypes := weights_map_lt fun t => Nat.le_of_eq (weight_type t)
  have hfields := weights_map_lt fun f => Nat.le_of_eq (weight_field f)
  have hvalues := weights_map_lt fun v => Nat.le_of_eq (weight_enumValue v)
  have hindices := weights_map_lt fun i => Nat.le_of_eq (weight_index i)
  have hdata := weights_map_lt weight_data_le
  have hword (word : String) : dataWeight (.str word) = 1 := rfl
  cases t <;> simp only [inner, weights, weight, hword,
    Schema.any.sizeOf_spec, Schema.unchecked.sizeOf_spec,
    Schema.boolean.sizeOf_spec, Schema.string.sizeOf_spec,
    Schema.numeric.sizeOf_spec, Schema.array.sizeOf_spec,
    Schema.list.sizeOf_spec, Schema.tuple.sizeOf_spec,
    Schema.enum.sizeOf_spec, Schema.literal.sizeOf_spec,
    Schema.struct.sizeOf_spec, Schema.reference.sizeOf_spec,
    Schema.concrete.sizeOf_spec, Schema.template.sizeOf_spec,
    Schema.dispatcher.sizeOf_spec, Schema.indexed.sizeOf_spec,
    Schema.union.sizeOf_spec] <;> grind [weight_ofRange_le, dataWeight_le]

/-- An argument is met as a row of its name and its value. -/
theorem weight_argument_le (a : String × AttributeValue) :
    (row [data (.str a.1), ofArgument a.2]).weight ≤ 2 * sizeOf a := by
  obtain ⟨name, value⟩ := a
  have hvalue := weight_ofArgument_le value
  simp only [weight, weights, dataWeight, Prod.mk.sizeOf_spec]
  omega

/-- What stands in a node weighs less than the node. -/
theorem weights_inner_lt (node : Node) : weights node.inner < node.weight := by
  cases node with
  | type t =>
      rw [weight]
      exact weights_inner_type_lt t
  | field f =>
      cases f with
      | pair key t optional deprecated description attributes =>
          have hkey := weight_ofKey_le key
          have hflag (b : Bool) : dataWeight (.bool b) = 1 := rfl
          have hdescription := dataWeight_le description
          simp only [inner, weights, weight, hflag, Field.pair.sizeOf_spec,
            Bool.sizeOf_eq_one]
          omega
      | spread t attributes =>
          simp only [inner, weights, weight, Field.spread.sizeOf_spec]
          omega
  | enumValue v =>
      obtain ⟨identifier, value, description, attributes⟩ := v
      have hidentifier := dataWeight_le identifier
      have hvalue := dataWeight_le value
      have hdescription := dataWeight_le description
      simp only [inner, weights, weight, EnumValue.mk.sizeOf_spec]
      omega
  | attr a =>
      obtain ⟨name, value⟩ := a
      have hname := dataWeight_le name
      have hvalue := weight_ofArgument_le value
      simp only [inner, weights, weight, Attribute.mk.sizeOf_spec]
      omega
  | tree arguments =>
      have harguments := weights_map_lt weight_argument_le arguments
      simp only [inner, weights, weight]
      omega
  | index i =>
      cases i with
      | static value =>
          have hvalue := dataWeight_le value
          simp only [inner, weights, weight, Index.static.sizeOf_spec]
          omega
      | dynamic steps =>
          have hsteps := weights_map_lt
            (fun step => Nat.le_of_eq (weight_accessor step)) steps
          simp only [inner, weights, weight, Index.dynamic.sizeOf_spec]
          omega
  | accessor step =>
      cases step with
      | property name =>
          simp only [inner, weights, weight, dataWeight,
            Accessor.property.sizeOf_spec]
          omega
      | keyword word =>
          have hword := dataWeight_le word
          simp only [inner, weights, weight, Accessor.keyword.sizeOf_spec]
          omega
  | range bounds =>
      obtain ⟨kind, low, high⟩ := bounds
      have hkind := dataWeight_le kind
      have hlow := dataWeight_le low
      have hhigh := dataWeight_le high
      simp only [inner, weights, weight, Range.mk.sizeOf_spec]
      omega
  | data value =>
      cases value with
      | arr items =>
          have hitems := weights_map_lt weight_data_le items
          simp only [inner, weight, dataWeight]
          omega
      | _ => simp only [inner, weights, weight, dataWeight, Nat.zero_lt_one]
  | row nodes =>
      simp only [inner, weight]
      omega

/-- The path that a node points at: a reference points at its own,
unless it has none. -/
def path? : Node → Option Json
  | .type (.reference path _) => if path.isNull then none else some path
  | _ => none

/-- The paths with one more, if it is new; a path that is a collection
itself cannot be held. -/
def hold (found : List Json) (path : Json) : Except Misuse (List Json) := do
  let _ ← path.asKey?
  return if found.any path.same then found else path :: found

/-- Takes node after node off the stack. The paths found last come first. -/
@[semireducible] def walk (found : List Json) (pending : List Node) :
    Except Misuse (List Json) :=
  match pending with
  | [] => .ok found
  | node :: rest => do
    let found ← node.path?.toList.foldlM hold found
    walk found (node.inner ++ rest)
termination_by weights pending
decreasing_by
  rw [weights_append, weights]
  exact Nat.add_lt_add_right (weights_inner_lt node) _

/-- The paths that references in the nodes point at, each once. -/
def targets (nodes : List Node) : Except Misuse (List Json) := do
  return (← walk [] nodes).reverse

end Node

end Typings
