import Typings.Proofs.Outcome
import Typings.Schema.References
import Mathlib.Logic.Relation

/-!
The walk over a schema ends and finds what it should. Every step takes a node
off the stack and puts lighter ones there, so the stack as a whole gets lighter.
What has been found and what the stack still leads to stay together the same, so
in the end exactly the paths of the references that can be reached without going
through attributes are found, whatever is on the stack and in whatever order.
-/

namespace Typings

namespace Node

/-- The attributes of a node, as its last field. -/
def marks (attributes : List Attribute) : List (String × Node) :=
  [("attributes", .row (attributes.map .attr))]

/-- The fields of a node with their names, the attributes among them. -/
def fields : Node → List (String × Node)
  | .type (.any as) => marks as
  | .type (.unchecked as) => marks as
  | .type (.boolean as) => marks as
  | .type (.string length as) => ("length", ofRange length) :: marks as
  | .type (.numeric kind bounds as) =>
      ("kind", .data (.str kind.word)) :: ("range", ofRange bounds) :: marks as
  | .type (.array kind bounds length as) =>
    ("kind", .data (.str kind.word)) :: ("range", ofRange bounds) ::
      ("length", ofRange length) :: marks as
  | .type (.list item length as) =>
      ("item", .type item) :: ("length", ofRange length) :: marks as
  | .type (.tuple types as) => ("items", .row (types.map .type)) :: marks as
  | .type (.enum kind values as) => ("kind", .data kind) ::
      ("values", .row (values.map .enumValue)) :: marks as
  | .type (.literal kind value as) =>
      ("kind", .data kind) :: ("value", .data value) :: marks as
  | .type (.struct members as) =>
      ("fields", .row (members.map .field)) :: marks as
  | .type (.reference path as) => ("path", .data path) :: marks as
  | .type (.concrete child args as) =>
      ("child", .type child) :: ("args", .row (args.map .type)) :: marks as
  | .type (.template child params as) =>
      ("child", .type child) :: ("params", .row (params.map .data)) :: marks as
  | .type (.dispatcher registry indices as) =>
    ("registry", .data registry) ::
      ("indices", .row (indices.map .index)) :: marks as
  | .type (.indexed child indices as) =>
    ("child", .type child) :: ("indices", .row (indices.map .index)) :: marks as
  | .type (.union members as) =>
      ("members", .row (members.map .type)) :: marks as
  | .field (.pair key t optional deprecated description as) =>
    ("key", ofKey key) :: ("type", .type t) ::
      ("optional", .data (.bool optional)) ::
      ("deprecated", .data (.bool deprecated)) ::
      ("description", .data description) :: marks as
  | .field (.spread t as) => ("type", .type t) :: marks as
  | .enumValue (.mk identifier value description as) =>
    ("identifier", .data identifier) :: ("value", .data value) ::
      ("description", .data description) :: marks as
  | .attr (.mk name value) =>
      [("name", .data name), ("value", ofArgument value)]
  | .tree arguments => [("arguments",
      .row (arguments.map fun a => .row [.data (.str a.1), ofArgument a.2]))]
  | .index (.static value) => [("value", .data value)]
  | .index (.dynamic steps) => [("steps", .row (steps.map .accessor))]
  | .accessor (.property name) => [("name", .data (.str name))]
  | .accessor (.keyword word) => [("word", .data word)]
  | .range bounds => [("kind", .data bounds.kind), ("low", .data bounds.low),
      ("high", .data bounds.high)]
  | .data _ => []
  | .row _ => []

/-- The nodes of a row, or the items of a list among plain data. -/
def items : Node → List Node
  | .row nodes => nodes
  | .data (.arr values) => values.map .data
  | _ => []

/-- A node stands in another one: in a field other than the
attributes, or as an item. -/
inductive Inside : Node → Node → Prop where
  | field {node whole : Node} {name : String} (h : (name, node) ∈ whole.fields)
      (hname : name ≠ "attributes") :
      Inside node whole
  | item {node whole : Node} (h : node ∈ whole.items) : Inside node whole

/-- From one node down to another one inside it. -/
def Reaches : Node → Node → Prop :=
  Relation.ReflTransGen fun whole node => Inside node whole

/-- A reference that can be reached from one of the nodes has the path. -/
def PointsAt (nodes : List Node) (path : Json) : Prop :=
  path ≠ .null ∧ ∃ node ∈ nodes, ∃ attributes,
    node.Reaches (.type (.reference path attributes))

theorem inner_eq (node : Node) :
    node.inner =
      (node.fields.filter (·.1 != "attributes")).map (·.2) ++ node.items := by
  cases node with
  | type t => cases t <;> simp [inner, fields, items, marks]
  | field f => cases f <;> simp [inner, fields, items, marks]
  | enumValue v =>
      obtain ⟨identifier, value, description, attributes⟩ := v
      simp [inner, fields, items, marks]
  | attr a =>
      obtain ⟨name, value⟩ := a
      simp [inner, fields, items]
  | tree arguments => simp [inner, fields, items]
  | index i => cases i <;> simp [inner, fields, items]
  | accessor step => cases step <;> simp [inner, fields, items]
  | range bounds => simp [inner, fields, items]
  | data value => cases value <;> simp [inner, fields, items]
  | row nodes => simp [inner, fields, items]

/-- The walk puts on the stack what stands in a node. -/
theorem mem_inner_iff {node whole : Node} :
    node ∈ whole.inner ↔ Inside node whole := by
  rw [inner_eq, List.mem_append]
  constructor
  · rintro (h | h)
    · obtain ⟨⟨name, _⟩, hfield, rfl⟩ := List.mem_map.mp h
      obtain ⟨hmem, hname⟩ := List.mem_filter.mp hfield
      exact .field hmem (by simpa using hname)
    · exact .item h
  · rintro (⟨h, hname⟩ | h)
    · exact Or.inl (List.mem_map.mpr ⟨_,
        List.mem_filter.mpr ⟨h, by simpa using hname⟩, rfl⟩)
    · exact Or.inr h

theorem weight_le_of_mem {node : Node} {nodes : List Node} (h : node ∈ nodes) :
    node.weight ≤ weights nodes := by
  induction h with
  | head rest => exact Nat.le_add_right _ _
  | tail head _ ih => exact Nat.le_trans ih (Nat.le_add_left _ _)

mutual

def argumentPaths : AttributeValue → List Json
  | .absent => []
  | .type t => t.references
  | .tree arguments => treePaths arguments

/-- The paths of the references in named arguments. -/
def treePaths : List (String × AttributeValue) → List Json
  | [] => []
  | (_, value) :: rest => argumentPaths value ++ treePaths rest

end

mutual

/-- The paths of the references in a node, from left to right. -/
def paths : Node → List Json
  | .type t => t.references
  | .field f => Schema.fieldReferences [f]
  | .attr (.mk _ value) => argumentPaths value
  | .tree arguments => treePaths arguments
  | .row nodes => rowPaths nodes
  | _ => []

def rowPaths : List Node → List Json
  | [] => []
  | node :: rest => node.paths ++ rowPaths rest

end

theorem rowPaths_append (nodes rest : List Node) :
    rowPaths (nodes ++ rest) = rowPaths nodes ++ rowPaths rest := by
  induction nodes with
  | nil => rfl
  | cons node nodes ih =>
      rw [List.cons_append, rowPaths, rowPaths, ih, List.append_assoc]

theorem mem_rowPaths {nodes : List Node} {path : Json} :
    path ∈ rowPaths nodes ↔ ∃ node ∈ nodes, path ∈ node.paths := by
  induction nodes with
  | nil => simp [rowPaths]
  | cons node rest ih =>
      rw [rowPaths, List.mem_append, ih, List.exists_mem_cons_iff]

/-- A row of parts without references. -/
theorem rowPaths_map_eq_nil {α : Type} {f : α → Node}
    (hf : ∀ a, (f a).paths = []) (parts : List α) :
    rowPaths (parts.map f) = [] := by
  induction parts with
  | nil => rfl
  | cons part rest ih => rw [List.map_cons, rowPaths, hf, ih, List.append_nil]

theorem rowPaths_types (types : List Schema) :
    rowPaths (types.map .type) = Schema.allReferences types := by
  induction types with
  | nil => rfl
  | cons t rest ih =>
      rw [List.map_cons, rowPaths, ih, Schema.allReferences, paths]

theorem rowPaths_fields (members : List Field) :
    rowPaths (members.map .field) = Schema.fieldReferences members := by
  induction members with
  | nil => rfl
  | cons f rest ih =>
      rw [List.map_cons, rowPaths, ih, paths]
      cases f with
      | spread t attributes => simp [Schema.fieldReferences]
      | pair key t optional deprecated description attributes =>
          cases key <;> simp [Schema.fieldReferences]

theorem rowPaths_arguments (arguments : List (String × AttributeValue)) :
    rowPaths (arguments.map fun a => .row [.data (.str a.1), ofArgument a.2]) =
      treePaths arguments := by
  induction arguments with
  | nil => rfl
  | cons a rest ih =>
      obtain ⟨name, value⟩ := a
      rw [List.map_cons, rowPaths, ih, treePaths]
      cases value <;> simp [paths, rowPaths, ofArgument, argumentPaths]

theorem paths_ofRange (length : Option Range) :
    (ofRange length).paths = [] := by
  cases length <;> rfl

/-- The paths in a node are its own and those of what stands in it. -/
theorem paths_eq (node : Node) :
    node.paths = node.path?.toList ++ rowPaths node.inner := by
  have hdata := rowPaths_map_eq_nil fun value => (rfl : (data value).paths = [])
  have hvalues := rowPaths_map_eq_nil fun v => (rfl : (enumValue v).paths = [])
  have hindices := rowPaths_map_eq_nil fun i => (rfl : (index i).paths = [])
  have hsteps :=
    rowPaths_map_eq_nil fun step => (rfl : (accessor step).paths = [])
  cases node with
  | type t =>
      cases t with
      | reference path attributes =>
          rw [paths, Schema.references, path?]
          cases path.isNull <;> rfl
      | _ =>
          simp [paths, path?, inner, rowPaths, Schema.references, paths_ofRange,
            rowPaths_types, rowPaths_fields, hdata, hvalues, hindices]
  | field f =>
      cases f with
      | spread t attributes =>
          simp [paths, path?, inner, rowPaths, Schema.fieldReferences]
      | pair key t optional deprecated description attributes =>
          cases key <;>
            simp [paths, path?, inner, rowPaths, ofKey, Schema.fieldReferences]
  | enumValue v =>
      cases v
      rfl
  | attr a =>
      obtain ⟨name, value⟩ := a
      cases value <;>
        simp [paths, path?, inner, rowPaths, ofArgument, argumentPaths]
  | tree arguments => simp [paths, path?, inner, rowPaths, rowPaths_arguments]
  | index i => cases i <;> simp [paths, path?, inner, rowPaths, hsteps]
  | accessor step => cases step <;> rfl
  | range bounds => rfl
  | data value => cases value <;> simp [paths, path?, inner, rowPaths, hdata]
  | row nodes => rfl

theorem path?_eq_some_iff {node : Node} {path : Json} :
    node.path? = some path ↔ path ≠ .null ∧
      ∃ attributes, node = .type (.reference path attributes) := by
  constructor
  · intro h
    rw [path?.eq_def] at h
    split at h
    · rename_i target attributes
      cases target <;> cases h <;> exact ⟨Json.noConfusion, attributes, rfl⟩
    · cases h
  · rintro ⟨hpath, attributes, rfl⟩
    cases path with
    | null => exact absurd rfl hpath
    | _ => rfl

/-- A path is in a node exactly if a reference inside points at it. -/
theorem mem_paths_iff {node : Node} {path : Json} :
    path ∈ node.paths ↔ path ≠ .null ∧
      ∃ attributes, node.Reaches (.type (.reference path attributes)) := by
  constructor
  · -- by induction on the weight, since what stands in a node is lighter
    intro h
    induction hweight : node.weight using Nat.strongRecOn generalizing node with
    | _ weight ih =>
      subst hweight
      rw [paths_eq, List.mem_append, Option.mem_toList, mem_rowPaths] at h
      rcases h with h | ⟨part, hpart, h⟩
      · obtain ⟨hpath, attributes, rfl⟩ := path?_eq_some_iff.mp h
        exact ⟨hpath, attributes, .refl⟩
      · have hlt :=
          Nat.lt_of_le_of_lt (weight_le_of_mem hpart) (weights_inner_lt node)
        obtain ⟨hpath, attributes, hreaches⟩ := ih _ hlt h rfl
        exact ⟨hpath, attributes, hreaches.head (mem_inner_iff.mp hpart)⟩
  · rintro ⟨hpath, attributes, hreaches⟩
    induction hreaches using Relation.ReflTransGen.head_induction_on with
    | refl =>
        rw [paths_eq, path?_eq_some_iff.mpr ⟨hpath, attributes, rfl⟩]
        exact List.mem_cons_self
    | head hinside _ ih =>
        rw [paths_eq, List.mem_append, mem_rowPaths]
        exact Or.inr ⟨_, mem_inner_iff.mpr hinside, ih⟩

theorem pointsAt_iff {nodes : List Node} {path : Json} :
    PointsAt nodes path ↔ path ∈ rowPaths nodes := by
  rw [PointsAt, mem_rowPaths]
  simp only [mem_paths_iff]
  constructor
  · rintro ⟨hpath, node, hnode, hreaches⟩
    exact ⟨node, hnode, hpath, hreaches⟩
  · rintro ⟨node, hnode, hpath, hreaches⟩
    exact ⟨hpath, node, hnode, hreaches⟩

/-- Whatever has been found, the walk goes on with the paths of all that
is on the stack. -/
theorem walk_eq (found : List Json) (pending : List Node) :
    walk found pending = (rowPaths pending).foldlM hold found := by
  fun_induction walk found pending with
  | case1 found => rfl
  | case2 found node rest ih =>
      rw [rowPaths, paths_eq, List.append_assoc, ← rowPaths_append,
        List.foldlM_append]
      exact congrArg _ (funext ih)

/-- Holding paths one by one is asking whether all can be held, and leaving out
those that are there. -/
theorem foldlM_hold (found paths : List Json) :
    paths.foldlM hold found = do
      paths.forM fun path => do let _ ← path.asKey?
      return paths.foldl (fun seen path =>
        if seen.any path.same then seen else path :: seen) found := by
  induction paths generalizing found with
  | nil => rfl
  | cons path rest ih =>
      rw [List.foldlM_cons, List.forM, hold]
      cases path.asKey? with
      | error misuse => rfl
      | ok key => exact ih _

theorem targets_eq (nodes : List Node) :
    targets nodes = do
      (rowPaths nodes).forM fun path => do let _ ← path.asKey?
      return Json.distinct (rowPaths nodes) := by
  rw [targets, walk_eq, foldlM_hold, bind_assoc]
  rfl

end Node

/-- The walk collects the references in the types, without repetitions. -/
theorem Schema.targets_eq (types : List Schema) :
    targets types = do
      (allReferences types).forM fun path => do let _ ← path.asKey?
      return Json.distinct (allReferences types) := by
  rw [targets, Node.targets_eq, Node.rowPaths_types]

namespace Json

/-- A list or an object, which no set can hold. -/
def IsCollection : Json → Prop
  | .arr _ => True
  | .obj _ => True
  | _ => False

/-- The value is in the set that a list stands for. -/
def IsIn (v : Json) (held : List Json) : Prop :=
  v ∈ held ∨ ∃ w ∈ held, v.same w = true

/-- Two lists stand for the same set. -/
structure SameSet (held held' : List Json) : Prop where
  subset : ∀ v ∈ held, v.IsIn held'
  supset : ∀ v ∈ held', v.IsIn held

/-- The list has the values with the property, and each of them once. -/
structure IsSetOf (P : Json → Prop) (held : List Json) : Prop where
  sound : ∀ v ∈ held, P v
  complete : ∀ v, P v → v.IsIn held
  apart : held.Pairwise fun v w => w.same v = false

theorem forM_asKey?_of_isCollection {vs : List Json}
    (h : ∃ v ∈ vs, v.IsCollection) :
    (vs.forM fun v => do let _ ← v.asKey?) = .error Misuse.notKey := by
  induction vs with
  | nil => simp at h
  | cons v rest ih =>
      rw [List.exists_mem_cons_iff] at h
      rw [List.forM]
      cases v with
      | arr items => rfl
      | obj entries => rfl
      | _ => exact ih (h.resolve_left id)

theorem forM_asKey?_of_not_isCollection {vs : List Json}
    (h : ∀ v ∈ vs, ¬ v.IsCollection) :
    (vs.forM fun v => do let _ ← v.asKey?) = (.ok ⟨⟩ : Except Misuse Unit) := by
  refine forM_eq_ok_iff.mpr fun v hv => ?_
  cases v with
  | arr items => exact absurd trivial (h _ hv)
  | obj entries => exact absurd trivial (h _ hv)
  | _ => rfl

theorem IsIn.mono {v : Json} {held held' : List Json} (h : v.IsIn held)
    (hheld : ∀ w ∈ held, w ∈ held') :
    v.IsIn held' := by
  rcases h with h | ⟨w, hw, hsame⟩
  · exact Or.inl (hheld v h)
  · exact Or.inr ⟨w, hheld w hw, hsame⟩

/-- A text is equal to no other value. -/
theorem isIn_str_iff {s : String} {held : List Json} :
    IsIn (.str s) held ↔ .str s ∈ held := by
  constructor
  · rintro (h | ⟨w, hw, hsame⟩)
    · exact h
    · cases w with
      | str t =>
          rw [same, beq_iff_eq] at hsame
          exact hsame ▸ hw
      | _ => cases hsame
  · exact Or.inl

variable {P : Json → Prop}

/-- One more value, which is left out if it is there. The values added
last come first. -/
theorem IsSetOf.add {seen : List Json} (h : IsSetOf P seen.reverse) (v : Json) :
    IsSetOf (fun w => P w ∨ w = v)
      (if seen.any v.same then seen else v :: seen).reverse := by
  split
  · rename_i hany
    obtain ⟨x, hx, hsame⟩ := List.any_eq_true.mp hany
    refine ⟨fun w hw => Or.inl (h.sound w hw), ?_, h.apart⟩
    rintro w (hw | rfl)
    · exact h.complete w hw
    · exact Or.inr ⟨x, List.mem_reverse.mpr hx, hsame⟩
  · rename_i hany
    rw [List.reverse_cons]
    refine ⟨fun w hw => ?_, ?_,
      List.pairwise_append.mpr ⟨h.apart, List.pairwise_singleton _ _, ?_⟩⟩
    · rw [List.mem_append, List.mem_singleton] at hw
      exact hw.imp_left (h.sound w)
    · rintro w (hw | rfl)
      · exact (h.complete w hw).mono fun x hx => List.mem_append_left _ hx
      · exact Or.inl (List.mem_append_right _ List.mem_cons_self)
    · intro x hx y hy
      obtain rfl := List.mem_singleton.mp hy
      have hnone : ∀ w ∈ seen, ¬ y.same w = true := by simpa using hany
      exact Bool.eq_false_iff.mpr (hnone x (List.mem_reverse.mp hx))

theorem IsSetOf.foldl {seen : List Json} (h : IsSetOf P seen.reverse)
    (vs : List Json) :
    IsSetOf (fun w => P w ∨ w ∈ vs)
      (vs.foldl (fun seen v => if seen.any v.same then seen else v :: seen)
        seen).reverse := by
  induction vs generalizing P seen with
  | nil => simpa using h
  | cons v rest ih =>
      simpa only [List.foldl_cons, List.mem_cons, or_assoc] using ih (h.add v)

theorem isSetOf_distinct (vs : List Json) : IsSetOf (· ∈ vs) (distinct vs) := by
  have hnothing : IsSetOf (fun _ => False) [].reverse :=
    ⟨by simp, by simp, .nil⟩
  simpa only [false_or, distinct] using hnothing.foldl vs

/-- Sets of the same values are the same. -/
theorem IsSetOf.sameSet {held held' : List Json} (h : IsSetOf P held)
    (h' : IsSetOf P held') : SameSet held held' :=
  ⟨fun v hv => h'.complete v (h.sound v hv),
    fun v hv => h.complete v (h'.sound v hv)⟩

end Json

namespace Node

theorem targets_of_isCollection {nodes : List Node}
    (h : ∃ path, PointsAt nodes path ∧ path.IsCollection) :
    targets nodes = .error .notKey := by
  obtain ⟨path, hpath, hcollection⟩ := h
  rw [targets_eq,
    Json.forM_asKey?_of_isCollection ⟨path, pointsAt_iff.mp hpath, hcollection⟩]
  rfl

theorem exists_targets {nodes : List Node}
    (h : ∀ path, PointsAt nodes path → ¬ path.IsCollection) :
    ∃ paths, targets nodes = .ok paths ∧
      Json.IsSetOf (PointsAt nodes) paths := by
  refine ⟨Json.distinct (rowPaths nodes), ?_, ?_⟩
  · rw [targets_eq, Json.forM_asKey?_of_not_isCollection fun path hpath =>
      h path (pointsAt_iff.mpr hpath)]
    rfl
  · have hset := Json.isSetOf_distinct (rowPaths nodes)
    simpa only [← pointsAt_iff] using hset

theorem isSetOf_targets {nodes : List Node} {paths : List Json}
    (h : targets nodes = .ok paths) :
    Json.IsSetOf (PointsAt nodes) paths := by
  have hheld : ∀ path, PointsAt nodes path → ¬ path.IsCollection := by
    intro path hpath hcollection
    cases h.symm.trans (targets_of_isCollection ⟨path, hpath, hcollection⟩)
  obtain ⟨paths', hpaths', hset⟩ := exists_targets hheld
  cases h.symm.trans hpaths'
  exact hset

theorem pointsAt_congr {nodes nodes' : List Node} (h : nodes.Perm nodes') :
    PointsAt nodes = PointsAt nodes' := by
  funext path
  simp only [PointsAt, h.mem_iff]

theorem pointsAt_iff_exists_single {nodes : List Node} {path : Json} :
    PointsAt nodes path ↔ ∃ node ∈ nodes, PointsAt [node] path := by
  simp only [PointsAt, List.mem_singleton, exists_eq_left]
  constructor
  · rintro ⟨hpath, node, hnode, hreaches⟩
    exact ⟨node, hnode, hpath, hreaches⟩
  · rintro ⟨node, hnode, hpath, hreaches⟩
    exact ⟨hpath, node, hnode, hreaches⟩

/-- The paths of all nodes are those of the nodes one by one. -/
theorem exists_mapM_targets {nodes : List Node}
    {paths : List Json} (h : targets nodes = .ok paths)
    (hheld : ∀ path, PointsAt nodes path → ¬ path.IsCollection) :
    ∃ parts, nodes.mapM (fun node => targets [node]) = .ok parts ∧
      Json.SameSet paths parts.flatten := by
  have hset := isSetOf_targets h
  have hsingle : ∀ node ∈ nodes, ∃ part, targets [node] = .ok part := by
    intro node hnode
    obtain ⟨part, hpart, -⟩ :=
      exists_targets fun path (hpath : PointsAt [node] path) =>
      hheld path (pointsAt_iff_exists_single.mpr ⟨node, hnode, hpath⟩)
    exact ⟨part, hpart⟩
  obtain ⟨parts, hparts⟩ := exists_mapM_eq_ok hsingle
  refine ⟨parts, hparts, fun path hpath => ?_, fun path hpath => ?_⟩
  · obtain ⟨node, hnode, hpoints⟩ :=
      pointsAt_iff_exists_single.mp (hset.sound path hpath)
    obtain ⟨part, hpart, htargets⟩ := exists_mem_of_mapM hparts hnode
    exact ((isSetOf_targets htargets).complete path hpoints).mono fun w hw =>
      List.mem_flatten.mpr ⟨part, hpart, hw⟩
  · obtain ⟨part, hpart, hmem⟩ := List.mem_flatten.mp hpath
    obtain ⟨node, hnode, htargets⟩ := exists_of_mem_mapM hparts hpart
    have hpoints := (isSetOf_targets htargets).sound path hmem
    exact hset.complete path
      (pointsAt_iff_exists_single.mpr ⟨node, hnode, hpoints⟩)

/-- The walk over any nodes ends, since every step makes the stack lighter.
Unless a path is a list or an object itself, which no set can hold, it ends with
the set of the paths of all references that can be reached without going through
attributes. The set is the same in any order of the nodes, and it is the union
of the sets for the nodes one by one. -/
theorem reference_walk_exact (nodes : List Node) :
    (∀ node rest, weights (node.inner ++ rest) < weights (node :: rest)) ∧
    ((∃ path, PointsAt nodes path ∧ path.IsCollection) →
      targets nodes = .error .notKey) ∧
    ((∀ path, PointsAt nodes path → ¬ path.IsCollection) →
      ∃ paths, targets nodes = .ok paths ∧ Json.IsSetOf (PointsAt nodes) paths ∧
        (∀ name, .str name ∈ paths ↔ PointsAt nodes (.str name)) ∧
        (∀ nodes', nodes'.Perm nodes → ∃ paths', targets nodes' = .ok paths' ∧
          Json.SameSet paths' paths) ∧
        ∃ parts, nodes.mapM (fun node => targets [node]) = .ok parts ∧
        Json.SameSet paths parts.flatten) := by
  refine ⟨fun node rest => ?_, targets_of_isCollection, fun hheld => ?_⟩
  · rw [weights_append, weights]
    exact Nat.add_lt_add_right (weights_inner_lt node) _
  · obtain ⟨paths, hpaths, hset⟩ := exists_targets hheld
    refine ⟨paths, hpaths, hset, fun name => ?_, fun nodes' hperm => ?_,
      exists_mapM_targets hpaths hheld⟩
    · exact ⟨hset.sound _, fun h => Json.isIn_str_iff.mp (hset.complete _ h)⟩
    · rw [← pointsAt_congr hperm] at hheld hset
      obtain ⟨paths', hpaths', hset'⟩ := exists_targets hheld
      exact ⟨paths', hpaths', hset'.sameSet hset⟩

/-- A row with a field, an index and a row in it, and a type that is also
in an attribute. -/
def sampleNodes : List Node :=
  let hidden : Attribute :=
    .mk (.str "id") (.type (.reference (.str "::java::Hidden") []))
  [.row [.field (.pair (.type (.reference (.str "::java::Key") [hidden]))
      (.concrete (.reference (.str "::java::Box") [])
        [.reference (.str "::java::Item") []] [hidden])
      true false (.arr [.str "::java::Text", .null]) [hidden]),
    .index (.static (.str "::java::Static")),
    .row [.type (.template (.reference .null []) [.str "::java::T"] []),
      .type (.reference (.str "::java::Key") [])]]]

/-- Names, data and attributes are not taken for references, and a reference
without a path has none. -/
theorem reference_walk_exact_sampleNodes :
    targets sampleNodes = .ok [.str "::java::Key", .str "::java::Box",
        .str "::java::Item"] ∧
      PointsAt sampleNodes (.str "::java::Item") ∧
      ¬ PointsAt sampleNodes (.str "::java::Hidden") := by
  have htargets : targets sampleNodes = .ok [.str "::java::Key",
      .str "::java::Box", .str "::java::Item"] := rfl
  have hheld : ∀ path, PointsAt sampleNodes path → ¬ path.IsCollection := by
    intro path hpath hcollection
    cases htargets.symm.trans
      ((reference_walk_exact sampleNodes).2.1 ⟨path, hpath, hcollection⟩)
  obtain ⟨paths, hpaths, -, hnames, -⟩ :=
    (reference_walk_exact sampleNodes).2.2 hheld
  cases htargets.symm.trans hpaths
  refine ⟨htargets, (hnames _).mp ?_, fun h => ?_⟩
  · exact .tail _ (.tail _ (.head _))
  · simpa using (hnames _).mpr h

end Node

end Typings
