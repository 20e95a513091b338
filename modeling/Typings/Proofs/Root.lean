import Typings.Proofs.Leaves

/-!
What is special about the root. Templates are compiled there and nowhere else,
and only there is a declaration made instead of an expression.
-/

namespace Typings

def Json.text? : Json → Option String
  | .str s => some s
  | _ => none

/-- The paths of the type parameters that the templates at the head of a type
bring into scope. -/
def Schema.headParams : Schema → List String
  | .template child params _ => params.filterMap (·.text?) ++ child.headParams
  | _ => []

theorem filterMap_text?_of_mapM {params : List Json} {paths : List String}
    (h : params.mapM (fun p => Fault.ofMisuse p.asText) = .ok paths) :
    params.filterMap (·.text?) = paths := by
  have hall := mapM_eq_ok_iff.mp h
  clear h
  induction hall with
  | nil => rfl
  | @cons p path rest paths' hhead _ ih =>
      have htext : p.text? = some path := by
        cases p <;> cases Fault.ofMisuse_eq_ok_iff.mp hhead
        rfl
      rw [List.filterMap_cons_some htext, ih]

variable {env : Environment}

theorem Compiles.headParams_eq_nil {scope : Scope} {type : Schema}
    {c : Compiled}
    (h : Compiles env scope type c) (hroot : scope.isRoot = false) :
    type.headParams = [] := by
  cases h with
  | template hroot' =>
      rw [hroot] at hroot'
      cases hroot'
  | leaf hleaf => cases type <;> cases hleaf <;> rfl
  | _ => rfl

/-- Can the type become a declaration when it is at the root? -/
def Schema.isDeclarable : Schema → Bool
  | .template _ _ _ => true
  | .struct _ _ => true
  | _ => false

theorem Schema.isDeclarable_of_isLeaf {type : Schema} (h : type.isLeaf = true) :
    type.isDeclarable = false := by
  cases type <;> cases h <;> rfl

mutual

/-- Only templates and structs become declarations, and only at the root. -/
theorem Compiles.isExpr : ∀ {scope : Scope} {type : Schema} {c : Compiled},
    Compiles env scope type c → (scope.isRoot && type.isDeclarable) = false →
      c.type = .expression c.expr
  | _, _, _, .leaf hleaf hplan hc, _ =>
      (Compiles.isClosed_of_isLeaf hleaf hplan hc).isExpr
  | _, _, _, .reference hc, _ => by
      obtain ⟨target, -, rfl⟩ := compileReference_eq_ok hc
      rfl
  | _, _, _, .concrete _ hc, _ => by
      obtain ⟨target, -, rfl⟩ := compileReference_eq_ok hc
      rfl
  | _, _, _, .template hroot _ _ _, hkind => by
      rw [hroot] at hkind
      cases hkind
  | _, _, _, .list _ hc, _ => by
      obtain ⟨-, -, ⟨htype, -⟩ | ⟨_, _, _, -, htype, -⟩⟩ := compileList_eq_ok hc
      · rw [Compiled.expr, htype, Emitted.body]
      · rw [Compiled.expr, htype, Emitted.body]
  | _, _, _, .union hmembers, _ => by
      have hall := CompilesAll.isExpr hmembers rfl
      rw [compileUnion.eq_def]
      split
      · rfl
      · exact hall _ List.mem_cons_self
      · rfl
  | _, _, _, .tuple _, _ => rfl
  | _, _, _, .struct _ hc, hkind => by
      obtain ⟨-, -, -, ⟨htype, -⟩ | ⟨name, -, hopen, -⟩⟩ :=
        composeStruct_eq_ok hc
      · exact htype
      · rw [(Bool.and_eq_true_iff.mp hopen).1] at hkind
        cases hkind
  | _, _, _, .dispatcher _ hc, _ => by
      obtain ⟨key, info, -, rfl⟩ := compileDispatcher_eq_ok hc
      rfl
  | _, _, _, .indexed _ _ hc, _ => by
      obtain ⟨key, info, -, rfl⟩ := compileDispatcher_eq_ok hc
      rfl

theorem CompilesAll.isExpr :
    ∀ {scope : Scope} {types : List Schema} {cs : List Compiled},
    CompilesAll env scope types cs → scope.isRoot = false →
      ∀ c ∈ cs, c.type = .expression c.expr
  | _, _, _, .nil, _ => by simp
  | _, _, _, .cons htype hrest, hroot =>
      List.forall_mem_cons.mpr
        ⟨Compiles.isExpr htype (by rw [hroot, Bool.false_and]),
        CompilesAll.isExpr hrest hroot⟩

end

/-- The type parameters of a declaration; an expression has none. -/
def Emitted.params : Emitted → List TypeParameter
  | .expression _ => []
  | .declaration declared => declared.params

theorem templateParams_eq (paths : List String) (c : Compiled) :
    templateParams paths c =
      let all := (paths.map fun path =>
        ({ name := lastSegment path } : TypeParameter)) ++ c.type.params
      if !c.requests.isEmpty && !all.any (·.name == "S") then
        all ++ [.discriminator]
      else all := by
  rw [templateParams]
  cases c.type <;> rfl

theorem mem_templateParams {paths : List String} {c : Compiled}
    {p : TypeParameter} (h : p ∈ templateParams paths c) :
    (∃ path ∈ paths, p = { name := lastSegment path }) ∨ p ∈ c.type.params ∨
      p = .discriminator := by
  have hall : p ∈
      (paths.map fun path => ({ name := lastSegment path } : TypeParameter)) ++
      c.type.params ++ [.discriminator] := by
    rw [templateParams_eq] at h
    dsimp only at h
    split at h
    · exact h
    · exact List.mem_append_left _ h
  simpa [eq_comm, or_assoc] using hall

/-- The names in the bound and in the default of a type parameter. -/
def TypeParameter.names (p : TypeParameter) : List String :=
  (p.bound.elim [] fun t => t.names) ++ (p.fallback.elim [] fun t => t.names)

/-- No type parameter of a declaration refers to anything. -/
theorem Compiles.names_params {scope : Scope} {type : Schema} {c : Compiled}
    (h : Compiles env scope type c) : ∀ p ∈ c.type.params, p.names = [] := by
  intro p hp
  have hother (hkind : type.isDeclarable = false) : p.names = [] := by
    rw [h.isExpr (by rw [hkind, Bool.and_false])] at hp
    cases hp
  cases h with
  | template _ _ _ hbody =>
      rcases mem_templateParams hp with ⟨path, -, rfl⟩ | hinner | rfl
      · rfl
      · exact hbody.names_params p hinner
      · rfl
  | struct _ hc =>
      obtain ⟨-, -, -, ⟨htype, -⟩ | ⟨name, -, -, htype⟩⟩ :=
        composeStruct_eq_ok hc
      · rw [htype] at hp
        cases hp
      · rw [htype] at hp
        rw [List.mem_singleton.mp hp]
        rfl
  | leaf hleaf => exact hother (Schema.isDeclarable_of_isLeaf hleaf)
  | _ => exact hother rfl

end Typings
