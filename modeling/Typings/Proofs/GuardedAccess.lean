import Typings.Proofs.Cases

/-!
Index accesses into a dispatcher. The index selects a case of the dispatcher's
symbol, and the keys of the access lead on from there, each behind a check that
what has been reached has the key. The case of a missing discriminator is the
only one that the keys do not follow.
-/

namespace Typings

/-- A way through a conditional type: the checks that succeed on it, the
outermost first, and the type that it ends in. -/
structure Branch where
  checks : List (TypeExpr × TypeExpr) := []
  result : TypeExpr

/-- The branch inside one more check. -/
def Branch.behind (check bound : TypeExpr) (b : Branch) : Branch :=
  { b with checks := (check, bound) :: b.checks }

/-- All ways through a conditional type. -/
def TypeExpr.branches : TypeExpr → List Branch
  | .conditional check bound yes no _ =>
      (branches yes).map (.behind check bound) ++ branches no
  | t => [{ result := t }]

def TypeExpr.along (base : TypeExpr) (keys : List Json) : TypeExpr :=
  keys.foldl (fun t key => .access t (.ofValue key)) base

/-- The branch ends in the base followed by all keys, and each key has been
checked to be one of what it is applied to. -/
structure Branch.Reaches (b : Branch) (base : TypeExpr) (keys : List Json) :
    Prop where
  result : b.result = base.along keys
  checked : ∀ front key back, keys = front ++ key :: back →
    (.ofValue key, (base.along front).keyof) ∈ b.checks

section Path

variable {base check bound : TypeExpr} {keys : List Json} {b : Branch}

theorem Branch.reaches_nil (h : b.result = base) : b.Reaches base [] where
  result := h
  checked front key back hsplit := by simp at hsplit

theorem Branch.Reaches.behind (h : b.Reaches base keys) :
    (b.behind check bound).Reaches base keys where
  result := h.result
  checked front key back hsplit :=
    List.mem_cons_of_mem _ (h.checked front key back hsplit)

/-- A check for the first key, before the others. -/
theorem Branch.Reaches.cons {key : Json}
    (h : b.Reaches (.access base (.ofValue key)) keys) :
    (b.behind (.ofValue key) base.keyof).Reaches base (key :: keys) where
  result := h.result
  checked front key' back hsplit := by
    cases front with
    | nil =>
        obtain ⟨rfl, -⟩ := List.cons.inj hsplit
        exact List.mem_cons_self
    | cons first front =>
        obtain ⟨rfl, hrest⟩ := List.cons.inj hsplit
        exact List.mem_cons_of_mem _ (h.checked front key' back hrest)

/-- The result is an open record, or the base followed by all keys. -/
def Branch.IsOpenOrReaches (b : Branch) (base : TypeExpr)
    (keys : List Json) : Prop :=
  b.result = .openRecord ∨ b.Reaches base keys

theorem TypeExpr.mem_branches_conditional {yes no : TypeExpr}
    {parenthesized : Bool} :
    b ∈ (TypeExpr.conditional check bound yes no parenthesized).branches ↔
      (∃ b' ∈ yes.branches, b'.behind check bound = b) ∨ b ∈ no.branches := by
  rw [branches, List.mem_append, List.mem_map]

theorem TypeExpr.result_of_mem_branches_openRecord
    (h : b ∈ TypeExpr.openRecord.branches) :
    b.result = .openRecord := by
  rw [List.mem_singleton.mp h]

/-- Every branch of a guarded path leads to its end or to an open record, and
one leads to its end. -/
theorem branches_guardedPath (hbase : base.branches = [{ result := base }])
    (keys : List Json) :
    (∀ b ∈ (guardedPath base keys).branches, b.IsOpenOrReaches base keys) ∧
      ∃ b ∈ (guardedPath base keys).branches, b.Reaches base keys := by
  induction keys generalizing base with
  | nil =>
      rw [guardedPath, hbase]
      constructor
      · intro b hb
        rw [List.mem_singleton.mp hb]
        exact Or.inr (Branch.reaches_nil rfl)
      · exact ⟨_, List.mem_singleton_self _, Branch.reaches_nil rfl⟩
  | cons key rest ih =>
      obtain ⟨hall, b, hb, hreaches⟩ := @ih (.access base (.ofValue key)) rfl
      rw [guardedPath]
      constructor
      · intro b hb
        rcases TypeExpr.mem_branches_conditional.mp hb with ⟨b', hb',
          rfl⟩ | hopen
        · exact (hall b' hb').imp_right Branch.Reaches.cons
        · exact Or.inl (TypeExpr.result_of_mem_branches_openRecord hopen)
      · exact ⟨_, TypeExpr.mem_branches_conditional.mpr (Or.inl ⟨b, hb, rfl⟩),
          hreaches.cons⟩

theorem branches_guardedAccess (table key : TypeExpr) (keys : List Json) :
    (∀ b ∈ (guardedAccess table key keys).branches,
        b.IsOpenOrReaches (.access table key) keys) ∧
      ∃ b ∈ (guardedAccess table key keys).branches,
        b.Reaches (.access table key) keys := by
  obtain ⟨hall, b, hb, hreaches⟩ :=
    @branches_guardedPath (.access table key) rfl keys
  rw [guardedAccess]
  split
  · exact ⟨hall, b, hb, hreaches⟩
  · constructor
    · intro b hb
      rcases TypeExpr.mem_branches_conditional.mp hb with ⟨b', hb', rfl⟩ | hopen
      · exact (hall b' hb').imp_right Branch.Reaches.behind
      · exact Or.inl (TypeExpr.result_of_mem_branches_openRecord hopen)
    · exact ⟨_, TypeExpr.mem_branches_conditional.mpr (Or.inl ⟨b, hb, rfl⟩),
        hreaches.behind⟩

end Path

namespace DispatcherHead

/-- A case of the dispatcher's symbol, applied to the type arguments. -/
def caseOf (info : DispatcherHead) (args : List TypeExpr) (case : TypeExpr) :
    TypeExpr :=
  .reference info.tableName (info.fill args ++ [case])

/-- A property of the object of all members. -/
def memberOf (info : DispatcherHead) (args : List TypeExpr) (key : TypeExpr) :
    TypeExpr :=
  .access (.reference info.tableName (info.fill args)) key

/-- What an index selects of the dispatcher's symbol. -/
inductive Selects (info : DispatcherHead) (args : List TypeExpr) :
    IndexForm → Bool → TypeExpr → Prop where
  /-- At the root nothing supplies a discriminator. -/
  | root {parents : Nat} {property : String} :
      Selects info args (.dynamic parents property) true
        (info.caseOf args fallbackCase)
  | found {parents : Nat} {property : String} :
      Selects info args (.dynamic parents property) false
        (info.memberOf args discriminator)
  /-- The discriminator may be missing, if there is a member for that. -/
  | absent {parents : Nat} {property : String} (h : info.hasAbsent = true) :
      Selects info args (.dynamic parents property) false
        (info.caseOf args noneCase)
  | all {value : Json} {isRoot : Bool} (h : value.isText "%fallback" = true) :
      Selects info args (.static value) isRoot (info.caseOf args fallbackCase)
  | key {value : Json} {isRoot : Bool} (h : value.isText "%fallback" = false) :
      Selects info args (.static value) isRoot
        (info.memberOf args (.ofValue value))
  | mapKey {isRoot : Bool} :
      Selects info args .mapKey isRoot (info.memberOf args (.named "Key"))

/-- The branch ends in an open record, or in what the index selects with
all keys behind it. -/
def Follows (info : DispatcherHead) (args : List TypeExpr) (index : IndexForm)
    (isRoot : Bool) (keys : List Json) (b : Branch) : Prop :=
  b.result = .openRecord ∨ ∃ t, info.Selects args index isRoot t ∧
    b.Reaches t keys

variable {info : DispatcherHead} {args : List TypeExpr} {index : IndexForm}
  {isRoot : Bool} {keys : List Json}

theorem follows_of_isOpenOrReaches {t : TypeExpr}
    (hselects : info.Selects args index isRoot t) {b : Branch}
    (h : b.IsOpenOrReaches t keys) : info.Follows args index isRoot keys b :=
  h.imp_right fun hreaches => ⟨t, hselects, hreaches⟩

theorem caseOf_inj {case case' : TypeExpr}
    (h : info.caseOf args case = info.caseOf args case') : case = case' := by
  have hargs := (TypeExpr.reference.inj h).2
  exact List.singleton_inj.mp (List.append_cancel_left hargs)

/-- The case of a missing discriminator is selected below the root, if there is
a member for it. -/
theorem selects_noneCase_iff :
    info.Selects args index isRoot (info.caseOf args noneCase) ↔
    (∃ parents property, index = .dynamic parents property) ∧ isRoot = false ∧
      info.hasAbsent = true := by
  have hne : fallbackCase ≠ noneCase := by simp [fallbackCase, noneCase]
  constructor
  · intro h
    generalize ht : info.caseOf args noneCase = t at h
    cases h with
    | root => exact absurd (caseOf_inj ht).symm hne
    | found => cases ht
    | absent habsent => exact ⟨⟨_, _, rfl⟩, rfl, habsent⟩
    | all _ => exact absurd (caseOf_inj ht).symm hne
    | key _ => cases ht
    | mapKey => cases ht
  · rintro ⟨⟨parents, property, rfl⟩, rfl, habsent⟩
    exact .absent habsent

/-- Every branch is as it should be, but for the case of a missing
discriminator, which stands as it is. -/
theorem branch_access {b : Branch}
    (h : b ∈ (info.access index isRoot args keys).1.branches) :
    info.Follows args index isRoot keys b ∨
      info.Selects args index isRoot (info.caseOf args noneCase) ∧
        b.result = info.caseOf args noneCase := by
  have hpath : ∀ case, info.Selects args index isRoot (info.caseOf args case) →
      b ∈ (guardedPath (info.caseOf args case) keys).branches →
      info.Follows args index isRoot keys b := by
    intro case hselects hb
    exact follows_of_isOpenOrReaches hselects
      ((branches_guardedPath rfl keys).1 b hb)
  have hmember :
      ∀ key, info.Selects args index isRoot (info.memberOf args key) →
      b ∈ (guardedAccess (.reference info.tableName (info.fill args)) key
          keys).branches →
        info.Follows args index isRoot keys b := by
    intro key hselects hb
    exact follows_of_isOpenOrReaches hselects
      ((branches_guardedAccess _ key keys).1 b hb)
  rw [access.eq_def] at h
  cases index with
  | dynamic parents property =>
      cases isRoot with
      | true => exact Or.inl (hpath _ .root h)
      | false =>
          dsimp only at h
          rw [if_neg Bool.false_ne_true] at h
          split at h
          · rename_i habsent
            rcases TypeExpr.mem_branches_conditional.mp h with ⟨b',
              hb', rfl⟩ | h
            · rw [List.mem_singleton.mp hb']
              exact Or.inr ⟨.absent habsent, rfl⟩
            · exact Or.inl (hmember _ .found h)
          · exact Or.inl (hmember _ .found h)
  | static value =>
      dsimp only at h
      split at h
      · rename_i hkept
        exact Or.inl (hpath _ (.all hkept) h)
      · rename_i hkept
        exact Or.inl (hmember _ (.key (Bool.eq_false_iff.mpr hkept)) h)
  | mapKey => exact Or.inl (hmember _ .mapKey h)

/-- A branch leads to each other case that the index selects. -/
theorem exists_branch_access
    {t : TypeExpr} (h : info.Selects args index isRoot t)
    (hne : t ≠ info.caseOf args noneCase) :
    ∃ b ∈ (info.access index isRoot args keys).1.branches,
      b.Reaches t keys := by
  rw [access.eq_def]
  cases h with
  | root => exact (branches_guardedPath rfl keys).2
  | found =>
      obtain ⟨b, hb, hreaches⟩ :=
        (branches_guardedAccess (.reference info.tableName (info.fill args))
          discriminator keys).2
      refine ⟨b, ?_, hreaches⟩
      dsimp only
      rw [if_neg Bool.false_ne_true]
      split
      · exact TypeExpr.mem_branches_conditional.mpr (Or.inr hb)
      · exact hb
  | absent _ => exact absurd rfl hne
  | all hkept =>
      dsimp only
      rw [if_pos hkept]
      exact (branches_guardedPath rfl keys).2
  | key hkept =>
      dsimp only
      rw [if_neg (Bool.eq_false_iff.mp hkept)]
      exact (branches_guardedAccess _ _ keys).2
  | mapKey =>
      dsimp only
      exact (branches_guardedAccess _ _ keys).2

/-- The case of a missing discriminator has a branch of its own. -/
theorem mem_branches_noneCase
    (h : info.Selects args index isRoot (info.caseOf args noneCase)) :
    { checks := [(discriminator, .undefined)],
      result := info.caseOf args noneCase } ∈
      (info.access index isRoot args keys).1.branches := by
  obtain ⟨⟨parents, property, rfl⟩, rfl, habsent⟩ := selects_noneCase_iff.mp h
  rw [access.eq_def]
  dsimp only
  rw [if_neg Bool.false_ne_true, if_pos habsent]
  exact TypeExpr.mem_branches_conditional.mpr
    (Or.inl ⟨_, List.mem_singleton_self _, rfl⟩)

/-- A case of the symbol with keys behind it is an access, and so is no case. -/
theorem caseOf_ne_along {case t : TypeExpr} (hkeys : keys ≠ []) :
    info.caseOf args case ≠ t.along keys := by
  obtain ⟨front, key, rfl⟩ := (List.eq_nil_or_concat' keys).resolve_left hkeys
  rw [TypeExpr.along, List.foldl_concat]
  intro h
  cases h

theorem not_follows_noneCase (hkeys : keys ≠ []) {b : Branch}
    (h : b.result = info.caseOf args noneCase) :
    ¬ info.Follows args index isRoot keys b := by
  rintro (hopen | ⟨t, -, hreaches⟩)
  · have hname := (TypeExpr.reference.inj (h.symm.trans hopen)).1
    exact tableName_ne (by decide) hname
  · exact caseOf_ne_along hkeys (h.symm.trans hreaches.result)

/-- All branches are as they should be exactly if there are no keys or the case
of a missing discriminator is not selected. -/
theorem forall_follows_iff :
    (∀ b ∈ (info.access index isRoot args keys).1.branches,
      info.Follows args index isRoot keys b) ↔
    keys = [] ∨
      ¬ info.Selects args index isRoot (info.caseOf args noneCase) := by
  constructor
  · intro h
    by_contra hboth
    rw [not_or, not_not] at hboth
    exact not_follows_noneCase hboth.1 rfl (h _ (mem_branches_noneCase hboth.2))
  · rintro h b hb
    rcases branch_access hb with hfollows | ⟨hselects, hresult⟩
    · exact hfollows
    · obtain rfl := h.resolve_right (not_not.mpr hselects)
      exact Or.inr ⟨_, hselects, Branch.reaches_nil hresult⟩

end DispatcherHead

section Compiled

variable {env : Environment} {registry : String} {info : DispatcherHead}
  {inner : List Index} {index : IndexForm}
  {attributes attributes' : List Attribute}

theorem staticKeys_map_static (registry : Json) (keys : List Json) :
    staticKeys registry (keys.map .static) = .ok keys := by
  induction keys with
  | nil => rfl
  | cons key rest ih =>
      rw [List.map_cons, staticKeys, ih]
      rfl

/-- An index access always compiles, if its dispatcher is known and the shape
of the index is. -/
theorem exists_compile_indexed
    (hget : env.dispatchers.get? registry = some info)
    (hindex : IndexForm.ofIndices? inner = some index)
    (hattributes : checkAttributes attributes = .ok ())
    (hattributes' : checkAttributes attributes' = .ok ()) (keys : List Json)
    (scope : Scope) :
    ∃ c, ((Schema.indexed (.dispatcher (.str registry) inner attributes)
        (keys.map .static) attributes').compile env scope).outcome = .ok c ∧
      c.type =
        .expression (info.access index scope.isRoot scope.args keys).1 := by
  obtain ⟨c, hc⟩ := exists_compileDispatcher hget scope index keys
  refine ⟨c, ?_, compileDispatcher_of_get? hget hc⟩
  have hbody :
      Plan.ofBody (.indexed (.dispatcher (.str registry) inner attributes)
        (keys.map .static)
      attributes') = .ok (.dispatcher (.str registry) index (some keys)) := by
    rw [Plan.ofBody]
    refine bind_eq_ok_iff.mpr ⟨keys, staticKeys_map_static _ keys, ?_⟩
    refine bind_eq_ok_iff.mpr ⟨(), hattributes, ?_⟩
    exact bind_eq_ok_iff.mpr ⟨index, IndexForm.of_eq_ok_iff.mpr hindex, rfl⟩
  rw [Schema.compile, Plan.ofSchema, hbody]
  refine Emit.outcome_bind_eq_ok_iff.mpr ⟨_,
    bind_eq_ok_iff.mpr ⟨(), hattributes', rfl⟩, ?_⟩
  rw [Plan.compile]
  exact hc

end Compiled

/-- Which branches of an index access follow its keys. Each ends in an open
record or in a case that the index selects, with all keys behind it and every
key checked, unless it is the one for a missing discriminator: that case is left
as it is. So all branches follow the keys exactly if there are none or that case
is not selected. -/
theorem Schema.indexed_branches_follow_iff {env : Environment}
    {registry : String} {info : DispatcherHead}
    (hget : env.dispatchers.get? registry = some info) {inner : List Index}
    {index : IndexForm} (hindex : IndexForm.ofIndices? inner = some index)
    {attributes attributes' : List Attribute}
    (hattributes : checkAttributes attributes = .ok ())
    (hattributes' : checkAttributes attributes' = .ok ())
    (keys : List Json) (scope : Scope) :
    ∃ c, ((Schema.indexed (.dispatcher (.str registry) inner attributes)
      (keys.map .static) attributes').compile env scope).outcome = .ok c ∧
      let absent := info.caseOf scope.args noneCase
      (∀ b ∈ c.expr.branches,
        info.Follows scope.args index scope.isRoot keys b ∨
        info.Selects scope.args index scope.isRoot absent ∧ b.result = absent) ∧
      (∀ t, info.Selects scope.args index scope.isRoot t → t ≠ absent →
        ∃ b ∈ c.expr.branches, b.Reaches t keys) ∧
      ((∀ b ∈ c.expr.branches,
          info.Follows scope.args index scope.isRoot keys b) ↔
        keys = [] ∨ ¬ info.Selects scope.args index scope.isRoot absent) := by
  obtain ⟨c, hc, htype⟩ :=
    exists_compile_indexed hget hindex hattributes hattributes' keys scope
  have hexpr : c.expr = (info.access index scope.isRoot scope.args keys).1 := by
    rw [Compiled.expr, htype]
    rfl
  refine ⟨c, hc, ?_⟩
  rw [hexpr]
  refine ⟨?_, ?_, DispatcherHead.forall_follows_iff⟩
  · intro b hb
    exact DispatcherHead.branch_access hb
  · intro t hselects hne
    exact DispatcherHead.exists_branch_access hselects hne

/-- With a member for a missing discriminator, the same index access follows its
key at the root of a symbol and misses it below. -/
theorem Schema.indexed_branches_follow_iff_value :
    let members : Table Schema :=
      ⟨[("a", .boolean []), ("%none", .string none [])]⟩
    let type : Schema :=
      .indexed (.dispatcher (.str "minecraft:x") [.dynamic [.property "type"]]
        []) [.static (.str "value")] []
    ∃ info, DispatcherHead.of "minecraft:x" members = .ok info ∧
      let env : Environment := { dispatchers := ⟨[("minecraft:x", info)]⟩ }
      (∃ c, (type.compile env { isRoot := true }).outcome = .ok c ∧
        ∀ b ∈ c.expr.branches,
          info.Follows [] (.dynamic 0 "type") true [.str "value"] b) ∧
      ∃ c, (type.compile env {}).outcome = .ok c ∧
        ¬ ∀ b ∈ c.expr.branches,
          info.Follows [] (.dynamic 0 "type") false [.str "value"] b := by
  intro members type
  obtain ⟨info, hinfo, habsent⟩ :
      ∃ info, DispatcherHead.of "minecraft:x" members = .ok info ∧
      info.hasAbsent = true := ⟨_, rfl, rfl⟩
  let env : Environment := { dispatchers := ⟨[("minecraft:x", info)]⟩ }
  have hget : env.dispatchers.get? "minecraft:x" = some info := rfl
  have hindex : IndexForm.ofIndices? [.dynamic [.property "type"]] =
      some (.dynamic 0 "type") := rfl
  have hvalid : checkAttributes [] = .ok () := rfl
  have hboth :=
    indexed_branches_follow_iff hget hindex hvalid hvalid [.str "value"]
  obtain ⟨c, hc, -, -, hroot⟩ := hboth { isRoot := true }
  obtain ⟨c', hc', -, -, hnested⟩ := hboth {}
  refine ⟨info, hinfo, ⟨c, hc, hroot.mpr (Or.inr ?_)⟩, c', hc', fun hall => ?_⟩
  · intro hselects
    exact absurd (DispatcherHead.selects_noneCase_iff.mp hselects).2.1
      (by decide)
  · rcases hnested.mp hall with hkeys | hselects
    · cases hkeys
    · exact hselects (.absent habsent)

end Typings
