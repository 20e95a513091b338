import Typings.Proofs.Landing

/-!
Which struct binds the discriminator of an index. All structs bind it under one
name, so an index gets the one from the innermost struct around it that binds
any, whether or not it is the struct that its request was answered by.
-/

namespace Typings

section Run

variable {env : Environment}

/-- A struct that has the property which the occurrence asks it for is a union
over that property. -/
def Occurrence.Selects (o : Occurrence) : Prop :=
  o.isHidden = false → ∀ r, o.link.asks? = some r → ∀ names selector? place,
    o.frames[r.parents]? = some (.struct names selector? place) →
      r.property ∈ names →
      selector? = some r.property

theorem Occurrence.IsSettled.selects {o : Occurrence} (h : o.IsSettled) :
    o.Selects := by
  intro hhidden r hasks names selector? place hframe _
  have hlt : r.parents < o.frames.length :=
    (List.getElem?_eq_some_iff.mp hframe).1
  obtain ⟨names', place', hanswer, -⟩ := h hhidden r hasks hlt
  rw [hframe] at hanswer
  cases hanswer
  rfl

/-- The struct itself selects what its fields ask of it, at the root as well. -/
theorem CompilesFields.selects {scope : Scope}
    {fields : List Field} {parts : List Part}
    {c : Compiled} (hfields : CompilesFields env scope fields parts)
    (hc : composeStruct scope parts = .ok c) :
    ∀ o ∈ structOccurrences (Field.liveNames fields)
      (Schema.fieldOccurrences fields), o.Selects := by
  obtain ⟨-, hanswers⟩ := hfields.selector_eq hc
  intro o ho
  obtain ⟨⟨place, inner⟩, he, rfl⟩ := List.mem_map.mp ho
  have hsettled := CompilesFields.isSettled hfields _ he
  intro hhidden r hasks names selector? place' hframe hmem
  rw [Occurrence.isHidden_within, Bool.or_eq_false_iff] at hhidden
  by_cases hinner : r.parents < inner.frames.length
  · rw [Occurrence.within, List.getElem?_append_left hinner] at hframe
    exact hsettled.selects hhidden.1 r hasks names selector? place' hframe hmem
  · have hlength : r.parents = inner.frames.length := by
      have hlt := (List.getElem?_eq_some_iff.mp hframe).1
      simp only [Occurrence.within, List.length_append,
        List.length_singleton] at hlt
      omega
    rw [hlength, Occurrence.within, List.getElem?_concat_length] at hframe
    cases hframe
    have hplace : place ≠ .keys := by
      rintro rfl
      cases hhidden.2
    have hrequest :=
      Occurrence.request?_of_asks? hhidden.1 hasks (Nat.le_of_eq hlength.symm)
    rcases hanswers _ (mem_visibleRequests.mpr ⟨_, he, hplace, hrequest⟩)
      (by simp [hlength]) with
      ⟨-, hselector⟩ | ⟨-, hmissing⟩
    · exact hselector
    · exact absurd hmem hmissing

theorem Compiles.selects : ∀ {scope : Scope} {type : Schema} {c : Compiled},
    Compiles env scope type c → ∀ o ∈ type.occurrencesAt scope.isRoot, o.Selects
  | _, _, _, .leaf hleaf _ _ => by
      rw [Schema.occurrencesAt, occurrences_eq_nil hleaf,
        rootOccurrences_eq_nil hleaf, ite_self]
      simp
  | _, _, _, .template hroot _ _ hbody => by
      have hinner := Compiles.selects hbody
      rw [hroot] at hinner ⊢
      exact hinner
  | _, _, _, .struct hfields hc => by
      rw [occurrencesAt_eq rfl]
      exact hfields.selects hc
  | scope, _, _, .dispatcher _ _ | scope, _, _, .indexed _ _ _ => by
      cases hroot : scope.isRoot with
      | true => exact fun o ho => absurd ho List.not_mem_nil
      | false =>
          exact List.forall_mem_singleton.mpr
            (Occurrence.isSettled_bare _).selects
  | _, _, _, h@(.reference _) | _, _, _, h@(.concrete _ _) |
      _, _, _, h@(.list _ _)
  | _, _, _, h@(.union _) | _, _, _, h@(.tuple _) => by
      rw [occurrencesAt_eq rfl]
      exact fun o ho => (Compiles.isSettled h (Bool.and_false _) o ho).selects

end Run

theorem Frame.exists_struct_of_binds {frame : Frame} (h : frame.binds = true) :
    ∃ names name place, frame = .struct names (some name) place := by
  rw [Frame.binds.eq_def] at h
  split at h
  · exact ⟨_, _, _, rfl⟩
  · cases h

namespace Site

variable {env : Environment} {args : List TypeExpr} {s : Site} {t : TypeExpr}

/-- Further in stands further down. -/
theorem around_eq_append {i k : Nat} {l : Level} (hlt : i < k)
    (hlevel : s.levels[k]? = some l) :
    ∃ rest, s.around i = s.around k ++ (l.turns ++ rest) := by
  obtain ⟨hk, hget⟩ := List.getElem?_eq_some_iff.mp hlevel
  have hdrop : (s.levels.drop (i + 1)).drop (k - (i + 1)) =
      l :: s.levels.drop (k + 1) := by
    rw [List.drop_drop, Nat.add_sub_cancel' hlt,
      List.drop_eq_getElem_cons hk, hget]
  refine ⟨Level.allTurns ((s.levels.drop (i + 1)).take (k - (i + 1))), ?_⟩
  calc s.around i
      = s.lead ++ Level.allTurns ((s.levels.drop (i + 1)).take (k - (i + 1)) ++
          l :: s.levels.drop (k + 1)) := by
            rw [← hdrop, List.take_append_drop, around]
    _ = _ := by simp [around, Level.allTurns]

/-- The levels that are unions over a property stand at different addresses. -/
theorem Lands.around_ne_of_lt (h : s.Lands env args t)
    {i k : Nat} {l : Level} (hlt : i < k) (hlevel : s.levels[k]? = some l)
    {names : List String} {name : String} {place : Place}
    (hframe : l.frame = .struct names (some name) place) :
    s.around i ≠ s.around k := by
  obtain ⟨hturns, -⟩ := h.union k l names name place hlevel hframe
  obtain ⟨rest, hrest⟩ := around_eq_append hlt hlevel
  intro heq
  rw [hrest, List.append_right_eq_self, List.append_eq_nil_iff] at heq
  exact hturns heq.1

/-- The binder at a site is that of a given level exactly if that level binds
and none further in does. -/
theorem Lands.binder?_eq_iff (h : s.Lands env args t) {k : Nat} {l : Level}
    (hlevel : s.levels[k]? = some l) {names : List String} {name : String}
    {place : Place}
    (hframe : l.frame = .struct names (some name) place) :
    s.binder? = some (s.around k ++ [.object]) ↔
      place ≠ .property name true ∧
        ∀ frame ∈ s.frames.take k, frame.binds = false := by
  have hindex : s.binder? = some (s.around k ++ [.object]) ↔
      (s.levels.findIdx? fun l => l.frame.binds) = some k := by
    rw [binder?, Option.map_eq_some_iff]
    constructor
    · rintro ⟨i, hi, heq⟩
      have haround : s.around i = s.around k := List.append_cancel_right heq
      obtain ⟨hlength, hbinds, -⟩ := List.findIdx?_eq_some_iff_getElem.mp hi
      obtain ⟨names', name', place', hframe'⟩ :=
        Frame.exists_struct_of_binds hbinds
      rcases Nat.lt_trichotomy i k with hlt | rfl | hlt
      · exact absurd haround (h.around_ne_of_lt hlt hlevel hframe)
      · exact hi
      · exact absurd haround.symm
          (h.around_ne_of_lt hlt (List.getElem?_eq_getElem hlength) hframe')
    · intro hk
      exact ⟨k, hk, rfl⟩
  obtain ⟨hlength, rfl⟩ := List.getElem?_eq_some_iff.mp hlevel
  have hinner : (∀ frame ∈ s.frames.take k, frame.binds = false) ↔
      ∀ j (hj : j < k), s.levels[j].frame.binds = false := by
    rw [frames, ← List.map_take, List.forall_mem_map]
    simp only [List.mem_take_iff_getElem]
    constructor
    · intro hall j hj
      exact hall _ ⟨j, by omega, rfl⟩
    · rintro hall _ ⟨j, hj, rfl⟩
      exact hall j (by omega)
  rw [hindex, List.findIdx?_eq_some_iff_getElem, hinner]
  simp [hlength, hframe, Frame.binds]

end Site

/-- An index that a struct answers gets the discriminator of that struct
exactly if it does not lie in the property that it asks for and no struct
further in binds a discriminator around it. In general the innermost struct
that binds one captures it. -/
theorem Schema.discriminator_binder_iff {env : Environment} {scope : Scope}
    {type : Schema}
    {c : Compiled} (h : (type.compile env scope).outcome = .ok c) :
    (∀ o ∈ type.occurrencesAt scope.isRoot, ∃ s ∈ type.sitesAt scope.isRoot,
      s.occurrence = o) ∧
    ∀ s ∈ type.sitesAt scope.isRoot, s.occurrence.isHidden = false →
      ∀ r, s.link.asks? = some r → ∀ names selector? place,
        s.frames[r.parents]? = some (.struct names selector? place) →
          r.property ∈ names →
          (∃ u, c.expr.at? (s.around r.parents) = some u ∧
            IsUnionOver env names r.property u) ∧
          (∃ info keys, c.expr.at? s.address =
            some (DispatcherHead.dynamicAccess info [] keys r)) ∧
          c.expr.at? (s.address ++ [.check]) = some discriminator ∧
          (∀ q, c.expr.binder? "S" (s.address ++ q) = s.binder?) ∧
          (s.binder? = some (s.around r.parents ++ [.object]) ↔
            place ≠ .property r.property true ∧
              ∀ frame ∈ s.frames.take r.parents, frame.binds = false) := by
  have hrules := Schema.compile_sound h
  refine ⟨fun o ho => List.mem_map.mp (Schema.mem_sitesAt_iff.mpr ho), ?_⟩
  intro s hs hhidden r hasks names selector? place hframe hmem
  have hlands := hrules.lands s hs
  -- The struct is a union over the property, as it answers the request.
  have hoccurrence : s.occurrence ∈ type.occurrencesAt scope.isRoot :=
    Schema.mem_sitesAt_iff.mp (List.mem_map_of_mem hs)
  obtain rfl := hrules.selects _ hoccurrence hhidden r hasks names selector?
    place hframe hmem
  obtain ⟨l, hlevel, hl⟩ : ∃ l, s.levels[r.parents]? = some l ∧
      l.frame = .struct names (some r.property) place := by
    rw [Site.frames, List.getElem?_map] at hframe
    exact Option.map_eq_some_iff.mp hframe
  obtain ⟨-, hunion⟩ := hlands.union _ l names r.property place hlevel hl
  -- There is a level around the index, so it has no type arguments.
  obtain ⟨info, given, keys, hgiven, hat⟩ := hlands.stands r hasks
  obtain rfl : given = [] := by
    rcases hgiven with rfl | ⟨-, hlevels⟩
    · rfl
    · rw [hlevels] at hlevel
      cases hlevel
  refine ⟨hunion, ⟨info, keys, hat⟩, ?_, fun q => ?_,
    hlands.binder?_eq_iff hlevel hl⟩
  · rw [TypeExpr.at?_append hat]
    exact info.at?_dynamicAccess [] keys r
  · rw [TypeExpr.binder?_append hat,
      TypeExpr.binder?_eq_none (info.isUnmapped_dynamicAccess keys r)]
    exact hlands.binder

/-- Two indices in one struct: the first asks for a property of that struct, and
the second for one of the struct around it. -/
def nestedIndices : Schema :=
  let field (name : String) (type : Schema) : Field :=
    .pair (.name name) type false false .null []
  let thing (steps : List Accessor) : Schema :=
    .dispatcher (.str "minecraft:thing") [.dynamic steps] []
  .struct
    [field "type" (.string none []),
      field "inner" (.struct
        [field "kind" (.string none []), field "a" (thing [.property "kind"]),
          field "b" (thing [.keyword (.str "parent"), .property "type"])] [])]
            []

/-- Both indices get the discriminator of the inner struct. -/
theorem discriminator_captured :
    let env : Environment :=
      { dispatchers := Table.empty.put "minecraft:thing" { name := "Thing" } }
    ∃ c, (nestedIndices.compile env {}).outcome = .ok c ∧
      ∃ s ∈ nestedIndices.sites, s.link.asks? = some ⟨1, "type"⟩ ∧
        s.frames[1]? = some
          (.struct ["type", "inner"] (some "type") (.property "inner" true)) ∧
        c.expr.at? (s.address ++ [.check]) = some discriminator ∧
        c.expr.binder? "S" (s.address ++ [.check]) ≠
          some (s.around 1 ++ [.object]) := by
  intro env
  obtain ⟨c, hc⟩ :
      ∃ c, (nestedIndices.compile env {}).outcome = .ok c := ⟨_, rfl⟩
  obtain ⟨-, hall⟩ := Schema.discriminator_binder_iff hc
  have hsite : nestedIndices.sites[1]? = some
      { link := .dispatcher (.str "minecraft:thing")
          [.dynamic [.keyword (.str "parent"), .property "type"]]
        levels :=
          [⟨.struct ["kind", "a", "b"] (some "kind") (.property "b" true),
              [.object, .value, .property 2]⟩,
            ⟨.struct ["type", "inner"] (some "type") (.property "inner" true),
              [.object, .value, .property 1]⟩]
        lead := [] } := by rfl
  have hs := List.mem_of_getElem? hsite
  obtain ⟨-, -, hat, hbinder, hiff⟩ :=
    hall _ hs rfl ⟨1, "type"⟩ rfl _ _ _ rfl (by simp)
  refine ⟨c, hc, _, hs, rfl, rfl, hat, ?_⟩
  rw [hbinder, Ne, hiff, not_and]
  intro _ hfree
  -- The inner struct is a union over its own property.
  simp [Site.frames, Frame.binds] at hfree

end Typings
