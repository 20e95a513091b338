import Typings.Proofs.Site

/-!
A compiled type has all of its sites in it: following the turns of a site leads
to what the occurrence compiles to, the structs around it stand at the addresses
of their levels, and the discriminator is bound on the way by the innermost of
them that binds it.
-/

namespace Typings

theorem Level.allTurns_append (levels more : List Level) :
    allTurns (levels ++ more) = allTurns more ++ allTurns levels := by
  simp [allTurns]

theorem Level.allTurns_singleton (l : Level) : allTurns [l] = l.turns := by
  simp [allTurns]

namespace Site

variable {s : Site} {frame : Frame} {turns : List Turn}

theorem address_below : (s.below turns).address = turns ++ s.address := by
  simp [address, below]

theorem around_below (level : Nat) :
    (s.below turns).around level = turns ++ s.around level := by
  simp [around, below]

theorem binder?_below :
    (s.below turns).binder? = s.binder?.map (turns ++ ·) := by
  have haround : ∀ level, (s.below turns).around level ++ [.object] =
      turns ++ (s.around level ++ [.object]) := by
    intro level
    rw [around_below, List.append_assoc]
  simp only [binder?, haround, Option.map_map]
  rfl

theorem address_within :
    (s.within frame turns).address = turns ++ s.address := by
  simp [address, within, Level.allTurns_append, Level.allTurns_singleton]

theorem around_within_of_lt {level : Nat} (h : level < s.levels.length) :
    (s.within frame turns).around level = turns ++ s.around level := by
  have hdrop : level + 1 - s.levels.length = 0 := by omega
  simp [around, within, List.drop_append, hdrop, Level.allTurns_append,
    Level.allTurns_singleton]

/-- Seen from outside, the new level is everything. -/
theorem around_within_length :
    (s.within frame turns).around s.levels.length = [] := by
  simp [around, within, Level.allTurns]

theorem binder?_within : (s.within frame turns).binder? =
    (s.binder?.map (turns ++ ·)).or
      (if frame.binds then some [.object] else none) := by
  have hlevels : (s.within frame turns).levels =
      s.levels ++ [⟨frame, turns ++ s.lead⟩] := rfl
  rw [binder?, hlevels, List.findIdx?_append]
  cases hfind : s.levels.findIdx? fun l => l.frame.binds with
  | some level =>
      have hlt : level < s.levels.length :=
        (List.findIdx?_eq_some_iff_getElem.mp hfind).1
      simp [binder?, hfind, around_within_of_lt hlt]
  | none =>
      cases hbinds : frame.binds with
      | false => simp [binder?, hfind, hbinds]
      | true => simp [binder?, hfind, hbinds, around_within_length]

end Site

/-- The expression is what a struct with the given names compiles to as a union
over one of them. -/
def IsUnionOver (env : Environment) (names : List String) (name : String)
    (t : TypeExpr) : Prop :=
  ∃ scope fields parts values ps, CompilesFields env scope fields parts ∧
    Field.liveNames fields = names ∧
    selectProperty name (Part.properties parts) = some (values, ps) ∧
    t = distribute values (composeParts parts ps)

/-- The expression has the site in it: an index that asks for a property stands
at the address, the binder there is that of the innermost struct that binds, and
every struct that is a union over a property stands where its level says. Only
an index that is the whole type has the type arguments. -/
structure Site.Lands (env : Environment) (args : List TypeExpr) (s : Site)
    (t : TypeExpr) : Prop where
  stands : ∀ r, s.link.asks? = some r → ∃ info given keys,
    (given = [] ∨ given = args ∧ s.levels = []) ∧
      t.at? s.address = some (DispatcherHead.dynamicAccess info given keys r)
  binder : t.binder? "S" s.address = s.binder?
  union : ∀ (level : Nat) (l : Level) names name place,
    s.levels[level]? = some l →
    l.frame = .struct names (some name) place →
      l.turns ≠ [] ∧ ∃ u, t.at? (s.around level) = some u ∧
        IsUnionOver env names name u

namespace Site.Lands

variable {env : Environment} {args : List TypeExpr} {s : Site} {t u : TypeExpr}
  {turns : List Turn}

theorem mono (h : s.Lands env [] t) : s.Lands env args t where
  stands r hr := by
    obtain ⟨info, given, keys, hgiven, hat⟩ := h.stands r hr
    exact ⟨info, given, keys, Or.inl (hgiven.elim id (·.1)), hat⟩
  binder := h.binder
  union := h.union

/-- Turns that pass no binder lead from a type to what lands in a part of it. -/
theorem below (h : s.Lands env [] u) (hat : t.at? turns = some u)
    (hvalue : .value ∉ turns) :
    (s.below turns).Lands env args t where
  stands r hr := by
    obtain ⟨info, given, keys, hgiven, hstands⟩ := h.stands r hr
    refine ⟨info, given, keys, Or.inl (hgiven.elim id (·.1)), ?_⟩
    rw [address_below, TypeExpr.at?_append hat, hstands]
  binder := by
    rw [address_below, TypeExpr.binder?_append hat, h.binder, binder?_below,
      TypeExpr.binder?_of_value_not_mem hvalue, Option.or_none]
  union level l names name place hlevel hframe := by
    obtain ⟨hturns, v, hstands, hunion⟩ :=
      h.union level l names name place hlevel hframe
    refine ⟨hturns, v, ?_, hunion⟩
    rw [around_below, TypeExpr.at?_append hat, hstands]

/-- A new level binds the discriminator on the way in, or does not,
as its frame says. -/
theorem within {frame : Frame}
    (h : s.Lands env [] u) (hat : t.at? turns = some u)
    (hbinder : t.binder? "S" turns =
      if frame.binds then some [.object] else none)
    (hunion : ∀ names name place, frame = .struct names (some name) place →
      turns ≠ [] ∧ IsUnionOver env names name t) :
    (s.within frame turns).Lands env args t where
  stands r hr := by
    obtain ⟨info, given, keys, hgiven, hstands⟩ := h.stands r hr
    refine ⟨info, given, keys, Or.inl (hgiven.elim id (·.1)), ?_⟩
    rw [address_within, TypeExpr.at?_append hat, hstands]
  binder := by
    rw [address_within, TypeExpr.binder?_append hat, h.binder,
      binder?_within, hbinder]
  union level l names name place hlevel hframe := by
    by_cases hinner : level < s.levels.length
    · rw [Site.within, List.getElem?_append_left hinner] at hlevel
      obtain ⟨hturns, v, hstands, hunion⟩ :=
        h.union level l names name place hlevel hframe
      refine ⟨hturns, v, ?_, hunion⟩
      rw [around_within_of_lt hinner, TypeExpr.at?_append hat, hstands]
    · have hlength : level = s.levels.length := by
        have hlt := (List.getElem?_eq_some_iff.mp hlevel).1
        simp only [Site.within, List.length_append,
          List.length_singleton] at hlt
        omega
      subst hlength
      rw [Site.within, List.getElem?_concat_length] at hlevel
      cases hlevel
      obtain ⟨hturns, hunion⟩ := hunion names name place hframe
      refine ⟨by simp [hturns], t, ?_, hunion⟩
      rw [around_within_length, TypeExpr.at?_nil]

/-- What is only a reference asks for nothing. -/
theorem reference {path : Json} :
    Lands env args ⟨.reference path, [], []⟩ t where
  stands r hr := by cases hr
  binder := rfl
  union level l names name place hlevel := by cases hlevel

end Site.Lands

/-- The site lands in what the part adds, at the place and on the way that
the layout gives. -/
inductive Part.Holds (env : Environment) (whole : Layout)
    (before after : List Part) :
    Part → Place × List Turn × Site → Prop where
  | own {key : String} {optional : Bool} {docs : List String} {v : Compiled}
      {s : Site} (h : s.Lands env [] v.expr) :
      Holds env whole before after (.own key optional docs v)
        (.property key !((properties after).map (·.name)).contains key,
          whole.turns (layout before) .own, s)
  | keys {keys : TypeExpr} {imports : Option ImportPaths} {v : Compiled}
      {s : Site} (h : s.Lands env [] keys) :
      Holds env whole before after (.mapped keys imports v)
        (.keys, whole.turns (layout before) .mapped ++ [.keys], s)
  | value {keys : TypeExpr} {imports : Option ImportPaths} {v : Compiled}
      {s : Site} (h : s.Lands env [] v.expr) :
      Holds env whole before after (.mapped keys imports v)
        (.rest, whole.turns (layout before) .mapped ++ [.value], s)
  | spread {v : Compiled} {s : Site} (h : s.Lands env [] v.expr) :
      Holds env whole before after (.spread v)
        (.rest, whole.turns (layout before) .spread, s)

theorem Layout.value_not_mem_turns (whole before : Layout) (kind : PartKind) :
    .value ∉ whole.turns before kind := by
  have hmember : ∀ i, .value ∉ whole.member i := by
    intro i
    rw [Layout.member]
    split <;> simp
  cases kind with
  | own => simp [turns, hmember]
  | mapped => exact hmember _
  | spread =>
      rw [turns]
      split
      · exact hmember _
      · exact hmember _

section Structs

variable {env : Environment} {before after : List Part} {p : Part}
  {e : Place × List Turn × Site}

/-- Inside a struct, a part lands where the layout says, as long as its property
is not replaced. -/
theorem Part.Holds.at?_composeParts {ps : List Property}
    (h : p.Holds env (layout (before ++ p :: after)) before after e)
    (hlength : ps.length = (properties (before ++ p :: after)).length)
    (hown : ∀ q, p.property? = some q →
      ps[(properties before).length]? = some q) :
    ∃ u, e.2.2.Lands env [] u ∧
      (composeParts (before ++ p :: after) ps).at? e.2.1 = some u ∧
      (composeParts (before ++ p :: after) ps).binder? "S" e.2.1 = none := by
  have hnone :
      ∀ kind, TypeExpr.binder? "S" (composeParts (before ++ p :: after) ps)
      ((layout (before ++ p :: after)).turns (layout before) kind) = none :=
    fun kind =>
      TypeExpr.binder?_of_value_not_mem (Layout.value_not_mem_turns _ _ kind)
  cases h with
  | own h => exact ⟨_, h, at?_composeParts_own hlength (hown _ rfl), hnone .own⟩
  | keys h =>
      have hat := at?_composeParts_mapped hlength
      refine ⟨_, h, TypeExpr.at?_append hat, ?_⟩
      rw [TypeExpr.binder?_append hat, hnone]
      rfl
  | value h =>
      have hat := at?_composeParts_mapped hlength
      refine ⟨_, h, TypeExpr.at?_append hat, ?_⟩
      rw [TypeExpr.binder?_append hat, hnone]
      rfl
  | spread h => exact ⟨_, h, at?_composeParts_spread hlength, hnone .spread⟩

/-- A struct that is a union over a property binds the discriminator in
all that is inside. -/
theorem binder?_distribute {values inner : TypeExpr} {turns : List Turn}
    (h : inner.binder? "S" turns = none) :
    (distribute values inner).binder? "S" ([.object, .value] ++ turns) =
      some [.object] := by
  have hinner :
      (distribute values inner).at? [.object, .value] = some inner := rfl
  rw [TypeExpr.binder?_append hinner, h]
  rfl

theorem Part.properties_append_cons {q : Property} (h : p.property? = some q) :
    properties (before ++ p :: after) =
      properties before ++ q :: properties after := by
  rw [properties_append]
  exact congrArg _ (List.filterMap_cons_some h)

/-- What lies in the selected property lands in the values that the struct
is a union over. -/
theorem Part.Holds.lands_selected {whole : Layout} {name : String}
    {values : TypeExpr}
    {ps : List Property} (h : p.Holds env whole before after e)
    (hselect : selectProperty name (properties (before ++ p :: after)) =
      some (values, ps))
    (hplace : e.1 = .property name true) : e.2.2.Lands env [] values := by
  cases h with
  | @own key optional docs v s h =>
      obtain ⟨rfl, hlast⟩ := Place.property.inj hplace
      have hbehind : ∀ q ∈ properties after, q.name ≠ key := by
        simpa using hlast
      have hfound : selectProperty key
          (properties before ++ .mk key v.expr optional docs ::
          properties after) = some (v.expr, _) :=
        selectProperty_append rfl hbehind
      rw [properties_append_cons rfl, hfound] at hselect
      cases hselect
      exact h
  | _ => cases hplace

/-- Every other property is still there. -/
theorem Part.Holds.property_kept {whole : Layout} {name : String}
    {values : TypeExpr}
    {ps : List Property} (h : p.Holds env whole before after e)
    (hselect : selectProperty name (properties (before ++ p :: after)) =
      some (values, ps)) (hplace : e.1 ≠ .property name true) :
    ∀ q, p.property? = some q → ps[(properties before).length]? = some q := by
  intro q hq
  rw [properties_append_cons hq] at hselect
  refine getElem?_selectProperty hselect fun hname => ?_
  cases h with
  | own h =>
      cases hq
      subst hname
      simpa [Property.name] using hplace
  | _ => cases hq

/-- A struct has the sites of its fields. -/
theorem Part.Holds.lands_structBody {scope : Scope} {fields : List Field}
    {args : List TypeExpr} {selector? : Option String} {turns : List Turn}
    (h : p.Holds env (layout (before ++ p :: after)) before after e)
    (hfields : CompilesFields env scope fields (before ++ p :: after))
    (hselector : ∀ name, selector? = some name →
      ∃ found, selectProperty name (properties (before ++ p :: after)) =
        some found) (hturns : turns ∈ structTurns selector? e.1 e.2.1) :
    (e.2.2.within (.struct (Field.liveNames fields) selector? e.1) turns).Lands
      env args (structBody (before ++ p :: after) selector?) := by
  cases selector? with
  | none =>
      obtain rfl := List.mem_singleton.mp hturns
      obtain ⟨u, hlands, hat, hbinder⟩ := h.at?_composeParts rfl (by
        intro q hq
        rw [properties_append_cons hq]
        simp)
      exact hlands.within hat hbinder (by simp)
  | some name =>
      obtain ⟨⟨values, ps⟩, hselect⟩ := hselector name rfl
      have hbody : structBody (before ++ p :: after) (some name) =
          distribute values (composeParts (before ++ p :: after) ps) := by
        simp only [structBody, Option.bind_some, hselect]
      have hunion : ∀ names' name' place,
          Frame.struct (Field.liveNames fields) (some name) e.1 =
          .struct names' (some name') place →
            IsUnionOver env names' name'
              (distribute values (composeParts (before ++ p :: after) ps)) := by
        rintro names' name' place ⟨⟩
        exact ⟨scope, fields, _, values, ps, hfields, rfl, hselect, rfl⟩
      rw [hbody]
      by_cases hplace : e.1 = .property name true
      · have hlands := h.lands_selected hselect hplace
        have hbinds :
            (Frame.struct (Field.liveNames fields) (some name) e.1).binds =
              false := by
          simp [Frame.binds, hplace]
        rw [structTurns, if_pos hplace] at hturns
        rcases List.mem_pair.mp hturns with rfl | rfl
        · exact hlands.within rfl (by rw [hbinds]; rfl) fun _ _ _ hframe =>
            ⟨by simp, hunion _ _ _ hframe⟩
        · exact hlands.within rfl (by rw [hbinds]; rfl) fun _ _ _ hframe =>
            ⟨by simp, hunion _ _ _ hframe⟩
      · have hbinds :
            (Frame.struct (Field.liveNames fields) (some name) e.1).binds =
              true := by
          simpa [Frame.binds] using hplace
        rw [structTurns, if_neg hplace] at hturns
        obtain rfl := List.mem_singleton.mp hturns
        obtain ⟨u, hlands, hat, hbinder⟩ :=
          h.at?_composeParts (length_selectProperty hselect)
            (h.property_kept hselect hplace)
        refine hlands.within hat ?_ fun _ _ _ hframe => ⟨by simp,
          hunion _ _ _ hframe⟩
        rw [hbinds]
        exact binder?_distribute hbinder

end Structs

theorem sitesAt_eq_nil {isRoot : Bool} {type : Schema}
    (h : type.isLeaf = true) :
    type.sitesAt isRoot = [] := by
  cases type <;> cases h <;> cases isRoot <;> rfl

/-- Where no template and no index is at the head, the root
makes no difference. -/
theorem sitesAt_eq {isRoot : Bool} {type : Schema}
    (h : type.rootSites = type.sites) :
    type.sitesAt isRoot = type.sites := by
  cases isRoot with
  | false => rfl
  | true => exact h

theorem sitesLive_eq (way : Nat → List Turn) (i : Nat) (types : List Schema) :
    Schema.sitesLive way i types =
      Schema.sitesAll way i (types.filter (·.isLive)) := by
  induction types generalizing i with
  | nil => rfl
  | cons type rest ih =>
      rw [Schema.sitesLive, List.filter_cons]
      split
      · rw [Schema.sitesAll, ih]
      · exact ih i

theorem fieldSites_gone {whole before : Layout} {field : Field}
    {rest : List Field} (h : field.isLive = false) :
    Schema.fieldSites whole before (field :: rest) =
      Schema.fieldSites whole before rest := by
  have hgone : ¬ field.isLive = true := Bool.eq_false_iff.mp h
  cases field with
  | pair key type optional deprecated description attributes =>
      cases key <;> rw [Schema.fieldSites, if_neg hgone]
  | spread type attributes => rw [Schema.fieldSites, if_neg hgone]

section Run

variable {env : Environment}

theorem CompilesAll.length_eq :
    ∀ {scope : Scope} {types : List Schema} {cs : List Compiled},
    CompilesAll env scope types cs → cs.length = types.length
  | _, _, _, .nil => rfl
  | _, _, _, .cons _ hrest => congrArg (· + 1) (CompilesAll.length_eq hrest)

theorem kinds_cons {field : Field} {fields : List Field} {part : Part}
    {parts : List Part}
    (hlive : field.isLive = true) (hkind : field.kind = part.kind)
    (hrest : (fields.filter (·.isLive)).map (·.kind) = parts.map (·.kind)) :
    ((field :: fields).filter (·.isLive)).map (·.kind) =
      (part :: parts).map (·.kind) := by
  rw [List.filter_cons_of_pos hlive, List.map_cons, List.map_cons, hkind, hrest]

theorem CompilesFields.kinds_eq {scope : Scope} {fields : List Field}
    {parts : List Part} (h : CompilesFields env scope fields parts) :
    (fields.filter (·.isLive)).map (·.kind) = parts.map (·.kind) := by
  induction fields generalizing parts with
  | nil => cases h with | nil => rfl
  | cons field rest ih =>
      cases h with
      | gone hgone hrest =>
          rw [List.filter_cons_of_neg (Bool.eq_false_iff.mp hgone)]
          exact ih hrest
      | own hlive _ _ hrest => exact kinds_cons hlive rfl (ih hrest)
      | mapped hlive _ _ hrest => exact kinds_cons hlive rfl (ih hrest)
      | spread hlive _ hrest => exact kinds_cons hlive rfl (ih hrest)

/-- The fields of a struct have the layout of its parts. -/
theorem CompilesFields.layout_eq {scope : Scope} {fields : List Field}
    {parts : List Part} (h : CompilesFields env scope fields parts) :
    Field.layout fields = Part.layout parts :=
  congrArg Layout.of h.kinds_eq

theorem CompilesFields.selectProperty_of_selectorOf {scope : Scope}
    {fields : List Field}
    {parts : List Part} {placed : List (Place × Occurrence)} {name : String}
    (h : CompilesFields env scope fields parts)
    (hname : selectorOf (Field.liveNames fields) placed = some name) :
    ∃ found, selectProperty name (Part.properties parts) = some found := by
  refine Option.ne_none_iff_exists'.mp fun hnone =>
    h.selectProperty_none_iff.mp hnone ?_
  exact List.contains_iff_mem.mp (List.find?_some hname)

/-- An index lands where it is, unless it is the whole type at the root. -/
theorem lands_compileDispatcher {scope : Scope} {registry registry' : Json}
    {indices : List Index} {index : IndexForm} {keys : List Json} {c : Compiled}
    (hindex : IndexForm.ofIndices? indices = some index)
    (hc : (compileDispatcher env scope registry index keys).outcome = .ok c)
    (hroot : scope.isRoot = false) :
    Site.Lands env scope.args ⟨.dispatcher registry' indices, [],
      []⟩ c.expr := by
  obtain ⟨key, info, -, rfl⟩ := compileDispatcher_eq_ok hc
  refine ⟨fun r hr => ?_, rfl,
    fun level l names name place hlevel => by cases hlevel⟩
  refine ⟨info, scope.args, keys, Or.inr ⟨rfl, rfl⟩, ?_⟩
  rw [asks?_dispatcher hindex] at hr
  cases index with
  | dynamic parents property =>
      cases hr
      rw [hroot]
      rfl
  | _ => cases hr

theorem lands_compileUnion {args : List TypeExpr} {members : List Schema}
    {cs : List Compiled} {s : Site} {i : Nat} {c : Compiled}
    (hlength : cs.length = (members.filter (·.isLive)).length)
    (hget : cs[i]? = some c) (h : s.Lands env [] c.expr) :
    (s.below (unionTurns members i)).Lands env args (compileUnion cs).expr := by
  rw [unionTurns, ← hlength]
  match cs with
  | [] => cases hget
  | [one] =>
      cases i with
      | zero =>
          cases hget
          exact h.below rfl (by simp)
      | succ i => cases hget
  | c₁ :: c₂ :: rest =>
      rw [if_neg (by simp)]
      refine h.below ?_ (by simp)
      have hmember : ((c₁ :: c₂ :: rest).map (·.expr))[i]? = some c.expr := by
        rw [List.getElem?_map, hget]
        rfl
      change (((c₁ :: c₂ :: rest).map (·.expr))[i]?).bind (·.at? []) = _
      rw [hmember]
      rfl

mutual

/-- A compiled type has all of its sites in it. -/
theorem Compiles.lands : ∀ {scope : Scope} {type : Schema} {c : Compiled},
    Compiles env scope type c →
      ∀ s ∈ type.sitesAt scope.isRoot, s.Lands env scope.args c.expr
  | _, _, _, .leaf hleaf _ _ => by
      rw [sitesAt_eq_nil hleaf]
      simp
  | _, _, _, .reference _ => by
      rw [sitesAt_eq rfl]
      exact List.forall_mem_singleton.mpr Site.Lands.reference
  | _, _, _, .concrete hargs hc => by
      have hall := CompilesAll.lands hargs rfl rfl (fun i => [.argument i]) 0
      obtain ⟨target, -, rfl⟩ := compileReference_eq_ok hc
      rw [sitesAt_eq rfl]
      refine List.forall_mem_cons.mpr ⟨Site.Lands.reference, fun s hs => ?_⟩
      obtain ⟨i, c, s', hget, hlands, rfl⟩ := hall s hs
      refine hlands.below ?_ (by simp)
      simp [Compiled.ofExpr, Compiled.expr, Emitted.body, TypeExpr.at?,
        TypeExpr.part?, hget]
  | _, _, _, .template hroot _ _ hbody => by
      have hinner := Compiles.lands hbody
      rw [hroot] at hinner ⊢
      exact fun s hs => (hinner s hs).mono
  | _, _, _, .list hitem hc => by
      have hinner := Compiles.lands hitem
      obtain ⟨-, -, htype⟩ := compileList_eq_ok hc
      rw [sitesAt_eq rfl]
      refine List.forall_mem_map.mpr fun s hs =>
        (hinner s hs).within ?_ ?_ (by simp)
      · rcases htype with ⟨htype, -⟩ | ⟨_, _, _, -, htype, -⟩
        · rw [Compiled.expr, htype]
          rfl
        · rw [Compiled.expr, htype]
          rfl
      · exact TypeExpr.binder?_of_value_not_mem (by simp)
  | _, _, _, .union hmembers => by
      have hall := CompilesAll.lands hmembers rfl rfl
      rw [sitesAt_eq rfl, Schema.sites, sitesLive_eq]
      intro s hs
      obtain ⟨i, c, s', hget, hlands, rfl⟩ := hall _ _ s hs
      rw [Nat.zero_add]
      exact lands_compileUnion hmembers.length_eq hget hlands
  | _, _, _, .tuple hitems => by
      have hall := CompilesAll.lands hitems rfl rfl
      rw [sitesAt_eq rfl, Schema.sites, sitesLive_eq]
      intro s hs
      obtain ⟨i, c, s', hget, hlands, rfl⟩ := hall _ _ s hs
      refine hlands.below ?_ (by simp)
      simp [compileTuple, Compiled.expr, Emitted.body, TypeExpr.at?,
        TypeExpr.part?, hget]
  | _, _, _, @Compiles.struct _ _ fields _ _ _ hfields hc => by
      have hall := CompilesFields.lands hfields (Field.layout fields) []
      obtain ⟨hbody, -⟩ := hfields.selector_eq hc
      rw [sitesAt_eq rfl, hbody]
      intro s hs
      obtain ⟨e, he, hs⟩ := List.mem_flatMap.mp hs
      obtain ⟨turns, hturns, rfl⟩ := List.mem_map.mp hs
      obtain ⟨before, p, after, rfl, hholds⟩ := hall e he
      rw [hfields.layout_eq] at hholds
      exact hholds.lands_structBody hfields
        (fun _ hname => hfields.selectProperty_of_selectorOf hname) hturns
  | scope, _, _, .dispatcher hindex hc => by
      cases hroot : scope.isRoot with
      | true => exact fun s hs => absurd hs List.not_mem_nil
      | false =>
          exact List.forall_mem_singleton.mpr
            (lands_compileDispatcher hindex hc hroot)
  | scope, _, _, .indexed hindex _ hc => by
      cases hroot : scope.isRoot with
      | true => exact fun s hs => absurd hs List.not_mem_nil
      | false =>
          exact List.forall_mem_singleton.mpr
            (lands_compileDispatcher hindex hc hroot)

theorem CompilesAll.lands :
    ∀ {scope : Scope} {types : List Schema} {cs : List Compiled},
    CompilesAll env scope types cs → scope.isRoot = false → scope.args = [] →
      ∀ (way : Nat → List Turn) (i : Nat), ∀ s ∈ Schema.sitesAll way i types,
        ∃ j c, ∃ s' : Site, cs[j]? = some c ∧ s'.Lands env [] c.expr ∧
          s = s'.below (way (i + j))
  | _, _, _, .nil, _, _, _, _ => by simp [Schema.sitesAll]
  | _, _, _, .cons htype hrest, hroot, hargs, way, i => by
      have hhead := Compiles.lands htype
      rw [hroot, hargs] at hhead
      rw [Schema.sitesAll, List.forall_mem_append, List.forall_mem_map]
      refine ⟨fun s hs => ⟨0, _, s, rfl, hhead s hs, rfl⟩, fun s hs => ?_⟩
      obtain ⟨j, c, s', hget, hlands, rfl⟩ :=
        CompilesAll.lands hrest hroot hargs way (i + 1) s hs
      exact ⟨j + 1, c, s', hget, hlands, by rw [Nat.add_assoc, Nat.add_comm 1]⟩

theorem CompilesFields.lands :
    ∀ {scope : Scope} {fields : List Field} {parts : List Part},
    CompilesFields env scope fields parts →
      ∀ (whole : Layout) (front : List Part),
      ∀ e ∈ Schema.fieldSites whole (Part.layout front) fields,
        ∃ before p after, front ++ parts = before ++ p :: after ∧
          p.Holds env whole before after e
  | _, _, _, .nil, _, _ => by simp [Schema.fieldSites]
  | _, _, _, .gone hgone hrest, whole, front => by
      rw [fieldSites_gone hgone]
      exact CompilesFields.lands hrest whole front
  | _, _, _, @CompilesFields.own _ _ name _ optional _ _ _ docs value _ _ hlive
      hvalue _ hrest, whole, front => by
      have hhead := Compiles.lands hvalue
      have htail := CompilesFields.lands hrest whole
        (front ++ [.own name optional docs value])
      rw [Part.layout_concat, List.append_assoc] at htail
      rw [Schema.fieldSites, if_pos hlive, List.forall_mem_append,
        List.forall_mem_map]
      refine ⟨fun s hs => ⟨front, _, _, rfl, ?_⟩, htail⟩
      rw [← hrest.names_eq]
      exact .own (hhead s hs)
  | _, _, _, @CompilesFields.mapped _ _ _ _ _ _ _ _ keys imports value _ _ hlive
      hkey hvalue hrest, whole, front => by
      have hkeys := CompilesKey.lands hkey
      have hhead := Compiles.lands hvalue
      have htail :=
        CompilesFields.lands hrest whole (front ++ [.mapped keys imports value])
      rw [Part.layout_concat, List.append_assoc] at htail
      rw [Schema.fieldSites, if_pos hlive, List.forall_mem_append,
        List.forall_mem_append, List.forall_mem_map, List.forall_mem_map]
      exact ⟨⟨fun s hs => ⟨front, _, _, rfl, .keys (hkeys s hs)⟩,
        fun s hs => ⟨front, _, _, rfl, .value (hhead s hs)⟩⟩, htail⟩
  | _, _, _, @CompilesFields.spread _ _ _ _ value _ _ hlive hvalue hrest, whole,
      front => by
      have hhead := Compiles.lands hvalue
      have htail := CompilesFields.lands hrest whole (front ++ [.spread value])
      rw [Part.layout_concat, List.append_assoc] at htail
      rw [Schema.fieldSites, if_pos hlive, List.forall_mem_append,
        List.forall_mem_map]
      exact ⟨fun s hs => ⟨front, _, _, rfl, .spread (hhead s hs)⟩, htail⟩

theorem CompilesKey.lands : ∀ {scope : Scope} {type : Schema} {keys : TypeExpr}
    {imports : Option ImportPaths},
    CompilesKey env scope type keys imports →
      ∀ s ∈ type.sites, s.Lands env [] keys
  | _, _, _, _, .string _ _ => by simp [Schema.sites]
  | _, _, _, _, .computed htype => Compiles.lands htype

end

end Run

end Typings
