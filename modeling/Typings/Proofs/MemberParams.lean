import Typings.Proofs.DeclaredNames
import Typings.Proofs.IndexArity

/-!
Type parameters of members. The declarations of a dispatcher refer to its
members with the type parameters that they share, which are those of one member.
Another member keeps its own type parameters behind the shared ones that it does
not have, so an argument reaches the parameter of its name only if the shared
type parameters end in those of the member.
-/

namespace Typings

/-- A type parameter without bound and default. -/
def TypeParameter.bare (name : String) : TypeParameter :=
  { name }

/-- The names of the type parameters that the templates at the
head of a type have. -/
def Schema.ownNames (type : Schema) : List String :=
  type.headParams.map lastSegment

/-- Does the type get the discriminator as a type parameter at the root? A
struct does if a request is pending in it, a template if its body does, or if a
request is pending there and no type parameter has the name. -/
def Schema.AddsDiscriminator : Schema → Prop
  | .struct fields attributes =>
      ∃ o ∈ (Schema.struct fields attributes).rootOccurrences, o.IsPending
  | .template child params attributes => child.AddsDiscriminator ∨
      "S" ∉ (Schema.template child params attributes).ownNames ∧
        ∃ o ∈ child.rootOccurrences, o.IsPending
  | _ => False

/-- The type parameters are those of the templates, and then the discriminator
if the type gets it. -/
def Schema.HasParams (type : Schema) (params : List TypeParameter) : Prop :=
  type.AddsDiscriminator ∧
    params = type.ownNames.map .bare ++ [.discriminator] ∨
    ¬ type.AddsDiscriminator ∧ params = type.ownNames.map .bare

theorem Schema.not_addsDiscriminator {type : Schema}
    (h : type.isDeclarable = false) :
    ¬ type.AddsDiscriminator := by
  cases type <;> cases h <;> exact id

theorem any_bare {names : List String} {name : String} :
    (names.map TypeParameter.bare).any (·.name == name) = true ↔
      name ∈ names := by
  rw [List.any_map, List.any_eq_true]
  constructor
  · rintro ⟨other, hother, heq⟩
    exact beq_iff_eq.mp heq ▸ hother
  · intro hname
    exact ⟨name, hname, beq_self_eq_true _⟩

theorem Schema.ownNames_template (child : Schema) (params : List Json)
    (attributes : List Attribute) :
    (Schema.template child params attributes).ownNames =
      (params.filterMap (·.text?)).map lastSegment ++ child.ownNames := by
  rw [ownNames, headParams, List.map_append]
  rfl

/-- Without a type parameter of the name of the discriminator, what waits for
it are requests. -/
theorem Schema.requests_ne_nil_iff {type : Schema} {c : Compiled}
    (hparams : c.type.params = type.ownNames.map .bare)
    (hS : "S" ∉ type.ownNames)
    (hwaits : ((∃ p ∈ c.type.params, p.name = "S") ∨ c.requests ≠ []) ↔
      (∃ path ∈ type.headParams, lastSegment path = "S") ∨
        ∃ o ∈ type.rootOccurrences, o.IsPending) :
    c.requests ≠ [] ↔ ∃ o ∈ type.rootOccurrences, o.IsPending := by
  have hdeclared : ¬ ∃ p ∈ c.type.params, p.name = "S" := by
    rw [hparams]
    rintro ⟨p, hp, hname⟩
    obtain ⟨name, hmem, rfl⟩ := List.mem_map.mp hp
    exact hS (hname ▸ hmem)
  have hhead : ¬ ∃ path ∈ type.headParams, lastSegment path = "S" := by
    intro hpath
    exact hS (List.mem_map.mpr hpath)
  rwa [or_iff_right hdeclared, or_iff_right hhead] at hwaits

section Root

variable {env : Environment}

theorem Schema.HasParams.template {child : Schema}
    {params : List Json} {attributes : List Attribute}
    {paths : List String} {c : Compiled} (h : child.HasParams c.type.params)
    (hparams : params.filterMap (·.text?) = paths)
    (hwaits : ((∃ p ∈ c.type.params, p.name = "S") ∨ c.requests ≠ []) ↔
      (∃ path ∈ child.headParams, lastSegment path = "S") ∨
        ∃ o ∈ child.rootOccurrences, o.IsPending) :
    (Schema.template child params attributes).HasParams
      (Typings.templateParams paths c) := by
  have hnames := Schema.ownNames_template child params attributes
  have hown :
      (paths.map fun path => ({ name := lastSegment path } : TypeParameter)) =
      (paths.map lastSegment).map .bare := by
    rw [List.map_map]
    rfl
  rw [hparams] at hnames
  rw [templateParams_eq, hown]
  rcases h with ⟨hadds, hinner⟩ | ⟨hadds, hinner⟩
  · -- The body has the discriminator already.
    refine Or.inl ⟨Or.inl hadds, ?_⟩
    rw [hinner, hnames, List.map_append, ← List.append_assoc]
    simp [TypeParameter.discriminator]
  · have hall : ((paths.map lastSegment).map .bare ++ c.type.params) =
        (Schema.template child params attributes).ownNames.map .bare := by
      rw [hinner, hnames, List.map_append]
    rw [hall]
    by_cases hS : "S" ∈ (Schema.template child params attributes).ownNames
    · refine Or.inr ⟨?_, by simp [any_bare.mpr hS]⟩
      rintro (hchild | ⟨hnot, -⟩)
      · exact hadds hchild
      · exact hnot hS
    · have hany := Bool.eq_false_iff.mpr fun h => hS (any_bare.mp h)
      have hfree : "S" ∉ child.ownNames :=
        fun h => hS (hnames ▸ List.mem_append_right _ h)
      have hpending := Schema.requests_ne_nil_iff hinner hfree hwaits
      by_cases hrequests : c.requests = []
      · refine Or.inr ⟨?_, by simp [hrequests]⟩
        rintro (hchild | ⟨-, hoccurs⟩)
        · exact hadds hchild
        · exact hpending.mpr hoccurs hrequests
      · refine Or.inl ⟨Or.inr ⟨hS, hpending.mp hrequests⟩, ?_⟩
        simp [hany, hrequests]

theorem Compiles.hasParams {scope : Scope} {type : Schema}
    {c : Compiled} (h : Compiles env scope type c)
    (hroot : scope.isRoot = true) : type.HasParams c.type.params := by
  have hother (hkind : type.isDeclarable = false) :
      type.HasParams c.type.params := by
    obtain ⟨hparams, hhead, -⟩ := h.waits_iff_of_not_isDeclarable hroot hkind
    refine Or.inr ⟨Schema.not_addsDiscriminator hkind, ?_⟩
    rw [hparams, Schema.ownNames, hhead]
    rfl
  cases h with
  | struct hfields hc =>
      have hopen := hfields.leavesOpen_iff hc
      obtain ⟨-, -, -, ⟨htype, hleaves⟩ | ⟨name, -, hleaves, htype⟩⟩ :=
        composeStruct_eq_ok hc
      · rw [hroot, Bool.true_and] at hleaves
        refine Or.inr ⟨fun hadds => ?_, by rw [htype]; rfl⟩
        rw [hopen.mpr hadds] at hleaves
        cases hleaves
      · rw [hroot, Bool.true_and] at hleaves
        exact Or.inl ⟨hopen.mp hleaves, by rw [htype]; rfl⟩
  | template _ _ hparams hbody =>
      exact (hbody.hasParams hroot).template (filterMap_text?_of_mapM hparams)
        (hbody.waits_iff hroot)
  | leaf hleaf => exact hother (Schema.isDeclarable_of_isLeaf hleaf)
  | _ => exact hother rfl

end Root

/-- Each argument reaches the type parameter of its name, and every further type
parameter has a default. -/
def Alias.Takes (a : Alias) (args : List TypeExpr) : Prop :=
  args = (a.params.take args.length).map (fun p => .named p.name) ∧
    ∀ p ∈ a.params.drop args.length, p.fallback.isSome = true

/-- The shared type parameters end in those of the type, and the others have
other names. The discriminator, if the type gets it, is the last of the shared
ones or comes after them. -/
def Schema.EndsShared (type : Schema) (shared : List String) : Prop :=
  ∃ front, (front ++ type.ownNames = shared ∨
      type.AddsDiscriminator ∧ front ++ type.ownNames ++ ["S"] = shared) ∧
    ∀ name ∈ front, name ∉ type.ownNames ∧ (type.AddsDiscriminator → name ≠ "S")

theorem named_injective : Function.Injective TypeExpr.named := by
  intro name name' h
  exact (TypeExpr.reference.inj h).1

theorem length_le_of_drop {required tail : List TypeParameter} {n : Nat}
    (hrequired : ∀ p ∈ required, p.fallback = none)
    (hrest : ∀ p ∈ (required ++ tail).drop n, p.fallback.isSome = true) :
    required.length ≤ n := by
  by_contra hlt
  obtain ⟨p, hp⟩ :=
    List.exists_mem_of_ne_nil (required.drop n) (by simpa using hlt)
  have hsome := hrest p (by
    rw [List.drop_append_of_le_length (by omega)]
    exact List.mem_append_left _ hp)
  rw [hrequired p (List.mem_of_mem_drop hp)] at hsome
  cases hsome

/-- If only a discriminator in the last place has a default, it is the only type
parameter that may be left out. -/
theorem Alias.takes_iff {a : Alias} {required tail shared : List TypeParameter}
    (hparams : a.params = required ++ tail)
    (hrequired : ∀ p ∈ required, p.fallback = none)
    (htail : tail = [] ∨ tail = [.discriminator]) :
    a.Takes (shared.map fun p => .named p.name) ↔
      required.map (·.name) = shared.map (·.name) ∨
      tail = [.discriminator] ∧
        required.map (·.name) ++ ["S"] = shared.map (·.name) := by
  have hnamed :
      ∀ ps : List TypeParameter, (shared.map fun p => TypeExpr.named p.name) =
      ps.map (fun p => .named p.name) ↔
        shared.map (·.name) = ps.map (·.name) := by
    intro ps
    rw [← List.map_inj_right (fun _ _ h => named_injective h), List.map_map,
      List.map_map]
    rfl
  rw [Takes, List.length_map, hnamed, hparams]
  constructor
  · rintro ⟨hnames, hrest⟩
    have hle := length_le_of_drop hrequired hrest
    rw [List.take_append, List.take_of_length_le hle, List.map_append] at hnames
    rcases htail with rfl | rfl
    · exact Or.inl (by simpa using hnames.symm)
    · cases hmore : shared.length - required.length with
      | zero => exact Or.inl (by simpa [hmore] using hnames.symm)
      | succ k =>
          exact Or.inr ⟨rfl, by simpa [hmore,
            TypeParameter.discriminator] using hnames.symm⟩
  · rintro (heq | ⟨rfl, heq⟩)
    · have hlength : required.length = shared.length := by
        simpa using congrArg List.length heq
      rw [← hlength, List.take_left, List.drop_left]
      refine ⟨heq.symm, fun p hp => ?_⟩
      rcases htail with rfl | rfl
      · cases hp
      · rw [List.mem_singleton.mp hp]
        rfl
    · have hlength : (required ++ [TypeParameter.discriminator]).length =
          shared.length := by
        simpa using congrArg List.length heq
      rw [← hlength, List.take_length, List.drop_length, List.map_append]
      exact ⟨heq.symm, by simp⟩

theorem filter_append_eq_iff {shared own more : List String}
    {keep : String → Bool} (h : ∀ name ∈ own ++ more, keep name = false) :
    shared.filter keep ++ own ++ more = shared ↔
      ∃ front, front ++ own ++ more = shared ∧
        ∀ name ∈ front, keep name = true := by
  constructor
  · intro heq
    exact ⟨_, heq, fun name hname => (List.mem_filter.mp hname).2⟩
  · rintro ⟨front, rfl, hfront⟩
    have hdropped : (own ++ more).filter keep = [] :=
      List.filter_eq_nil_iff.mpr fun name hname =>
        Bool.eq_false_iff.mp (h name hname)
    rw [List.append_assoc front, List.filter_append,
      List.filter_eq_self.mpr hfront, hdropped, List.append_nil,
      List.append_assoc]

theorem Schema.HasParams.exists_tail {type : Schema} {own : List TypeParameter}
    (h : type.HasParams own) :
    ∃ tail, own = type.ownNames.map .bare ++ tail ∧
      (tail = [] ∨ tail = [.discriminator]) ∧
      (tail = [.discriminator] ↔ type.AddsDiscriminator) := by
  rcases h with ⟨hadds, rfl⟩ | ⟨hadds, rfl⟩
  · exact ⟨_, rfl, Or.inr rfl, iff_of_true rfl hadds⟩
  · exact ⟨[], (List.append_nil _).symm, Or.inl rfl,
      iff_of_false (by simp) hadds⟩

/-- A shared type parameter is kept if the type has none of that name itself. -/
theorem Schema.keeps_iff {type : Schema} {tail : List TypeParameter}
    (htail : tail = [] ∨ tail = [.discriminator])
    (hadds : tail = [.discriminator] ↔ type.AddsDiscriminator) (name : String) :
    (!(type.ownNames.map TypeParameter.bare ++ tail).any (·.name == name)) =
      true ↔
      name ∉ type.ownNames ∧ (type.AddsDiscriminator → name ≠ "S") := by
  have hlast : tail.any (·.name == name) = true ↔
      tail = [.discriminator] ∧ name = "S" := by
    rcases htail with rfl | rfl
    · simp
    · simp only [List.any_cons, List.any_nil, Bool.or_false,
        beq_iff_eq, true_and]
      exact eq_comm
  rw [Bool.not_eq_true', Bool.eq_false_iff, List.any_append, Ne,
    Bool.or_eq_true, not_or, any_bare, hlast, hadds, not_and]

/-- A declaration has the shared type parameters with other names than its
own, its own, and the discriminator if the type gets it. Only the
discriminator has a default. -/
theorem Schema.HasParams.exists_hoistParams {type : Schema}
    {own shared : List TypeParameter} (hown : type.HasParams own)
    (hshared : ∀ p ∈ shared, p = { name := p.name }) :
    ∃ required tail keep, hoistParams shared own = required ++ tail ∧
      required.map (·.name) =
        (shared.map (·.name)).filter keep ++ type.ownNames ∧
      (∀ name, keep name = true ↔ name ∉ type.ownNames ∧
        (type.AddsDiscriminator → name ≠ "S")) ∧
      (∀ p ∈ required, p.fallback = none) ∧
      (tail = [] ∨ tail = [.discriminator]) ∧
      (tail = [.discriminator] ↔ type.AddsDiscriminator) := by
  obtain ⟨tail, rfl, htail, hadds⟩ := hown.exists_tail
  let keep (name : String) : Bool :=
    !(type.ownNames.map TypeParameter.bare ++ tail).any (·.name == name)
  refine ⟨shared.filter (fun p => keep p.name) ++ type.ownNames.map .bare, tail,
    keep, ?_, ?_, Schema.keeps_iff htail hadds, fun p hp => ?_, htail, hadds⟩
  · rw [List.append_assoc]
    rfl
  · rw [List.map_append, List.filter_map, List.map_map]
    exact congrArg (_ ++ ·) (List.map_id _)
  · rcases List.mem_append.mp hp with hp | hp
    · rw [hshared p (List.mem_of_mem_filter hp)]
    · obtain ⟨name, -, rfl⟩ := List.mem_map.mp hp
      rfl

/-- Arguments for the shared type parameters reach those of the same name
in a declaration that keeps its own behind them exactly if the shared
ones end in its own. -/
theorem Schema.HasParams.takes_iff {type : Schema}
    {own shared : List TypeParameter} (hown : type.HasParams own)
    (hshared : ∀ p ∈ shared, p = { name := p.name }) {a : Alias}
    (ha : a.params = hoistParams shared own) :
    a.Takes (shared.map fun p => .named p.name) ↔
      type.EndsShared (shared.map (·.name)) := by
  obtain ⟨required, tail, keep, hparams, hnames, hkeep, hrequired, htail,
    hadds⟩ := hown.exists_hoistParams hshared
  have hdropped : ∀ name ∈ type.ownNames, keep name = false := by
    intro name hname
    exact Bool.eq_false_iff.mpr fun h => ((hkeep name).mp h).1 hname
  rw [Alias.takes_iff (ha.trans hparams) hrequired htail, hnames, EndsShared]
  have hbare := @filter_append_eq_iff (shared.map (·.name)) type.ownNames
    [] keep (by simpa using hdropped)
  simp only [List.append_nil] at hbare
  constructor
  · rintro (heq | ⟨hlast, heq⟩)
    · obtain ⟨front, heq, hfront⟩ := hbare.mp heq
      exact ⟨front, Or.inl heq,
        fun name hname => (hkeep name).mp (hfront name hname)⟩
    · refine ⟨_, Or.inr ⟨hadds.mp hlast, heq⟩, fun name hname => ?_⟩
      exact (hkeep name).mp (List.mem_filter.mp hname).2
  · rintro ⟨front, heq | ⟨hadded, heq⟩, hfront⟩
    · exact Or.inl (hbare.mpr ⟨front, heq,
        fun name hname => (hkeep name).mpr (hfront name hname)⟩)
    · refine Or.inr ⟨hadds.mpr hadded,
        (filter_append_eq_iff fun name hname => ?_).mpr
        ⟨front, heq, fun name hname => (hkeep name).mpr (hfront name hname)⟩⟩
      rcases List.mem_append.mp hname with hname | hname
      · exact hdropped name hname
      · rw [List.mem_singleton.mp hname]
        exact Bool.eq_false_iff.mpr fun h => ((hkeep "S").mp h).2 hadded rfl

def TypeExpr.propertyTypes : TypeExpr → List TypeExpr
  | .object members => members.map (·.type)
  | _ => []

/-- The types that a union joins: none in `never`, and only itself in
what is no union. -/
def TypeExpr.alternatives : TypeExpr → List TypeExpr
  | .union members => members
  | .keyword "never" => []
  | t => [t]

/-- What stands for members in the object of all members, in their union and in
the case of a missing discriminator. -/
def DispatcherSymbol.memberReferences (d : DispatcherSymbol) : List TypeExpr :=
  d.map.type.propertyTypes ++ d.fallback.type.alternatives ++
    (d.select "%none").alternatives

section Members

variable {env : Environment} {registry : String} {members : Table Schema}
  {info : DispatcherHead} {d : DispatcherSymbol}

theorem alternatives_anyOf_apply (info : DispatcherHead) (names : List String) :
    (TypeExpr.anyOf (names.map info.apply)).alternatives =
      names.map info.apply := by
  cases names with
  | nil => rfl
  | cons name rest => cases rest <;> rfl

theorem memberReferences_eq (hget : env.dispatchers.get? registry = some info)
    (h : DispatcherSymbol.build env registry members = .ok d) :
    d.memberReferences = (ordinaryKeys members ++ fallbackKeys members ++
      if members.has absentKey then [absentKey]
      else []).map fun key => info.apply (memberName info key) := by
  have hnone : (d.select "%none").alternatives =
      (if members.has absentKey then [absentKey] else []).map fun key =>
        info.apply (memberName info key) := by
    rw [select_none_eq hget h]
    cases members.has absentKey <;> rfl
  rw [DispatcherSymbol.memberReferences, hnone, List.map_append,
    List.map_append]
  rw [DispatcherSymbol.build, hget] at h
  obtain ⟨compiled, -, h⟩ := bind_eq_ok_iff.mp h
  cases pure_eq_ok_iff.mp h
  have hfallback :=
    alternatives_anyOf_apply info ((fallbackKeys members).map (memberName info))
  rw [List.map_map] at hfallback
  refine congrArg₂ (· ++ · ++ _) ?_ hfallback
  exact List.map_map

/-- There is a reference to every member. -/
theorem mem_memberReferences (hget : env.dispatchers.get? registry = some info)
    (h : DispatcherSymbol.build env registry members = .ok d)
    {m : String × Schema} (hm : m ∈ members.entries) :
    info.apply (memberName info m.1) ∈ d.memberReferences := by
  rw [memberReferences_eq hget h]
  have hkey : m.1 ∈ members.keys := List.mem_map_of_mem hm
  apply List.mem_map_of_mem
  by_cases habsent : m.1 = absentKey
  · refine List.mem_append_right _ ?_
    rw [if_pos (Table.has_iff.mpr (habsent ▸ hkey))]
    exact List.mem_singleton.mpr habsent
  · refine List.mem_append_left _
      (List.mem_append_right _ (List.mem_filter.mpr ⟨hkey, ?_⟩))
    simpa using habsent

/-- Every reference is to a member, and has the shared type
parameters as arguments. -/
theorem exists_member_of_reference
    (hget : env.dispatchers.get? registry = some info)
    (h : DispatcherSymbol.build env registry members = .ok d) {t : TypeExpr}
    (ht : t ∈ d.memberReferences) :
    ∃ m ∈ members.entries, t = info.apply (memberName info m.1) := by
  rw [memberReferences_eq hget h] at ht
  obtain ⟨key, hkey, rfl⟩ := List.mem_map.mp ht
  have hmem : key ∈ members.keys := by
    rcases List.mem_append.mp hkey with hkey | hkey
    · rcases List.mem_append.mp hkey with hkey | hkey
      · exact List.mem_of_mem_filter hkey
      · exact List.mem_of_mem_filter hkey
    · split at hkey
      · rename_i habsent
        rw [List.mem_singleton.mp hkey]
        exact Table.has_iff.mp habsent
      · cases hkey
  obtain ⟨m, hm, rfl⟩ := List.mem_map.mp hmem
  exact ⟨m, hm, rfl⟩

end Members

/-- The declarations of a dispatcher refer to its members and to nothing else,
and there is a reference to each. Its arguments reach the type parameters of the
same name, and all others have defaults, exactly if the shared type parameters
end in those of the member. -/
theorem member_arguments_match_iff {env : Environment} {registry : String}
    {members : Table Schema} {info : DispatcherHead} {d : DispatcherSymbol}
    (hinfo : DispatcherHead.of registry members = .ok info)
    (hget : env.dispatchers.get? registry = some info)
    (h : DispatcherSymbol.build env registry members = .ok d) :
    (∀ t ∈ d.memberReferences, ∃ a ∈ d.members, ∃ args,
        t = .reference a.name args) ∧
      List.Forall₂
        (fun m a => (∃ args, .reference a.name args ∈ d.memberReferences) ∧
        ∀ args, .reference a.name args ∈ d.memberReferences →
          (a.Takes args ↔ m.2.EndsShared (info.params.map (·.name))))
        members.entries d.members := by
  have hbuilt := build_eq_ok hget h
  constructor
  · intro t ht
    obtain ⟨m, hm, rfl⟩ := exists_member_of_reference hget h ht
    obtain ⟨a, ha, c, -, rfl⟩ := exists_mem_of_forall₂ hbuilt hm
    refine ⟨_, ha, info.params.map fun p => .named p.name, ?_⟩
    rw [name_declareMember]
    rfl
  · have hall := (List.forall₂_and_left members.entries d.members).mpr
      ⟨fun m hm => mem_memberReferences hget h hm, hbuilt⟩
    refine hall.imp fun m a ha => ?_
    obtain ⟨href, c, hc, rfl⟩ := ha
    rw [name_declareMember]
    refine ⟨⟨_, href⟩, fun args hargs => ?_⟩
    obtain ⟨m', -, heq⟩ := exists_member_of_reference hget h hargs
    rw [(TypeExpr.reference.inj heq).2]
    have hown := (Schema.compile_sound hc).hasParams rfl
    exact hown.takes_iff (params_head_eq hinfo) (declareMember_eq info _ c).2

/-- Two members with the same type parameters in another order: only the first
is given them in its own. -/
theorem member_arguments_match_iff_swapped :
    let template (first second : String) : Schema :=
      .template (.string none []) [.str first, .str second] []
    let members : Table Schema :=
      ⟨[("a", template "::java::a::A" "::java::a::B"),
        ("b", template "::java::a::B" "::java::a::A")]⟩
    ∃ info d, DispatcherHead.of "minecraft:thing" members = .ok info ∧
      DispatcherSymbol.build { dispatchers := ⟨[("minecraft:thing", info)]⟩ }
        "minecraft:thing" members =
        .ok d ∧
      ∃ a ∈ d.members, ∃ b ∈ d.members,
        (∃ args, .reference a.name args ∈ d.memberReferences ∧ a.Takes args) ∧
        ∃ args, .reference b.name args ∈ d.memberReferences ∧
        ¬ b.Takes args := by
  intro template members
  obtain ⟨info, d, hinfo, hget, hd⟩ :
      ∃ info d, DispatcherHead.of "minecraft:thing" members = .ok info ∧
      (⟨[("minecraft:thing", info)]⟩ : Table DispatcherHead).get?
        "minecraft:thing" = some info ∧
      DispatcherSymbol.build { dispatchers := ⟨[("minecraft:thing", info)]⟩ }
        "minecraft:thing" members = .ok d :=
    ⟨_, _, rfl, rfl, rfl⟩
  obtain ⟨-, hall⟩ := member_arguments_match_iff hinfo hget hd
  obtain ⟨a, rest, ⟨⟨args, harg⟩, ha⟩, hrest, hmembers⟩ :=
    List.forall₂_cons_left_iff.mp hall
  obtain ⟨b, rest', ⟨⟨args', harg'⟩, hb⟩, -, rfl⟩ :=
    List.forall₂_cons_left_iff.mp hrest
  have hshared : info.params.map (·.name) = ["A", "B"] := by
    cases hinfo
    decide +kernel
  have hfirst : (template "::java::a::A" "::java::a::B").ownNames = ["A",
      "B"] := by decide +kernel
  have hsecond : (template "::java::a::B" "::java::a::A").ownNames = ["B",
      "A"] := by decide +kernel
  rw [hshared] at ha hb
  refine ⟨info, d, hinfo, hd, a, hmembers ▸ List.mem_cons_self,
    b, hmembers ▸ List.mem_cons_of_mem _ List.mem_cons_self, ⟨args, harg,
      ?_⟩, args', harg', ?_⟩
  · exact (ha args harg).mpr ⟨[], Or.inl hfirst, by simp⟩
  · intro htakes
    obtain ⟨front, hends, -⟩ := (hb args' harg').mp htakes
    rw [hsecond] at hends
    rcases hends with hends | ⟨-, hends⟩
    · simpa using congrArg List.reverse hends
    · simpa using congrArg List.reverse hends

end Typings
