import Typings.Proofs.Discriminator
import Typings.Run

/-!
When an alias is closed: it has the discriminator as a type parameter, or
refers to no unbound one. There are two ways from a compiled type to an alias,
for the symbols of a module and for the members of a dispatcher. Both are
closed except where a discriminator lies in the keys of a dynamic field or in
the property that it is taken from; members also forget requests that no
declaration was made for.
-/

namespace Typings

namespace Occurrence

/-- What the occurrence asks for is not answered around it. -/
def IsPending (o : Occurrence) : Prop :=
  o.isHidden = false ∧ ∃ r, o.link.asks? = some r ∧ ¬ o.IsAnswered r

/-- No struct that the occurrence asks can bind its discriminator: the request
gets lost in the keys of a dynamic field, or comes from the selected property
itself, or there is none. -/
def IsStray (o : Occurrence) : Prop :=
  o.isHidden = true ∨ ∀ r, o.link.asks? = some r → ∃ names,
    o.frames[r.parents]? =
      some (.struct names (some r.property) (.property r.property true))

variable {o : Occurrence}

/-- Away from the strays, every discriminator is bound or still pending. -/
theorem isBound_or_isPending (hstray : ¬ o.IsStray) :
    o.isBound = true ∨ o.IsPending := by
  rw [IsStray, not_or, not_forall] at hstray
  obtain ⟨hhidden, r, hr⟩ := hstray
  obtain ⟨hasks, hplace⟩ := Classical.not_imp.mp hr
  by_cases hanswered : o.IsAnswered r
  · obtain ⟨names, place, hframe, -⟩ := hanswered
    refine Or.inl (List.any_eq_true.mpr ⟨_, List.mem_of_getElem? hframe, ?_⟩)
    simp only [Frame.binds, bne_iff_ne, ne_eq]
    rintro rfl
    exact hplace ⟨names, hframe⟩
  · exact Or.inr ⟨Bool.eq_false_iff.mpr hhidden, r, hasks, hanswered⟩

/-- Only strays and pending occurrences can be unbound. -/
theorem forall_isBound_iff {os : List Occurrence} {P : Occurrence → Prop} :
    (∀ o ∈ os, P o → o.isBound = true) ↔
      ∀ o ∈ os, o.IsStray ∨ o.IsPending → P o → o.isBound = true := by
  constructor
  · intro h o ho _
    exact h o ho
  · intro h o ho hP
    by_cases hstray : o.IsStray
    · exact h o ho (Or.inl hstray) hP
    · rcases isBound_or_isPending hstray with hbound | hpending
      · exact hbound
      · exact h o ho (Or.inr hpending) hP

theorem request?_eq_some {r : Request} (h : o.request? = some r) :
    o.isHidden = false ∧ ∃ q, o.link.asks? = some q ∧
      o.frames.length ≤ q.parents ∧
      r = { q with parents := q.parents - o.frames.length } := by
  rw [request?] at h
  split at h
  · rename_i q hasks
    split at h
    · rename_i hreach
      cases h
      exact ⟨hreach.1, q, hasks, hreach.2, rfl⟩
    · cases h
  · cases h

theorem isPending_of_request? {r : Request} (h : o.request? = some r) :
    o.IsPending := by
  obtain ⟨hhidden, q, hasks, hlength, -⟩ := request?_eq_some h
  refine ⟨hhidden, q, hasks, ?_⟩
  rintro ⟨names, place, hframe, -⟩
  rw [List.getElem?_eq_none hlength] at hframe
  cases hframe

theorem IsSettled.isPending_iff (h : o.IsSettled) :
    o.IsPending ↔ ∃ r, o.request? = some r := by
  constructor
  · rintro ⟨hhidden, r, hasks, hanswered⟩
    have hlength : o.frames.length ≤ r.parents := by
      by_contra hlt
      exact hanswered (h hhidden r hasks (by omega))
    exact ⟨_, request?_of_asks? hhidden hasks hlength⟩
  · rintro ⟨r, hr⟩
    exact isPending_of_request? hr

/-- Seen from outside a struct, a request is pending if it leads further out or
asks for a property that the struct does not have. -/
theorem IsSettled.isPending_within (h : o.IsSettled) {names : List String}
    {selector? : Option String} {place : Place}
    (hselector : place ≠ .keys → ∀ r, o.request? = some r → r.parents = 0 →
      r.property ∈ names →
      selector? = some r.property) :
    (o.within (.struct names selector? place)).IsPending ↔
      place ≠ .keys ∧ ∃ r, o.request? = some r ∧
        (0 < r.parents ∨ r.property ∉ names) := by
  have hkeys : (Frame.struct names selector? place).isKeys = false ↔
      place ≠ .keys := by
    cases place <;> simp [Frame.isKeys]
  rw [IsPending, isHidden_within, Bool.or_eq_false_iff, hkeys]
  constructor
  · rintro ⟨⟨hhidden, hplace⟩, q, hasks, hnot⟩
    have hlength : o.frames.length ≤ q.parents := by
      by_contra hlt
      exact hnot ((h hhidden q hasks (by omega)).within _)
    have hrequest := request?_of_asks? hhidden hasks hlength
    refine ⟨hplace, _, hrequest, ?_⟩
    by_contra hnone
    obtain ⟨hzero, hmem⟩ := not_or.mp hnone
    have hselected := hselector hplace _ hrequest (by omega) (not_not.mp hmem)
    refine hnot ⟨names, place, ?_, not_not.mp hmem⟩
    have hparents : q.parents = o.frames.length := by
      dsimp only at hzero
      omega
    rw [hparents, Occurrence.within, List.getElem?_concat_length, hselected]
  · rintro ⟨hplace, r, hrequest, hopen⟩
    obtain ⟨hhidden, q, hasks, hlength, rfl⟩ := request?_eq_some hrequest
    refine ⟨⟨hhidden, hplace⟩, q, hasks, ?_⟩
    rintro ⟨names', place', hframe, hmem⟩
    have hbound : q.parents < o.frames.length + 1 := by
      simpa [Occurrence.within] using (List.getElem?_eq_some_iff.mp hframe).1
    have hparents : q.parents = o.frames.length := by omega
    rw [hparents, Occurrence.within, List.getElem?_concat_length] at hframe
    cases hframe
    rcases hopen with hfurther | hmissing
    · dsimp only at hfurther
      omega
    · exact hmissing hmem

end Occurrence

section Run

variable {env : Environment}

/-- A compiled struct leaves something open exactly when an occurrence
in it is pending. -/
theorem CompilesFields.leavesOpen_iff {scope : Scope}
    {fields : List Field} {parts : List Part}
    {c : Compiled} (hfields : CompilesFields env scope fields parts)
    (hc : composeStruct scope parts = .ok c) :
    Part.leavesOpen parts = true ↔
      ∃ o ∈ structOccurrences (Field.liveNames fields)
        (Schema.fieldOccurrences fields), o.IsPending := by
  obtain ⟨-, hanswers⟩ := hfields.selector_eq hc
  have hpending : ∀ e ∈ Schema.fieldOccurrences fields,
      ((e.2.within (.struct (Field.liveNames fields)
        (selectorOf (Field.liveNames fields) (Schema.fieldOccurrences fields))
          e.1)).IsPending ↔
      e.1 ≠ .keys ∧ ∃ r, e.2.request? = some r ∧
        (0 < r.parents ∨ r.property ∉ Field.liveNames fields)) := by
    intro e he
    refine (hfields.isSettled e he).isPending_within
      fun hplace r hr hzero hmem => ?_
    rcases hanswers r (mem_visibleRequests.mpr ⟨e, he, hplace, hr⟩) hzero with
      ⟨-, hselector⟩ | ⟨-, hmissing⟩
    · exact hselector
    · exact absurd hmem hmissing
  rw [Part.leavesOpen, hfields.names_eq, hfields.requests_eq, List.any_eq_true,
    structOccurrences]
  constructor
  · rintro ⟨r, hr, hopen⟩
    obtain ⟨e, he, hplace, hrequest⟩ := mem_visibleRequests.mp hr
    exact ⟨_, List.mem_map_of_mem he,
      (hpending e he).mpr ⟨hplace, r, hrequest, by simpa using hopen⟩⟩
  · rintro ⟨o, ho, hp⟩
    obtain ⟨e, he, rfl⟩ := List.mem_map.mp ho
    obtain ⟨hplace, r, hrequest, hopen⟩ := (hpending e he).mp hp
    exact ⟨r,
      mem_visibleRequests.mpr ⟨e, he, hplace, hrequest⟩, by simpa using hopen⟩

/-- A type that leaves a request has a pending occurrence. -/
theorem Compiles.exists_isPending {scope : Scope} {type : Schema} {c : Compiled}
    (h : Compiles env scope type c) (hrequests : c.requests ≠ []) :
    ∃ o ∈ type.occurrencesAt scope.isRoot, o.IsPending := by
  obtain ⟨r, hr⟩ := List.exists_mem_of_ne_nil _ hrequests
  rw [h.requests_eq] at hr
  obtain ⟨o, ho, hrequest⟩ := List.mem_filterMap.mp hr
  exact ⟨o, ho, Occurrence.isPending_of_request? hrequest⟩

/-- The discriminator is added where it is needed and not there yet. -/
theorem exists_discriminator_added {all : List TypeParameter} {needed : Bool} :
    (∃ p ∈ (if needed && !all.any (·.name == "S") then all ++ [.discriminator]
      else all), p.name = "S") ↔ (∃ p ∈ all, p.name = "S") ∨ needed = true := by
  have hany : all.any (·.name == "S") = true ↔
      ∃ p ∈ all, p.name = "S" := by simp
  split
  · rename_i hadded
    exact iff_of_true ⟨.discriminator,
        List.mem_append_right _ List.mem_cons_self, rfl⟩
      (Or.inr (Bool.and_eq_true_iff.mp hadded).1)
  · rename_i hadded
    refine (or_iff_left_of_imp fun hneeded => ?_).symm
    rw [hneeded, Bool.true_and, Bool.not_eq_true, Bool.not_eq_false'] at hadded
    exact hany.mp hadded

theorem exists_discriminator_templateParams {paths : List String}
    {c : Compiled} :
    (∃ p ∈ templateParams paths c, p.name = "S") ↔
      (∃ path ∈ paths, lastSegment path = "S") ∨
        (∃ p ∈ c.type.params, p.name = "S") ∨
        c.requests ≠ [] := by
  rw [templateParams_eq, ← or_assoc]
  refine exists_discriminator_added.trans (or_congr ?_ (by simp))
  simp only [List.mem_append, or_and_right, exists_or, List.mem_map,
    exists_exists_and_eq_and]

/-- A type that is never declared only waits by its requests. -/
theorem Compiles.waits_iff_of_not_isDeclarable {scope : Scope} {type : Schema}
    {c : Compiled} (h : Compiles env scope type c) (hroot : scope.isRoot = true)
    (hkind : type.isDeclarable = false) :
    c.type.params = [] ∧ type.headParams = [] ∧
      (c.requests ≠ [] ↔ ∃ o ∈ type.rootOccurrences, o.IsPending) := by
  have hexpr := h.isExpr (by rw [hkind, Bool.and_false])
  have hsub : ∀ o ∈ type.rootOccurrences, o ∈ type.occurrences := by
    intro o ho
    cases type with
    | template => cases hkind
    | dispatcher => cases ho
    | indexed => cases ho
    | _ => exact ho
  refine ⟨by rw [hexpr, Emitted.params], by cases type <;> cases hkind <;> rfl,
    ?_⟩
  constructor
  · intro hrequests
    have hpending := h.exists_isPending hrequests
    rw [hroot] at hpending
    exact hpending
  · rintro ⟨o, ho, hpending⟩
    have hsettled := h.isSettled (by rw [hkind, Bool.and_false]) o (hsub o ho)
    obtain ⟨r, hr⟩ := hsettled.isPending_iff.mp hpending
    rw [h.requests_eq, hroot]
    exact List.ne_nil_of_mem (List.mem_filterMap.mpr ⟨o, ho, hr⟩)

theorem CompilesFields.waits_iff {scope : Scope}
    {fields : List Field} {parts : List Part}
    {c : Compiled} (hfields : CompilesFields env scope fields parts)
    (hc : composeStruct scope parts = .ok c) (hroot : scope.isRoot = true) :
    (∃ p ∈ c.type.params, p.name = "S") ↔
      ∃ o ∈ structOccurrences (Field.liveNames fields)
        (Schema.fieldOccurrences fields), o.IsPending := by
  rw [← hfields.leavesOpen_iff hc]
  obtain ⟨-, -, -, ⟨htype, hopen⟩ | ⟨name, -, hopen, htype⟩⟩ :=
    composeStruct_eq_ok hc
  · rw [hroot, Bool.true_and] at hopen
    simp [htype, hopen, Emitted.params]
  · rw [hroot, Bool.true_and] at hopen
    simp [htype, hopen, Emitted.params, TypeParameter.discriminator]

/-- What waits for a discriminator at the root: a type parameter of its own, or
an open request. -/
theorem Compiles.waits_iff {scope : Scope} {type : Schema} {c : Compiled}
    (h : Compiles env scope type c) (hroot : scope.isRoot = true) :
    ((∃ p ∈ c.type.params, p.name = "S") ∨ c.requests ≠ []) ↔
      (∃ path ∈ type.headParams, lastSegment path = "S") ∨
        ∃ o ∈ type.rootOccurrences, o.IsPending := by
  have hpending := h.exists_isPending
  rw [hroot] at hpending
  have hother (hkind : type.isDeclarable = false) :
      ((∃ p ∈ c.type.params, p.name = "S") ∨ c.requests ≠ []) ↔
        (∃ path ∈ type.headParams, lastSegment path = "S") ∨
          ∃ o ∈ type.rootOccurrences, o.IsPending := by
    obtain ⟨hparams, hhead, hrequests⟩ :=
      h.waits_iff_of_not_isDeclarable hroot hkind
    rw [hparams, hhead, hrequests]
    simp
  cases h with
  | template _ _ hparams hbody =>
      have hinner := hbody.waits_iff hroot
      change ((∃ p ∈ templateParams _ _, p.name = "S") ∨ _) ↔
        (∃ path ∈ _ ++ _, _) ∨ _
      rw [exists_discriminator_templateParams, filterMap_text?_of_mapM hparams]
      simp only [List.mem_append, or_and_right, exists_or]
      refine (or_iff_left_of_imp fun hrequests =>
        Or.inr (Or.inr hrequests)).trans ?_
      exact (or_congr_right hinner).trans or_assoc.symm
  | struct hfields hc =>
      have hparams := hfields.waits_iff hc hroot
      constructor
      · rintro (hdeclared | hrequests)
        · exact Or.inr (hparams.mp hdeclared)
        · exact Or.inr (hpending hrequests)
      · rintro (⟨path, hpath, -⟩ | hopen)
        · cases hpath
        · exact Or.inl (hparams.mpr hopen)
  | leaf hleaf => exact hother (Schema.isDeclarable_of_isLeaf hleaf)
  | _ => exact hother rfl

theorem Compiles.declares_of_requests {scope : Scope} {type : Schema}
    {c : Compiled} (h : Compiles env scope type c) (hroot : scope.isRoot = true)
    (hkind : type.isDeclarable = true) (hrequests : c.requests ≠ []) :
    ∃ p ∈ c.type.params, p.name = "S" := by
  have hpending := h.exists_isPending hrequests
  rw [hroot] at hpending
  cases h with
  | template =>
      exact exists_discriminator_templateParams.mpr (Or.inr (Or.inr hrequests))
  | struct hfields hc => exact (hfields.waits_iff hc hroot).mpr hpending
  | leaf hleaf =>
      rw [Schema.isDeclarable_of_isLeaf hleaf] at hkind
      cases hkind
  | _ => cases hkind

/-- Only what can be declared has type parameters of its own. -/
theorem Compiles.params_iff {scope : Scope} {type : Schema} {c : Compiled}
    (h : Compiles env scope type c) (hroot : scope.isRoot = true) :
    (∃ p ∈ c.type.params, p.name = "S") ↔
      (∃ path ∈ type.headParams, lastSegment path = "S") ∨
        type.isDeclarable = true ∧ ∃ o ∈ type.rootOccurrences, o.IsPending := by
  cases hkind : type.isDeclarable with
  | false =>
      obtain ⟨hparams, hhead, -⟩ := h.waits_iff_of_not_isDeclarable hroot hkind
      simp [hparams, hhead]
  | true =>
      rw [← or_iff_left_of_imp (h.declares_of_requests hroot hkind),
        h.waits_iff hroot]
      simp

end Run

/-- The alias has the discriminator as a type parameter, or refers
to no unbound one. -/
def Alias.IsClosed (a : Alias) : Prop :=
  (∃ p ∈ a.params, p.name = "S") ∨
    "S" ∉ a.type.freeNames ∧ ∀ p ∈ a.params, "S" ∉ p.names

/-- An alias of a compiled type whose type parameters name nothing. -/
theorem FreeBy.isClosed_iff {env : Environment} {generics : List String}
    {os : List Occurrence} {a : Alias} (h : FreeBy env generics os a.type)
    (hparams : ∀ p ∈ a.params, p.names = []) :
    a.IsClosed ↔ (∃ p ∈ a.params, p.name = "S") ∨
      ∀ o ∈ os, o.link.NamesDiscriminator env generics → o.isBound = true := by
  have hnames : ∀ p ∈ a.params, "S" ∉ p.names := by
    intro p hp
    rw [hparams p hp]
    exact List.not_mem_nil
  rw [Alias.IsClosed, and_iff_left hnames, h.iff]
  simp [Occurrence.LeavesFree]

section Symbols

variable {env : Environment} {name : String} {doc : Json} {c : Compiled}
  {a : Alias}

theorem symbolAlias_eq_ok (h : Run.symbolAlias name doc c = .ok a) :
    a.type = c.expr ∧ (a.params = c.type.params ∧ c.type ≠ .expression c.expr ∨
      a.params = (if c.requests.isEmpty then [] else [.discriminator]) ∧
        c.type = .expression c.expr) := by
  obtain ⟨own, -, h⟩ := bind_eq_ok_iff.mp h
  rw [Compiled.expr]
  split at h
  · rename_i declared hdeclared
    cases h
    rw [hdeclared]
    exact ⟨rfl, Or.inl ⟨rfl, by simp⟩⟩
  · rename_i type htype
    cases h
    rw [htype]
    exact ⟨rfl, Or.inr ⟨rfl, rfl⟩⟩

/-- The alias of a symbol takes the discriminator for every request
that stayed open. -/
theorem exists_discriminator_symbolAlias {scope : Scope} {type : Schema}
    (h : Compiles env scope type c) (hroot : scope.isRoot = true)
    (ha : Run.symbolAlias name doc c = .ok a) :
    (∃ p ∈ a.params, p.name = "S") ↔
      (∃ path ∈ type.headParams, lastSegment path = "S") ∨
        ∃ o ∈ type.rootOccurrences, o.IsPending := by
  rw [← h.waits_iff hroot]
  obtain ⟨-, ⟨hparams, htype⟩ | ⟨hparams, htype⟩⟩ := symbolAlias_eq_ok ha
  · have hkind : type.isDeclarable = true := by
      by_contra hkind
      exact htype
        (h.isExpr (by rw [Bool.eq_false_iff.mpr hkind, Bool.and_false]))
    rw [hparams, or_iff_left_of_imp (h.declares_of_requests hroot hkind)]
  · rw [hparams, htype]
    cases c.requests with
    | nil => simp [Emitted.params]
    | cons r rest => simp [Emitted.params, TypeParameter.discriminator]

theorem names_params_symbolAlias {scope : Scope} {type : Schema}
    (h : Compiles env scope type c) (ha : Run.symbolAlias name doc c = .ok a) :
    ∀ p ∈ a.params, p.names = [] := by
  obtain ⟨-, ⟨hparams, -⟩ | ⟨hparams, -⟩⟩ := symbolAlias_eq_ok ha
  · rw [hparams]
    exact h.names_params
  · rw [hparams]
    split
    · simp
    · simp [TypeParameter.names, TypeParameter.discriminator,
        TypeExpr.undefined, TypeExpr.namesWith]

end Symbols

/-- The alias of a symbol is closed unless a stray discriminator is bound by
nothing: where a request is pending, the discriminator is a type parameter, and
every other one is bound by its struct. -/
theorem symbolAlias_isClosed_iff {env : Environment} {name source : String}
    {doc : Json} {type : Schema} {c : Compiled} {a : Alias}
    (h : (type.compile env
        { isRoot := true, name := some name, source := some source }).outcome
      = .ok c) (ha : Run.symbolAlias name doc c = .ok a) :
    a.IsClosed ↔ (∃ path ∈ type.headParams, lastSegment path = "S") ∨
      (∃ o ∈ type.rootOccurrences, o.IsPending) ∨
        ∀ o ∈ type.rootOccurrences, o.IsStray →
          o.link.NamesDiscriminator env type.headParams → o.isBound = true := by
  have hrules := Schema.compile_sound h
  have hfree : FreeBy env type.headParams type.rootOccurrences a.type := by
    rw [(symbolAlias_eq_ok ha).1]
    exact hrules.freeBy rfl
  rw [hfree.isClosed_iff (names_params_symbolAlias hrules ha),
    exists_discriminator_symbolAlias hrules rfl ha, or_assoc]
  refine or_congr_right ?_
  by_cases hpending : ∃ o ∈ type.rootOccurrences, o.IsPending
  · simp only [hpending, true_or]
  · rw [or_iff_right hpending, or_iff_right hpending]
    refine Occurrence.forall_isBound_iff.trans ?_
    refine forall₂_congr fun o ho => ?_
    rw [or_iff_left fun hp => hpending ⟨o, ho, hp⟩]

/-- An index in the keys of a dynamic field: its request is lost, and its
discriminator unbound. -/
theorem symbolAlias_isClosed_iff_keys :
    let env : Environment :=
      { dispatchers := Table.empty.put "minecraft:thing" { name := "Thing" } }
    let type : Schema := .struct
      [.pair (.type (.union [.dispatcher (.str "minecraft:thing")
          [.dynamic [.property "type"]] []] []))
            (.boolean []) false false .null []] []
    ∃ c a,
      (type.compile env { isRoot := true, name := some "T",
                          source := some "::java::a" }).outcome = .ok c ∧
      Run.symbolAlias "T" .null c = .ok a ∧ ¬ a.IsClosed := by
  intro env type
  obtain ⟨c, a, hc, ha⟩ : ∃ c a,
      (type.compile env { isRoot := true, name := some "T",
                          source := some "::java::a" }).outcome
        = .ok c ∧ Run.symbolAlias "T" .null c = .ok a := ⟨_, _, rfl, rfl⟩
  refine ⟨c, a, hc, ha, ?_⟩
  rw [symbolAlias_isClosed_iff hc ha]
  rintro (⟨path, hpath, -⟩ | ⟨o, ho, hhidden, -⟩ | hbound)
  · cases hpath
  · rw [List.mem_singleton.mp ho] at hhidden
    cases hhidden
  · exact absurd (hbound _ List.mem_cons_self (Or.inl rfl) rfl) (by decide)

section Members

variable {env : Environment} {info : DispatcherHead} {name : String}
  {c : Compiled}

theorem exists_discriminator_hoistParams {shared own : List TypeParameter} :
    (∃ p ∈ hoistParams shared own, p.name = "S") ↔
      (∃ p ∈ shared, p.name = "S") ∨ ∃ p ∈ own, p.name = "S" := by
  by_cases hown : ∃ p ∈ own, p.name = "S"
  · obtain ⟨p, hp, hname⟩ := hown
    exact iff_of_true ⟨p, List.mem_append_right _ hp,
      hname⟩ (Or.inr ⟨p, hp, hname⟩)
  · rw [or_iff_left hown]
    have hkept : ∀ p : TypeParameter, p.name = "S" →
        (!own.any (·.name == p.name)) = true := by
      intro p hname
      rw [hname]
      simpa using hown
    constructor
    · rintro ⟨p, hp, hname⟩
      rcases List.mem_append.mp hp with hshared | hp
      · exact ⟨p, List.mem_of_mem_filter hshared, hname⟩
      · exact absurd ⟨p, hp, hname⟩ hown
    · rintro ⟨p, hp, hname⟩
      exact ⟨p,
        List.mem_append_left _ (List.mem_filter.mpr ⟨hp, hkept p hname⟩), hname⟩

/-- A member takes the shared type parameters and those of its
own declaration. -/
theorem declareMember_eq (info : DispatcherHead) (name : String)
    (c : Compiled) :
    (declareMember info name c).type = c.expr ∧
      (declareMember info name c).params =
        hoistParams info.params c.type.params := by
  rw [declareMember, Compiled.expr]
  cases c.type with
  | declaration declared => exact ⟨rfl, rfl⟩
  | expression type => exact ⟨rfl, by simp [hoistParams, Emitted.params]⟩

/-- The shared type parameters have neither bounds nor defaults. -/
theorem params_head_eq {registry : String} {members : Table Schema}
    (h : DispatcherHead.of registry members = .ok info) :
    ∀ p ∈ info.params, p = { name := p.name } := by
  obtain ⟨params, hparams, h⟩ := bind_eq_ok_iff.mp h
  obtain rfl := pure_eq_ok_iff.mp h
  intro p hp
  have hshared : sharedParams members = .ok params :=
    liftMisuse_eq_ok_iff.mp hparams
  rw [sharedParams] at hshared
  split at hshared
  · rename_i key type hfind
    rw [Schema.templateParams.eq_def] at hshared
    split at hshared
    · obtain ⟨path, -, hpath⟩ := exists_of_mem_mapM hshared hp
      obtain ⟨text, -, hpath⟩ := bind_eq_ok_iff.mp hpath
      cases hpath
      rfl
    · cases hshared
      cases hp
  · cases hshared
    cases hp

theorem names_params_head {registry : String} {members : Table Schema}
    (h : DispatcherHead.of registry members = .ok info) :
    ∀ p ∈ info.params, p.names = [] := by
  intro p hp
  rw [params_head_eq h p hp]
  rfl

theorem build_eq_ok {registry : String} {members : Table Schema}
    {d : DispatcherSymbol} (hget : env.dispatchers.get? registry = some info)
    (h : DispatcherSymbol.build env registry members = .ok d) :
    List.Forall₂ (fun m a => ∃ c, (Schema.compile env
        { isRoot := true, name := some (memberName info m.1) } m.2).outcome =
      .ok c ∧
      a = declareMember info (memberName info m.1) c) members.entries
      d.members := by
  rw [DispatcherSymbol.build, hget] at h
  obtain ⟨compiled, hcompiled, h⟩ := bind_eq_ok_iff.mp h
  obtain rfl := pure_eq_ok_iff.mp h
  change List.Forall₂ _ _ (compiled.map (·.1))
  rw [List.forall₂_map_right_iff]
  refine (mapM_eq_ok_iff.mp hcompiled).imp fun m e he => ?_
  obtain ⟨c, hc, he⟩ := bind_eq_ok_iff.mp he
  cases he
  exact ⟨c, hc, rfl⟩

end Members

/-- The alias of a member is closed under the same condition, but for one: a
request that is pending in a type that is not declared is forgotten, so there it
has to be bound as well. -/
theorem members_isClosed_iff {env : Environment} {registry : String}
    {members : Table Schema} {info : DispatcherHead} {d : DispatcherSymbol}
    (hinfo : DispatcherHead.of registry members = .ok info)
    (hget : env.dispatchers.get? registry = some info)
    (h : DispatcherSymbol.build env registry members = .ok d) :
    List.Forall₂ (fun m a =>
      a.IsClosed ↔ (∃ p ∈ info.params, p.name = "S") ∨
        (∃ path ∈ m.2.headParams, lastSegment path = "S") ∨
        (m.2.isDeclarable = true ∧ ∃ o ∈ m.2.rootOccurrences, o.IsPending) ∨
          ∀ o ∈ m.2.rootOccurrences, o.IsStray ∨ o.IsPending →
            o.link.NamesDiscriminator env m.2.headParams → o.isBound = true)
      members.entries d.members := by
  refine (build_eq_ok hget h).imp fun m a hm => ?_
  obtain ⟨c, hc, rfl⟩ := hm
  have hrules := Schema.compile_sound hc
  obtain ⟨htype, hparams⟩ := declareMember_eq info (memberName info m.1) c
  have hfree : FreeBy env m.2.headParams m.2.rootOccurrences
      (declareMember info (memberName info m.1) c).type := by
    rw [htype]
    exact hrules.freeBy rfl
  have hnames : ∀ p ∈ (declareMember info (memberName info m.1) c).params,
      p.names = [] := by
    rw [hparams, hoistParams, List.forall_mem_append]
    exact ⟨fun p hp => names_params_head hinfo p (List.mem_of_mem_filter hp),
      hrules.names_params⟩
  rw [hfree.isClosed_iff hnames, hparams, exists_discriminator_hoistParams,
    hrules.params_iff rfl, or_assoc, or_assoc]
  exact or_congr_right
    (or_congr_right (or_congr_right Occurrence.forall_isBound_iff))

/-- A list whose items ask for a property beyond it: as a member, it
forgets the request. -/
theorem members_isClosed_iff_list :
    let members : Table Schema := Table.empty.put "a"
      (.list (.dispatcher (.str "minecraft:thing")
        [.dynamic [.keyword (.str "parent"), .property "type"]] []) none [])
    ∃ info d, DispatcherHead.of "minecraft:thing" members = .ok info ∧
      (Table.empty.put "minecraft:thing" info).get? "minecraft:thing" =
        some info ∧
      DispatcherSymbol.build
        { dispatchers := Table.empty.put "minecraft:thing" info }
        "minecraft:thing" members = .ok d ∧
      ∃ a ∈ d.members, ¬ a.IsClosed := by
  intro members
  obtain ⟨info, d, hinfo, hget, hd⟩ : ∃ info d,
      DispatcherHead.of "minecraft:thing" members = .ok info ∧
      (Table.empty.put "minecraft:thing" info).get? "minecraft:thing" =
        some info ∧
      DispatcherSymbol.build
        { dispatchers := Table.empty.put "minecraft:thing" info }
        "minecraft:thing" members = .ok d := ⟨_, _, rfl, rfl, rfl⟩
  refine ⟨info, d, hinfo, hget, hd, ?_⟩
  obtain ⟨a, rest, ha, -, hmembers⟩ :=
    List.forall₂_cons_left_iff.mp (members_isClosed_iff hinfo hget hd)
  refine ⟨a, hmembers ▸ List.mem_cons_self, ?_⟩
  rw [ha]
  rintro (⟨p, hp, -⟩ | ⟨path, hpath, -⟩ | ⟨hkind, -⟩ | hbound)
  · cases hinfo
    cases hp
  · cases hpath
  · cases hkind
  · have hpending : Occurrence.IsPending ⟨.dispatcher (.str "minecraft:thing")
        [.dynamic [.keyword (.str "parent"), .property "type"]], [.list]⟩ := by
      refine ⟨rfl, ⟨1, "type"⟩, rfl, ?_⟩
      rintro ⟨names, place, hframe, -⟩
      cases hframe
    exact absurd (hbound _ List.mem_cons_self (Or.inr hpending) rfl) (by decide)

end Typings
