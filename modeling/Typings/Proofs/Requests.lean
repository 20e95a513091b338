import Typings.Proofs.Occurrence
import Typings.Proofs.Root

/-!
The requests that a compiled type leaves open are those of its occurrences that
reach beyond it, each counted from the outside, in order. A request that does
not reach so far was answered by the struct it led to.
-/

namespace Typings

namespace Occurrence

variable {o : Occurrence} {frame : Frame}

theorem isHidden_within :
    (o.within frame).isHidden = (o.isHidden || frame.isKeys) := by
  simp [isHidden, within]

/-- A frame takes one level off a request, or keeps it from passing. -/
theorem request?_within :
    (o.within frame).request? = if frame.isKeys then none
      else o.request?.bind fun r =>
        if 0 < r.parents then some { r with parents := r.parents - 1 }
        else none := by
  have hlength : (o.within frame).frames.length = o.frames.length + 1 := by
    simp [within]
  have hlink : (o.within frame).link = o.link := rfl
  rw [request?, request?, isHidden_within, hlength, hlink]
  cases o.link.asks? with
  | none => simp
  | some r =>
      cases frame.isKeys with
      | true => simp
      | false =>
          simp only [Bool.or_false, Bool.false_eq_true, if_false]
          by_cases hreach : o.isHidden = false ∧ o.frames.length ≤ r.parents
          · simp only [if_pos hreach, Option.bind_some]
            by_cases hfurther : o.frames.length + 1 ≤ r.parents
            · rw [if_pos ⟨hreach.1, hfurther⟩, if_pos (by omega),
                Nat.sub_add_eq]
            · rw [if_neg fun h => hfurther h.2, if_neg (by omega)]
          · rw [if_neg hreach, if_neg fun h => hreach ⟨h.1, by omega⟩,
              Option.bind_none]

theorem request?_of_asks? {r : Request} (hhidden : o.isHidden = false)
    (hasks : o.link.asks? = some r) (hlength : o.frames.length ≤ r.parents) :
    o.request? = some { r with parents := r.parents - o.frames.length } := by
  rw [request?, hasks]
  exact if_pos ⟨hhidden, hlength⟩

theorem IsAnswered.within {r : Request} (h : o.IsAnswered r) (frame : Frame) :
    (o.within frame).IsAnswered r := by
  obtain ⟨names, place, hframe, hmem⟩ := h
  refine ⟨names, place, ?_, hmem⟩
  have hlt : r.parents < o.frames.length :=
    (List.getElem?_eq_some_iff.mp hframe).1
  rw [Occurrence.within, List.getElem?_append_left hlt, hframe]

theorem isSettled_bare (link : Link) : IsSettled ⟨link, []⟩ :=
  fun _ _ _ hlt => absurd hlt (Nat.not_lt_zero _)

/-- A new frame has to answer what is asked of it; everything
else is as it was. -/
theorem IsSettled.within (h : o.IsSettled)
    (hframe : frame.isKeys = false → ∀ r, o.request? = some r → r.parents = 0 →
      ∃ names place, frame = .struct names (some r.property) place ∧
        r.property ∈ names) :
    (o.within frame).IsSettled := by
  intro hhidden r hasks hlt
  rw [isHidden_within, Bool.or_eq_false_iff] at hhidden
  by_cases hinner : r.parents < o.frames.length
  · exact (h hhidden.1 r hasks hinner).within frame
  · have hparents : r.parents = o.frames.length := by
      have hlength : r.parents < o.frames.length + 1 := by
        simpa [Occurrence.within] using hlt
      omega
    obtain ⟨names, place, heq, hmem⟩ := hframe hhidden.2 _
      (request?_of_asks? hhidden.1 hasks (by omega)) (by simp [hparents])
    refine ⟨names, place, ?_, hmem⟩
    rw [hparents, Occurrence.within, List.getElem?_concat_length, heq]

end Occurrence

theorem asks?_dispatcher {registry : Json} {indices : List Index}
    {index : IndexForm} (h : IndexForm.ofIndices? indices = some index) :
    (Link.dispatcher registry indices).asks? =
      match index with
      | .dynamic parents property => some { parents, property }
      | _ => none := by
  rw [IndexForm.ofIndices?.eq_def] at h
  split at h
  · cases h
    rfl
  · rename_i steps
    rw [IndexForm.ofSteps?] at h
    rw [Link.asks?]
    split at h
    · rename_i name hlast
      cases h
      rw [hlast]
    · rename_i word hlast
      rw [hlast]
      split at h
      · cases h
        rfl
      · cases h
    · cases h
  · cases h

theorem requests_access {info : DispatcherHead} {index : IndexForm}
    {isRoot : Bool} {args : List TypeExpr} {keys : List Json} :
    (info.access index isRoot args keys).2 =
      match index with
      | .dynamic parents property =>
          if isRoot then [] else [{ parents, property }]
      | _ => [] := by
  cases index with
  | dynamic parents property => cases isRoot <;> rfl
  | static value =>
      rw [DispatcherHead.access]
      split <;> rfl
  | mapKey => rfl

theorem filterMap_request?_structOccurrences {names : List String}
    {placed : List (Place × Occurrence)} :
    (structOccurrences names placed).filterMap (·.request?) =
      outerRequests (visibleRequests placed) := by
  rw [structOccurrences, List.filterMap_map, outerRequests, visibleRequests,
    List.filterMap_filterMap]
  refine List.filterMap_congr fun e _ => ?_
  obtain ⟨place, o⟩ := e
  cases place <;> simp [Occurrence.request?_within, Frame.isKeys]

theorem occurrencesLive_eq (types : List Schema) :
    Schema.occurrencesLive types =
      Schema.occurrencesAll (types.filter (·.isLive)) := by
  induction types with
  | nil => rfl
  | cons type rest ih =>
      rw [Schema.occurrencesLive, List.filter_cons]
      split
      · rw [Schema.occurrencesAll, ih]
      · exact ih

theorem occurrences_eq_nil {type : Schema} (h : type.isLeaf = true) :
    type.occurrences = [] := by
  cases type <;> cases h <;> rfl

theorem rootOccurrences_eq_nil {type : Schema} (h : type.isLeaf = true) :
    type.rootOccurrences = [] := by
  cases type <;> cases h <;> rfl

theorem fieldOccurrences_gone {field : Field} {rest : List Field}
    (h : field.isLive = false) :
    Schema.fieldOccurrences (field :: rest) = Schema.fieldOccurrences rest := by
  have hgone : ¬ field.isLive = true := Bool.eq_false_iff.mp h
  cases field with
  | pair key type optional deprecated description attributes =>
      cases key <;> rw [Schema.fieldOccurrences, if_neg hgone]
  | spread type attributes => rw [Schema.fieldOccurrences, if_neg hgone]

theorem visibleRequests_append (placed more : List (Place × Occurrence)) :
    visibleRequests (placed ++ more) =
      visibleRequests placed ++ visibleRequests more :=
  List.filterMap_append ..

theorem visibleRequests_map {place : Place} (hplace : place ≠ .keys)
    (os : List Occurrence) :
    visibleRequests (os.map fun o => (place, o)) =
      os.filterMap (·.request?) := by
  rw [visibleRequests, List.filterMap_map]
  refine List.filterMap_congr fun o _ => ?_
  simp [hplace]

/-- Nothing leaves the keys of a dynamic field. -/
theorem visibleRequests_map_keys (os : List Occurrence) :
    visibleRequests (os.map fun o => (.keys, o)) = [] := by
  rw [visibleRequests, List.filterMap_map, List.filterMap_eq_nil_iff]
  intro o _
  simp

theorem chooseSelector_eq_ok {isRoot : Bool} {keys requested : List String}
    {selector? : Option String}
      (h : chooseSelector isRoot keys requested = .ok selector?) :
    selector? = requested.find? (keys.contains ·) ∧
      ∀ p ∈ requested, p ∈ keys ∧ selector? = some p ∨ isRoot = true ∧
      p ∉ keys := by
  induction requested with
  | nil =>
      cases h
      simp
  | cons property rest ih =>
      rw [chooseSelector] at h
      split at h
      · rename_i hcontains
        split at h
        · cases h
        · rename_i hrest
          cases h
          have hmem : property ∈ keys := List.contains_iff_mem.mp hcontains
          refine ⟨by rw [List.find?_cons_of_pos hcontains], ?_⟩
          intro p hp
          have heq : p = property := by
            rcases List.mem_cons.mp hp with rfl | hp
            · rfl
            · simpa using List.find?_eq_none.mp hrest p hp
          rw [heq]
          exact Or.inl ⟨hmem, rfl⟩
      · rename_i hcontains
        have hmem : property ∉ keys :=
          fun hmem => hcontains (List.contains_iff_mem.mpr hmem)
        split at h
        · rename_i hroot
          obtain ⟨hfind, hall⟩ := ih h
          refine ⟨by rw [List.find?_cons_of_neg hcontains, hfind], ?_⟩
          exact List.forall_mem_cons.mpr ⟨Or.inr ⟨hroot, hmem⟩, hall⟩
        · cases h

section Run

variable {env : Environment}

/-- Where no template and no index is at the head, the root
makes no difference. -/
theorem occurrencesAt_eq {isRoot : Bool} {type : Schema}
    (h : type.rootOccurrences = type.occurrences) :
    type.occurrencesAt isRoot = type.occurrences := by
  cases isRoot with
  | false => rfl
  | true => exact h

theorem requests_compileUnion (cs : List Compiled) :
    (compileUnion cs).requests = Compiled.allRequests cs := by
  rw [compileUnion.eq_def]
  split
  · rfl
  · simp [Compiled.allRequests]
  · rfl

theorem filterMap_request?_list (os : List Occurrence) :
    (os.map (·.within .list)).filterMap (·.request?) =
      outerRequests (os.filterMap (·.request?)) := by
  rw [List.filterMap_map, outerRequests, List.filterMap_filterMap]
  refine List.filterMap_congr fun o _ => ?_
  simp [Occurrence.request?_within, Frame.isKeys]

/-- An index asks for its property unless it is the whole type. -/
theorem requests_compileDispatcher {scope : Scope} {registry registry' : Json}
    {indices : List Index} {index : IndexForm} {keys : List Json} {c : Compiled}
    (hindex : IndexForm.ofIndices? indices = some index)
    (hc : (compileDispatcher env scope registry index keys).outcome = .ok c) :
    c.requests = if scope.isRoot then [] else
      [(⟨.dispatcher registry' indices, []⟩ : Occurrence)].filterMap
        (·.request?) := by
  obtain ⟨key, info, -, rfl⟩ := compileDispatcher_eq_ok hc
  simp only [requests_access, List.filterMap_cons, List.filterMap_nil,
    Occurrence.request?, asks?_dispatcher hindex]
  cases index <;> cases scope.isRoot <;> simp [Occurrence.isHidden]

mutual

theorem Compiles.requests_eq : ∀ {scope : Scope} {type : Schema} {c : Compiled},
    Compiles env scope type c →
      c.requests = (type.occurrencesAt scope.isRoot).filterMap (·.request?)
  | scope, _, _, .leaf hleaf hplan hc => by
      rw [(Compiles.isClosed_of_isLeaf hleaf hplan hc).requests,
        Schema.occurrencesAt,
        occurrences_eq_nil hleaf, rootOccurrences_eq_nil hleaf, ite_self]
      rfl
  | scope, _, _, .reference hc => by
      obtain ⟨target, -, rfl⟩ := compileReference_eq_ok hc
      rw [occurrencesAt_eq rfl]
      rfl
  | _, _, _, .concrete hargs hc => by
      have hall := CompilesAll.requests_eq hargs rfl
      rw [occurrencesAt_eq rfl]
      exact hall
  | scope, _, _, .template hroot _ _ hbody => by
      have hinner := Compiles.requests_eq hbody
      rw [hroot] at hinner ⊢
      exact hinner
  | _, _, _, .list hitem hc => by
      have hinner := Compiles.requests_eq hitem
      obtain ⟨-, hrequests, -⟩ := compileList_eq_ok hc
      rw [occurrencesAt_eq rfl, hrequests, hinner]
      exact (filterMap_request?_list _).symm
  | _, _, _, .union hmembers => by
      have hall := CompilesAll.requests_eq hmembers rfl
      rw [occurrencesAt_eq rfl, requests_compileUnion, hall,
        ← occurrencesLive_eq]
      rfl
  | _, _, _, .tuple hitems => by
      have hall := CompilesAll.requests_eq hitems rfl
      rw [← occurrencesLive_eq] at hall
      rw [occurrencesAt_eq rfl]
      exact hall
  | _, _, _, .struct hfields hc => by
      have hparts := CompilesFields.requests_eq hfields
      obtain ⟨-, -, hrequests, -⟩ := composeStruct_eq_ok hc
      rw [occurrencesAt_eq rfl, hrequests, hparts]
      exact filterMap_request?_structOccurrences.symm
  | scope, _, _, .dispatcher hindex hc => by
      rw [requests_compileDispatcher hindex hc]
      cases scope.isRoot <;> rfl
  | scope, _, _, .indexed hindex _ hc => by
      rw [requests_compileDispatcher hindex hc]
      cases scope.isRoot <;> rfl

theorem CompilesAll.requests_eq :
    ∀ {scope : Scope} {types : List Schema} {cs : List Compiled},
      CompilesAll env scope types cs → scope.isRoot = false →
        Compiled.allRequests cs =
          (Schema.occurrencesAll types).filterMap (·.request?)
  | _, _, _, .nil, _ => rfl
  | _, _, _, .cons htype hrest, hroot => by
      have hhead := Compiles.requests_eq htype
      rw [hroot] at hhead
      rw [Schema.occurrencesAll, List.filterMap_append,
        ← CompilesAll.requests_eq hrest hroot]
      exact congrArg (· ++ _) hhead

theorem CompilesFields.requests_eq :
    ∀ {scope : Scope} {fields : List Field} {parts : List Part},
      CompilesFields env scope fields parts →
        Part.allRequests parts =
          visibleRequests (Schema.fieldOccurrences fields)
  | _, _, _, .nil => rfl
  | _, _, _, .gone hgone hrest => by
      rw [fieldOccurrences_gone hgone]
      exact CompilesFields.requests_eq hrest
  | _, _, _, .own hlive hvalue _ hrest => by
      rw [Schema.fieldOccurrences, if_pos hlive, visibleRequests_append,
        visibleRequests_map (by simp), ← CompilesFields.requests_eq hrest]
      exact congrArg (· ++ _) (Compiles.requests_eq hvalue)
  | _, _, _, .mapped hlive _ hvalue hrest => by
      rw [Schema.fieldOccurrences, if_pos hlive, visibleRequests_append,
        visibleRequests_append, visibleRequests_map_keys,
        visibleRequests_map (by simp), List.nil_append,
        ← CompilesFields.requests_eq hrest]
      exact congrArg (· ++ _) (Compiles.requests_eq hvalue)
  | _, _, _, .spread hlive hvalue hrest => by
      rw [Schema.fieldOccurrences, if_pos hlive, visibleRequests_append,
        visibleRequests_map (by simp), ← CompilesFields.requests_eq hrest]
      exact congrArg (· ++ _) (Compiles.requests_eq hvalue)

end

theorem CompilesFields.names_eq :
    ∀ {scope : Scope} {fields : List Field} {parts : List Part},
    CompilesFields env scope fields parts →
      (Part.properties parts).map (·.name) = Field.liveNames fields
  | _, _, _, .nil => rfl
  | _, _, _, .gone hgone hrest => by
      rw [CompilesFields.names_eq hrest, Field.liveNames, Field.liveNames,
        List.filter_cons_of_neg (Bool.eq_false_iff.mp hgone)]
  | _, _, _, .own hlive _ _ hrest => by
      have hrest := CompilesFields.names_eq hrest
      rw [Field.liveNames, List.filter_cons_of_pos hlive]
      exact congrArg (_ :: ·) hrest
  | _, _, _, .mapped hlive _ _ hrest => by
      have hrest := CompilesFields.names_eq hrest
      rw [Field.liveNames, List.filter_cons_of_pos hlive]
      exact hrest
  | _, _, _, .spread hlive _ hrest => by
      have hrest := CompilesFields.names_eq hrest
      rw [Field.liveNames, List.filter_cons_of_pos hlive]
      exact hrest

/-- A compiled struct is a union over the property that its occurrences select.
At the root some requests may stay open. -/
theorem CompilesFields.selector_eq {scope : Scope}
    {fields : List Field} {parts : List Part}
    {c : Compiled} (hfields : CompilesFields env scope fields parts)
    (hc : composeStruct scope parts = .ok c) :
    c.expr = structBody parts
        (selectorOf (Field.liveNames fields) (Schema.fieldOccurrences fields)) ∧
      ∀ r ∈ visibleRequests (Schema.fieldOccurrences fields), r.parents = 0 →
        r.property ∈ Field.liveNames fields ∧
            selectorOf (Field.liveNames fields)
              (Schema.fieldOccurrences fields) = some r.property ∨
          scope.isRoot = true ∧ r.property ∉ Field.liveNames fields := by
  obtain ⟨⟨selector?, hselector, hbody⟩, -⟩ := composeStruct_eq_ok hc
  rw [hfields.names_eq, hfields.requests_eq] at hselector
  obtain ⟨hfind, hall⟩ := chooseSelector_eq_ok hselector
  have heq : selector? = selectorOf (Field.liveNames fields)
      (Schema.fieldOccurrences fields) := hfind
  rw [← heq]
  refine ⟨hbody, fun r hr hparents => hall r.property ?_⟩
  exact List.mem_filterMap.mpr ⟨r, hr, if_pos hparents⟩

theorem mem_visibleRequests {placed : List (Place × Occurrence)} {r : Request} :
    r ∈ visibleRequests placed ↔
      ∃ e ∈ placed, e.1 ≠ .keys ∧ e.2.request? = some r := by
  rw [visibleRequests, List.mem_filterMap]
  refine exists_congr fun e => and_congr_right fun _ => ?_
  by_cases hkeys : e.1 = .keys <;> simp [hkeys]

mutual

/-- At the root, only templates and structs may leave a request
without an answer. -/
theorem Compiles.isSettled : ∀ {scope : Scope} {type : Schema} {c : Compiled},
    Compiles env scope type c → (scope.isRoot && type.isDeclarable) = false →
      ∀ o ∈ type.occurrences, o.IsSettled
  | _, _, _, .leaf hleaf _ _, _ => by
      rw [occurrences_eq_nil hleaf]
      simp
  | _, _, _, .reference _, _ =>
      List.forall_mem_singleton.mpr (Occurrence.isSettled_bare _)
  | _, _, _, .concrete hargs _, _ =>
      List.forall_mem_cons.mpr ⟨Occurrence.isSettled_bare _,
        CompilesAll.isSettled hargs rfl⟩
  | _, _, _, .template hroot' _ _ _, hroot => by
      rw [hroot'] at hroot
      cases hroot
  | _, _, _, .list hitem hc, _ => by
      obtain ⟨hpositive, -⟩ := compileList_eq_ok hc
      intro o ho
      obtain ⟨inner, hinner, rfl⟩ := List.mem_map.mp ho
      refine (Compiles.isSettled hitem rfl inner hinner).within
        fun _ r hr hzero => ?_
      -- A list has no properties, so nothing may be asked of it.
      refine absurd hzero (Nat.ne_of_gt (hpositive r ?_))
      rw [hitem.requests_eq]
      exact List.mem_filterMap.mpr ⟨inner, hinner, hr⟩
  | _, _, _, .union hmembers, _ => by
      rw [Schema.occurrences, occurrencesLive_eq]
      exact CompilesAll.isSettled hmembers rfl
  | _, _, _, .tuple hitems, _ => by
      rw [Schema.occurrences, occurrencesLive_eq]
      exact CompilesAll.isSettled hitems rfl
  | _, _, _, .struct hfields hc, hroot => by
      obtain ⟨-, hanswers⟩ := hfields.selector_eq hc
      intro o ho
      obtain ⟨⟨place, inner⟩, he, rfl⟩ := List.mem_map.mp ho
      refine (CompilesFields.isSettled hfields _ he).within
        fun hkeys r hr hzero => ?_
      have hplace : place ≠ .keys := by
        rintro rfl
        cases hkeys
      rcases hanswers r (mem_visibleRequests.mpr ⟨_, he, hplace, hr⟩) hzero with
        ⟨hmem, hselector⟩ | ⟨hroot', -⟩
      · exact ⟨_, place, by rw [hselector], hmem⟩
      · rw [hroot'] at hroot
        cases hroot
  | _, _, _, .dispatcher _ _, _ =>
      List.forall_mem_singleton.mpr (Occurrence.isSettled_bare _)
  | _, _, _, .indexed _ _ _, _ =>
      List.forall_mem_singleton.mpr (Occurrence.isSettled_bare _)

theorem CompilesAll.isSettled :
    ∀ {scope : Scope} {types : List Schema} {cs : List Compiled},
    CompilesAll env scope types cs → scope.isRoot = false →
      ∀ o ∈ Schema.occurrencesAll types, o.IsSettled
  | _, _, _, .nil, _ => by simp [Schema.occurrencesAll]
  | _, _, _, .cons htype hrest, hroot => by
      rw [Schema.occurrencesAll, List.forall_mem_append]
      exact ⟨Compiles.isSettled htype (by rw [hroot, Bool.false_and]),
        CompilesAll.isSettled hrest hroot⟩

theorem CompilesFields.isSettled :
    ∀ {scope : Scope} {fields : List Field} {parts : List Part},
    CompilesFields env scope fields parts →
      ∀ e ∈ Schema.fieldOccurrences fields, e.2.IsSettled
  | _, _, _, .nil => by simp [Schema.fieldOccurrences]
  | _, _, _, .gone hgone hrest => by
      rw [fieldOccurrences_gone hgone]
      exact CompilesFields.isSettled hrest
  | _, _, _, .own hlive hvalue _ hrest => by
      rw [Schema.fieldOccurrences, if_pos hlive, List.forall_mem_append,
        List.forall_mem_map]
      exact ⟨Compiles.isSettled hvalue rfl, CompilesFields.isSettled hrest⟩
  | _, _, _, .mapped hlive hkey hvalue hrest => by
      rw [Schema.fieldOccurrences, if_pos hlive, List.forall_mem_append,
        List.forall_mem_append, List.forall_mem_map, List.forall_mem_map]
      exact ⟨⟨CompilesKey.isSettled hkey, Compiles.isSettled hvalue rfl⟩,
        CompilesFields.isSettled hrest⟩
  | _, _, _, .spread hlive hvalue hrest => by
      rw [Schema.fieldOccurrences, if_pos hlive, List.forall_mem_append,
        List.forall_mem_map]
      exact ⟨Compiles.isSettled hvalue rfl, CompilesFields.isSettled hrest⟩

theorem CompilesKey.isSettled :
    ∀ {scope : Scope} {type : Schema} {keys : TypeExpr}
    {imports : Option ImportPaths}, CompilesKey env scope type keys imports →
      ∀ o ∈ type.occurrences, o.IsSettled
  | _, _, _, _, .string _ _ => by simp [Schema.occurrences]
  | _, _, _, _, .computed htype => Compiles.isSettled htype rfl

end

end Run

/-- Away from the root, the requests of a compiled type are those of its
occurrences that lead beyond it: an index with `n + 1` steps inside `d` lists
and structs asks for a property `n - d` levels further out. One with `n < d` was
answered by the struct at which its count reached zero. -/
theorem Schema.requests_exact {env : Environment} {scope : Scope}
    {type : Schema} {c : Compiled} (hroot : scope.isRoot = false)
    (h : (type.compile env scope).outcome = .ok c) :
    c.requests = type.occurrences.filterMap (·.request?) ∧
      ∀ o ∈ type.occurrences, o.isHidden = false → ∀ r, o.link.asks? = some r →
        r.parents < o.frames.length →
          ∃ names place, o.frames[r.parents]? =
            some (.struct names (some r.property) place) ∧
            r.property ∈ names := by
  have hrules := Schema.compile_sound h
  have hrequests := hrules.requests_eq
  rw [hroot] at hrequests
  exact ⟨hrequests, hrules.isSettled (by rw [hroot, Bool.false_and])⟩

/-- A list of structs in which one index is answered by its struct, one is
not counted because it lies in the keys of a dynamic field, and one leads
beyond the list. -/
theorem requests_exact_list :
    let env : Environment :=
      { dispatchers := Table.empty.put "minecraft:thing" { name := "Thing" } }
    let thing (steps : List Accessor) : Schema :=
      .dispatcher (.str "minecraft:thing") [.dynamic steps] []
    let parent : Accessor := .keyword (.str "parent")
    let type : Schema := .list
      (.struct
        [.pair (.name "type") (.string none []) false false .null [],
          .pair (.type (.union [thing [.property "other"]] []))
            (.tuple [thing [.property "type"],
              thing [parent, parent, parent, .property "kind"]] [])
            false false .null []] []) none []
    ({} : Scope).isRoot = false ∧ ∃ c, (type.compile env {}).outcome = .ok c ∧
      c.requests = [⟨1, "kind"⟩] ∧
      ∀ o ∈ type.occurrences, o.isHidden = false → ∀ r, o.link.asks? = some r →
        r.parents < o.frames.length →
          ∃ names place, o.frames[r.parents]? =
            some (.struct names (some r.property) place) ∧
            r.property ∈ names := by
  intro env thing parent type
  obtain ⟨c, hc⟩ : ∃ c, (type.compile env {}).outcome = .ok c := ⟨_, rfl⟩
  obtain ⟨hrequests, hanswered⟩ := Schema.requests_exact rfl hc
  exact ⟨rfl, c, hc, hrequests, hanswered⟩

end Typings
