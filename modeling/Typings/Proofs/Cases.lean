import Typings.Proofs.MemberParams

/-!
The cases of a dispatcher. Every member has one alias, the declarations
beside the members refer to these aliases by a rule on the keys alone, and
the symbol has one case for each of the declarations. A static index picks a
property of the object of all members, or, with one key kept for it, the case
that joins them.
-/

namespace Typings

theorem ordinaryKeys_eq (members : Table Schema) :
    ordinaryKeys members = members.keys.filter fun key => key ≠ "%unknown" ∧
      key ≠ "%none" := by
  apply List.filter_congr
  intro key _
  simp [isSpecialMember, otherKey, absentKey, beq_eq_decide]

theorem fallbackKeys_eq (members : Table Schema) :
    fallbackKeys members = members.keys.filter fun key => key ≠ "%none" := by
  apply List.filter_congr
  intro key _
  simp [absentKey, bne, beq_eq_decide]

section Build

variable {env : Environment} {registry : String} {members : Table Schema}
  {d : DispatcherSymbol}

theorem eq_assemble_of_build
    (h : DispatcherSymbol.build env registry members = .ok d) :
    d = .assemble d.info members d.members d.imports := by
  rw [DispatcherSymbol.build] at h
  split at h
  · cases h
  · obtain ⟨compiled, -, h⟩ := bind_eq_ok_iff.mp h
    cases pure_eq_ok_iff.mp h
    rfl

/-- The alias is the one for the member: what the member compiles to, under the
name that its key gives and the type parameters that all members share. -/
inductive DispatcherHead.Declares (info : DispatcherHead) (env : Environment) :
    String × Schema → Alias → Prop where
  | expression {key : String} {member : Schema} {c : Compiled} {type : TypeExpr}
      (hc : (member.compile env
        { isRoot := true, name := some (memberName info key) }).outcome = .ok c)
      (htype : c.type = .expression type) :
      Declares info env (key, member)
        { name := memberName info key, type, params := info.params
          exported := false, docs := c.docs }
  /-- A type parameter of the declaration hides a shared one of its name. -/
  | declaration {key : String} {member : Schema} {c : Compiled}
      {declared : Alias} (hc : (member.compile env
        { isRoot := true, name := some (memberName info key) }).outcome = .ok c)
      (htype : c.type = .declaration declared) :
      Declares info env (key, member)
        { name := memberName info key, type := declared.type
          params := info.params.filter
            (fun p => ∀ q ∈ declared.params, q.name ≠ p.name) ++ declared.params
          exported := false, docs := declared.docs }

theorem DispatcherHead.Declares.name_eq {info : DispatcherHead}
    {m : String × Schema} {a : Alias}
    (h : info.Declares env m a) : a.name = memberName info m.1 := by
  cases h <;> rfl

theorem hoistParams_eq (shared own : List TypeParameter) :
    hoistParams shared own =
      shared.filter (fun p => ∀ q ∈ own, q.name ≠ p.name) ++ own := by
  rw [hoistParams]
  congr 1
  apply List.filter_congr
  intro p _
  rw [Bool.eq_iff_iff]
  simp

theorem declares_declareMember {info : DispatcherHead} {m : String × Schema}
    {c : Compiled} (hc : (m.2.compile env
      { isRoot := true, name := some (memberName info m.1) }).outcome = .ok c) :
    info.Declares env m (declareMember info (memberName info m.1) c) := by
  rw [declareMember]
  split
  · rename_i declared htype
    rw [hoistParams_eq]
    exact .declaration hc htype
  · rename_i type htype
    exact .expression hc htype

theorem declares_of_build
    (h : DispatcherSymbol.build env registry members = .ok d) :
    List.Forall₂ (d.info.Declares env) members.entries d.members := by
  apply (build_eq_ok (Run.symbol_of_build h).1 h).imp
  rintro m a ⟨c, hc, rfl⟩
  exact declares_declareMember hc

/-- The aliases of the members, each behind the key it was made for. -/
def DispatcherSymbol.rows (d : DispatcherSymbol) (members : Table Schema) :
    List (String × Alias) :=
  members.keys.zip d.members

theorem names_members_of_build
    (h : DispatcherSymbol.build env registry members = .ok d) :
    List.Forall₂ (fun key a => a.name = memberName d.info key) members.keys
      d.members := by
  rw [Table.keys, List.forall₂_map_left_iff]
  apply (declares_of_build h).imp
  intro m a ha
  exact ha.name_eq

theorem name_of_mem_rows
    (h : DispatcherSymbol.build env registry members = .ok d) {key : String}
    {a : Alias}
    (ha : (key, a) ∈ d.rows members) : a.name = memberName d.info key :=
  (List.forall₂_iff_zip.mp (names_members_of_build h)).2 ha

/-- What is made of some of the keys and the names of their members is made of
the rows with these keys. -/
theorem map_filter_rows {β : Type}
    (h : DispatcherSymbol.build env registry members = .ok d)
    (keep : String → Bool) (f : String → String → β) :
    (members.keys.filter keep).map (fun key => f key (memberName d.info key)) =
      ((d.rows members).filter fun row => keep row.1).map fun row =>
        f row.1 row.2.name := by
  have hnames := names_members_of_build h
  rw [DispatcherSymbol.rows]
  generalize members.keys = keys, d.members = aliases at hnames ⊢
  induction hnames with
  | nil => rfl
  | @cons key a keys aliases hname _ ih =>
      rw [List.zip_cons_cons, List.filter_cons, List.filter_cons]
      cases keep key with
      | false => exact ih
      | true => exact congrArg₂ List.cons (congrArg (f key) hname.symm) ih

@[simp] theorem caseBranch_caseLink (case label : String) (yes no : TypeExpr) :
    caseBranch case (caseLink label yes no) =
      if label = case then yes else caseBranch case no := by
  rw [caseLink, caseBranch]

@[simp] theorem caseBranch_never (case : String) :
    caseBranch case .never = .never := rfl

/-- The walk along the chain finds a case where it is declared. -/
theorem caseBranch_caseChain (info : DispatcherHead) (hasAbsent : Bool)
    (case : String) :
    caseBranch case (caseChain info hasAbsent) =
      if case = "map" then info.apply (info.name ++ "Map")
      else if case = "keys" then info.apply (info.name ++ "Keys")
      else if case = "%fallback" then info.apply (info.name ++ "Fallback")
      else if case = "%none" ∧ hasAbsent = true then
        info.apply (memberName info absentKey)
      else .never := by
  cases hasAbsent <;> simp [caseChain, eq_comm]

theorem select_of_build
    (h : DispatcherSymbol.build env registry members = .ok d) (case : String) :
    d.select case =
      if case = "map" then d.info.apply d.map.name
      else if case = "keys" then d.info.apply d.keys.name
      else if case = "%fallback" then d.info.apply d.fallback.name
      else if case = "%none" ∧ members.has absentKey = true then
        d.info.apply (memberName d.info absentKey)
      else .never := by
  have hassemble := eq_assemble_of_build h
  have hsymbol : d.symbol.type = caseChain d.info (members.has absentKey) :=
    congrArg (·.symbol.type) hassemble
  have hmap : d.map.name = d.info.name ++ "Map" :=
    congrArg (·.map.name) hassemble
  have hkeys : d.keys.name = d.info.name ++ "Keys" :=
    congrArg (·.keys.name) hassemble
  have hfallback : d.fallback.name = d.info.name ++ "Fallback" :=
    congrArg (·.fallback.name) hassemble
  rw [DispatcherSymbol.select, hsymbol, caseBranch_caseChain, hmap, hkeys,
    hfallback]

theorem alternatives_fallback_of_build
    (h : DispatcherSymbol.build env registry members = .ok d) :
    d.fallback.type.alternatives = (fallbackKeys members).map fun key =>
      d.info.apply (memberName d.info key) := by
  have hfallback : d.fallback.type = .anyOf _ :=
    congrArg (·.fallback.type) (eq_assemble_of_build h)
  have hjoined := alternatives_anyOf_apply d.info
    ((fallbackKeys members).map (memberName d.info))
  rw [List.map_map] at hjoined
  rw [hfallback]
  exact hjoined

end Build

/-- The declarations of a dispatcher are complete: each member has its alias, in
order; the object of all members and the union of the keys have those of the
members with a key of their own, the fallback joins all members but the one for
a missing discriminator, and each case of the symbol leads to its declaration,
all other texts nowhere. -/
theorem DispatcherSymbol.cases_complete {env : Environment} {registry : String}
    {members : Table Schema} {d : DispatcherSymbol}
    (h : DispatcherSymbol.build env registry members = .ok d) :
    let own :=
      (d.rows members).filter fun row => row.1 ≠ "%unknown" ∧ row.1 ≠ "%none"
    let joined := (d.rows members).filter fun row => row.1 ≠ "%none"
    List.Forall₂ (d.info.Declares env) members.entries d.members ∧
      d.map.type =
        .object (own.map fun row => .plain row.1 (d.info.apply row.2.name)) ∧
      d.keys.type = .anyOf (own.map fun row => .text row.1) ∧
      d.fallback.type = .anyOf (joined.map fun row => d.info.apply row.2.name) ∧
      d.select "map" = d.info.apply d.map.name ∧
      d.select "keys" = d.info.apply d.keys.name ∧
      d.select "%fallback" = d.info.apply d.fallback.name ∧
      (∀ a, ("%none", a) ∈ d.rows members →
        d.select "%none" = d.info.apply a.name) ∧
      ("%none" ∉ members.keys → d.select "%none" = .never) ∧
      ∀ case, case ∉ ["map", "keys", "%fallback", "%none"] →
        d.select case = .never := by
  intro own joined
  have hassemble := eq_assemble_of_build h
  refine ⟨declares_of_build h, ?_, ?_, ?_, ?_, ?_, ?_, ?_, ?_, ?_⟩
  · have hmap : d.map.type = .object _ := congrArg (·.map.type) hassemble
    rw [hmap, ordinaryKeys_eq, map_filter_rows h _ fun key name =>
      Property.plain key (d.info.apply name)]
  · have hkeys : d.keys.type = .anyOf _ := congrArg (·.keys.type) hassemble
    rw [hkeys, ordinaryKeys_eq]
    exact congrArg _ (map_filter_rows h _ fun key _ => TypeExpr.text key)
  · have hfallback : d.fallback.type = .anyOf _ :=
      congrArg (·.fallback.type) hassemble
    rw [hfallback, fallbackKeys_eq,
      map_filter_rows h _ fun _ name => d.info.apply name]
  · rw [select_of_build h, if_pos rfl]
  · exact select_of_build h "keys"
  · exact select_of_build h "%fallback"
  · intro a ha
    have habsent : members.has absentKey = true :=
      Table.has_iff.mpr (List.of_mem_zip ha).1
    rw [name_of_mem_rows h ha, select_of_build h, habsent]
    rfl
  · intro hnot
    have habsent : ¬ members.has absentKey = true := mt Table.has_iff.mp hnot
    rw [select_of_build h]
    simp [habsent]
  · intro case hcase
    simp only [List.mem_cons, List.not_mem_nil, or_false, not_or] at hcase
    rw [select_of_build h]
    simp [hcase]

/-- Special members before and between the others: the fallback has one of
them, the object has none, and a member under the name of a case is not what
the case selects. -/
theorem DispatcherSymbol.cases_complete_mixed :
    let members : Table Schema :=
      ⟨[("%none", .boolean []),
        ("b", .template (.string none []) [.str "::java::a::T"] []),
        ("%unknown", .any []), ("map", .boolean [])]⟩
    let apply (name : String) : TypeExpr := .reference name [.named "T"]
    ∃ info d, DispatcherHead.of "minecraft:x" members = .ok info ∧
      DispatcherSymbol.build { dispatchers := ⟨[("minecraft:x", info)]⟩ }
        "minecraft:x" members = .ok d ∧
      d.members.map (·.name) = ["XNoneType", "XB", "XFallbackType",
        "XMapMember"] ∧
      d.members.map (·.type) = [.boolean, .string, .unknown, .boolean] ∧
      d.members.map (fun a => a.params.map (·.name)) = [["T"], ["T"],
        ["T"], ["T"]] ∧
      d.map.type = .object [.plain "b" (apply "XB"),
        .plain "map" (apply "XMapMember")] ∧
      d.keys.type = .union [.text "b", .text "map"] ∧
      d.fallback.type = .union [apply "XB", apply "XFallbackType",
        apply "XMapMember"] ∧
      d.select "map" = apply "XMap" ∧ d.select "keys" = apply "XKeys" ∧
      d.select "%fallback" = apply "XFallback" ∧
      d.select "%none" = apply "XNoneType" ∧ d.select "b" = .never := by
  intro members apply
  obtain ⟨info, d, hinfo, hd⟩ :
      ∃ info d, DispatcherHead.of "minecraft:x" members = .ok info ∧
      DispatcherSymbol.build { dispatchers := ⟨[("minecraft:x", info)]⟩ }
        "minecraft:x" members = .ok d :=
    ⟨_, _, rfl, rfl⟩
  obtain ⟨-, hmap, hkeys, hfallback, hselectMap, hselectKeys, hselectFallback,
    hnone, -, hother⟩ := cases_complete hd
  cases hinfo
  cases hd
  exact ⟨_, _, rfl, rfl, rfl, rfl, rfl, hmap, hkeys, hfallback,
    hselectMap, hselectKeys, hselectFallback,
    hnone _ List.mem_cons_self, hother "b" (by decide)⟩

/-- A type is the base followed by the keys. Each of them is checked to be a key
of what it is applied to, and where it is none, nothing is known. -/
inductive IsGuarded : TypeExpr → List Json → TypeExpr → Prop where
  | nil {base : TypeExpr} : IsGuarded base [] base
  | cons {base type : TypeExpr} {key : Json} {rest : List Json}
      (h : IsGuarded (.access base (.ofValue key)) rest type) :
      IsGuarded base (key :: rest) (.conditional (.ofValue key)
        (.operator "keyof" base) type
          (.reference "Record" [.string, .unknown]) true)

theorem isGuarded_guardedPath (base : TypeExpr) (keys : List Json) :
    IsGuarded base keys (guardedPath base keys) := by
  induction keys generalizing base with
  | nil => exact .nil
  | cons key rest ih => exact .cons (ih _)

/-- Looking the type up in the declarations leads to a reference to the alias:
under the key in the object of all members, or as the case of the symbol. -/
inductive DispatcherSymbol.Denotes (d : DispatcherSymbol) (a : Alias) :
    TypeExpr → Prop where
  | property {args : List TypeExpr} {key : String} {properties : List Property}
      (hmap : d.map.type = .object properties)
      (hkey : key ∈ properties.map (·.name))
      (href : ∀ p ∈ properties, p.name = key → p.type = d.info.apply a.name) :
      Denotes d a (.access (.reference d.symbol.name args) (.text key))
  | case {args : List TypeExpr} {case : String}
      (hselect : d.select case = d.info.apply a.name) :
      Denotes d a (.reference d.symbol.name (args ++ [.text case]))

namespace DispatcherSymbol.Denotes

variable {d : DispatcherSymbol} {a : Alias}

theorem exists_property {t : TypeExpr} {key : String}
    (h : d.Denotes a (.access t (.text key))) :
    ∃ properties, d.map.type = .object properties ∧
      key ∈ properties.map (·.name) := by
  cases h with
  | property hmap hkey _ => exact ⟨_, hmap, hkey⟩

theorem select_eq {name case : String} {args : List TypeExpr}
    (h : d.Denotes a (.reference name (args ++ [.text case]))) :
    d.select case = d.info.apply a.name := by
  generalize hall : args ++ [.text case] = all at h
  cases h with
  | case hselect =>
      cases (List.append_inj' hall rfl).2
      exact hselect

end DispatcherSymbol.Denotes

section Index

variable {env : Environment} {registry : String} {info : DispatcherHead}

theorem exists_compileDispatcher
    (hget : env.dispatchers.get? registry = some info) (scope : Scope)
    (index : IndexForm) (keys : List Json) :
    ∃ c, (compileDispatcher env scope (.str registry) index keys).outcome =
      .ok c := by
  have hinfo : env.dispatcher (.str registry) = .ok (registry, info) := by
    refine bind_eq_ok_iff.mpr ⟨some registry, rfl, ?_⟩
    dsimp only
    rw [hget]
    rfl
  rw [compileDispatcher, hinfo]
  cases scope.source with
  | none => exact ⟨_, rfl⟩
  | some source => exact ⟨_, rfl⟩

/-- A static index always compiles, if its dispatcher is known. -/
theorem exists_compile_static (hget : env.dispatchers.get? registry = some info)
    {attributes : List Attribute}
    (hattributes : checkAttributes attributes = .ok ()) (scope : Scope)
    (key : String) :
    ∃ c, ((Schema.dispatcher (.str registry)
        [.static (.str key)] attributes).compile env scope).outcome = .ok c ∧
      c.type = .expression (info.access (.static (.str key)) scope.isRoot
        scope.args scope.keys).1 := by
  obtain ⟨c, hc⟩ :=
    exists_compileDispatcher hget scope (.static (.str key)) scope.keys
  refine ⟨c, ?_, compileDispatcher_of_get? hget hc⟩
  have hplan : Plan.ofSchema
      (.dispatcher (.str registry) [.static (.str key)] attributes) =
      .ok (.dispatcher (.str registry) (.static (.str key)) none) :=
    bind_eq_ok_iff.mpr ⟨(), hattributes, by rw [Plan.ofBody]; rfl⟩
  rw [Schema.compile, hplan]
  refine Emit.outcome_bind_eq_ok_iff.mpr ⟨_, rfl, ?_⟩
  rw [Plan.compile]
  exact hc

theorem access_static_of_ne {key : String}
    (hkey : key ≠ "%fallback") (isRoot : Bool) (args : List TypeExpr)
    (keys : List Json) : (info.access (.static (.str key)) isRoot args keys).1 =
      guardedPath (.access (.reference info.tableName (info.fill args))
        (.text key)) keys := by
  have hplain : ¬ Json.isText (.str key) "%fallback" = true := by
    simpa [Json.isText] using hkey
  simp only [DispatcherHead.access, if_neg hplain]
  rfl

end Index

/-- A static index with the key of a member, other than the special ones, is
the access to the member's alias in the object of all members. The key that is
kept for it leads to the union of the members instead, also where there is a
member under that key. -/
theorem DispatcherSymbol.static_index_reaches {env : Environment}
    {registry : String} {members : Table Schema} {d : DispatcherSymbol}
    (h : DispatcherSymbol.build env registry members = .ok d) {key : String}
    {member : Schema} (hmember : (key, member) ∈ members.entries)
    {attributes : List Attribute}
    (hattributes : checkAttributes attributes = .ok ()) (scope : Scope) :
    ∃ a ∈ d.members, d.info.Declares env (key, member) a ∧
      ∃ c, ((Schema.dispatcher (.str registry)
          [.static (.str key)] attributes).compile env scope).outcome = .ok c ∧
        (key ∉ ["%unknown", "%none", "%fallback"] →
          ∃ t type, t = .access
            (.reference d.symbol.name (d.info.fill scope.args)) (.text key) ∧
            IsGuarded t scope.keys type ∧ c.type = .expression type ∧
            d.Denotes a t) ∧
        (key = "%fallback" →
          ∃ t type, t = .reference d.symbol.name
            (d.info.fill scope.args ++ [.text "%fallback"]) ∧
            IsGuarded t scope.keys type ∧ c.type = .expression type ∧
            d.select "%fallback" = d.info.apply d.fallback.name ∧
            d.info.apply a.name ∈ d.fallback.type.alternatives) := by
  have hassemble := eq_assemble_of_build h
  obtain ⟨hget, hsymbol, -⟩ := Run.symbol_of_build h
  obtain ⟨a, ha, hdeclares⟩ :=
    exists_mem_of_forall₂ (declares_of_build h) hmember
  obtain ⟨c, hc, htype⟩ := exists_compile_static hget hattributes scope key
  have hkey : key ∈ members.keys := List.mem_map_of_mem hmember
  refine ⟨a, ha, hdeclares, c, hc, ?_, ?_⟩
  · intro hplain
    simp only [List.mem_cons, List.not_mem_nil, or_false, not_or] at hplain
    obtain ⟨hother, habsent, hfallback⟩ := hplain
    refine ⟨_, _, rfl, isGuarded_guardedPath _ _, ?_,
      .property (congrArg (·.map.type) hassemble) ?_ ?_⟩
    · rw [htype, access_static_of_ne hfallback, hsymbol]
    · simpa [Property.plain, Property.name] using
        mem_ordinaryKeys.mpr ⟨hkey, hother, habsent⟩
    · intro p hp hname
      obtain ⟨key', -, rfl⟩ := List.mem_map.mp hp
      obtain rfl : key' = key := hname
      rw [hdeclares.name_eq]
      rfl
  · rintro rfl
    refine ⟨_, _, rfl, isGuarded_guardedPath _ _, ?_, select_of_build h _, ?_⟩
    · rw [htype, hsymbol]
      rfl
    · rw [alternatives_fallback_of_build h, hdeclares.name_eq]
      exact List.mem_map_of_mem (List.mem_filter.mpr ⟨hkey, rfl⟩)

/-- An index with the key of an ordinary member, with an access behind it, and
one with the key that is kept, beside a member under that key; both have an
unknown type for the shared type parameter. -/
theorem DispatcherSymbol.static_index_reaches_mixed :
    let members : Table Schema :=
      ⟨[("b", .template (.string none []) [.str "::java::a::T"] []),
        ("%fallback", .boolean []), ("%none", .any [])]⟩
    let index (key : String) : Schema :=
      .dispatcher (.str "minecraft:x") [.static (.str key)] []
    let symbol (case : List TypeExpr) : TypeExpr :=
      .reference "SymbolX" (.unknown :: case)
    ∃ info d, DispatcherHead.of "minecraft:x" members = .ok info ∧
      let env : Environment := { dispatchers := ⟨[("minecraft:x", info)]⟩ }
      DispatcherSymbol.build env "minecraft:x" members = .ok d ∧
      (∃ a ∈ d.members, a.name = "XB" ∧ ∃ c,
        ((index "b").compile env { keys := [.str "id"] }).outcome = .ok c ∧
        c.type = .expression (.conditional (.text "id")
          (.operator "keyof" (.access (symbol []) (.text "b")))
          (.access (.access (symbol []) (.text "b")) (.text "id"))
          (.reference "Record" [.string, .unknown]) true) ∧
        d.Denotes a (.access (symbol []) (.text "b"))) ∧
      ∃ a ∈ d.members, a.name = "X%fallback" ∧
      ∃ c, ((index "%fallback").compile env {}).outcome = .ok c ∧
        c.type = .expression (symbol [.text "%fallback"]) ∧
        d.select "%fallback" = .reference "XFallback" [.named "T"] ∧
        .reference a.name [.named "T"] ∈ d.fallback.type.alternatives := by
  intro members index symbol
  obtain ⟨info, d, hinfo, hd⟩ :
      ∃ info d, DispatcherHead.of "minecraft:x" members = .ok info ∧
      DispatcherSymbol.build { dispatchers := ⟨[("minecraft:x", info)]⟩ }
        "minecraft:x" members = .ok d :=
    ⟨_, _, rfl, rfl⟩
  have hvalid : checkAttributes [] = .ok () := rfl
  obtain ⟨a, ha, hdeclares, c, hc, hplain, -⟩ :=
    static_index_reaches hd List.mem_cons_self hvalid { keys := [.str "id"] }
  obtain ⟨b, hb, hdeclares', c', hc', -, hkept⟩ :=
    static_index_reaches hd
      (List.mem_cons_of_mem _ List.mem_cons_self) hvalid {}
  obtain ⟨t, type, rfl, hguarded, htype, hdenotes⟩ := hplain (by decide)
  obtain ⟨t', type', rfl, hguarded', htype', hselect, hmem⟩ := hkept rfl
  have hname := hdeclares.name_eq
  have hname' := hdeclares'.name_eq
  cases hinfo
  cases hd
  cases hguarded with
  | cons hend =>
      cases hend
      cases hguarded'
      exact ⟨_, _, rfl, rfl, ⟨a, ha, hname, c, hc, htype, hdenotes⟩, b, hb,
        hname', c', hc', htype', hselect, hmem⟩

/-- The special members have no property in the object of all members, so an
index with such a key leads nowhere, and one with the key that is kept leads to
the union of the members, not to the one under that key. -/
theorem DispatcherSymbol.static_index_misses_special :
    let special : List (String × Schema) :=
      [("%none", .string none []), ("%unknown", .any []),
        ("%fallback", .boolean [])]
    let members : Table Schema := ⟨special ++ [("b", .boolean [])]⟩
    ∃ info d, DispatcherHead.of "minecraft:x" members = .ok info ∧
      let env : Environment := { dispatchers := ⟨[("minecraft:x", info)]⟩ }
      DispatcherSymbol.build env "minecraft:x" members = .ok d ∧
      ∀ m ∈ special, ∃ a ∈ d.members, d.info.Declares env m a ∧
        ∃ c, ((Schema.dispatcher (.str "minecraft:x") [.static (.str m.1)]
            []).compile env {}).outcome = .ok c ∧
          ¬ d.Denotes a c.expr := by
  intro special members
  obtain ⟨info, d, hinfo, hd, hmap, hfallback, hname⟩ : ∃ info d,
      DispatcherHead.of "minecraft:x" members = .ok info ∧
      DispatcherSymbol.build { dispatchers := ⟨[("minecraft:x", info)]⟩ }
        "minecraft:x" members = .ok d ∧
      d.map.type = .object [.plain "%fallback" (.named "X%fallback"),
        .plain "b" (.named "XB")] ∧
      d.fallback.name = "XFallback" ∧
      memberName d.info "%fallback" = "X%fallback" :=
    ⟨_, _, rfl, rfl, rfl, rfl, rfl⟩
  have hvalid : checkAttributes [] = .ok () := rfl
  refine ⟨info, d, hinfo, hd, ?_⟩
  intro m hm
  obtain ⟨a, ha, hdeclares⟩ :=
    exists_mem_of_forall₂ (declares_of_build hd) (List.mem_append_left _ hm)
  obtain ⟨c, hc, htype⟩ :=
    exists_compile_static (Run.symbol_of_build hd).1 hvalid {} m.1
  refine ⟨a, ha, hdeclares, c, hc, ?_⟩
  intro hdenotes
  rw [Compiled.expr, htype] at hdenotes
  by_cases hkept : m.1 = "%fallback"
  · rw [hkept] at hdenotes
    have hselect : d.select "%fallback" = d.info.apply a.name :=
      hdenotes.select_eq
    have hjoined : d.select "%fallback" = d.info.apply d.fallback.name :=
      select_of_build hd "%fallback"
    have heq := (TypeExpr.reference.inj (hjoined.symm.trans hselect)).1
    rw [hfallback, hdeclares.name_eq, hkept, hname] at heq
    exact absurd heq (by decide)
  · rw [access_static_of_ne hkept] at hdenotes
    obtain ⟨properties, hproperties, hkey⟩ := hdenotes.exists_property
    cases hmap.symm.trans hproperties
    have hspecial : ∀ m ∈ special, m.1 ∈ ["%fallback", "b"] →
        m.1 = "%fallback" := by decide
    exact hkept (hspecial m hm hkey)

end Typings
