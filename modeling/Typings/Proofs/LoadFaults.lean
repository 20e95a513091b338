import Typings.Proofs.WireFormat

/-!
Faults met in loading name the symbol that is at fault. The path of the symbol
is handed down to every place where a document is read. A reading names the
path if it does nothing with it but put it into its schema faults, and each
reader of the loader does, since all that it is made of does. So a table is
refused with the path of its first entry that cannot be read, however deep in
it the fault is.
-/

namespace Typings

variable {α β : Type}

/-- The fault with the path of a symbol in it; only a schema fault has
a place for one. -/
def Fault.locate (path : Option String) : Fault → Fault
  | .shape fault => .shape { fault with path }
  | fault => fault

/-- A schema fault of the reading names the path, and nothing
else depends on it. -/
def NamesPath (read : Option String → Except Fault α) : Prop :=
  ∀ path, read path = (read none).mapError (Fault.locate path)

namespace NamesPath

variable {read : Option String → Except Fault α}

theorem exists_ok_iff (h : NamesPath read) (path : Option String) :
    (∃ a, read path = .ok a) ↔ ∃ a, read none = .ok a := by
  rw [h path]
  cases read none <;> simp [Except.mapError]

/-- A schema fault has the path, and apart from that it is the one
met without a path. -/
theorem eq_shape_iff (h : NamesPath read) {path : Option String}
    {fault : ShapeFault} :
    read path = .error (.shape fault) ↔
      read none = .error (.shape { fault with path := none }) ∧
        fault.path = path := by
  have hnone := h none
  rw [h path]
  cases hread : read none with
  | ok a => simp [Except.mapError]
  | error other =>
      rw [hread] at hnone
      cases other with
      | shape bare =>
          obtain ⟨cause, kind, place⟩ := bare
          obtain ⟨cause', kind', place'⟩ := fault
          simp only [Except.mapError, Fault.locate, Except.error.injEq,
            Fault.shape.injEq, ShapeFault.mk.injEq] at hnone ⊢
          simp only [hnone, and_true, and_assoc, eq_comm]
      | _ => simp [Except.mapError, Fault.locate]

theorem pure (a : α) : NamesPath fun _ => (Pure.pure a : Except Fault α) :=
  fun _ => rfl

theorem shapeFault (cause : ShapeCause) (kind : Json) :
    NamesPath fun path =>
      (.error (Typings.shapeFault cause kind path) : Except Fault α) :=
  fun _ => rfl

/-- A value of the wrong kind is no schema fault. -/
theorem lift (x : Except Misuse α) :
    NamesPath fun _ => (liftM x : Except Fault α) := by
  intro path
  cases x <;> rfl

theorem bind {x : Option String → Except Fault α}
    {f : Option String → α → Except Fault β} (hx : NamesPath x)
    (hf : ∀ a, NamesPath fun path => f path a) : NamesPath fun path =>
      x path >>= f path := by
  intro path
  change x path >>= f path = (x none >>= f none).mapError _
  rw [hx path]
  cases x none with
  | error fault => rfl
  | ok a => exact hf a path

theorem map {x : Option String → Except Fault α} (hx : NamesPath x)
    (g : α → β) :
    NamesPath fun path => g <$> x path := by
  intro path
  change g <$> x path = (g <$> x none).mapError _
  rw [hx path]
  cases x none <;> rfl

theorem mapM {f : Option String → α → Except Fault β}
    (hf : ∀ a, NamesPath fun path => f path a) (xs : List α) :
    NamesPath fun path => xs.mapM (f path) := by
  induction xs with
  | nil => exact pure []
  | cons x rest ih =>
      simp only [List.mapM_cons]
      exact (hf x).bind fun y => ih.bind fun ys => pure (y :: ys)

/-- A reading of every item of a value. -/
theorem walk {f : Option String → Json → Except Fault β}
    (hf : ∀ v, NamesPath fun path => f path v) (data : Json) (g : List β → α) :
    NamesPath fun path =>
      (do return g (← (← liftM data.walk).mapM (f path)) : Except Fault α) :=
  (lift _).bind fun items => (mapM hf items).bind fun _ => pure _

theorem needed (kind : String) (data : Json) (key : String) :
    NamesPath fun path => Typings.needed kind path data key := by
  intro path
  cases data with
  | obj entries =>
      simp only [Typings.needed]
      cases Json.get? entries key <;> rfl
  | _ => rfl

theorem range (data : Json) : NamesPath fun _ => Range.read data := by
  intro path
  cases data <;> rfl

theorem accessor (data : Json) :
    NamesPath fun path => Accessor.read path data := by
  intro path
  cases data with
  | str name => rfl
  | _ => exact (needed "dispatcher" _ "keyword").map Accessor.keyword path

theorem index (data : Json) : NamesPath fun path => Index.read path data := by
  refine (lift _).bind fun entries path => ?_
  dsimp only
  split
  · exact (needed _ _ _).bind (fun _ => pure _) path
  · split
    · exact (needed _ _ _).bind (fun steps => walk accessor steps _) path
    · rfl

theorem indices (kind : String) (data : Json) :
    NamesPath fun path => Index.readAll kind path data :=
  (needed _ _ _).bind fun _ => (lift _).bind fun items => mapM index items

end NamesPath

namespace Schema

/-- The readers of a type and of what is written on one name the path,
with so much fuel. -/
structure ReadersNamePath (fuel : Nat) : Prop where
  type : ∀ data, NamesPath fun path => readWith fuel path data
  attributes : ∀ data, NamesPath fun path => readAttributes fuel path data
  value : ∀ data, NamesPath fun path => readAttributeValue fuel path data
  field : ∀ data, NamesPath fun path => readField fuel path data

namespace ReadersNamePath

variable {fuel : Nat}

theorem zero : ReadersNamePath 0 where
  type _ := .shapeFault _ _
  attributes _ := .pure _
  value _ := .pure _
  field _ _ := rfl

theorem item (h : ReadersNamePath fuel) (item : Json) :
    NamesPath fun path => readAttribute fuel path item :=
  (NamesPath.needed _ _ _).bind fun _ => (h.value _).bind fun _ => .pure _

theorem argument (h : ReadersNamePath fuel) (a : String × Json) :
    NamesPath fun path => readArgument fuel path a :=
  (h.value a.2).bind fun _ => .pure _

theorem enumValue (h : ReadersNamePath fuel) (v : Json) :
    NamesPath fun path => readEnumValue fuel path v :=
  (NamesPath.needed _ _ _).bind fun _ => (NamesPath.needed _ _ _).bind fun _ =>
    (h.attributes _).bind fun _ => .pure _

/-- What each kind of type reads, once its attributes are read. -/
theorem readWith_succ (h : ReadersNamePath fuel) (data : Json) :
    NamesPath fun path => readWith (fuel + 1) path data := by
  cases data with
  | obj entries =>
      simp only [readWith]
      cases Json.get? entries "kind" with
      | none => exact .shapeFault _ _
      | some kind =>
          refine (h.attributes _).bind fun attributes path => ?_
          dsimp only
          split
          · rfl
          · rfl
          · rfl
          · exact (NamesPath.range _).bind (fun _ => .pure _) path
          · exact (NamesPath.needed _ _ _).bind
              (fun item => (h.type item).bind fun _ =>
              (NamesPath.range _).bind fun _ => .pure _) path
          · exact (NamesPath.needed _ _ _).bind
              (fun items => .walk h.type items _) path
          · exact (NamesPath.needed _ _ _).bind
              (fun values => .walk h.enumValue values _) path
          · exact (NamesPath.needed _ _ _).bind
              (fun _ => (NamesPath.needed _ _ _).bind fun _ =>
              (NamesPath.needed _ _ _).bind fun _ => .pure _) path
          · exact (NamesPath.needed _ _ _).bind
              (fun fields => .walk h.field fields _) path
          · rfl
          · exact (NamesPath.needed _ _ _).bind
              (fun child => (h.type child).bind fun _ =>
              .walk h.type _ _) path
          · exact (NamesPath.needed _ _ _).bind
              (fun child => (h.type child).bind fun _ =>
              .walk (fun param => .needed _ param _) _ _) path
          · exact (NamesPath.needed _ _ _).bind
              (fun _ => (NamesPath.indices _ _).bind fun _ => .pure _) path
          · exact (NamesPath.needed _ _ _).bind
              (fun child => (h.type child).bind fun _ =>
              (NamesPath.indices _ _).bind fun _ => .pure _) path
          · exact (NamesPath.needed _ _ _).bind
              (fun members => .walk h.type members _) path
          · split
            · exact (NamesPath.range _).bind (fun _ => .pure _) path
            · split
              · exact (NamesPath.range _).bind
                  (fun _ => (NamesPath.range _).bind fun _ => .pure _) path
              · rfl
  | _ => exact .shapeFault _ _

theorem readAttributes_succ (h : ReadersNamePath fuel) (data : Json) :
    NamesPath fun path => readAttributes (fuel + 1) path data := by
  intro path
  simp only [readAttributes]
  split
  · exact (NamesPath.lift _).bind (fun items => .mapM h.item items) path
  · rfl

theorem readAttributeValue_succ (h : ReadersNamePath fuel) (data : Json) :
    NamesPath fun path => readAttributeValue (fuel + 1) path data := by
  intro path
  simp only [readAttributeValue]
  split
  · rfl
  · split
    · exact (NamesPath.lift _).bind
        (fun arguments => (NamesPath.mapM h.argument arguments).bind
        fun _ => .pure _) path
    · exact (h.type data).bind (fun _ => .pure _) path

theorem readField_succ (h : ReadersNamePath fuel) (data : Json) :
    NamesPath fun path => readField (fuel + 1) path data := by
  simp only [readField]
  refine (NamesPath.lift _).bind fun entries =>
    (h.attributes _).bind fun attributes path => ?_
  dsimp only
  split
  · exact (NamesPath.needed _ _ _).bind
      (fun type => (h.type type).bind fun _ => .pure _) path
  · split
    · have htype (key : FieldKey) : NamesPath fun path => (do
          let type ← readWith fuel path (← needed "struct" path data "type")
          return .pair key type (Json.getD entries "optional").isSet
            (Json.getD entries "deprecated").isSet
            (Json.getD entries "desc") attributes : Except Fault Field) :=
        (NamesPath.needed _ _ _).bind fun type =>
          (h.type type).bind fun _ => .pure _
      revert path
      refine (NamesPath.needed _ _ _).bind fun key path => ?_
      cases key with
      | str name => exact htype (.name name) path
      | _ => exact ((h.type _).map FieldKey.type).bind htype path
    · rfl

end ReadersNamePath

theorem readersNamePath : ∀ fuel, ReadersNamePath fuel
  | 0 => .zero
  | fuel + 1 =>
      have h := readersNamePath fuel
      ⟨h.readWith_succ, h.readAttributes_succ, h.readAttributeValue_succ,
        h.readField_succ⟩

end Schema

theorem Symbol.namesPath_read (data : Json) :
    NamesPath fun path => Symbol.read path data := by
  refine (NamesPath.lift _).bind fun typeDef? path => ?_
  cases typeDef? with
  | some typeDef =>
      exact ((Schema.readersNamePath _).type typeDef).bind (fun _ =>
        ((Schema.readersNamePath _).attributes _).bind fun _ => .pure _) path
  | none =>
      exact ((Schema.readersNamePath _).type data).bind (fun _ => .pure _) path

def IsSymbol (data : Json) : Prop :=
  ∃ symbol, Symbol.read none data = .ok symbol

/-- A table is filled up to the first item that cannot be read. -/
theorem foldlM_eq_error_iff {ε γ : Type} (read : α → Except ε β)
    (put : γ → α → β → γ) {items : List α} {table : γ} {fault : ε} :
    items.foldlM (fun table x => do return put table x (← read x)) table =
      .error fault ↔
      ∃ before x after, items = before ++ x :: after ∧
        (∀ y ∈ before, ∃ b, read y = .ok b) ∧
        read x = .error fault := by
  induction items generalizing table with
  | nil => simp [pure, Except.pure]
  | cons x rest ih =>
      rw [List.foldlM_cons]
      cases hx : read x with
      | error other =>
          constructor
          · intro h
            cases h
            exact ⟨[], x, rest, rfl, by simp, hx⟩
          · rintro ⟨before, y, after, heq, hbefore, hy⟩
            cases before with
            | nil =>
                cases heq
                cases hx.symm.trans hy
                rfl
            | cons z before =>
                cases heq
                obtain ⟨b, hb⟩ := hbefore x List.mem_cons_self
                cases hx.symm.trans hb
      | ok b =>
          change rest.foldlM (fun table x => do return put table x (← read x))
            (put table x b) = .error fault ↔ _
          rw [ih]
          constructor
          · rintro ⟨before, y, after, rfl, hbefore, hy⟩
            exact ⟨x :: before, y, after, rfl,
              List.forall_mem_cons.mpr ⟨⟨b, hx⟩, hbefore⟩, hy⟩
          · rintro ⟨before, y, after, heq, hbefore, hy⟩
            cases before with
            | nil =>
                cases heq
                cases hx.symm.trans hy
            | cons z before =>
                cases heq
                exact ⟨before, y, after, rfl,
                  fun w hw => hbefore w (List.mem_cons_of_mem _ hw), hy⟩

theorem exists_foldlM_eq_ok_iff {ε γ : Type} (read : α → Except ε β)
    (put : γ → α → β → γ) {items : List α} {table : γ} :
    (∃ filled, items.foldlM (fun table x => do return put table x (← read x))
        table = .ok filled) ↔
      ∀ x ∈ items, ∃ b, read x = .ok b := by
  induction items generalizing table with
  | nil => simp [pure, Except.pure]
  | cons x rest ih =>
      rw [List.foldlM_cons, List.forall_mem_cons]
      cases hx : read x with
      | error fault => simp [bind, Except.bind]
      | ok b =>
          change (∃ filled, rest.foldlM (fun table x =>
              do return put table x (← read x)) (put table x b) =
            .ok filled) ↔ _
          rw [ih]
          simp

/-- Reading fails at the first entry that is no symbol. It has the key, and the
fault is that of its value, apart from the path. -/
def Entries.FailsAt (entries : Entries) (key : String)
    (fault : ShapeFault) : Prop :=
  ∃ before value after, entries = before ++ (key, value) :: after ∧
    (∀ e ∈ before, IsSymbol e.2) ∧
    Symbol.read none value = .error (.shape { fault with path := none })

/-- A table whose entries are symbols, named in faults in some way, is refused
at the first one that is none. -/
theorem foldlM_symbols_eq_shape_iff {γ : Type}
    (name : String → String) (put : γ → String × Json → Symbol → γ)
    {entries : Entries} {table : γ} {fault : ShapeFault} :
    entries.foldlM (fun table e =>
        do return put table e (← Symbol.read (some (name e.1)) e.2)) table =
        .error (.shape fault) ↔
      ∃ key, entries.FailsAt key fault ∧ fault.path = some (name key) := by
  rw [foldlM_eq_error_iff]
  constructor
  · rintro ⟨before, ⟨key, value⟩, after, rfl, hbefore, hvalue⟩
    obtain ⟨hbare, hpath⟩ :=
      (Symbol.namesPath_read value).eq_shape_iff.mp hvalue
    exact ⟨key, ⟨before, value, after, rfl,
      fun e he => ((Symbol.namesPath_read e.2).exists_ok_iff _).mp
        (hbefore e he), hbare⟩, hpath⟩
  · rintro ⟨key, ⟨before, value, after, rfl, hbefore, hbare⟩, hpath⟩
    exact ⟨before, (key, value), after, rfl,
      fun e he =>
        ((Symbol.namesPath_read e.2).exists_ok_iff _).mpr (hbefore e he),
      (Symbol.namesPath_read value).eq_shape_iff.mpr ⟨hbare, hpath⟩⟩

/-- The entries that symbols are read from: those of the section,
if there is one. -/
def Symbols.sectionOf (entries : Entries) : Entries :=
  match Json.get? entries "mcdoc" with
  | some (.obj inner) => inner
  | _ => entries

theorem Symbols.read_obj (entries : Entries) :
    Symbols.read (.obj entries) = (sectionOf entries).foldlM (fun table e => do
      return table.put e.1 (← Symbol.read (some e.1) e.2)) .empty := by
  simp only [Symbols.read, sectionOf, Json.under?]
  cases Json.get? entries "mcdoc" with
  | none => rfl
  | some data => cases data <;> rfl

/-- What dispatchers are read from: the section, if there is one. -/
def Dispatchers.sectionOf (entries : Entries) : Json :=
  (Json.get? entries "mcdoc/dispatcher").getD (.obj entries)

/-- The data can be read as the members of a dispatcher. -/
def AreMembers (data : Json) : Prop :=
  ∃ members, data = .obj members ∧ ∀ m ∈ members, IsSymbol m.2

namespace Dispatchers

def memberPath (registry key : String) : String :=
  registry ++ "[" ++ key ++ "]"

theorem exists_readMembers_iff (registry : String) (data : Json) :
    (∃ table, readMembers registry data = .ok table) ↔ AreMembers data := by
  cases data with
  | obj members =>
      have hread (m : String × Json) :=
        (Symbol.namesPath_read m.2).exists_ok_iff
        (some (memberPath registry m.1))
      refine (exists_foldlM_eq_ok_iff (fun m : String × Json =>
          Symbol.read (some (memberPath registry m.1)) m.2)
        (fun (table : Table Schema) m symbol =>
          table.put m.1 symbol.type)).trans ?_
      simp only [hread]
      constructor
      · intro h
        exact ⟨members, rfl, h⟩
      · rintro ⟨_, ⟨⟩, h⟩
        exact h
  | _ =>
      constructor
      · rintro ⟨_, ⟨⟩⟩
      · rintro ⟨_, ⟨⟩, _⟩

theorem readMembers_eq_shape_iff {registry : String} {data : Json}
    {fault : ShapeFault} :
    readMembers registry data = .error (.shape fault) ↔
      ∃ members : Entries, ∃ key, data = .obj members ∧
        members.FailsAt key fault ∧
        fault.path = some (memberPath registry key) := by
  cases data with
  | obj members =>
      refine (foldlM_symbols_eq_shape_iff (memberPath registry)
        (fun (table : Table Schema) m symbol =>
          table.put m.1 symbol.type)).trans ?_
      constructor
      · rintro ⟨key, h⟩
        exact ⟨members, key, rfl, h⟩
      · rintro ⟨_, key, ⟨⟩, h⟩
        exact ⟨key, h⟩
  | _ =>
      constructor
      · rintro ⟨⟩
      · rintro ⟨_, _, ⟨⟩, _⟩

/-- The dispatchers are read from an object; anything else is
no schema fault. -/
theorem read_eq_shape_iff {entries : Entries} {fault : ShapeFault} :
    Dispatchers.read (.obj entries) = .error (.shape fault) ↔
      ∃ registries : Entries, sectionOf entries = .obj registries ∧
        registries.foldlM (fun (table : Dispatchers) e =>
            do return table.put e.1 (← readMembers e.1 e.2)) .empty =
          .error (.shape fault) := by
  simp only [Dispatchers.read, Json.under?]
  change ((liftM (sectionOf entries).asEntries : Except Fault Entries) >>=
    _) = _ ↔ _
  cases sectionOf entries with
  | obj registries =>
      constructor
      · intro h
        exact ⟨registries, rfl, h⟩
      · rintro ⟨_, ⟨⟩, h⟩
        exact h
  | _ =>
      constructor
      · rintro ⟨⟩
      · rintro ⟨_, ⟨⟩, _⟩

end Dispatchers

/-- A schema fault met in loading names its place. For symbols it is the path of
the first entry that is no symbol, and for dispatchers the registry and the key
of the first member that is none, whatever in its data is at fault. -/
theorem load_fault_names_first (entries : Entries) (fault : ShapeFault) :
    (Symbols.read (.obj entries) = .error (.shape fault) ↔
      ∃ key, (Symbols.sectionOf entries).FailsAt key fault ∧
        fault.path = some key) ∧
    (Dispatchers.read (.obj entries) = .error (.shape fault) ↔
      ∃ (before after members : Entries) (registry key : String),
        Dispatchers.sectionOf entries =
          .obj (before ++ (registry, .obj members) :: after) ∧
        (∀ e ∈ before, AreMembers e.2) ∧ members.FailsAt key fault ∧
        fault.path = some (registry ++ "[" ++ key ++ "]")) := by
  constructor
  · rw [Symbols.read_obj]
    exact foldlM_symbols_eq_shape_iff id fun (table : Symbols) e symbol =>
      table.put e.1 symbol
  · rw [Dispatchers.read_eq_shape_iff]
    simp only [foldlM_eq_error_iff (fun e : String × Json =>
        Dispatchers.readMembers e.1 e.2)
      (fun (table : Dispatchers) e members => table.put e.1 members),
      Dispatchers.exists_readMembers_iff, Dispatchers.readMembers_eq_shape_iff]
    constructor
    · rintro ⟨_, hsection, before, ⟨registry, _⟩, after, rfl, hbefore, members,
        key, rfl, hfails, hpath⟩
      exact ⟨before, after, members, registry, key, hsection, hbefore,
        hfails, hpath⟩
    · rintro ⟨before, after, members, registry, key, hsection, hbefore,
        hfails, hpath⟩
      exact ⟨_, hsection, before, (registry, .obj members), after, rfl, hbefore,
        members, key, rfl, hfails, hpath⟩

-- The fault is in an argument of an attribute on the key of a field.
example :
    let literal : Json :=
      .obj [("kind", .str "literal"), ("value", .obj [("kind", .str "string")])]
    let tree : Json :=
      .obj [("kind", .str "tree"), ("values", .obj [("registry", literal)])]
    let key : Json := .obj [("kind", .str "string"),
      ("attributes", .arr [.obj [("name", .str "id"), ("value", tree)]])]
    let field : Json := .obj [("kind", .str "pair"), ("key", key),
      ("type", .obj [("kind", .str "any")])]
    let section? : Json := .obj [("::java::A", .obj [("kind", .str "any")]),
      ("::java::B", .obj [("kind", .str "struct"), ("fields", .arr [field])]),
      ("::java::C", .null)]
    Symbols.read (.obj [("mcdoc", section?)]) = .error (.shape
      { cause := .missingField "value", kind := .str "literal",
        path := some "::java::B" }) := rfl

end Typings
