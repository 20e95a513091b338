import Typings.Proofs.ImportPaths
import Typings.Proofs.Steps
import Typings.Proofs.Tables

/-!
Drafts as what was added to them. A history lists all additions to all modules
in the order in which they were made; the draft of a module is made of those
that went to it, and a module is there if there are any.
-/

namespace Typings

/-- What is added to a module at once. -/
structure Contribution where
  path : String
  declaration : Declaration
  imports : Option ImportPaths := none
  source : Option String := none

namespace Draft

def accept (d : Draft) (c : Contribution) : Draft :=
  d.add c.declaration c.imports c.source

def extend (d : Draft) (cs : List Contribution) : Draft :=
  cs.foldl accept d

variable {d : Draft} {cs : List Contribution}

theorem path_extend : (d.extend cs).path = d.path := by
  induction cs generalizing d with
  | nil => rfl
  | cons c rest ih => exact ih

theorem declarations_extend :
    (d.extend cs).declarations = d.declarations ++ cs.map (·.declaration) := by
  induction cs generalizing d with
  | nil => simp [extend]
  | cons c rest ih =>
      rw [extend, List.foldl_cons]
      refine (ih (d := d.accept c)).trans ?_
      simp [accept, add]

theorem extend_append (more : List Contribution) :
    d.extend (cs ++ more) = (d.extend cs).extend more :=
  List.foldl_append

/-- Sources that all differ are kept in order. -/
theorem sources_extend (h : (d.sources ++ cs.filterMap (·.source)).Nodup) :
    (d.extend cs).sources = d.sources ++ cs.filterMap (·.source) := by
  induction cs generalizing d with
  | nil => simp [extend]
  | cons c rest ih =>
      cases hsource : c.source with
      | none =>
          have haccept : (d.accept c).sources = d.sources := by
            simp [accept, add, hsource]
          rw [List.filterMap_cons_none hsource, ← haccept] at h ⊢
          exact ih h
      | some source =>
          rw [List.filterMap_cons_some hsource] at h ⊢
          have hnew : source ∉ d.sources :=
            fun hmem => (List.nodup_append.mp h).2.2 source hmem source
              List.mem_cons_self rfl
          have haccept : (d.accept c).sources = d.sources ++ [source] := by
            simp [accept, add, hsource, hnew]
          rw [List.append_cons, ← haccept] at h ⊢
          exact ih h

/-- A draft collects the paths that its contributions need. -/
theorem imports_extend (hd : ImportsNormal d.imports) (cs : List Contribution) :
    ImportsNormal (d.extend cs).imports ∧
      ∀ q, q ∈ importedPaths (d.extend cs).imports ↔
      q ∈ importedPaths d.imports ∨ ∃ c ∈ cs, q ∈ importedPaths c.imports := by
  induction cs generalizing d with
  | nil => exact ⟨hd, by simp [extend]⟩
  | cons c rest ih =>
      obtain ⟨hjoin, hmem⟩ := hd.join c.imports
      obtain ⟨hnormal, hall⟩ := ih (d := d.accept c) hjoin
      refine ⟨hnormal, fun q => (hall q).trans ?_⟩
      rw [List.exists_mem_cons_iff, ← or_assoc]
      exact or_congr_left (hmem q)

end Draft

namespace Drafts

def accept (ds : Drafts) (c : Contribution) : Drafts :=
  { ds with modules := ds.modules.put c.path ((ds.draft c.path).accept c) }

def extend (ds : Drafts) (cs : List Contribution) : Drafts :=
  cs.foldl accept ds

def ensure (ds : Drafts) (path : String) : Drafts :=
  if ds.modules.has path then ds
  else { ds with modules := ds.modules.put path (ds.draft path) }

/-- Drafts that can be written to, each kept under its own path. -/
structure IsOpen (ds : Drafts) : Prop where
  opened : ds.closed = false
  keyed : ∀ path, (ds.draft path).path = path

variable {ds : Drafts} {c : Contribution} {cs : List Contribution}
  {path : String}

theorem draft_put {d : Draft} {path' : String} :
    ({ ds with modules := ds.modules.put path' d } : Drafts).draft path =
      if path = path' then d else ds.draft path := by
  rw [draft, Table.get?_put]
  by_cases h : path = path'
  · simp [h]
  · simp [h, draft]

theorem draft_ensure {path' : String} :
    (ds.ensure path').draft path = ds.draft path := by
  rw [ensure]
  split
  · rfl
  · rw [draft_put]
    split
    · rename_i h
      rw [h]
    · rfl

theorem isOpen_empty : IsOpen {} where
  opened := rfl
  keyed _ := rfl

theorem IsOpen.accept (h : ds.IsOpen) (c : Contribution) :
    (ds.accept c).IsOpen where
  opened := h.opened
  keyed path := by
    rw [Drafts.accept, draft_put]
    split
    · rename_i hpath
      rw [hpath]
      exact h.keyed c.path
    · exact h.keyed path

theorem IsOpen.extend (h : ds.IsOpen) (cs : List Contribution) :
    (ds.extend cs).IsOpen := by
  induction cs generalizing ds with
  | nil => exact h
  | cons c rest ih => exact ih (h.accept c)

theorem IsOpen.ensure (h : ds.IsOpen) (path : String) :
    (ds.ensure path).IsOpen where
  opened := by
    rw [Drafts.ensure]
    split
    · exact h.opened
    · exact h.opened
  keyed path := by
    rw [draft_ensure]
    exact h.keyed path

theorem IsOpen.access_eq (h : ds.IsOpen) (path : String) :
    ds.access path = .ok (ds.draft path, ds.ensure path) := by
  rw [access, if_neg (by simp [h.opened]), Drafts.ensure]
  split
  · rfl
  · rfl

theorem ensure_of_mem (h : path ∈ ds.modules.keys) : ds.ensure path = ds := by
  rw [ensure, if_pos (Table.has_iff.mpr h)]

/-- A module that is written to need not be put in place before. -/
theorem accept_ensure : (ds.ensure c.path).accept c = ds.accept c := by
  rw [accept, draft_ensure, ensure]
  split
  · rfl
  · rw [Table.put_put]
    rfl

/-- Changing the draft of a module and putting it back adds to the module. -/
theorem IsOpen.store_accept (h : ds.IsOpen) (c : Contribution) :
    (ds.ensure c.path).store ((ds.draft c.path).accept c) = ds.accept c := by
  rw [← accept_ensure, store, Drafts.accept, draft_ensure]
  congr 2
  exact h.keyed c.path

theorem extend_ensure (h : ∃ c, cs.head? = some c ∧ c.path = path) :
    (ds.ensure path).extend cs = ds.extend cs := by
  obtain ⟨c, hhead, rfl⟩ := h
  obtain ⟨rest, rfl⟩ := List.head?_eq_some_iff.mp hhead
  exact congrArg (Drafts.extend · rest) accept_ensure

theorem extend_append (more : List Contribution) :
    ds.extend (cs ++ more) = (ds.extend cs).extend more :=
  List.foldl_append

/-- The draft of a module gets the contributions to it. -/
theorem draft_extend :
    (ds.extend cs).draft path =
      (ds.draft path).extend (cs.filter (·.path == path)) := by
  induction cs generalizing ds with
  | nil => rfl
  | cons c rest ih =>
      refine (@ih (ds.accept c)).trans ?_
      rw [accept, draft_put, List.filter_cons]
      by_cases h : path = c.path
      · simp [h, Draft.extend]
      · have hne : (c.path == path) = false := by simpa using Ne.symm h
        simp [h, hne]

theorem mem_keys_extend : path ∈ (ds.extend cs).modules.keys ↔
    path ∈ ds.modules.keys ∨ ∃ c ∈ cs, c.path = path := by
  induction cs generalizing ds with
  | nil => simp [extend]
  | cons c rest ih =>
      refine (@ih (ds.accept c)).trans ?_
      rw [accept, Table.mem_keys_put, List.exists_mem_cons_iff, or_assoc,
        or_left_comm, eq_comm]

theorem nodup_keys_extend (h : ds.modules.keys.Nodup) :
    (ds.extend cs).modules.keys.Nodup := by
  induction cs generalizing ds with
  | nil => exact h
  | cons c rest ih =>
      apply ih
      exact Table.nodup_keys_put h

end Drafts

namespace History

/-- The draft of a module after all of the contributions. -/
def draft (history : List Contribution) (path : String) : Draft :=
  Draft.extend { path } (history.filter (·.path == path))

def drafts (history : List Contribution) : Drafts :=
  Drafts.extend {} history

variable {history : List Contribution} {path : String}

theorem draft_drafts : (drafts history).draft path = draft history path :=
  Drafts.draft_extend

theorem isOpen_drafts : (drafts history).IsOpen :=
  Drafts.isOpen_empty.extend history

theorem mem_keys_drafts :
    path ∈ (drafts history).modules.keys ↔ ∃ c ∈ history, c.path = path := by
  rw [drafts, Drafts.mem_keys_extend]
  simp [Table.keys]

theorem nodup_keys_drafts : (drafts history).modules.keys.Nodup :=
  Drafts.nodup_keys_extend List.nodup_nil

theorem path_draft : (draft history path).path = path :=
  Draft.path_extend

/-- What a module declares is what was added to it, in order. -/
theorem declarations_draft : (draft history path).declarations =
    (history.filter (·.path == path)).map (·.declaration) := by
  rw [draft, Draft.declarations_extend, List.nil_append]

theorem sources_draft
    (h : ((history.filter (·.path == path)).filterMap (·.source)).Nodup) :
    (draft history path).sources =
      (history.filter (·.path == path)).filterMap (·.source) :=
  Draft.sources_extend h

theorem imports_draft :
    ImportsNormal (draft history path).imports ∧
      ∀ q, q ∈ importedPaths (draft history path).imports ↔
      ∃ c ∈ history, c.path = path ∧ q ∈ importedPaths c.imports := by
  obtain ⟨hnormal, hmem⟩ :=
    Draft.imports_extend (d := { path }) importsNormal_none
    (history.filter (·.path == path))
  refine ⟨hnormal, fun q => (hmem q).trans ?_⟩
  simp [importedPaths, and_assoc]

end History

namespace Run

/-- The run with more contributions to its modules. -/
def extend (g : Run) (cs : List Contribution) : Run :=
  { g with drafts := g.drafts.extend cs }

/-- An alias that needs no imports, as a contribution. -/
def aliasTo (path : String) (a : Alias) : Contribution :=
  { path, declaration := .typeAlias a }

/-- The declarations of a dispatcher, as contributions to one module. -/
def block (path : String) (d : DispatcherSymbol) : List Contribution :=
  match d.declarations with
  | [] => []
  | first :: rest =>
    { path, declaration := .typeAlias first, imports := d.imports } ::
      rest.map (aliasTo path)

variable {g : Run}

theorem openDraft_eq (h : g.drafts.IsOpen) (path : String) :
    openDraft path g = (.ok (g.drafts.draft path),
      { g with drafts := g.drafts.ensure path }) := by
  rw [openDraft, Step.get_bind, h.access_eq]
  rfl

theorem declare_eq (h : g.drafts.IsOpen) (c : Contribution) :
    declare c.path c.declaration c.imports c.source g =
      (.ok ⟨⟩, g.extend [c]) := by
  rw [declare, Step.bind_of_ok (openDraft_eq h c.path), Step.modify_eq]
  exact congrArg (fun drafts => (Except.ok PUnit.unit, { g with drafts }))
    (h.store_accept c)

theorem declareAlias_eq (h : g.drafts.IsOpen) (path : String) (a : Alias) :
    declareAlias path a g = (.ok ⟨⟩, g.extend [aliasTo path a]) :=
  declare_eq h (aliasTo path a)

theorem extend_extend (cs more : List Contribution) :
    (g.extend cs).extend more = g.extend (cs ++ more) := by
  rw [extend, extend, extend, Drafts.extend_append]

theorem extend_ensure {path : String} {cs : List Contribution}
    (h : ∃ c, cs.head? = some c ∧ c.path = path) :
    ({ g with drafts := g.drafts.ensure path } : Run).extend cs = g.extend cs :=
  congrArg (fun drafts => { g with drafts }) (Drafts.extend_ensure h)

theorem forM_declareAlias_eq (h : g.drafts.IsOpen) (path : String)
    (aliases : List Alias) :
    aliases.forM (declareAlias path) g =
      (.ok ⟨⟩, g.extend (aliases.map (aliasTo path))) := by
  induction aliases generalizing g with
  | nil => rfl
  | cons a rest ih =>
      rw [List.forM, Step.bind_of_ok (declareAlias_eq h path a),
        ih (h.extend _), extend_extend]
      rfl

theorem declareAll_eq (h : g.drafts.IsOpen) (path : String)
    (d : DispatcherSymbol) :
    declareAll path d g = (.ok ⟨⟩, g.extend (block path d)) := by
  rw [declareAll, block]
  cases d.declarations with
  | nil => rfl
  | cons first rest =>
      have hfirst : declare path (.typeAlias first) d.imports none g =
          (.ok ⟨⟩, g.extend
            [{ path, declaration := .typeAlias first,
               imports := d.imports }]) :=
        declare_eq h { path, declaration := .typeAlias first,
                       imports := d.imports }
      dsimp only
      rw [Step.bind_of_ok hfirst, forM_declareAlias_eq (h.extend _),
        extend_extend]
      rfl

end Run

end Typings
