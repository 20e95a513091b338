import Typings.Proofs.Paths
import Typings.Proofs.Reordering
import Mathlib.Data.Finset.Dedup

/-!
Closing drafts that were filled by any calls. The imports of every module lead
to exactly what was needed there, from where it has ended up, without what has
ended up in the module itself. It is known which paths stand in the way, and the
order of the calls does not matter.
-/

namespace Typings

namespace Import

variable {file name : String} {imports : List Import}

theorem insertName_ne_nil (name : String) (names : List String) :
    insertName name names ≠ [] :=
  List.ne_nil_of_mem (mem_insertName.mpr (Or.inl rfl))

/-- Nothing is imported from a file without a name. -/
theorem names_ne_nil_add (h : ∀ i ∈ imports, i.names ≠ []) :
    ∀ i ∈ add file name imports, i.names ≠ [] := by
  induction imports with
  | nil => simp [add]
  | cons first rest ih =>
      obtain ⟨hfirst, hrest⟩ := List.forall_mem_cons.mp h
      rw [add]
      split
      · exact List.forall_mem_cons.mpr ⟨List.cons_ne_nil _ _, h⟩
      · split
        · exact List.forall_mem_cons.mpr ⟨insertName_ne_nil name first.names,
            hrest⟩
        · exact List.forall_mem_cons.mpr ⟨hfirst, ih hrest⟩

theorem names_ne_nil_foldl_add (targets : List (String × String))
    (h : ∀ i ∈ imports, i.names ≠ []) :
    ∀ i ∈ targets.foldl (fun done t => Import.add t.1 t.2 done) imports,
      i.names ≠ [] := by
  induction targets generalizing imports with
  | nil => exact h
  | cons target rest ih => exact ih (names_ne_nil_add h)

end Import

theorem names_ne_nil_of_finishedImports {redirects : Table String}
    {path : String} {collected : List String} {imports : List Import}
    (h : finishedImports redirects path collected = .ok imports) :
    ∀ i ∈ imports, i.names ≠ [] := by
  obtain ⟨foreign, -, h⟩ := bind_eq_ok_iff.mp h
  obtain ⟨targets, -, h⟩ := bind_eq_ok_iff.mp h
  obtain rfl := pure_eq_ok_iff.mp h
  exact Import.names_ne_nil_foldl_add targets (List.forall_mem_nil _)

section Success

variable {ε α : Type}

theorem exists_filterAuxM_eq_ok {f : α → Except ε Bool}
    {xs : List α} (h : ∀ x ∈ xs, ∃ b, f x = .ok b)
    (done : List α) : ∃ ys, List.filterAuxM f xs done = .ok ys := by
  induction xs generalizing done with
  | nil => exact ⟨done, rfl⟩
  | cons x rest ih =>
      obtain ⟨⟨b, hb⟩, hrest⟩ := List.forall_mem_cons.mp h
      obtain ⟨ys, hys⟩ := ih hrest (cond b (x :: done) done)
      exact ⟨ys, bind_eq_ok_iff.mpr ⟨b, hb, hys⟩⟩

theorem exists_filterM_eq_ok {f : α → Except ε Bool} {xs : List α}
    (h : ∀ x ∈ xs, ∃ b, f x = .ok b) :
    ∃ ys, xs.filterM f = .ok ys := by
  obtain ⟨ys, hys⟩ := exists_filterAuxM_eq_ok h []
  exact ⟨ys.reverse, bind_eq_ok_iff.mpr ⟨ys, hys, rfl⟩⟩

end Success

theorem exists_importTargets_eq_ok {paths : List String}
    (h : ∀ q ∈ paths, ∃ source name file, splitPath q = .ok (source, name) ∧
      importFile source = .ok file) :
    ∃ targets, importTargets none paths = .ok targets := by
  induction paths with
  | nil => exact ⟨[], rfl⟩
  | cons q rest ih =>
      obtain ⟨⟨source, name, file, hsplit, hfile⟩, hrest⟩ :=
        List.forall_mem_cons.mp h
      obtain ⟨targets, htargets⟩ := ih hrest
      refine ⟨(file, name) :: targets,
        bind_eq_ok_iff.mpr ⟨(source, name), hsplit, ?_⟩⟩
      dsimp only
      rw [if_neg (Option.some_ne_none source).symm]
      exact bind_eq_ok_iff.mpr ⟨file, hfile,
        bind_eq_ok_iff.mpr ⟨targets, htargets, rfl⟩⟩

/-- The imports of a module are finished exactly if each path
leads somewhere. -/
theorem exists_finishedImports_iff {redirects : Table String} {path : String}
    {collected : List String} :
    (∃ imports, finishedImports redirects path collected = .ok imports) ↔
      ∀ p ∈ collected, ∃ found, importOf? redirects path p = .ok found := by
  constructor
  · rintro ⟨imports, h⟩
    exact (finishedImports_eq_ok h).2.1
  · intro h
    have hfound : ∀ p ∈
        (ImportPaths.ofList (collected.map (redirected redirects))).ordered,
        ∃ q name, splitPath p = .ok (q, name) ∧
          (q ≠ path → ∃ file, importFile q = .ok file) := by
      intro p hp
      obtain ⟨needed, hneeded, rfl⟩ :=
        List.mem_map.mp (ImportPaths.mem_ofList.mp hp)
      obtain ⟨found, hfound⟩ := h needed hneeded
      obtain ⟨q, name, hsplit, ⟨hown, -⟩ | ⟨-, file, hfile, -⟩⟩ :=
        importOf?_eq_ok_iff.mp hfound
      · exact ⟨q, name, hsplit, fun hne => absurd hown hne⟩
      · exact ⟨q, name, hsplit, fun _ => ⟨file, hfile⟩⟩
    have hkeep : ∀ p q name, splitPath p = .ok (q, name) →
        (do return !((← splitPath p).1 == path) : Except Fault Bool) =
          .ok (!(q == path)) := by
      intro p q name hsplit
      rw [hsplit]
      rfl
    obtain ⟨foreign, hforeign⟩ := exists_filterM_eq_ok fun p hp => by
      obtain ⟨q, name, hsplit, -⟩ := hfound p hp
      exact ⟨_, hkeep p q name hsplit⟩
    have htargets :
        ∃ targets, importTargets none (ImportPaths.ofList foreign).ordered =
          .ok targets := by
      apply exists_importTargets_eq_ok
      intro p hp
      obtain ⟨hp, hforeign⟩ :=
        ((filterM_eq_ok hforeign).2 p).mp (ImportPaths.mem_ofList.mp hp)
      obtain ⟨q, name, hsplit, hfile⟩ := hfound p hp
      rw [hkeep p q name hsplit, Except.ok.injEq] at hforeign
      obtain ⟨file, hfile⟩ := hfile (by simpa using hforeign)
      exact ⟨q, name, file, hsplit, hfile⟩
    obtain ⟨targets, htargets⟩ := htargets
    exact ⟨_, bind_eq_ok_iff.mpr ⟨foreign, hforeign,
      bind_eq_ok_iff.mpr ⟨targets, htargets, rfl⟩⟩⟩

theorem exists_importOf?_iff {redirects : Table String} {path p : String} :
    (∃ found, importOf? redirects path p = .ok found) ↔
      HasName (redirected redirects p) ∧
        ∀ q name, splitPath (redirected redirects p) = .ok (q, name) →
          q ≠ path → IsRooted q := by
  constructor
  · rintro ⟨found, h⟩
    obtain ⟨q, name, hsplit, hfound⟩ := importOf?_eq_ok_iff.mp h
    refine ⟨exists_splitPath_iff.mp ⟨q, name, hsplit⟩,
      fun q' name' hsplit' hne => ?_⟩
    obtain ⟨rfl, rfl⟩ := Prod.mk.inj (Except.ok.inj (hsplit.symm.trans hsplit'))
    obtain ⟨hown, -⟩ | ⟨-, file, hfile, -⟩ := hfound
    · exact absurd hown hne
    · exact exists_importFile_iff.mp ⟨file, hfile⟩
  · rintro ⟨hname, hrooted⟩
    obtain ⟨q, name, hsplit⟩ := exists_splitPath_iff.mpr hname
    by_cases hown : q = path
    · exact ⟨none,
        importOf?_eq_ok_iff.mpr ⟨q, name, hsplit, Or.inl ⟨hown, rfl⟩⟩⟩
    · obtain ⟨file, hfile⟩ :=
        exists_importFile_iff.mpr (hrooted q name hsplit hown)
      exact ⟨some (file, name), importOf?_eq_ok_iff.mpr ⟨q, name, hsplit,
        Or.inr ⟨hown, file, hfile, rfl⟩⟩⟩

theorem History.exists_toModule_iff {history : List Contribution}
    {redirects : Table String} {path : String} :
    (∃ m, (draft history path).toModule redirects = .ok m) ↔
      IsRooted path ∧ ∀ p ∈ collected history path, ∃ found,
        importOf? redirects path p = .ok found := by
  rw [← exists_importFile_iff, ← exists_finishedImports_iff]
  constructor
  · rintro ⟨m, hm⟩
    obtain ⟨rfl, hfinishes⟩ := toModule_eq_ok_iff.mp hm
    exact ⟨⟨m.file, hfinishes.file⟩, ⟨m.imports, hfinishes.imports⟩⟩
  · rintro ⟨⟨file, hfile⟩, ⟨imports, himports⟩⟩
    let m : OutputModule :=
      { path, file, imports
        declarations := (history.filter (·.path == path)).map (·.declaration)
        sources := (draft history path).sources }
    have hfinishes : Finishes history redirects m := ⟨hfile, rfl, himports, rfl⟩
    exact ⟨m, toModule_eq_ok_iff.mpr ⟨rfl, hfinishes⟩⟩

def OnlyShape {α : Type} (x : Except Fault α) : Prop :=
  ∀ fault, x = .error fault → ∃ s, fault = .shape s

namespace OnlyShape

variable {α β : Type}

theorem ok (a : α) : OnlyShape (.ok a) := by
  intro fault h
  cases h

theorem pure (a : α) : OnlyShape (Pure.pure a) :=
  ok a

theorem shape (s : ShapeFault) :
    OnlyShape (.error (.shape s) : Except Fault α) := by
  intro fault h
  cases h
  exact ⟨s, rfl⟩

theorem bind {x : Except Fault α} {f : α → Except Fault β} (hx : OnlyShape x)
    (hf : ∀ a, OnlyShape (f a)) :
    OnlyShape (x >>= f) := by
  cases x with
  | error fault =>
      intro fault' h
      cases h
      exact hx fault rfl
  | ok a => exact hf a

theorem mapM {f : α → Except Fault β} (hf : ∀ a, OnlyShape (f a))
    (xs : List α) : OnlyShape (xs.mapM f) := by
  induction xs with
  | nil => exact ok []
  | cons x rest ih =>
      rw [List.mapM_cons]
      exact (hf x).bind fun y => ih.bind fun ys => pure (y :: ys)

theorem filterM {f : α → Except Fault Bool} (hf : ∀ a, OnlyShape (f a))
    (xs : List α) :
    OnlyShape (xs.filterM f) := by
  have haux : ∀ done, OnlyShape (List.filterAuxM f xs done) := by
    induction xs with
    | nil => exact ok
    | cons x rest ih =>
        exact fun done => (hf x).bind fun b => ih (cond b (x :: done) done)
  exact (haux []).bind fun ys => pure ys.reverse

end OnlyShape

theorem onlyShape_splitPath (path : String) : OnlyShape (splitPath path) := by
  rw [splitPath]
  split
  · exact .ok _
  · exact .shape _

theorem onlyShape_importFile (path : String) : OnlyShape (importFile path) := by
  rw [importFile]
  split
  · exact .shape _
  · split
    · exact .ok _
    · split
      · exact .ok _
      · exact .shape _

theorem onlyShape_importTargets (paths : List String) :
    OnlyShape (importTargets none paths) := by
  induction paths with
  | nil => exact .ok []
  | cons p rest ih =>
      refine (onlyShape_splitPath p).bind fun ⟨q, name⟩ => ?_
      dsimp only
      rw [if_neg (Option.some_ne_none q).symm]
      exact (onlyShape_importFile q).bind fun file =>
        ih.bind fun targets => .pure _

theorem Draft.onlyShape_toModule (d : Draft) (redirects : Table String) :
    OnlyShape (d.toModule redirects) := by
  have hfinal : OnlyShape (d.finalImports redirects) := by
    rw [finalImports]
    cases d.imports with
    | none => exact .ok none
    | some l =>
        refine (OnlyShape.filterM (fun p => ?_) _).bind fun foreign => .pure _
        exact ((onlyShape_splitPath p).bind fun split => .pure _).bind
          fun own => .pure _
  refine hfinal.bind fun imports => (onlyShape_importFile d.path).bind
    fun file => .bind ?_ fun declared => .pure _
  cases imports with
  | none => exact .ok []
  | some l =>
      exact (onlyShape_importTargets l.ordered).bind fun targets => .pure _

namespace Draft

/-- A draft has the sources of its contributions. -/
theorem mem_sources_extend {d : Draft} (cs : List Contribution)
    {source : String} :
    source ∈ (d.extend cs).sources ↔
      source ∈ d.sources ∨ ∃ c ∈ cs, c.source = some source := by
  induction cs generalizing d with
  | nil => simp [extend]
  | cons c rest ih =>
      have haccept : source ∈ (d.accept c).sources ↔
          source ∈ d.sources ∨ c.source = some source := by
        cases hsource : c.source with
        | none => simp [accept, add, hsource]
        | some own =>
            by_cases hmem : own ∈ d.sources
            · have hkept : (d.accept c).sources = d.sources := by
                simp [accept, add, hsource, hmem]
              rw [hkept, Option.some.injEq]
              exact (or_iff_left_of_imp fun heq => heq ▸ hmem).symm
            · simp [accept, add, hsource, hmem, eq_comm]
      refine (ih (d := d.accept c)).trans ?_
      rw [haccept, List.exists_mem_cons_iff, or_assoc]

end Draft

theorem map_bind {ε α β γ : Type} (x : Except ε α) (f : α → Except ε β)
    (g : β → γ) :
    (x >>= f).map g = x >>= fun a => (f a).map g := by
  cases x with
  | error e => rfl
  | ok a => rfl

/-- A module without the order in which it was filled. -/
def OutputModule.unordered (m : OutputModule) :
    String × String × List Import × Multiset Declaration × Finset String :=
  (m.path, m.file, m.imports, m.declarations, m.sources.toFinset)

section Unordered

variable {d d' : Draft} {redirects : Table String}

theorem Draft.finalImports_congr (hpath : d.path = d'.path)
    (h : ImportsNormal d.imports) (h' : ImportsNormal d'.imports)
    (himports : importedPaths d.imports = importedPaths d'.imports) :
    d.finalImports redirects = d'.finalImports redirects := by
  have howns : ∀ p, d.owns p = d'.owns p := by
    intro p
    rw [owns, owns, hpath]
  rw [finalImports, finalImports, funext howns]
  cases hd : d.imports with
  | none =>
      cases hd' : d'.imports with
      | none => rfl
      | some l' =>
          rw [hd, hd'] at himports
          exact absurd himports.symm (h' l' hd').2
  | some l =>
      cases hd' : d'.imports with
      | none =>
          rw [hd, hd'] at himports
          exact absurd himports (h l hd).2
      | some l' =>
          rw [hd, hd'] at himports
          have hordered : l.ordered = l'.ordered := himports
          simp only [redirectImports, hordered]

/-- Drafts that differ only in the order of what they hold are finished alike,
faults included. -/
theorem Draft.toModule_congr (hpath : d.path = d'.path)
    (hfinal : d.finalImports redirects = d'.finalImports redirects)
    (hdeclarations : d.declarations.Perm d'.declarations)
    (hsources : ∀ source, source ∈ d.sources ↔ source ∈ d'.sources) :
    (d.toModule redirects).map OutputModule.unordered =
      (d'.toModule redirects).map OutputModule.unordered := by
  have hparts : (d.declarations : Multiset Declaration) = d'.declarations ∧
      d.sources.toFinset = d'.sources.toFinset := by
    refine ⟨Multiset.coe_eq_coe.mpr hdeclarations, Finset.ext fun source => ?_⟩
    rw [List.mem_toFinset, List.mem_toFinset, hsources]
  have hmodule : ∀ file declared, OutputModule.unordered
      { path := d'.path, file, declarations := d.declarations,
        imports := declared, sources := d.sources } =
        OutputModule.unordered
          { path := d'.path, file, declarations := d'.declarations,
            imports := declared,
            sources := d'.sources } := by
    intro file declared
    rw [OutputModule.unordered, OutputModule.unordered, hparts.1, hparts.2]
  rw [toModule, toModule, hfinal, hpath]
  simp only [map_bind]
  refine congrArg _ (funext fun imports =>
    congrArg _ (funext fun file => congrArg _ (funext fun declared => ?_)))
  exact congrArg Except.ok (hmodule file declared)

theorem History.toModule_of_perm {history history' : List Contribution}
    (hperm : history.Perm history') (path : String) :
    ((draft history path).toModule redirects).map OutputModule.unordered =
      ((draft history' path).toModule redirects).map
        OutputModule.unordered := by
  have hpath : (draft history path).path = (draft history' path).path := by
    rw [path_draft, path_draft]
  refine Draft.toModule_congr hpath ?_ (declarations_perm hperm path)
    fun source => ?_
  · exact Draft.finalImports_congr hpath imports_draft.1 imports_draft.1
      (collected_of_perm hperm path)
  · rw [draft, draft, Draft.mem_sources_extend, Draft.mem_sources_extend]
    simp only [(hperm.filter _).mem_iff]

theorem map_mapM {ε α β γ : Type} (f : α → Except ε β) (g : β → γ)
    (xs : List α) :
    (xs.mapM f).map (·.map g) = xs.mapM fun x => (f x).map g := by
  induction xs with
  | nil => rfl
  | cons x rest ih =>
      rw [List.mapM_cons, List.mapM_cons, ← ih]
      cases f x with
      | error e => rfl
      | ok y => cases rest.mapM f <;> rfl

end Unordered

namespace Drafts

/-- What is done with drafts before they are closed. -/
inductive Call where
  /-- A module is opened. -/
  | visit (path : String)
  /-- Something is added to a module. -/
  | add (c : Contribution)

def Call.path : Call → String
  | .visit path => path
  | .add c => c.path

def Call.contribution? : Call → Option Contribution
  | .visit _ => none
  | .add c => some c

def perform (ds : Drafts) : Call → Except Fault Drafts
  | .visit path => do
    let (_, ds) ← ds.access path
    return ds
  | .add c => do
    let (d, ds) ← ds.access c.path
    return ds.store (d.add c.declaration c.imports c.source)

/-- The drafts after all of the calls. -/
def fill (calls : List Call) : Except Fault Drafts :=
  calls.foldlM perform {}

def contributions (calls : List Call) : List Contribution :=
  calls.filterMap Call.contribution?

/-- The drafts are what the calls make of them. -/
structure Holds (ds : Drafts) (calls : List Call) : Prop where
  opened : ds.IsOpen
  draft path : ds.draft path = History.draft (contributions calls) path
  keys path : path ∈ ds.modules.keys ↔ ∃ call ∈ calls, call.path = path
  nodup : ds.modules.keys.Nodup

theorem holds_empty : Holds {} [] where
  opened := isOpen_empty
  draft _ := rfl
  keys _ := by simp [Table.keys]
  nodup := List.nodup_nil

theorem contributions_append (calls more : List Call) :
    contributions (calls ++ more) = contributions calls ++ contributions more :=
  List.filterMap_append ..

theorem exists_mem_concat_iff {calls : List Call} {call : Call}
    {path : String} :
    (∃ called ∈ calls ++ [call], called.path = path) ↔
      (∃ called ∈ calls, called.path = path) ∨ call.path = path := by
  simp only [List.mem_append, List.mem_singleton, or_and_right, exists_or,
    exists_eq_left]

theorem Holds.visit {ds : Drafts} {calls : List Call} (h : ds.Holds calls)
    (path : String) :
    (ds.ensure path).Holds (calls ++ [.visit path]) where
  opened := h.opened.ensure path
  draft path' := by
    rw [draft_ensure, h.draft, contributions_append]
    exact congrArg (History.draft · path') (List.append_nil _).symm
  keys path' := by
    rw [exists_mem_concat_iff, ← h.keys, ensure]
    split
    · rename_i hhas
      refine (or_iff_left_of_imp ?_).symm
      rintro rfl
      exact Table.has_iff.mp hhas
    · rw [Table.mem_keys_put, or_comm, eq_comm]
      rfl
  nodup := by
    rw [ensure]
    split
    · exact h.nodup
    · exact Table.nodup_keys_put h.nodup

theorem Holds.add {ds : Drafts} {calls : List Call} (h : ds.Holds calls)
    (c : Contribution) :
    (ds.accept c).Holds (calls ++ [.add c]) where
  opened := h.opened.accept c
  draft path := by
    have hone : (ds.accept c).draft path =
        (ds.draft path).extend ([c].filter (·.path == path)) :=
      @draft_extend ds [c] path
    rw [hone, h.draft, contributions_append, History.draft, History.draft,
      List.filter_append, Draft.extend_append]
    rfl
  keys path := by
    rw [exists_mem_concat_iff, ← h.keys, Drafts.accept, Table.mem_keys_put,
      or_comm, eq_comm]
    rfl
  nodup := Table.nodup_keys_put h.nodup

/-- A call cannot fail, and does what it says. -/
theorem Holds.perform {ds : Drafts} {calls : List Call} (h : ds.Holds calls)
    (call : Call) :
    ∃ ds', ds.perform call = .ok ds' ∧ ds'.Holds (calls ++ [call]) := by
  cases call with
  | visit path =>
      refine ⟨ds.ensure path, ?_, h.visit path⟩
      rw [Drafts.perform, h.opened.access_eq]
      rfl
  | add c =>
      refine ⟨ds.accept c, ?_, h.add c⟩
      rw [Drafts.perform, h.opened.access_eq]
      exact congrArg Except.ok (h.opened.store_accept c)

theorem Holds.foldlM_perform {ds : Drafts} {calls : List Call}
    (h : ds.Holds calls) (more : List Call) :
    ∃ ds', more.foldlM Drafts.perform ds = .ok ds' ∧
      ds'.Holds (calls ++ more) := by
  induction more generalizing ds calls with
  | nil => exact ⟨ds, rfl, by rwa [List.append_nil]⟩
  | cons call rest ih =>
      obtain ⟨ds', hcall, h'⟩ := h.perform call
      obtain ⟨filled, hrest, hfilled⟩ := ih h'
      refine ⟨filled, ?_, by rwa [List.append_cons]⟩
      rw [List.foldlM_cons]
      exact bind_eq_ok_iff.mpr ⟨ds', hcall, hrest⟩

theorem exists_fill (calls : List Call) :
    ∃ ds, fill calls = .ok ds ∧ ds.Holds calls :=
  holds_empty.foldlM_perform calls

/-- Some call opens the module. -/
def Opens (calls : List Call) (path : String) : Prop :=
  ∃ call ∈ calls, call.path = path

/-- Something that was added to the module needs the path. -/
def Needs (calls : List Call) (path p : String) : Prop :=
  ∃ c, .add c ∈ calls ∧ c.path = path ∧ p ∈ importedPaths c.imports

/-- Some path stands in the way: a module has no file, or what it needs has no
name or no file. -/
def IsBlocked (calls : List Call) (redirects : Table String) : Prop :=
  (∃ path, Opens calls path ∧ ¬ IsRooted path) ∨
    ∃ path p, Needs calls path p ∧
      (¬ HasName (redirected redirects p) ∨
        ∃ q name, splitPath (redirected redirects p) = .ok (q, name) ∧
          q ≠ path ∧ ¬ IsRooted q)

variable {ds ds' : Drafts} {calls calls' : List Call} {redirects : Table String}

theorem mem_contributions {c : Contribution} :
    c ∈ contributions calls ↔ .add c ∈ calls := by
  rw [contributions, List.mem_filterMap]
  constructor
  · rintro ⟨call, hcall, hc⟩
    cases call with
    | visit path => cases hc
    | add c' =>
        cases hc
        exact hcall
  · exact fun hc => ⟨.add c, hc, rfl⟩

theorem mem_collected_iff {path p : String} :
    p ∈ History.collected (contributions calls) path ↔ Needs calls path p := by
  rw [History.collected, History.imports_draft.2]
  exact exists_congr fun c => and_congr_left fun _ => mem_contributions

/-- What is imported from a file is what is needed and has ended up there. -/
theorem exists_importOf?_eq_some_iff {path file name : String} :
    (∃ p ∈ History.collected (contributions calls) path,
        importOf? redirects path p = .ok (some (file, name))) ↔
      ∃ p q, Needs calls path p ∧
        splitPath (redirected redirects p) = .ok (q, name) ∧ q ≠ path ∧
        importFile q = .ok file := by
  simp only [mem_collected_iff, importOf?_eq_ok_iff]
  constructor
  · rintro ⟨p, hp, q, name', hsplit, ⟨-, hnone⟩ | ⟨hne, file', hfile, hsome⟩⟩
    · cases hnone
    · cases hsome
      exact ⟨p, q, hp, hsplit, hne, hfile⟩
  · rintro ⟨p, q, hp, hsplit, hne, hfile⟩
    exact ⟨p, hp, q, name, hsplit, Or.inr ⟨hne, file, hfile, rfl⟩⟩

theorem Holds.close_eq (h : ds.Holds calls) (redirects : Table String) :
    (ds.close redirects).1 =
    ds.modules.sortedKeys.mapM fun path =>
      (History.draft (contributions calls) path).toModule redirects := by
  rw [close]
  simp only [h.draft]

theorem not_isBlocked_iff :
    ¬ IsBlocked calls redirects ↔ ∀ path, Opens calls path →
    IsRooted path ∧ ∀ p, Needs calls path p →
    ∃ found, importOf? redirects path p = .ok found := by
  simp only [exists_importOf?_iff]
  constructor
  · intro h path hopens
    refine ⟨by_contra fun hroot => h (Or.inl ⟨path, hopens, hroot⟩),
      fun p hp => ⟨?_, ?_⟩⟩
    · exact by_contra fun hname => h (Or.inr ⟨path, p, hp, Or.inl hname⟩)
    · intro q name hsplit hne
      exact by_contra fun hroot =>
        h (Or.inr ⟨path, p, hp, Or.inr ⟨q, name, hsplit, hne, hroot⟩⟩)
  · rintro h (⟨path, hopens, hroot⟩ | ⟨path, p, hp, hblocked⟩)
    · exact hroot (h path hopens).1
    · obtain ⟨c, hc, hpath, -⟩ := id hp
      obtain ⟨hname, hrooted⟩ := (h path ⟨.add c, hc, hpath⟩).2 p hp
      rcases hblocked with hnone | ⟨q, name, hsplit, hne, hroot⟩
      · exact hnone hname
      · exact hroot (hrooted q name hsplit hne)

/-- Closing succeeds exactly if nothing stands in the way. -/
theorem Holds.exists_close_iff (h : ds.Holds calls) :
    (∃ modules, (ds.close redirects).1 = .ok modules) ↔
      ¬ IsBlocked calls redirects := by
  have hopens : ∀ path, path ∈ ds.modules.sortedKeys ↔ Opens calls path :=
    fun path => Table.mem_sortedKeys.trans (h.keys path)
  have hmodule : ∀ path, (∃ m,
        (History.draft (contributions calls) path).toModule redirects = .ok m) ↔
      IsRooted path ∧ ∀ p, Needs calls path p →
        ∃ found, importOf? redirects path p = .ok found := by
    intro path
    rw [History.exists_toModule_iff]
    simp only [mem_collected_iff]
  rw [not_isBlocked_iff, h.close_eq]
  simp only [← hopens, ← hmodule]
  constructor
  · rintro ⟨modules, hmodules⟩ path hpath
    obtain ⟨m, -, hm⟩ := exists_mem_of_mapM hmodules hpath
    exact ⟨m, hm⟩
  · exact exists_mapM_eq_ok

theorem Holds.onlyShape_close (h : ds.Holds calls) :
    OnlyShape (ds.close redirects).1 := by
  rw [h.close_eq]
  exact .mapM (fun path => Draft.onlyShape_toModule _ redirects) _

theorem Holds.exists_shape_iff (h : ds.Holds calls) :
    (∃ s, (ds.close redirects).1 = .error (.shape s)) ↔
      IsBlocked calls redirects := by
  rw [← not_iff_not, ← h.exists_close_iff]
  cases hclose : (ds.close redirects).1 with
  | ok modules => simp
  | error fault =>
      obtain ⟨s, rfl⟩ := h.onlyShape_close fault hclose
      simp

theorem Holds.close_of_perm (h : ds.Holds calls) (h' : ds'.Holds calls')
    (hperm : calls.Perm calls') :
    (ds'.close redirects).1.map (·.map OutputModule.unordered) =
      (ds.close redirects).1.map (·.map OutputModule.unordered) := by
  have hkeys : ds.modules.keys.Perm ds'.modules.keys := by
    apply (List.perm_ext_iff_of_nodup h.nodup h'.nodup).mpr
    intro path
    rw [h.keys, h'.keys]
    simp only [hperm.mem_iff]
  rw [h.close_eq, h'.close_eq, map_mapM, map_mapM,
    Table.sortedKeys_of_perm hkeys]
  simp only [History.toModule_of_perm (hperm.filterMap Call.contribution?),
    contributions]

end Drafts

/-- What closing makes of drafts, for every way to fill them. -/
theorem closed_imports_exact (calls : List Drafts.Call)
    (redirects : Table String) :
    ∃ ds, Drafts.fill calls = .ok ds ∧
      (∀ modules, (ds.close redirects).1 = .ok modules →
        (modules.map (·.path)).Pairwise (· < ·) ∧
        (∀ path, (∃ m ∈ modules, m.path = path) ↔ Drafts.Opens calls path) ∧
        ∀ m ∈ modules, (∀ file name, (file, name) ∈ Import.pairs m.imports ↔
            ∃ p q, Drafts.Needs calls m.path p ∧
              splitPath (redirected redirects p) = .ok (q, name) ∧
              q ≠ m.path ∧ importFile q = .ok file) ∧
          Import.IsSorted m.imports ∧ ∀ i ∈ m.imports, i.names ≠ []) ∧
      ((∃ s, (ds.close redirects).1 = .error (.shape s)) ↔
        Drafts.IsBlocked calls redirects) ∧
      ((∃ modules, (ds.close redirects).1 = .ok modules) ↔
        ¬ Drafts.IsBlocked calls redirects) ∧
      ∀ calls', calls.Perm calls' → ∃ ds', Drafts.fill calls' = .ok ds' ∧
        (ds'.close redirects).1.map (·.map OutputModule.unordered) =
          (ds.close redirects).1.map (·.map OutputModule.unordered) := by
  obtain ⟨ds, hfill, h⟩ := Drafts.exists_fill calls
  refine ⟨ds, hfill, fun modules hmodules => ?_, h.exists_shape_iff,
    h.exists_close_iff, fun calls' hperm => ?_⟩
  · rw [h.close_eq] at hmodules
    obtain ⟨hpaths, hfinishes⟩ := History.mapM_toModule_eq_ok_iff.mp hmodules
    refine ⟨?_, fun path => ?_, fun m hm => ?_⟩
    · rw [hpaths]
      have hstrict := (Table.sortedKeys_pairwise ds.modules).and
        (Table.nodup_sortedKeys h.nodup)
      exact hstrict.imp fun hpath => lt_of_le_of_ne hpath.1 hpath.2
    · rw [← List.mem_map, hpaths, Table.mem_sortedKeys]
      exact h.keys path
    · have himports := (hfinishes m hm).imports
      obtain ⟨hsorted, -, hpairs⟩ := finishedImports_eq_ok himports
      refine ⟨fun file name => ?_, hsorted,
        names_ne_nil_of_finishedImports himports⟩
      rw [hpairs]
      exact Drafts.exists_importOf?_eq_some_iff
  · obtain ⟨ds', hfill', h'⟩ := Drafts.exists_fill calls'
    exact ⟨ds', hfill', h.close_of_perm h' hperm⟩

/-- Two modules. One needs two symbols from one file, under different paths, and
one that has moved to it. -/
def Drafts.sampleCalls : List Drafts.Call :=
  [.visit "::java::c",
    .add
      { path := "::java::a"
        declaration :=
          .reExport { names := ["A"], file := "sandstone/generated/x" }
        imports := some (.ofList ["::java::b::X", "java::b::Y",
          "::java::dispatcher::SymbolA"]) }]

def Drafts.sampleRedirects : Table String :=
  { entries := [("::java::dispatcher::SymbolA", "::java::a::SymbolA")] }

/-- Both symbols are imported from the one file and the moved one is not
imported. A module outside the roots cannot be finished. -/
theorem closed_imports_exact_sampleCalls :
    (∃ ds modules m, Drafts.fill Drafts.sampleCalls = .ok ds ∧
      (ds.close Drafts.sampleRedirects).1 = .ok modules ∧ m ∈ modules ∧
      m.path = "::java::a" ∧
      ("sandstone/generated/b", "X") ∈ Import.pairs m.imports ∧
      ("sandstone/generated/b", "Y") ∈ Import.pairs m.imports ∧
      ∀ file, (file, "SymbolA") ∉ Import.pairs m.imports) ∧
    ∃ ds s, Drafts.fill (.visit "::other::a" :: Drafts.sampleCalls) = .ok ds ∧
      (ds.close Drafts.sampleRedirects).1 = .error (.shape s) := by
  have hneeds : ∀ path p, Drafts.Needs Drafts.sampleCalls path p ↔
      "::java::a" = path ∧ p ∈ ["::java::b::X", "java::b::Y",
        "::java::dispatcher::SymbolA"] := by
    simp [Drafts.Needs, Drafts.sampleCalls, importedPaths,
      ImportPaths.mem_ofList]
  have hX : splitPath (redirected Drafts.sampleRedirects "::java::b::X") =
      .ok ("::java::b", "X") := rfl
  have hY : splitPath (redirected Drafts.sampleRedirects "java::b::Y") =
      .ok ("java::b", "Y") := rfl
  have hmoved : splitPath
      (redirected Drafts.sampleRedirects "::java::dispatcher::SymbolA") =
      .ok ("::java::a", "SymbolA") := rfl
  constructor
  · obtain ⟨ds, hfill, hexact, -, hclose, -⟩ :=
      closed_imports_exact Drafts.sampleCalls Drafts.sampleRedirects
    have hfree :
        ¬ Drafts.IsBlocked Drafts.sampleCalls Drafts.sampleRedirects := by
      refine Drafts.not_isBlocked_iff.mpr fun path hopens => ⟨?_,
        fun p hp => ?_⟩
      · simp only [Drafts.Opens, Drafts.sampleCalls,
          List.mem_cons, List.not_mem_nil, or_false,
          exists_eq_or_imp, exists_eq_left] at hopens
        rcases hopens with rfl | rfl
        · exact exists_importFile_iff.mp ⟨_, rfl⟩
        · exact exists_importFile_iff.mp ⟨_, rfl⟩
      · obtain ⟨rfl, hlist⟩ := (hneeds path p).mp hp
        simp only [List.mem_cons, List.not_mem_nil, or_false] at hlist
        rcases hlist with rfl | rfl | rfl
        · exact ⟨_, rfl⟩
        · exact ⟨_, rfl⟩
        · exact ⟨_, rfl⟩
    obtain ⟨modules, hmodules⟩ := hclose.mpr hfree
    obtain ⟨-, hopens, himports⟩ := hexact modules hmodules
    obtain ⟨m, hm, hpath⟩ := (hopens "::java::a").mpr ⟨_,
      List.mem_cons_of_mem _ List.mem_cons_self, rfl⟩
    have hpairs := (himports m hm).1
    rw [hpath] at hpairs
    refine ⟨ds, modules, m, hfill, hmodules, hm, hpath, ?_, ?_,
      fun file hmem => ?_⟩
    · exact (hpairs _ _).mpr ⟨"::java::b::X", "::java::b",
        (hneeds _ _).mpr (by decide), hX, by decide, rfl⟩
    · exact (hpairs _ _).mpr ⟨"java::b::Y", "java::b",
        (hneeds _ _).mpr (by decide), hY, by decide, rfl⟩
    · obtain ⟨p, q, hp, hsplit, hne, -⟩ := (hpairs _ _).mp hmem
      have hlist := ((hneeds _ p).mp hp).2
      simp only [List.mem_cons, List.not_mem_nil, or_false] at hlist
      rcases hlist with rfl | rfl | rfl
      · simp [hX] at hsplit
      · simp [hY] at hsplit
      · simp [hmoved, hne.symm] at hsplit
  · obtain ⟨ds, hfill, -, hshape, -⟩ :=
      closed_imports_exact (.visit "::other::a" :: Drafts.sampleCalls)
        Drafts.sampleRedirects
    have hblocked : Drafts.IsBlocked (.visit "::other::a" :: Drafts.sampleCalls)
        Drafts.sampleRedirects := by
      refine Or.inl ⟨"::other::a", ⟨_, List.mem_cons_self, rfl⟩, ?_⟩
      have hfault : (importFile "::other::a").isOk = false := by decide
      rw [← exists_importFile_iff]
      rintro ⟨file, h⟩
      rw [h] at hfault
      cases hfault
    obtain ⟨s, hs⟩ := hshape.mpr hblocked
    exact ⟨ds, s, hfill, hs⟩

end Typings
