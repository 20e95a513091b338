import Typings.Proofs.History

/-!
Finished modules. What a module declares is what was added to it, and its
imports lead to where the symbols that it collected have ended up, each file and
each name once and in increasing order.
-/

namespace Typings

namespace Import

/-- Files stand in strictly increasing order, and so do the names
from each of them. -/
structure IsSorted (imports : List Import) : Prop where
  files : imports.Pairwise fun i j => i.file < j.file
  names : ∀ i ∈ imports, i.names.Pairwise (· < ·)

/-- The file and the name of everything that is imported. -/
def pairs (imports : List Import) : List (String × String) :=
  imports.flatMap fun i => i.names.map fun name => (i.file, name)

variable {file name : String} {imports : List Import}

theorem mem_pairs {pair : String × String} :
    pair ∈ pairs imports ↔
      ∃ i ∈ imports, i.file = pair.1 ∧ pair.2 ∈ i.names := by
  obtain ⟨file, name⟩ := pair
  simp only [pairs, List.mem_flatMap, List.mem_map, Prod.mk.injEq]
  refine exists_congr fun i => and_congr_right fun _ => ?_
  constructor
  · rintro ⟨_, hname, hfile, rfl⟩
    exact ⟨hfile, hname⟩
  · rintro ⟨hfile, hname⟩
    exact ⟨name, hname, hfile, rfl⟩

theorem mem_insertName {names : List String} {n : String} :
    n ∈ insertName name names ↔ n = name ∨ n ∈ names := by
  induction names with
  | nil => simp [insertName]
  | cons first rest ih =>
      rw [insertName]
      split
      · rw [List.mem_cons]
      · split
        · rename_i heq
          simp [heq]
        · rw [List.mem_cons, ih, List.mem_cons, or_left_comm]

theorem sorted_insertName {names : List String} (h : names.Pairwise (· < ·)) :
    (insertName name names).Pairwise (· < ·) := by
  induction names with
  | nil => exact List.pairwise_singleton _ _
  | cons first rest ih =>
      have hrest := List.pairwise_cons.mp h
      rw [insertName]
      split
      · rename_i hlt
        refine List.pairwise_cons.mpr ⟨?_, h⟩
        intro n hn
        rcases List.mem_cons.mp hn with rfl | hn
        · exact hlt
        · exact hlt.trans (hrest.1 n hn)
      · rename_i hge
        split
        · exact h
        · rename_i hne
          have hlt : first < name :=
            lt_of_le_of_ne (not_lt.mp hge) (Ne.symm hne)
          refine List.pairwise_cons.mpr ⟨?_, ih hrest.2⟩
          intro n hn
          rcases mem_insertName.mp hn with rfl | hn
          · exact hlt
          · exact hrest.1 n hn

/-- The files after an addition. -/
theorem file_of_mem_add {i : Import} (h : i ∈ add file name imports) :
    i.file = file ∨ ∃ j ∈ imports, j.file = i.file := by
  induction imports with
  | nil =>
      rw [List.mem_singleton.mp h]
      exact Or.inl rfl
  | cons first rest ih =>
      rw [add] at h
      split at h
      · rcases List.mem_cons.mp h with rfl | h
        · exact Or.inl rfl
        · exact Or.inr ⟨i, h, rfl⟩
      · split at h
        · rename_i heq
          rcases List.mem_cons.mp h with rfl | h
          · exact Or.inl heq.symm
          · exact Or.inr ⟨i, List.mem_cons_of_mem _ h, rfl⟩
        · rcases List.mem_cons.mp h with rfl | h
          · exact Or.inr ⟨i, List.mem_cons_self, rfl⟩
          · rcases ih h with hfile | ⟨j, hj, hfile⟩
            · exact Or.inl hfile
            · exact Or.inr ⟨j, List.mem_cons_of_mem _ hj, hfile⟩

theorem IsSorted.tail {i : Import} (h : IsSorted (i :: imports)) :
    IsSorted imports where
  files := (List.pairwise_cons.mp h.files).2
  names j hj := h.names j (List.mem_cons_of_mem _ hj)

theorem IsSorted.cons {i : Import}
    (h : IsSorted imports) (hnames : i.names.Pairwise (· < ·))
    (hfiles : ∀ j ∈ imports, i.file < j.file) : IsSorted (i :: imports) where
  files := List.pairwise_cons.mpr ⟨hfiles, h.files⟩
  names := List.forall_mem_cons.mpr ⟨hnames, h.names⟩

theorem isSorted_nil : IsSorted [] where
  files := List.Pairwise.nil
  names := by simp

theorem IsSorted.add (h : IsSorted imports) (file name : String) :
    IsSorted (add file name imports) := by
  induction imports with
  | nil => exact isSorted_nil.cons (List.pairwise_singleton _ _) (by simp)
  | cons first rest ih =>
      have hbehind := (List.pairwise_cons.mp h.files).1
      have hnames := h.names first List.mem_cons_self
      rw [Import.add]
      split
      · rename_i hlt
        refine h.cons (List.pairwise_singleton _ _) ?_
        intro j hj
        rcases List.mem_cons.mp hj with rfl | hj
        · exact hlt
        · exact hlt.trans (hbehind j hj)
      · rename_i hge
        split
        · exact h.tail.cons (sorted_insertName hnames) hbehind
        · rename_i hne
          have hlt : first.file < file :=
            lt_of_le_of_ne (not_lt.mp hge) (Ne.symm hne)
          refine (ih h.tail).cons hnames ?_
          intro j hj
          rcases file_of_mem_add hj with hfile | ⟨k, hk, hfile⟩
          · exact hfile ▸ hlt
          · exact hfile ▸ hbehind k hk

theorem pairs_cons {i : Import} :
    pairs (i :: imports) =
      i.names.map (fun name => (i.file, name)) ++ pairs imports :=
  List.flatMap_cons

theorem mem_pairs_add {pair : String × String} :
    pair ∈ pairs (add file name imports) ↔
      pair = (file, name) ∨ pair ∈ pairs imports := by
  induction imports with
  | nil => simp [add, pairs]
  | cons first rest ih =>
      rw [add]
      split
      · rw [pairs_cons, List.mem_append]
        simp
      · split
        · rename_i heq
          simp only [pairs_cons, List.mem_append, List.mem_map,
            mem_insertName, heq]
          constructor
          · rintro (⟨n, rfl | hn, rfl⟩ | h)
            · exact Or.inl rfl
            · exact Or.inr (Or.inl ⟨n, hn, rfl⟩)
            · exact Or.inr (Or.inr h)
          · rintro (rfl | ⟨n, hn, rfl⟩ | h)
            · exact Or.inl ⟨name, Or.inl rfl, rfl⟩
            · exact Or.inl ⟨n, Or.inr hn, rfl⟩
            · exact Or.inr h
        · rw [pairs_cons, List.mem_append, ih, pairs_cons, List.mem_append,
            or_left_comm]

theorem foldl_add (targets : List (String × String)) (h : IsSorted imports) :
    IsSorted (targets.foldl (fun done t => Import.add t.1 t.2 done) imports) ∧
      ∀ pair, pair ∈ pairs
        (targets.foldl (fun done t => Import.add t.1 t.2 done) imports) ↔
        pair ∈ pairs imports ∨ pair ∈ targets := by
  induction targets generalizing imports with
  | nil => exact ⟨h, by simp⟩
  | cons target rest ih =>
      obtain ⟨hsorted, hmem⟩ := ih (h.add target.1 target.2)
      refine ⟨hsorted, fun pair => ?_⟩
      rw [List.foldl_cons, hmem, mem_pairs_add, List.mem_cons,
        or_comm (a := pair = _), or_assoc]

/-- Nothing is imported twice. -/
theorem IsSorted.nodup_pairs (h : IsSorted imports) :
    (pairs imports).Nodup := by
  induction imports with
  | nil => exact List.nodup_nil
  | cons first rest ih =>
      rw [pairs_cons, List.nodup_append]
      refine ⟨?_, ih h.tail, ?_⟩
      · have hnames : first.names.Nodup :=
          (h.names first List.mem_cons_self).imp ne_of_lt
        exact hnames.map fun a b hab => (Prod.mk.inj hab).2
      · intro pair hfirst pair' hrest heq
        obtain ⟨n, -, rfl⟩ := List.mem_map.mp hfirst
        obtain ⟨i, hi, hfile, -⟩ := mem_pairs.mp hrest
        have hlt := (List.pairwise_cons.mp h.files).1 i hi
        rw [hfile, ← heq] at hlt
        exact lt_irrefl _ hlt

end Import

section Closing

variable {ε α : Type}

theorem filterAuxM_eq_ok {f : α → Except ε Bool} {xs done ys : List α}
    (h : List.filterAuxM f xs done = .ok ys) :
    (∀ x ∈ xs, ∃ b, f x = .ok b) ∧ ∀ y, y ∈ ys ↔
      y ∈ done ∨ y ∈ xs ∧ f y = .ok true := by
  induction xs generalizing done with
  | nil =>
      obtain rfl := pure_eq_ok_iff.mp h
      simp
  | cons x rest ih =>
      obtain ⟨keep, hkeep, h⟩ := bind_eq_ok_iff.mp h
      obtain ⟨hok, hmem⟩ := ih h
      refine ⟨List.forall_mem_cons.mpr ⟨⟨keep, hkeep⟩, hok⟩,
        fun y => (hmem y).trans ?_⟩
      cases keep with
      | true =>
          simp only [cond_true, List.mem_cons]
          constructor
          · rintro ((rfl | hy) | hy)
            · exact Or.inr ⟨Or.inl rfl, hkeep⟩
            · exact Or.inl hy
            · exact Or.inr ⟨Or.inr hy.1, hy.2⟩
          · rintro (hy | ⟨rfl | hy, hf⟩)
            · exact Or.inl (Or.inr hy)
            · exact Or.inl (Or.inl rfl)
            · exact Or.inr ⟨hy, hf⟩
      | false =>
          simp only [cond_false, List.mem_cons]
          refine or_congr_right ?_
          constructor
          · rintro ⟨hy, hf⟩
            exact ⟨Or.inr hy, hf⟩
          · rintro ⟨rfl | hy, hf⟩
            · rw [hkeep] at hf
              cases hf
            · exact ⟨hy, hf⟩

theorem filterM_eq_ok {f : α → Except ε Bool} {xs ys : List α}
    (h : xs.filterM f = .ok ys) :
    (∀ x ∈ xs, ∃ b, f x = .ok b) ∧ ∀ y, y ∈ ys ↔ y ∈ xs ∧ f y = .ok true := by
  obtain ⟨reversed, hfilter, h⟩ := bind_eq_ok_iff.mp h
  obtain rfl := pure_eq_ok_iff.mp h
  obtain ⟨hok, hmem⟩ := filterAuxM_eq_ok hfilter
  exact ⟨hok, by simpa using hmem⟩

end Closing

/-- The path that a symbol is to be found under. -/
def redirected (redirects : Table String) (path : String) : String :=
  (redirects.get? path).getD path

/-- The file and name that a path of another module is imported from; none for
one of the module itself. -/
def importOf? (redirects : Table String) (path imported : String) :
    Except Fault (Option (String × String)) := do
  let (source, name) ← splitPath (redirected redirects imported)
  if source = path then return none else return some (← importFile source, name)

theorem importOf?_eq_ok_iff {redirects : Table String} {path imported : String}
    {found : Option (String × String)} :
    importOf? redirects path imported = .ok found ↔
      ∃ source name,
        splitPath (redirected redirects imported) = .ok (source, name) ∧
        (source = path ∧ found = none ∨
          source ≠ path ∧ ∃ file, importFile source = .ok file ∧
            found = some (file, name)) := by
  rw [importOf?, bind_eq_ok_iff, Prod.exists]
  refine exists_congr fun source => exists_congr fun name =>
    and_congr_right fun _ => ?_
  dsimp only
  by_cases h : source = path
  · rw [if_pos h, pure_eq_ok_iff]
    simp [h, eq_comm]
  · rw [if_neg h, bind_eq_ok_iff]
    simp only [pure_eq_ok_iff, h, false_and, false_or, ne_eq,
      not_false_eq_true, true_and]
    exact exists_congr fun file => and_congr_right fun _ => eq_comm

/-- The imports of a module that has collected the given paths. -/
def finishedImports (redirects : Table String) (path : String)
    (collected : List String) :
    Except Fault (List Import) := do
  let found :=
    (ImportPaths.ofList (collected.map (redirected redirects))).ordered
  let foreign ← found.filterM fun q => do return !((← splitPath q).1 == path)
  importDeclarations (some (.ofList foreign)) none

theorem importTargets_eq_ok
    {paths : List String} {targets : List (String × String)}
    (h : importTargets none paths = .ok targets) :
    (∀ q ∈ paths, ∃ source name file, splitPath q = .ok (source, name) ∧
        importFile source = .ok file) ∧
      ∀ pair, pair ∈ targets ↔
        ∃ q ∈ paths, ∃ source, splitPath q = .ok (source, pair.2) ∧
        importFile source = .ok pair.1 := by
  induction paths generalizing targets with
  | nil =>
      cases h
      simp
  | cons q rest ih =>
      obtain ⟨⟨source, name⟩, hsplit, h⟩ := bind_eq_ok_iff.mp h
      dsimp only at h
      rw [if_neg (Option.some_ne_none source).symm] at h
      obtain ⟨file, hfile, h⟩ := bind_eq_ok_iff.mp h
      obtain ⟨more, hmore, h⟩ := bind_eq_ok_iff.mp h
      obtain rfl := pure_eq_ok_iff.mp h
      obtain ⟨hok, hmem⟩ := ih hmore
      refine ⟨List.forall_mem_cons.mpr ⟨⟨source, name, file, hsplit, hfile⟩,
        hok⟩, fun pair => ?_⟩
      rw [List.mem_cons, hmem, List.exists_mem_cons_iff]
      refine or_congr_left ?_
      constructor
      · rintro rfl
        exact ⟨source, hsplit, hfile⟩
      · rintro ⟨source', hsplit', hfile'⟩
        obtain ⟨rfl, hname⟩ :=
          Prod.mk.inj (Except.ok.inj (hsplit.symm.trans hsplit'))
        exact Prod.ext (Except.ok.inj (hfile'.symm.trans hfile)) hname.symm

/-- What stands behind the imports of a finished module: every path that
it has collected. -/
theorem finishedImports_eq_ok {redirects : Table String}
    {path : String} {collected : List String} {imports : List Import}
    (h : finishedImports redirects path collected = .ok imports) :
    Import.IsSorted imports ∧
      (∀ q ∈ collected, ∃ found, importOf? redirects path q = .ok found) ∧
      ∀ pair, pair ∈ Import.pairs imports ↔
        ∃ q ∈ collected, importOf? redirects path q = .ok (some pair) := by
  obtain ⟨foreign, hforeign, h⟩ := bind_eq_ok_iff.mp h
  obtain ⟨targets, htargets, h⟩ := bind_eq_ok_iff.mp h
  obtain rfl := pure_eq_ok_iff.mp h
  obtain ⟨hsplits, hmem⟩ := filterM_eq_ok hforeign
  obtain ⟨hfiles, htarget⟩ := importTargets_eq_ok htargets
  obtain ⟨hsorted, hpairs⟩ := Import.foldl_add targets Import.isSorted_nil
  simp only [ImportPaths.mem_ofList] at hsplits hmem hfiles htarget
  have hkeep : ∀ q source name, splitPath q = .ok (source, name) →
      ((do return !((← splitPath q).1 == path) : Except Fault Bool) = .ok true ↔
        source ≠ path) := by
    intro q source name hsplit
    rw [hsplit]
    simp [bind, Except.bind, pure, Except.pure]
  refine ⟨hsorted, fun q hq => ?_, fun pair => ?_⟩
  · have hfound := List.mem_map_of_mem (f := redirected redirects) hq
    obtain ⟨b, hb⟩ := hsplits _ hfound
    obtain ⟨⟨source, name⟩, hsplit, -⟩ := bind_eq_ok_iff.mp hb
    by_cases hown : source = path
    · exact ⟨none,
        importOf?_eq_ok_iff.mpr ⟨source, name, hsplit, Or.inl ⟨hown, rfl⟩⟩⟩
    · obtain ⟨source', name', file, hsplit', hfile⟩ :=
        hfiles _ ((hmem _).mpr ⟨hfound, (hkeep _ _ _ hsplit).mpr hown⟩)
      obtain ⟨rfl, rfl⟩ :=
        Prod.mk.inj (Except.ok.inj (hsplit.symm.trans hsplit'))
      exact ⟨some (file, name), importOf?_eq_ok_iff.mpr
        ⟨source, name, hsplit, Or.inr ⟨hown, file, hfile, rfl⟩⟩⟩
  · rw [hpairs, htarget]
    simp only [Import.pairs, List.flatMap_nil, List.not_mem_nil, false_or]
    constructor
    · rintro ⟨q', hq', source, hsplit, hfile⟩
      obtain ⟨hfound, hown⟩ := (hmem q').mp hq'
      obtain ⟨q, hq, rfl⟩ := List.mem_map.mp hfound
      exact ⟨q, hq, importOf?_eq_ok_iff.mpr ⟨source, pair.2, hsplit,
        Or.inr ⟨(hkeep _ _ _ hsplit).mp hown, pair.1, hfile, rfl⟩⟩⟩
    · rintro ⟨q, hq, hpair⟩
      obtain ⟨source, name, hsplit, ⟨-, hnone⟩ | ⟨hown, file, hfile, hsome⟩⟩ :=
        importOf?_eq_ok_iff.mp hpair
      · cases hnone
      · cases hsome
        exact ⟨_,
          (hmem _).mpr ⟨List.mem_map_of_mem hq, (hkeep _ _ _ hsplit).mpr hown⟩,
          source, hsplit, hfile⟩

theorem finishedImports_eq_ok_iff {d : Draft} {path : String}
    (hpath : d.path = path)
    {redirects : Table String} {declared : List Import} :
    finishedImports redirects path (importedPaths d.imports) = .ok declared ↔
      ∃ imports, d.finalImports redirects = .ok imports ∧
        importDeclarations imports none = .ok declared := by
  subst hpath
  rw [Draft.finalImports, ← bind_eq_ok_iff, importedPaths.eq_def]
  cases d.imports with
  | none => exact Iff.rfl
  | some l =>
      simp only [finishedImports, redirectImports, Draft.owns, bind_assoc,
        pure_bind]
      exact Iff.rfl

theorem Draft.importPaths_eq (d : Draft) :
    d.importPaths = importedPaths d.imports := by
  rw [importPaths]
  cases d.imports with
  | none => rfl
  | some l => rfl

namespace History

def collected (history : List Contribution) (path : String) : List String :=
  importedPaths (draft history path).imports

/-- The module is made of what the history has added to it. -/
structure Finishes (history : List Contribution) (redirects : Table String)
    (m : OutputModule) : Prop where
  file : importFile m.path = .ok m.file
  declarations :
    m.declarations = (history.filter (·.path == m.path)).map (·.declaration)
  imports : finishedImports redirects m.path (collected history m.path) =
    .ok m.imports
  sources : m.sources = (draft history m.path).sources

variable {history : List Contribution} {redirects : Table String}

theorem toModule_eq_ok_iff {path : String} {m : OutputModule} :
    (draft history path).toModule redirects = .ok m ↔
      m.path = path ∧ Finishes history redirects m := by
  have hpath := @path_draft history path
  constructor
  · intro h
    obtain ⟨imports, himports, h⟩ := bind_eq_ok_iff.mp h
    obtain ⟨file, hfile, h⟩ := bind_eq_ok_iff.mp h
    obtain ⟨declared, hdeclared, h⟩ := bind_eq_ok_iff.mp h
    obtain rfl := pure_eq_ok_iff.mp h
    refine ⟨hpath, hfile, ?_, ?_, ?_⟩
    · dsimp only
      rw [hpath, declarations_draft]
    · dsimp only
      rw [hpath]
      exact (finishedImports_eq_ok_iff hpath).mpr ⟨imports, himports, hdeclared⟩
    · dsimp only
      rw [hpath]
  · rintro ⟨rfl, h⟩
    obtain ⟨imports, himports, hdeclared⟩ :=
      (finishedImports_eq_ok_iff hpath).mp h.imports
    refine bind_eq_ok_iff.mpr ⟨imports,
      himports, bind_eq_ok_iff.mpr ⟨m.file, ?_,
      bind_eq_ok_iff.mpr ⟨m.imports, hdeclared, ?_⟩⟩⟩
    · rw [hpath]
      exact h.file
    · rw [declarations_draft, hpath, ← h.declarations, ← h.sources]
      rfl

/-- The paths of the modules that a history has added to, in order. -/
def paths (history : List Contribution) : List String :=
  (drafts history).modules.sortedKeys

theorem mem_paths {path : String} :
    path ∈ paths history ↔ ∃ c ∈ history, c.path = path :=
  Table.mem_sortedKeys.trans mem_keys_drafts

theorem nodup_paths : (paths history).Nodup :=
  Table.nodup_sortedKeys nodup_keys_drafts

theorem close_eq (history : List Contribution) (redirects : Table String) :
    ((drafts history).close redirects).1 =
      (paths history).mapM fun path =>
        (draft history path).toModule redirects := by
  simp only [Drafts.close, draft_drafts, paths]

/-- Drafts are finished one by one, each under its own path. -/
theorem mapM_toModule_eq_ok_iff {ps : List String}
    {modules : List OutputModule} :
    (ps.mapM fun path => (draft history path).toModule redirects) =
      .ok modules ↔
      modules.map (·.path) = ps ∧
        ∀ m ∈ modules, Finishes history redirects m := by
  rw [mapM_eq_ok_iff]
  simp only [toModule_eq_ok_iff]
  constructor
  · intro h
    induction h with
    | nil => exact ⟨rfl, by simp⟩
    | cons hhead _ ih =>
        exact ⟨congrArg₂ List.cons hhead.1 ih.1,
          List.forall_mem_cons.mpr ⟨hhead.2, ih.2⟩⟩
  · rintro ⟨rfl, h⟩
    induction modules with
    | nil => exact .nil
    | cons m rest ih =>
        obtain ⟨hm, hrest⟩ := List.forall_mem_cons.mp h
        exact .cons ⟨rfl, hm⟩ (ih hrest)

/-- The modules are those that the history has added to, in
order of their paths. -/
theorem close_eq_ok_iff {modules : List OutputModule} :
    ((drafts history).close redirects).1 = .ok modules ↔
      modules.map (·.path) = paths history ∧
        ∀ m ∈ modules, Finishes history redirects m := by
  rw [close_eq, mapM_toModule_eq_ok_iff]

theorem exists_close_eq_ok
    (h : ∀ c ∈ history, ∃ m,
      (draft history c.path).toModule redirects = .ok m) :
    ∃ modules, ((drafts history).close redirects).1 = .ok modules := by
  rw [close_eq]
  apply exists_mapM_eq_ok
  intro path hpath
  obtain ⟨c, hc, rfl⟩ := mem_paths.mp hpath
  exact h c hc

end History

end Typings
