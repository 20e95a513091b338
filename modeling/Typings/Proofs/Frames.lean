import Typings.Proofs.References
import Typings.Proofs.History

/-!
What the phases of a run leave alone. Each phase changes its own part of the
state and no other, and this also holds of the partial work that a failing
phase leaves behind.
-/

namespace Typings

namespace Run

/-- What can change in the course of a phase. Modules only gain declarations.
What may be looked up is changed by the first two phases, the counts by the
third, homes and redirects by the last one. -/
structure Along (phase : Phase) (g g' : Run) : Prop where
  dispatchers : g'.dispatchers = g.dispatchers
  symbols : g'.books.env.symbols = g.books.env.symbols
  completed : g'.completed = g.completed
  journal : g'.journal = g.journal
  isOpen : g.drafts.IsOpen → g'.drafts.IsOpen
  declarations : g.drafts.IsOpen → ∀ path,
    (g.drafts.draft path).declarations <+: (g'.drafts.draft path).declarations
  env : phase = .symbols ∨ phase = .tables → g'.books.env = g.books.env
  counters : phase ≠ .symbols → g'.books.counters = g.books.counters
  placed : phase ≠ .tables → g'.books.homes = g.books.homes ∧
    g'.redirects = g.redirects

namespace Along

variable {phase : Phase} {g g' g'' : Run}

theorem refl (phase : Phase) (g : Run) : Along phase g g where
  dispatchers := rfl
  symbols := rfl
  completed := rfl
  journal := rfl
  isOpen h := h
  declarations _ _ := List.prefix_rfl
  env _ := rfl
  counters _ := rfl
  placed _ := ⟨rfl, rfl⟩

theorem trans (h : Along phase g g') (h' : Along phase g' g'') :
    Along phase g g'' where
  dispatchers := h'.dispatchers.trans h.dispatchers
  symbols := h'.symbols.trans h.symbols
  completed := h'.completed.trans h.completed
  journal := h'.journal.trans h.journal
  isOpen hopen := h'.isOpen (h.isOpen hopen)
  declarations hopen path :=
    (h.declarations hopen path).trans (h'.declarations (h.isOpen hopen) path)
  env hphase := (h'.env hphase).trans (h.env hphase)
  counters hphase := (h'.counters hphase).trans (h.counters hphase)
  placed hphase :=
    ⟨(h'.placed hphase).1.trans (h.placed hphase).1,
      (h'.placed hphase).2.trans (h.placed hphase).2⟩

/-- Other drafts are allowed in every phase, if nothing is lost. -/
theorem of_drafts {drafts : Drafts} (hopen : g.drafts.IsOpen → drafts.IsOpen)
    (hdeclarations : g.drafts.IsOpen → ∀ path,
      (g.drafts.draft path).declarations <+: (drafts.draft path).declarations) :
    Along phase g { g with drafts } :=
  { refl phase g with
    isOpen := hopen
    declarations := hdeclarations }

/-- The books of a run may change as the phase allows. -/
theorem of_books {books : Bookkeeping}
    (hsymbols : books.env.symbols = g.books.env.symbols)
    (henv : phase = .symbols ∨ phase = .tables → books.env = g.books.env)
    (hcounters : phase ≠ .symbols → books.counters = g.books.counters)
    (hhomes : phase ≠ .tables → books.homes = g.books.homes) :
    Along phase g { g with books } :=
  { refl phase g with
    symbols := hsymbols
    env := henv
    counters := hcounters
    placed := fun hphase => ⟨hhomes hphase, rfl⟩ }

end Along

end Run

/-- The step changes what the phase may change, whether it succeeds or not. -/
def Step.Within {α : Type} (phase : Phase) (x : Step α) : Prop :=
  ∀ g, Run.Along phase g (x g).2

namespace Step.Within

variable {α β : Type} {phase : Phase} {x : Step α} {f : α → Step β}

/-- A step that changes nothing. -/
theorem still (h : ∀ g, (x g).2 = g) : x.Within phase := by
  intro g
  rw [h g]
  exact .refl phase g

theorem bind (hx : x.Within phase) (hf : ∀ a, (f a).Within phase) :
    (x >>= f).Within phase := by
  intro g
  have hfirst := hx g
  rw [Step.bind_apply]
  rcases hg : x g with ⟨fault | a, g₁⟩
  · rw [hg] at hfirst
    exact hfirst
  · rw [hg] at hfirst
    exact hfirst.trans (hf a g₁)

theorem get_bind {f : Run → Step β} (h : ∀ g, Run.Along phase g (f g g).2) :
    ((get : Step Run) >>= f).Within phase :=
  h

theorem compute_bind {outcome : Except Fault α} (hf : ∀ a, (f a).Within phase) :
    (Run.compute outcome >>= f).Within phase :=
  bind (still fun _ => rfl) hf

theorem pure (a : α) : (Pure.pure a : Step α).Within phase :=
  still fun _ => rfl

theorem forM {f : α → Step PUnit} (hf : ∀ a, (f a).Within phase) :
    ∀ xs : List α, (xs.forM f).Within phase
  | [] => pure PUnit.unit
  | x :: rest => bind (hf x) fun _ => forM hf rest

theorem mapM (hf : ∀ a, (f a).Within phase) (xs : List α) :
    (xs.mapM f).Within phase := by
  induction xs with
  | nil => exact pure []
  | cons x rest ih =>
      rw [List.mapM_cons]
      exact bind (hf x) fun b => bind ih fun bs => pure (b :: bs)

end Step.Within

namespace Run

variable {phase : Phase} {g : Run}

theorem within_openDraft (path : String) : (openDraft path).Within phase := by
  intro g
  rcases haccess : g.drafts.access path with fault | ⟨draft, drafts⟩
  · have hrun : openDraft path g = (.error fault, g) := by
      rw [openDraft, Step.get_bind, haccess]
      rfl
    rw [hrun]
    exact .refl phase g
  · have hrun : openDraft path g = (.ok draft, { g with drafts }) := by
      rw [openDraft, Step.get_bind, haccess]
      rfl
    rw [hrun]
    have hdrafts : g.drafts.IsOpen → drafts = g.drafts.ensure path := by
      intro hopen
      rw [hopen.access_eq] at haccess
      exact (Prod.mk.inj (Except.ok.inj haccess)).2.symm
    refine .of_drafts (fun hopen => hdrafts hopen ▸ hopen.ensure path)
      fun hopen path' => ?_
    have hsame : drafts.draft path' = g.drafts.draft path' := by
      rw [hdrafts hopen, Drafts.draft_ensure]
    exact hsame ▸ List.prefix_rfl

theorem within_declare (path : String) (declaration : Declaration)
    (imports : Option ImportPaths) (source : Option String) :
    (declare path declaration imports source).Within phase := by
  intro g
  let c : Contribution := { path, declaration, imports, source }
  rcases haccess : g.drafts.access path with fault | ⟨draft, drafts⟩
  · have hrun :
        declare path declaration imports source g = (.error fault, g) := by
      rw [declare, openDraft, Step.bind_apply, Step.get_bind, haccess]
      rfl
    rw [hrun]
    exact .refl phase g
  · have hrun : declare path declaration imports source g =
        (.ok ⟨⟩, { g with
          drafts := drafts.store (draft.add declaration imports source) }) := by
      rw [declare, openDraft, Step.bind_apply, Step.get_bind, haccess]
      rfl
    have hdrafts : g.drafts.IsOpen →
        drafts.store (draft.add declaration imports source) =
          g.drafts.extend [c] := fun hopen =>
      congrArg (·.2.drafts) (hrun.symm.trans (declare_eq hopen c))
    rw [hrun]
    refine .of_drafts (fun hopen => hdrafts hopen ▸ hopen.extend [c])
      fun hopen path' => ?_
    rw [hdrafts hopen, Drafts.draft_extend, Draft.declarations_extend]
    exact List.prefix_append _ _

theorem within_declareAlias (path : String) (a : Alias) :
    (declareAlias path a).Within phase :=
  within_declare path (.typeAlias a) none none

theorem within_declareAll (path : String) (d : DispatcherSymbol) :
    (declareAll path d).Within phase := by
  rw [declareAll]
  split
  · exact .pure _
  · exact .bind (within_declare _ _ _ _) fun _ =>
      .forM (within_declareAlias path) _

theorem within_updateEnv {f : Environment → Environment}
    (hsymbols : ∀ env, (f env).symbols = env.symbols)
    (hphase : phase ≠ .symbols ∧ phase ≠ .tables) :
    (updateEnv f).Within phase := fun _ =>
  .of_books (hsymbols _) (fun h => absurd h (not_or.mpr hphase)) (fun _ => rfl)
    fun _ => rfl

theorem within_compileSymbol (referenced : List Json) (path : String)
    (symbol : Symbol) :
    (compileSymbol referenced path symbol).Within .symbols := by
  rw [compileSymbol]
  refine .compute_bind fun _ => ?_
  split
  · exact .pure _
  · refine .compute_bind fun ⟨source, name⟩ => ?_
    dsimp only
    cases Override.find? path with
    | some o => exact .compute_bind fun docs => within_declare _ _ _ _
    | none =>
        refine .get_bind fun g => ?_
        split
        · exact .refl _ g
        · have hrest :
            ∀ outcome : Except Fault Compiled, Step.Within .symbols (do
              let compiled ← compute outcome
              let _ ← openDraft source
              let declared ← compute (symbolAlias name symbol.doc compiled)
              declare source (.typeAlias declared) compiled.imports
                (some path) : Step Unit) := fun outcome =>
            .compute_bind fun compiled =>
              .bind (within_openDraft source) fun _ =>
              .compute_bind fun declared => within_declare _ _ _ _
          refine .trans (.of_books ?_ (fun _ => ?_) (fun h => absurd rfl h)
            fun _ => ?_) (hrest _ _)
          · exact congrArg Environment.symbols (Bookkeeping.env_foldl_count _)
          · exact Bookkeeping.env_foldl_count _
          · exact Bookkeeping.homes_foldl_count _

theorem env_home (books : Bookkeeping) (registry : String) :
    (books.home registry).2.env = books.env := by
  rw [Bookkeeping.home]
  split <;> rfl

theorem counters_home (books : Bookkeeping) (registry : String) :
    (books.home registry).2.counters = books.counters := by
  rw [Bookkeeping.home]
  split <;> rfl

theorem within_homeOf (registry : String) (d : DispatcherSymbol) :
    (homeOf registry d).Within .tables := by
  rw [homeOf]
  refine .get_bind fun g => ?_
  have hhome : Along .tables g { g with books := (g.books.home registry).2 } :=
    .of_books (by rw [env_home]) (fun _ => env_home ..)
      (fun _ => counters_home ..) fun h => absurd rfl h
  refine hhome.trans ?_
  rcases g.books.home registry with ⟨_ | owner, books⟩
  · exact .refl _ _
  · have hchecks : Step.Within .tables (do
        if ← compute (clashes (← openDraft owner) d) then return none
        else return some owner :
          Step (Option String)) := by
      refine .bind (within_openDraft owner) fun _ =>
        .compute_bind fun clash => ?_
      split <;> exact .pure _
    exact hchecks { g with books }

theorem within_compileTable (registry : String) :
    (compileTable registry).Within .tables := by
  rw [compileTable]
  refine .bind (.still fun _ => rfl) fun _ => .compute_bind fun d => ?_
  refine .bind (within_homeOf registry d) fun home? => ?_
  split
  · exact .bind (within_declareAll _ d) fun _ => .pure _
  · rename_i owner
    have hredirect : Step.Within .tables (modify fun g : Run => { g with
        redirects := g.redirects.put (tablePath d.info.tableName)
          (owner ++ "::" ++ d.info.tableName) } :
          Step PUnit) := fun g =>
      { Along.refl .tables g with placed := fun h => absurd rfl h }
    exact .bind hredirect fun _ => .compute_bind fun file =>
      .bind (within_declare _ _ _ _) fun _ =>
      .bind (within_declareAll owner d) fun _ => .pure _

def pass : Phase → Step Unit
  | .registries => declareRegistries
  | .metadata => noteDispatchers
  | .symbols => compileSymbols
  | .tables => compileTables

/-- Every phase checks the order first, and then stays with
what it may change. -/
theorem pass_eq_inPhase (phase : Phase) :
    ∃ body, pass phase = inPhase phase body ∧ body.Within phase := by
  cases phase with
  | registries =>
      have hphase : Phase.registries ≠ .symbols ∧
          Phase.registries ≠ .tables := by decide
      refine ⟨_, rfl,
        .bind (.still fun _ => rfl) fun _ => .compute_bind fun registries =>
        .bind (within_updateEnv (fun _ => rfl) hphase) fun _ =>
          .bind (within_openDraft _) fun _ =>
          .bind (.forM (within_declareAlias _) _) fun _ =>
            .bind (.still fun _ => rfl) fun _ =>
            .compute_bind fun translationKey? => ?_⟩
      cases translationKey? with
      | none =>
          refine .bind (.still fun _ => rfl) fun _ =>
            .compute_bind fun blockStateKey? => ?_
          cases blockStateKey? with
          | none => exact within_declareAlias _ _
          | some keys =>
              exact .bind (within_declareAlias _ _) fun _ =>
                within_declareAlias _ _
      | some keys =>
          refine .bind (within_declareAlias _ _) fun _ =>
            .bind (within_updateEnv (fun _ => rfl) hphase) fun _ =>
            .bind (.still fun _ => rfl) fun _ =>
              .compute_bind fun blockStateKey? => ?_
          cases blockStateKey? with
          | none => exact within_declareAlias _ _
          | some keys =>
              exact .bind (within_declareAlias _ _) fun _ =>
                within_declareAlias _ _
  | metadata =>
      have hphase : Phase.metadata ≠ .symbols ∧
          Phase.metadata ≠ .tables := by decide
      refine ⟨_, rfl, .bind (.still fun _ => rfl) fun g =>
        .forM (fun d => .compute_bind fun info => ?_) _⟩
      exact within_updateEnv (fun _ => rfl) hphase
  | symbols =>
      refine ⟨_, rfl,
        .bind (.still fun _ => rfl) fun _ => .compute_bind fun referenced =>
        .bind (.still fun _ => rfl) fun _ => .forM (fun s => ?_) _⟩
      exact within_compileSymbol referenced s.1 s.2
  | tables =>
      refine ⟨_, rfl, .bind (within_openDraft _) fun _ =>
        .bind (.still fun _ => rfl) fun _ => .bind
        (.mapM (fun registry => .bind (within_compileTable registry) fun _ =>
          .pure _) _) fun symbols => ?_⟩
      exact within_declare _ _ _ _

end Run

end Typings
