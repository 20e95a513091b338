import Mathlib.Data.List.Induction
import Typings.Proofs.Emission
import Typings.Proofs.Frames

/-!
The order of the phases. Whatever phases are called for, in whatever order,
and however often they fail on the way, a run gets through them one after
another: a call out of order does nothing, a call that fails leaves its phase
open, and a phase that is over never runs again. So every dispatcher is known
when symbols are compiled, and every symbol is compiled and counted when
dispatchers are placed.
-/

namespace Typings

def Phase.before : Phase → List Phase
  | registries => []
  | metadata => [registries]
  | symbols => [registries, metadata]
  | tables => [registries, metadata, symbols]

namespace Run

/-- The phase that comes next, none if all are over. -/
def next? (g : Run) : Option Phase :=
  Phase.all[g.completed.length]?

/-- The run after calls for phases, each with whatever outcome. -/
def afterCalls (g : Run) (calls : List Phase) : Run :=
  calls.foldl (fun g phase => (pass phase g).2) g

/-- What is to be known of every dispatcher is noted. -/
def HasMetadata (g : Run) : Prop :=
  ∀ registry ∈ g.dispatchers.keys, ∃ members info,
    (registry, members) ∈ g.dispatchers.entries ∧
    DispatcherHead.of registry members = .ok info ∧
    g.books.env.dispatchers.get? registry = some info

/-- Every symbol is compiled: what it adds is in its module, and its references
are counted, each once. -/
def HasSymbols (g : Run) : Prop :=
  ∃ referenced results, g.targets = .ok referenced ∧
    g.books.env.symbols.entries.mapM (fun s =>
      symbolResult g.books.env referenced s.1 s.2) = .ok results ∧
    (∀ r ∈ results, ∀ c ∈ r.contribution?,
      c.declaration ∈ (g.drafts.draft c.path).declarations) ∧
    g.books.counters =
      ((results.flatMap (·.references)).foldl Bookkeeping.count {}).counters

variable {g g' : Run} {phase : Phase}

/-- A call out of order fails and does nothing. -/
theorem pass_of_ne (h : g.next? ≠ some phase) :
    pass phase g =
      (.error (.run (.outOfOrder phase.words (g.next?.map Phase.words))),
        g) := by
  obtain ⟨body, hpass, -⟩ := pass_eq_inPhase phase
  have hcheck : Phase.all[g.completed.length]? ≠ some phase := h
  rw [hpass, inPhase, Step.get_bind]
  dsimp only
  rw [if_pos hcheck]
  rfl

/-- What a call in order can come to: the phase fails on its
way, or it is over. -/
theorem pass_of_eq (h : g.next? = some phase) :
    ∃ g₁, Along phase (g.begun phase) g₁ ∧
    ((∃ fault, pass phase g = (.error fault, g₁)) ∨
      pass phase g = (.ok ⟨⟩, g₁.ended phase)) := by
  obtain ⟨body, hpass, hwithin⟩ := pass_eq_inPhase phase
  have hcheck : Phase.all[g.completed.length]? = some phase := h
  have hrun : pass phase g =
      (body >>= fun _ => modify fun g => g.ended phase) (g.begun phase) := by
    rw [hpass, inPhase, Step.get_bind]
    dsimp only
    rw [if_neg (not_not.mpr hcheck)]
    rfl
  refine ⟨(body (g.begun phase)).2, hwithin _, ?_⟩
  rw [hrun, Step.bind_apply]
  rcases body (g.begun phase) with ⟨fault | ⟨⟩, g₁⟩
  · exact Or.inl ⟨fault, rfl⟩
  · exact Or.inr rfl

theorem completed_prefix_pass (phase : Phase) (g : Run) :
    g.completed <+: (pass phase g).2.completed := by
  by_cases hnext : g.next? = some phase
  · obtain ⟨g₁, halong, hrun⟩ := pass_of_eq hnext
    rcases hrun with ⟨fault, hrun⟩ | hrun
    · exact hrun ▸ halong.completed ▸ List.prefix_rfl
    · exact hrun ▸ halong.completed ▸ List.prefix_append g₁.completed [phase]
  · exact pass_of_ne hnext ▸ List.prefix_rfl

theorem completed_prefix_afterCalls (calls : List Phase) (g : Run) :
    g.completed <+: (g.afterCalls calls).completed := by
  induction calls generalizing g with
  | nil => exact List.prefix_rfl
  | cons phase calls ih =>
      exact (completed_prefix_pass phase g).trans (ih (pass phase g).2)

theorem completed_eq_before (h : g.completed <+: Phase.all)
    (hnext : g.next? = some phase) :
    g.completed = phase.before := by
  have htake := List.prefix_iff_eq_take.mp h
  rw [next?] at hnext
  generalize g.completed.length = n at htake hnext
  rw [htake]
  match n, hnext with
  | 0, hnext => cases hnext; rfl
  | 1, hnext => cases hnext; rfl
  | 2, hnext => cases hnext; rfl
  | 3, hnext => cases hnext; rfl

theorem Along.targets_eq (h : Along phase g g') : g'.targets = g.targets := by
  rw [targets, targets, h.dispatchers, h.symbols]

/-- Once it is there, metadata stays. -/
theorem HasMetadata.along (h : g.HasMetadata)
    (hphase : phase = .symbols ∨ phase = .tables)
    (halong : Along phase (g.begun phase) g') : g'.HasMetadata := by
  rw [HasMetadata, halong.dispatchers, halong.env hphase]
  exact h

/-- Placing dispatchers takes nothing of the symbols away. -/
theorem HasSymbols.along (h : g.HasSymbols) (hopen : g.drafts.IsOpen)
    (halong : Along .tables (g.begun .tables) g') : g'.HasSymbols := by
  obtain ⟨referenced, results, hreferenced, hresults, hdeclared, hcounters⟩ := h
  refine ⟨referenced, results, halong.targets_eq.trans hreferenced, ?_,
    fun r hr c hc => ?_, ?_⟩
  · rw [halong.env (Or.inr rfl)]
    exact hresults
  · exact (halong.declarations hopen c.path).subset (hdeclared r hr c hc)
  · rw [halong.counters (by decide)]
    exact hcounters

theorem exists_get?_foldl_put {heads : List (String × DispatcherHead)}
    (table : Table DispatcherHead)
    {registry : String} (h : registry ∈ heads.map (·.1)) :
    ∃ info, (registry, info) ∈ heads ∧
      (heads.foldl (fun table head => table.put head.1 head.2) table).get?
        registry = some info := by
  induction heads using List.reverseRecOn with
  | nil => cases h
  | append_singleton heads head ih =>
      rw [List.foldl_append, List.foldl_cons, List.foldl_nil, Table.get?_put]
      by_cases hlast : registry = head.1
      · exact ⟨head.2, by simp [hlast], by simp [hlast]⟩
      · have hmem : registry ∈ heads.map (·.1) := by simpa [hlast] using h
        obtain ⟨info, hinfo, hget⟩ := ih hmem
        exact ⟨info, List.mem_append_left _ hinfo, by simpa [hlast] using hget⟩

theorem hasMetadata_of_passed (hcompleted : g.completed = Phase.metadata.before)
    (hpassed : noteDispatchers g = (.ok ⟨⟩, g')) : g'.HasMetadata := by
  obtain ⟨heads, hheads, rfl⟩ :=
    (noteDispatchers_eq_ok_iff hcompleted).mp hpassed
  have hentry : ∀ {d : String × Table Schema} {head}, headEntry d = .ok head →
      head.1 = d.1 ∧ DispatcherHead.of d.1 d.2 = .ok head.2 := by
    intro d head hhead
    obtain ⟨info, hinfo, hhead⟩ := bind_eq_ok_iff.mp hhead
    obtain rfl := pure_eq_ok_iff.mp hhead
    exact ⟨rfl, hinfo⟩
  intro registry hregistry
  have hmem : registry ∈ heads.map (·.1) := by
    obtain ⟨d, hd, rfl⟩ := List.mem_map.mp hregistry
    obtain ⟨head, hhead, hof⟩ := exists_mem_of_mapM hheads hd
    exact List.mem_map.mpr ⟨head, hhead, (hentry hof).1⟩
  obtain ⟨info, hinfo, hget⟩ :=
    exists_get?_foldl_put g.books.env.dispatchers hmem
  obtain ⟨d, hd, hof⟩ := exists_of_mem_mapM hheads hinfo
  obtain ⟨rfl, hof⟩ := hentry hof
  exact ⟨d.2, info, hd, hof, hget⟩

theorem counters_foldl_count {books books' : Bookkeeping}
    (h : books.counters = books'.counters) (refs : List Reference) :
    (refs.foldl Bookkeeping.count books).counters =
      (refs.foldl Bookkeeping.count books').counters := by
  induction refs generalizing books books' with
  | nil => exact h
  | cons ref refs ih =>
      refine ih ?_
      rw [Bookkeeping.count, Bookkeeping.count, h]

/-- The symbols are there once their phase is over, if nothing
was counted before. -/
theorem hasSymbols_of_passed (hopen : g.drafts.IsOpen)
    (hcompleted : g.completed = Phase.symbols.before)
    (hcounters : g.books.counters = {})
    (hpassed : compileSymbols g = (.ok ⟨⟩, g')) : g'.HasSymbols := by
  obtain ⟨referenced, hreferenced, results, hresults, rfl⟩ :=
    (compileSymbols_eq_ok_iff hopen hcompleted).mp hpassed
  rw [foldl_absorb]
  have henv :
      ((results.flatMap (·.references)).foldl Bookkeeping.count g.books).env =
        g.books.env :=
    Bookkeeping.env_foldl_count _
  refine ⟨referenced, results, ?_, ?_, fun r hr c hc => ?_,
    counters_foldl_count hcounters _⟩
  · rw [← hreferenced, targets, targets]
    dsimp only [ended, begun]
    rw [henv]
  · dsimp only [ended, begun]
    rw [henv]
    exact hresults
  · have hcontribution : c ∈ results.filterMap (·.contribution?) :=
      List.mem_filterMap.mpr ⟨r, hr, hc⟩
    dsimp only [ended, begun]
    rw [Drafts.draft_extend, Draft.declarations_extend]
    refine List.mem_append_right _ (List.mem_map.mpr ⟨c, ?_, rfl⟩)
    exact List.mem_filter.mpr ⟨hcontribution, beq_self_eq_true c.path⟩

/-- What holds between calls. Nothing is counted before the symbols are
compiled, and once compiling them has failed it always will. -/
structure InOrder (g : Run) : Prop where
  isOpen : g.drafts.IsOpen
  completed : g.completed <+: Phase.all
  metadata : .metadata ∈ g.completed → g.HasMetadata
  compiled : .symbols ∈ g.completed → g.HasSymbols
  uncounted : .metadata ∉ g.completed → g.books.counters = {}
  counted : g.next? = some .symbols → g.books.counters = {} ∨
    ∀ g', compileSymbols g ≠ (.ok ⟨⟩, g')

theorem inOrder_of_isFresh (h : g.IsFresh) : InOrder g where
  isOpen := h.drafts ▸ Drafts.isOpen_empty
  completed := h.completed ▸ List.nil_prefix
  metadata hmem := by simp [h.completed] at hmem
  compiled hmem := by simp [h.completed] at hmem
  uncounted _ := by rw [h.books]
  counted hnext := by simp [next?, h.completed, Phase.all] at hnext

/-- Whether the symbols compile depends on nothing that the phase changes. -/
theorem compileSymbols_fails_along (hopen : g.drafts.IsOpen)
    (hcompleted : g.completed = Phase.symbols.before)
    (halong : Along .symbols (g.begun .symbols) g')
    (h : ∀ g₁, compileSymbols g ≠ (.ok ⟨⟩, g₁)) (g₁ : Run) :
    compileSymbols g' ≠ (.ok ⟨⟩, g₁) := by
  intro hpassed
  have hcompleted' : g'.completed = Phase.symbols.before :=
    halong.completed.trans hcompleted
  obtain ⟨referenced, hreferenced, results, hresults, -⟩ :=
    (compileSymbols_eq_ok_iff (halong.isOpen hopen) hcompleted').mp hpassed
  rw [halong.targets_eq] at hreferenced
  rw [halong.env (Or.inl rfl)] at hresults
  exact h _ ((compileSymbols_eq_ok_iff hopen hcompleted).mpr ⟨referenced,
    hreferenced, results, hresults, rfl⟩)

/-- A phase that fails leaves things in order. -/
theorem InOrder.of_failed (h : InOrder g) (hnext : g.next? = some phase)
    (halong : Along phase (g.begun phase) g')
    (hfailed : ∀ g₁, pass phase g ≠ (.ok ⟨⟩, g₁)) : InOrder g' := by
  have hcompleted := completed_eq_before h.completed hnext
  have hsame : g'.completed = g.completed := halong.completed
  have hnext' : g'.next? = g.next? := by rw [next?, next?, hsame]
  refine ⟨halong.isOpen h.isOpen, hsame ▸ h.completed, fun hmem => ?_,
    fun hmem => ?_, fun hmem => ?_, fun hsymbols => ?_⟩
  · rw [hsame] at hmem
    have hlate : phase = .symbols ∨ phase = .tables := by
      rw [hcompleted] at hmem
      cases phase <;> simp [Phase.before] at hmem ⊢
    exact (h.metadata hmem).along hlate halong
  · rw [hsame] at hmem
    obtain rfl : phase = .tables := by
      rw [hcompleted] at hmem
      cases phase <;> simp [Phase.before] at hmem ⊢
    exact (h.compiled hmem).along h.isOpen halong
  · rw [hsame] at hmem
    have hearly : phase ≠ .symbols := by
      rw [hcompleted] at hmem
      cases phase <;> simp [Phase.before] at hmem ⊢
    exact (halong.counters hearly).trans (h.uncounted hmem)
  · rw [hnext', hnext, Option.some.injEq] at hsymbols
    subst hsymbols
    exact Or.inr (compileSymbols_fails_along h.isOpen hcompleted halong hfailed)

/-- A phase that is over leaves things in order. -/
theorem InOrder.of_passed (h : InOrder g) (hnext : g.next? = some phase)
    (halong : Along phase (g.begun phase) g')
    (hpassed : pass phase g = (.ok ⟨⟩, g'.ended phase)) :
    InOrder (g'.ended phase) := by
  have hcompleted := completed_eq_before h.completed hnext
  have hafter : (g'.ended phase).completed = phase.before ++ [phase] := by
    rw [← hcompleted]
    exact congrArg (· ++ [phase]) halong.completed
  refine ⟨halong.isOpen h.isOpen, ?_, fun hmem => ?_, fun hmem => ?_,
    fun hmem => ?_, fun hsymbols => ?_⟩
  · rw [hafter]
    cases phase <;> decide
  · rw [hafter] at hmem
    cases phase with
    | registries => exact absurd hmem (by decide)
    | metadata => exact hasMetadata_of_passed hcompleted hpassed
    | symbols =>
        have hkept : g'.HasMetadata :=
          (h.metadata (by rw [hcompleted]; decide)).along (Or.inl rfl) halong
        exact hkept
    | tables =>
        have hkept : g'.HasMetadata :=
          (h.metadata (by rw [hcompleted]; decide)).along (Or.inr rfl) halong
        exact hkept
  · rw [hafter] at hmem
    cases phase with
    | registries => exact absurd hmem (by decide)
    | metadata => exact absurd hmem (by decide)
    -- An earlier try that failed may have counted something, but then this one
    -- would fail as well.
    | symbols =>
        have hcounters :=
          (h.counted hnext).resolve_right fun hfails => hfails _ hpassed
        exact hasSymbols_of_passed h.isOpen hcompleted hcounters hpassed
    | tables =>
        have hkept : g'.HasSymbols :=
          (h.compiled (by rw [hcompleted]; decide)).along h.isOpen halong
        exact hkept
  · rw [hafter] at hmem
    cases phase with
    | registries =>
        exact (halong.counters (by decide)).trans
          (h.uncounted (by rw [hcompleted]; decide))
    | metadata => exact absurd (by decide) hmem
    | symbols => exact absurd (by decide) hmem
    | tables => exact absurd (by decide) hmem
  · rw [next?, hafter] at hsymbols
    cases phase with
    | metadata =>
        exact Or.inl ((halong.counters (by decide)).trans
          (h.uncounted (by rw [hcompleted]; decide)))
    | registries => exact absurd hsymbols (by decide)
    | symbols => exact absurd hsymbols (by decide)
    | tables => exact absurd hsymbols (by decide)

theorem InOrder.pass (h : InOrder g) (phase : Phase) :
    InOrder (Run.pass phase g).2 := by
  by_cases hnext : g.next? = some phase
  · obtain ⟨g₁, halong, hrun⟩ := pass_of_eq hnext
    rcases hrun with ⟨fault, hrun⟩ | hrun
    · rw [hrun]
      refine h.of_failed hnext halong fun g₂ hpassed => ?_
      cases hrun.symm.trans hpassed
    · rw [hrun]
      exact h.of_passed hnext halong hrun
  · rw [pass_of_ne hnext]
    exact h

theorem InOrder.afterCalls (h : InOrder g) (calls : List Phase) :
    InOrder (g.afterCalls calls) := by
  induction calls generalizing g with
  | nil => exact h
  | cons phase calls ih => exact ih (h.pass phase)

/-- A phase that is over is not the next one. -/
theorem InOrder.next?_ne (h : InOrder g) (hmem : phase ∈ g.completed) :
    g.next? ≠ some phase := by
  intro hnext
  rw [completed_eq_before h.completed hnext] at hmem
  cases phase <;> simp [Phase.before] at hmem

/-- Homes and redirects are only decided in the last phase. -/
theorem next?_of_placed
    (h : (pass phase g).2.books.homes ≠ g.books.homes ∨
      (pass phase g).2.redirects ≠ g.redirects) :
    phase = .tables ∧ g.next? = some .tables := by
  by_cases hnext : g.next? = some phase
  · obtain ⟨g₁, halong, hrun⟩ := pass_of_eq hnext
    by_cases hphase : phase = .tables
    · exact ⟨hphase, hphase ▸ hnext⟩
    · obtain ⟨hhomes, hredirects⟩ := halong.placed hphase
      refine absurd h (not_or.mpr ⟨not_not.mpr ?_, not_not.mpr ?_⟩)
      · rcases hrun with ⟨fault, hrun⟩ | hrun <;> rw [hrun] <;> exact hhomes
      · rcases hrun with ⟨fault, hrun⟩ | hrun <;> rw [hrun] <;> exact hredirects
  · rw [pass_of_ne hnext] at h
    exact absurd h (by simp)

/-- However the phases of a new run are called for, they are gone through in
order. A call goes ahead exactly if its phase is the next one, which the
journal tells; it fails and changes nothing otherwise. A phase that is over
stays over. When symbols are compiled every dispatcher is known, and when a
dispatcher is placed every symbol is compiled with that knowledge, and its
references are counted. -/
theorem phases_run_in_order {symbols : Symbols} {dispatchers : Dispatchers}
    {registries translationKeys blockProperties : Json} {g : Run}
    (hstart : start symbols dispatchers registries translationKeys
      blockProperties = .ok g) (calls : List Phase) :
    let g₁ := g.afterCalls calls
    g₁.completed <+: Phase.all ∧
    (∀ phase, g₁.next? = some phase → ∃ g₂, (pass phase g₁).2 = g₂ ∧
      g₂.journal = g₁.journal ++ [.resolving phase] ∧
      ((pass phase g₁).1 = .ok ⟨⟩ ∧ g₂.completed = g₁.completed ++ [phase] ∨
        (∃ fault, (pass phase g₁).1 = .error fault) ∧
          g₂.completed = g₁.completed)) ∧
    (∀ phase, g₁.next? ≠ some phase →
      pass phase g₁ =
        (.error (.run (.outOfOrder phase.words (g₁.next?.map Phase.words))),
          g₁)) ∧
    (∀ phase ∈ g₁.completed, ∀ more, let g₂ := g₁.afterCalls more
      pass phase g₂ =
        (.error (.run (.outOfOrder phase.words (g₂.next?.map Phase.words))),
          g₂)) ∧
    (g₁.next? = some .symbols → g₁.HasMetadata ∧
      (pass .symbols g₁).2.books.env = g₁.books.env) ∧
    (∀ phase, (pass phase g₁).2.books.homes ≠ g₁.books.homes ∨
      (pass phase g₁).2.redirects ≠ g₁.redirects →
      phase = .tables ∧ g₁.next? = some .tables) ∧
    (g₁.next? = some .tables → g₁.HasMetadata ∧ g₁.HasSymbols) := by
  intro g₁
  have horder : InOrder g₁ :=
    (inOrder_of_isFresh (isFresh_start hstart).1).afterCalls calls
  refine ⟨horder.completed, fun phase hnext => ⟨_, rfl, ?_⟩,
    fun phase hnext => pass_of_ne hnext, fun phase hmem more => ?_,
    fun hnext => ⟨?_, ?_⟩, fun phase => next?_of_placed, fun hnext => ?_⟩
  · obtain ⟨g₂, halong, ⟨fault, hrun⟩ | hrun⟩ := pass_of_eq hnext
    · rw [hrun]
      exact ⟨halong.journal, Or.inr ⟨⟨fault, rfl⟩, halong.completed⟩⟩
    · rw [hrun]
      exact ⟨halong.journal,
        Or.inl ⟨rfl, congrArg (· ++ [phase]) halong.completed⟩⟩
  · have hover : phase ∈ (g₁.afterCalls more).completed :=
      (completed_prefix_afterCalls more g₁).subset hmem
    exact pass_of_ne ((horder.afterCalls more).next?_ne hover)
  · refine horder.metadata ?_
    rw [completed_eq_before horder.completed hnext]
    decide
  · obtain ⟨g₂, halong, ⟨fault, hrun⟩ | hrun⟩ := pass_of_eq hnext
    · rw [hrun]
      exact halong.env (Or.inl rfl)
    · rw [hrun]
      exact halong.env (Or.inl rfl)
  · have hcompleted := completed_eq_before horder.completed hnext
    exact ⟨horder.metadata (by rw [hcompleted]; decide),
      horder.compiled (by rw [hcompleted]; decide)⟩

/-- Calls that come too early or twice do not get in the way of the others. -/
theorem phases_run_in_order_sampleRun :
    start sampleSymbols sampleDispatchers .null .null .null = .ok sampleRun ∧
      let g₁ := sampleRun.afterCalls [.tables, .registries, .symbols, .metadata,
        .metadata, .symbols]
      g₁.next? = some .tables ∧ g₁.HasMetadata ∧ g₁.HasSymbols ∧
        pass .metadata g₁ =
          (.error (.run (.outOfOrder "dispatcher metadata"
            (some "dispatcher symbols"))), g₁) := by
  have hstart : start sampleSymbols sampleDispatchers .null .null .null =
      .ok sampleRun := rfl
  refine ⟨hstart, ?_⟩
  intro g₁
  have hnext : g₁.next? = some .tables := by decide +kernel
  obtain ⟨-, -, hrejected, -, -, -, hready⟩ := phases_run_in_order hstart
    [.tables, .registries, .symbols, .metadata, .metadata, .symbols]
  obtain ⟨hmetadata, hsymbols⟩ := hready hnext
  have hearlier := hrejected .metadata (by rw [hnext]; decide)
  rw [hnext] at hearlier
  exact ⟨hnext, hmetadata, hsymbols, hearlier⟩

end Run

end Typings
