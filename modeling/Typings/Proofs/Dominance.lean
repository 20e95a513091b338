import Typings.Proofs.Reordering

/-!
Which module owns a dispatcher, by its counts alone. The ranking has every
module that was counted once, and the owner, if there is one, is the module that
leads every other by more than the margin. How often and in which order the
references were added does not matter.
-/

namespace Typings.Tally

variable {c : Tally} {margin : Int} {source : String}

theorem mem_ranking_iff (h : c.counts.keys.Nodup) {e : String × Int} :
    e ∈ c.ranking ↔ e.1 ∈ c.counts.keys ∧ e.2 = c.count e.1 := by
  rw [ranking, List.mem_mergeSort]
  exact mem_entries_iff h

theorem nodup_ranking (h : c.counts.keys.Nodup) :
    (c.ranking.map (·.1)).Nodup := by
  have hperm : (c.ranking.map (·.1)).Perm c.counts.keys :=
    (List.mergeSort_perm _ _).map _
  exact hperm.nodup_iff.mpr h

/-- A module ranks before another with a smaller count, or with the same count
and a later path. -/
theorem ranking_strict (h : c.counts.keys.Nodup) :
    c.ranking.Pairwise fun a b => b.2 < a.2 ∨ a.2 = b.2 ∧ a.1 < b.1 := by
  have hdistinct : c.ranking.Pairwise fun a b => a.1 ≠ b.1 :=
    List.pairwise_map.mp (nodup_ranking h)
  apply ((ranking_pairwise c).and hdistinct).imp
  rintro a b ⟨hbefore, hne⟩
  rw [ranksBefore_iff] at hbefore
  apply hbefore.imp_right
  rintro ⟨hsame, hle⟩
  exact ⟨hsame, lt_of_le_of_ne hle hne⟩

/-- No module behind another in the ranking has a larger count. -/
theorem count_le_of_ranking {front rest : List (String × Int)}
    {e : String × Int} (hranking : c.ranking = front ++ e :: rest) :
    ∀ behind ∈ rest, behind.2 ≤ e.2 := by
  have hpairwise := ranking_pairwise c
  rw [hranking] at hpairwise
  intro behind hbehind
  have hbefore :=
    List.rel_of_pairwise_cons (List.pairwise_append.mp hpairwise).2.1 hbehind
  rw [ranksBefore_iff] at hbefore
  omega

/-- The module was counted, and leads every other module that was by more
than the margin. -/
structure Dominates (c : Tally) (margin : Int) (source : String) : Prop where
  counted : source ∈ c.counts.keys
  leads : ∀ other ∈ c.counts.keys, other ≠ source →
    c.count other + margin < c.count source

/-- Only the first module of the ranking can lead all others. -/
theorem Dominates.eq_first (h : c.counts.keys.Nodup)
    (hmargin : 0 ≤ margin) (hsource : c.Dominates margin source)
    {first : String × Int} {rest : List (String × Int)}
    (hranking : c.ranking = first :: rest) : source = first.1 := by
  have hfirst : first ∈ c.ranking := by simp [hranking]
  obtain ⟨hcounted, hcount⟩ := (mem_ranking_iff h).mp hfirst
  by_contra hne
  have hlead := hsource.leads first.1 hcounted (Ne.symm hne)
  have hmem : (source, c.count source) ∈ first :: rest := by
    rw [← hranking]
    exact (mem_ranking_iff h).mpr ⟨hsource.counted, rfl⟩
  rcases List.mem_cons.mp hmem with heq | hrest
  · exact hne (congrArg Prod.fst heq)
  · have hle : c.count source ≤ first.2 :=
      @count_le_of_ranking c [] _ _ hranking _ hrest
    omega

/-- The first module of the ranking leads all others if it leads the second. -/
theorem dominates_first_iff (h : c.counts.keys.Nodup)
    {first second : String × Int} {rest : List (String × Int)}
    (hranking : c.ranking = first :: second :: rest) :
    c.Dominates margin first.1 ↔ second.2 + margin < first.2 := by
  have hmem : ∀ e ∈ first :: second :: rest, e.1 ∈ c.counts.keys ∧
      e.2 = c.count e.1 := by
    intro e he
    exact (mem_ranking_iff h).mp (hranking ▸ he)
  obtain ⟨hfirst, hfirstCount⟩ := hmem first (by simp)
  obtain ⟨hsecond, hsecondCount⟩ := hmem second (by simp)
  constructor
  · intro hdominates
    have hdistinct := nodup_ranking h
    rw [hranking, List.map_cons, List.map_cons, List.nodup_cons] at hdistinct
    have hne : second.1 ≠ first.1 :=
      fun heq => hdistinct.1 (heq ▸ List.mem_cons_self)
    rw [hfirstCount, hsecondCount]
    exact hdominates.leads second.1 hsecond hne
  · intro hlead
    refine ⟨hfirst, fun other hother hne => ?_⟩
    have hrank : (other, c.count other) ∈ first :: second :: rest := by
      rw [← hranking]
      exact (mem_ranking_iff h).mpr ⟨hother, rfl⟩
    rcases List.mem_cons.mp hrank with heq | hbehind
    · exact absurd (congrArg Prod.fst heq) hne
    · have hle : c.count other ≤ second.2 := by
        rcases List.mem_cons.mp hbehind with heq | hrest
        · exact (congrArg Prod.snd heq).le
        · exact @count_le_of_ranking c [first] _ _ hranking _ hrest
      omega

/-- A module owns the dispatcher exactly if it leads all others. -/
theorem owner?_eq_some_iff (h : c.counts.keys.Nodup) (hmargin : 0 ≤ margin) :
    c.owner? margin = some source ↔ c.Dominates margin source := by
  rw [owner?]
  split
  · rename_i hnone
    refine iff_of_false (by rintro ⟨⟩) fun hsource => ?_
    have hmem : (source, c.count source) ∈ c.ranking :=
      (mem_ranking_iff h).mpr ⟨hsource.counted, rfl⟩
    rw [hnone] at hmem
    cases hmem
  -- A single module leads all others, whatever its count.
  · rename_i only honly
    constructor
    · rintro ⟨⟩
      refine ⟨((mem_ranking_iff h).mp (by simp [honly])).1,
        fun other hother hne => ?_⟩
      have hmem : (other, c.count other) ∈ c.ranking :=
        (mem_ranking_iff h).mpr ⟨hother, rfl⟩
      rw [honly, List.mem_singleton] at hmem
      exact absurd (congrArg Prod.fst hmem) hne
    · intro hsource
      rw [hsource.eq_first h hmargin honly]
  · rename_i first second rest hranking
    have hfirst := @dominates_first_iff c margin h _ _ _ hranking
    split
    · rename_i hlead
      constructor
      · rintro ⟨⟩
        exact hfirst.mpr hlead
      · intro hsource
        rw [hsource.eq_first h hmargin hranking]
    · rename_i hclose
      refine iff_of_false (by rintro ⟨⟩) fun hsource => ?_
      have heq := hsource.eq_first h hmargin hranking
      exact hclose (hfirst.mp (heq ▸ hsource))

def ofAdditions (additions : List (String × Int)) : Tally :=
  addAll {} additions

/-- The modules that references were added for. -/
def sources (additions : List (String × Int)) : List String :=
  additions.map (·.1)

variable {additions : List (String × Int)}

theorem mem_keys_ofAdditions : source ∈ (ofAdditions additions).counts.keys ↔
    source ∈ sources additions := by
  rw [ofAdditions, mem_keys_addAll]
  simp [Table.keys, sources]

theorem count_ofAdditions (additions : List (String × Int)) (source : String) :
    (ofAdditions additions).count source = total additions source := by
  rw [ofAdditions, count_addAll]
  simp [count, Table.get?]

theorem nodup_keys_ofAdditions (additions : List (String × Int)) :
    (ofAdditions additions).counts.keys.Nodup := by
  apply nodup_keys_addAll
  exact List.nodup_nil

theorem dominates_ofAdditions_iff :
    (ofAdditions additions).Dominates margin source ↔
    source ∈ sources additions ∧
      ∀ other ∈ sources additions, other ≠ source →
        total additions other + margin < total additions source := by
  constructor
  · rintro ⟨hcounted, hleads⟩
    simp only [mem_keys_ofAdditions, count_ofAdditions] at hcounted hleads
    exact ⟨hcounted, hleads⟩
  · rintro ⟨hcounted, hleads⟩
    refine ⟨mem_keys_ofAdditions.mpr hcounted, ?_⟩
    simp only [mem_keys_ofAdditions, count_ofAdditions]
    exact hleads

/-- The ranking depends on what the additions come to, module by module. -/
theorem ranking_ofAdditions_congr {additions' : List (String × Int)}
    (hsources : ∀ source, source ∈ sources additions' ↔
      source ∈ sources additions)
    (htotal : ∀ source ∈ sources additions,
      total additions' source = total additions source) :
    (ofAdditions additions').ranking = (ofAdditions additions).ranking := by
  have hnodup : ∀ as, (ofAdditions as).counts.entries.Nodup :=
    fun as => List.Nodup.of_map _ (nodup_keys_ofAdditions as)
  apply ranking_of_perm
  apply (List.perm_ext_iff_of_nodup (hnodup _) (hnodup _)).mpr
  rintro ⟨source, count⟩
  rw [mem_entries_iff (nodup_keys_ofAdditions _),
    mem_entries_iff (nodup_keys_ofAdditions _), mem_keys_ofAdditions,
    mem_keys_ofAdditions, count_ofAdditions, count_ofAdditions, hsources]
  apply and_congr_right
  intro hmem
  rw [htotal source hmem]

/-- Strict dominance decides who owns a dispatcher. After any additions, with
amounts of any sign, a module is the owner exactly if references were added
for it and what they come to exceeds that of every other module by more than
the margin; otherwise there is no owner. The ranking has each module once with
what its additions come to, larger counts first and then by path. Additions
that come to the same, however they are ordered and split, have the same
ranking and the same owner. -/
theorem owner?_iff_dominates (additions : List (String × Int))
    (hmargin : 0 ≤ margin) :
    (∀ source, (ofAdditions additions).owner? margin = some source ↔
      source ∈ sources additions ∧
      ∀ other ∈ sources additions, other ≠ source →
        total additions other + margin < total additions source) ∧
    ((ofAdditions additions).owner? margin = none ↔
      ¬ ∃ source ∈ sources additions,
      ∀ other ∈ sources additions, other ≠ source →
        total additions other + margin < total additions source) ∧
    (∀ e, e ∈ (ofAdditions additions).ranking ↔ e.1 ∈ sources additions ∧
      e.2 = total additions e.1) ∧
    ((ofAdditions additions).ranking.map (·.1)).Nodup ∧
    ((ofAdditions additions).ranking.Pairwise fun a b => b.2 < a.2 ∨ a.2 = b.2 ∧
      a.1 < b.1) ∧
    ∀ additions',
      (∀ source, source ∈ sources additions' ↔ source ∈ sources additions) →
      (∀ source ∈ sources additions,
          total additions' source = total additions source) →
        (ofAdditions additions').ranking = (ofAdditions additions).ranking ∧
          (ofAdditions additions').owner? margin =
            (ofAdditions additions).owner? margin := by
  have hnodup := nodup_keys_ofAdditions additions
  have howner : ∀ source, (ofAdditions additions).owner? margin = some source ↔
      source ∈ sources additions ∧
      ∀ other ∈ sources additions, other ≠ source →
        total additions other + margin < total additions source :=
    fun source =>
      (owner?_eq_some_iff hnodup hmargin).trans dominates_ofAdditions_iff
  refine ⟨howner, ?_, fun e => ?_, nodup_ranking hnodup,
    ranking_strict hnodup, ?_⟩
  · rw [Option.eq_none_iff_forall_ne_some, not_exists]
    exact forall_congr' fun source => not_congr (howner source)
  · rw [mem_ranking_iff hnodup, mem_keys_ofAdditions, count_ofAdditions]
  · intro additions' hsources htotal
    have hranking := ranking_ofAdditions_congr hsources htotal
    exact ⟨hranking, by rw [owner?, owner?, hranking]⟩

/-- Eight references against two, some of them taken back: a lead of six is more
than five, and not more than six. -/
theorem owner?_iff_dominates_eight :
    let additions : List (String × Int) :=
      [("::java::b", 3), ("::java::a", 9), ("::java::b", -1), ("::java::a", -1)]
    (ofAdditions additions).owner? 5 = some "::java::a" ∧
      (ofAdditions additions).owner? 6 = none ∧
      (ofAdditions [("::java::a", 8), ("::java::b", 2)]).ranking =
        (ofAdditions additions).ranking := by
  intro additions
  obtain ⟨howner, -, -, -, -, hcongr⟩ :=
    owner?_iff_dominates additions (show (0 : Int) ≤ 5 by decide)
  obtain ⟨-, hnone, -⟩ :=
    owner?_iff_dominates additions (show (0 : Int) ≤ 6 by decide)
  refine ⟨(howner _).mpr (by decide), hnone.mpr (by decide),
    (hcongr _ ?_ (by decide)).1⟩
  intro source
  simp only [sources, additions, List.map_cons, List.map_nil, List.mem_cons,
    List.not_mem_nil, or_false]
  tauto

end Typings.Tally
