import Typings.Dispatcher.Head
import Typings.Plan.Compile
import Typings.Proofs.Outcome
import Mathlib.Data.List.Basic

/-!
Last segments of paths. The name of a dispatcher's table holds no colon, so it
is the last segment of the path that the table is imported from.
-/

namespace Typings

theorem cutAtLast?_cons_of_some {c : Char} {rest front name : List Char}
    (h : cutAtLast? rest = some (front, name)) :
    cutAtLast? (c :: rest) = some (c :: front, name) := by
  unfold cutAtLast?
  rw [h]

theorem cutAtLast?_cons_of_none {c : Char} {rest : List Char}
    (h : cutAtLast? rest = none) (hne : c = ':' → rest.head? ≠ some ':') :
    cutAtLast? (c :: rest) = none := by
  rw [cutAtLast?.eq_def]
  simp only [h]
  split
  · exact absurd rfl (hne rfl)
  · rfl

theorem cutAtLast?_eq_none {cs : List Char} (h : ':' ∉ cs) :
    cutAtLast? cs = none := by
  induction cs with
  | nil => rfl
  | cons c rest ih =>
      rw [List.mem_cons, not_or] at h
      exact cutAtLast?_cons_of_none (ih h.2) fun hc => absurd hc.symm h.1

/-- Behind the last separator stands a name without colons. -/
theorem cutAtLast?_append {name : List Char} (h : ':' ∉ name)
    (front : List Char) :
    cutAtLast? (front ++ ':' :: ':' :: name) = some (front, name) := by
  induction front with
  | nil =>
      have hnone : cutAtLast? (':' :: name) = none :=
        cutAtLast?_cons_of_none (cutAtLast?_eq_none h)
          fun _ hhead => h (List.mem_of_mem_head? (Option.mem_def.mpr hhead))
      rw [List.nil_append, cutAtLast?.eq_def]
      simp only [hnone]
  | cons c front ih => exact cutAtLast?_cons_of_some ih

/-- What stands before and behind the last `::` makes up the whole. -/
theorem append_of_cutAtLast? {cs front name : List Char}
    (h : cutAtLast? cs = some (front, name)) :
    front ++ ':' :: ':' :: name = cs := by
  induction cs generalizing front with
  | nil => cases h
  | cons c rest ih =>
      rw [cutAtLast?.eq_def] at h
      dsimp only at h
      split at h
      · rename_i hrest
        cases h
        exact congrArg (c :: ·) (ih hrest)
      · split at h
        · cases h
          rfl
        · cases h

theorem lastSegment_append {name : String} (h : ':' ∉ name.toList)
    (front : String) :
    lastSegment (front ++ "::" ++ name) = name := by
  have hlist : (front ++ "::" ++ name).toList =
      front.toList ++ ':' :: ':' :: name.toList := by
    simp [String.toList_append]
  rw [lastSegment, hlist, cutAtLast?_append h]
  exact String.ofList_toList

theorem toUpper_ne_colon {c : Char} (hascii : c.toNat < 0x80) (h : c ≠ ':') :
    c.toUpper ≠ ':' := by
  have hall : ∀ n < 0x80, n ≠ ':'.toNat →
      (Char.ofNat n).toUpper ≠ ':' := by decide
  have hne : c.toNat ≠ ':'.toNat := fun heq => h (Char.toNat_inj.mp heq)
  simpa using hall c.toNat hascii hne

theorem ofNat_ne_colon {n : Nat} (h : 0x3A < n) : Char.ofNat n ≠ ':' := by
  intro heq
  by_cases hvalid : n.isValidChar
  · have hnat : (Char.ofNat n).toNat = n := by
      rw [Char.ofNat, dif_pos hvalid]
      rfl
    rw [heq] at hnat
    exact absurd hnat (Nat.ne_of_lt h)
  · rw [Char.ofNat, dif_neg hvalid] at heq
    exact absurd heq (by decide)

theorem mem_of_lookup {α β : Type} [BEq α] [LawfulBEq α] {k : α} {v : β}
    {l : List (α × β)} (h : l.lookup k = some v) : (k, v) ∈ l := by
  obtain ⟨before, behind, rfl, -⟩ := List.lookup_eq_some_iff.mp h
  simp

theorem colon_not_mem_spelling {n : Nat} {codes : List Nat}
    (h : Text.capitalSpellings.lookup n = some codes) :
    ':' ∉ codes.map Char.ofNat := by
  have hall : ∀ e ∈ Text.capitalSpellings, ∀ m ∈ e.2, 0x3A < m := by
    decide +kernel
  rw [List.mem_map]
  rintro ⟨m, hm, heq⟩
  exact ofNat_ne_colon (hall _ (mem_of_lookup h) m hm) heq

/-- A capital letter is no colon: the runs and the spellings
all lie above it. -/
theorem not_mem_capital {c : Char} (h : c ≠ ':') : ':' ∉ Text.capital c := by
  rw [Text.capital]
  split
  · rename_i hascii
    simpa using Ne.symm (toUpper_ne_colon hascii h)
  · split
    · rename_i hspelled
      exact colon_not_mem_spelling hspelled
    · split
      · rename_i run hrun
        have habove :
            ∀ run ∈ Text.capitalRuns, 0x3A < (run.first : Int) + run.shift := by
          decide +kernel
        have hlow := habove run (List.mem_of_find?_eq_some hrun)
        have hcovers := List.find?_some hrun
        simp only [Text.CapitalRun.covers, Bool.and_eq_true,
          decide_eq_true_eq] at hcovers
        rw [List.mem_singleton]
        exact Ne.symm (ofNat_ne_colon (by omega))
      · simpa using Ne.symm h

theorem not_mem_pieces {separates : Char → Bool} {d : Char}
    (hd : separates d = true)
    {cs piece : List Char} (hpiece : piece ∈ Text.pieces separates cs) :
    d ∉ piece := by
  induction cs generalizing piece with
  | nil =>
      rw [Text.pieces, List.mem_singleton] at hpiece
      rw [hpiece]
      exact List.not_mem_nil
  | cons c rest ih =>
      rw [Text.pieces] at hpiece
      split at hpiece
      · rcases List.mem_cons.mp hpiece with rfl | hpiece
        · exact List.not_mem_nil
        · exact ih hpiece
      · rename_i hc
        have hne : d ≠ c := by
          rintro rfl
          exact hc hd
        split at hpiece
        · rename_i hnil
          exact absurd hnil (Text.pieces_ne_nil separates rest)
        · rename_i first more heq
          rcases List.mem_cons.mp hpiece with rfl | hpiece
          · rw [List.mem_cons, not_or]
            exact ⟨hne, ih (heq ▸ List.mem_cons_self)⟩
          · exact ih (heq ▸ List.mem_cons_of_mem _ hpiece)

theorem colon_not_mem_pascalCase (name : String) :
    ':' ∉ (pascalCase name).toList := by
  rw [pascalCase, String.toList_ofList, List.mem_flatMap]
  rintro ⟨piece, hpiece, hmem⟩
  have hfree := not_mem_pieces (d := ':') rfl hpiece
  cases piece with
  | nil => exact List.not_mem_nil hmem
  | cons c rest =>
      rw [List.mem_cons, not_or] at hfree
      rw [capitalize, List.mem_append] at hmem
      rcases hmem with hcapital | hrest
      · exact not_mem_capital (Ne.symm hfree.1) hcapital
      · exact hfree.2 hrest

theorem colon_not_mem_baseName (registry : String) :
    ':' ∉ (baseName registry).toList := by
  rw [baseName]
  split
  · exact colon_not_mem_pascalCase registry
  · dsimp only
    split
    · exact colon_not_mem_pascalCase _
    · rw [String.toList_append, List.mem_append, not_or]
      exact ⟨colon_not_mem_pascalCase _, colon_not_mem_pascalCase _⟩

theorem tableName_ne {info : DispatcherHead} {name : String}
    (h : name.toList.take 6 ≠ "Symbol".toList) : info.tableName ≠ name := by
  rintro rfl
  apply h
  rw [DispatcherHead.tableName, String.toList_append]
  exact List.take_left' (by decide)

theorem lastSegment_tablePath {registry : String}
    {members : Table Schema} {info : DispatcherHead}
    (h : DispatcherHead.of registry members = .ok info) :
    lastSegment (tablePath info.tableName) = info.tableName := by
  obtain ⟨params, -, h⟩ := bind_eq_ok_iff.mp h
  obtain rfl := pure_eq_ok_iff.mp h
  refine lastSegment_append ?_ tablesModule
  rw [DispatcherHead.tableName, String.toList_append, List.mem_append, not_or]
  exact ⟨by decide, colon_not_mem_baseName registry⟩

end Typings
