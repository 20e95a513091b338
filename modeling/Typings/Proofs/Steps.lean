import Typings.Run
import Typings.Proofs.Outcome

/-!
When a step of a run succeeds: what every part of it gave, and the state that it
left behind. What holds of any state is said for all of them, so that it holds
of jobs as well.
-/

namespace Typings.Step

section State

variable {σ α β : Type} {g g' g₁ : σ} {x : ExceptT Fault (StateM σ) α}
  {f : α → ExceptT Fault (StateM σ) β}

theorem bind_apply : (x >>= f) g = match x g with
    | (.ok a, g₁) => f a g₁
    | (.error fault, g₁) => (.error fault, g₁) := by
  simp only [bind, ExceptT.bind, ExceptT.mk, StateT.bind]
  rcases x g with ⟨_ | a, g₁⟩ <;> rfl

theorem bind_eq_ok_iff {b : β} :
    (x >>= f) g = (.ok b, g') ↔
      ∃ a g₁, x g = (.ok a, g₁) ∧ f a g₁ = (.ok b, g') := by
  rw [bind_apply]
  rcases x g with ⟨fault | a, g₁⟩
  · constructor
    · intro h
      cases h
    · rintro ⟨a, g₁, h, -⟩
      cases h
  · constructor
    · intro h
      exact ⟨a, g₁, rfl, h⟩
    · rintro ⟨a', g₁', heq, h⟩
      cases heq
      exact h

/-- A step after one that is known to succeed. -/
theorem bind_of_ok {a : α} (h : x g = (.ok a, g₁)) :
    (x >>= f) g = f a g₁ := by
  rw [bind_apply, h]

theorem pure_eq_ok_iff {a b : α} :
    (pure a : ExceptT Fault (StateM σ) α) g = (.ok b, g') ↔ a = b ∧ g = g' := by
  change ((.ok a : Except Fault α), g) = (.ok b, g') ↔ _
  simp

theorem exists_of_isOk {x : ExceptT Fault (StateM σ) PUnit}
    (h : (x g).1.isOk = true) :
    ∃ g', x g = (.ok ⟨⟩, g') := by
  rcases hx : x g with ⟨fault | ⟨⟩, g'⟩
  · rw [hx] at h
    cases h
  · exact ⟨g', rfl⟩

theorem get_bind {f : σ → ExceptT Fault (StateM σ) β} :
    ((get : ExceptT Fault (StateM σ) σ) >>= f) g = f g g :=
  rfl

theorem modify_bind {change : σ → σ} {f : PUnit → ExceptT Fault (StateM σ) β} :
    ((modify change : ExceptT Fault (StateM σ) PUnit) >>= f) g =
      f ⟨⟩ (change g) :=
  rfl

theorem modify_eq {change : σ → σ} :
    (modify change : ExceptT Fault (StateM σ) PUnit) g = (.ok ⟨⟩, change g) :=
  rfl

end State

variable {α β ρ : Type} {g g' : Run}

theorem compute_eq_ok_iff {x : Except Fault α} {a : α} :
    Run.compute x g = (.ok a, g') ↔ x = .ok a ∧ g = g' :=
  iff_of_eq (Prod.mk.injEq ..)

theorem compute_bind_eq_ok_iff {x : Except Fault α} {f : α → Step β} {b : β} :
    (Run.compute x >>= f) g = (.ok b, g') ↔
      ∃ a, x = .ok a ∧ f a g = (.ok b, g') := by
  rw [bind_eq_ok_iff]
  simp only [compute_eq_ok_iff]
  constructor
  · rintro ⟨a, _, ⟨ha, rfl⟩, h⟩
    exact ⟨a, ha, h⟩
  · rintro ⟨a, ha, h⟩
    exact ⟨a, g, ⟨ha, rfl⟩, h⟩

/-- A loop over steps that each compute something from their item alone and
apply it to the state. -/
theorem forM_eq_ok_iff {f : α → Step PUnit}
    {compute : α → Except Fault ρ} {change : Run → ρ → Run}
    {I : Run → Prop} (hkept : ∀ g r, I g → I (change g r))
    (hstep : ∀ x g g', I g →
      (f x g = (.ok ⟨⟩, g') ↔ ∃ r, compute x = .ok r ∧ g' = change g r))
    (xs : List α) (hg : I g) :
    xs.forM f g = (.ok ⟨⟩, g') ↔
      ∃ rs, xs.mapM compute = .ok rs ∧ g' = rs.foldl change g := by
  induction xs generalizing g with
  | nil =>
      rw [List.forM, pure_eq_ok_iff]
      simp [pure, Except.pure, eq_comm]
  | cons x rest ih =>
      rw [List.forM, bind_eq_ok_iff, List.mapM_cons]
      simp only [Typings.bind_eq_ok_iff, Typings.pure_eq_ok_iff]
      constructor
      · rintro ⟨⟨⟩, g₁, hx, hrest⟩
        obtain ⟨r, hr, rfl⟩ := (hstep x g g₁ hg).mp hx
        obtain ⟨rs, hrs, hg'⟩ := (ih (hkept g r hg)).mp hrest
        exact ⟨_, ⟨r, hr, rs, hrs, rfl⟩, hg'⟩
      · rintro ⟨_, ⟨r, hr, rs, hrs, rfl⟩, hg'⟩
        exact ⟨⟨⟩, _, (hstep x g _ hg).mpr ⟨r, hr, rfl⟩,
          (ih (hkept g r hg)).mpr ⟨rs, hrs, hg'⟩⟩

end Typings.Step
