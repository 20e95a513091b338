import Typings.Compiled.Basic
import Mathlib.Data.List.Forall2

/-!
Taking a successful computation apart: what every step of it gave.
-/

namespace Typings

variable {ε α β : Type}

theorem bind_eq_ok_iff {x : Except ε α} {f : α → Except ε β} {b : β} :
    x >>= f = .ok b ↔ ∃ a, x = .ok a ∧ f a = .ok b := by
  cases x with
  | error e => simp [bind, Except.bind]
  | ok a => simp [bind, Except.bind]

theorem pure_eq_ok_iff {a b : α} : (pure a : Except ε α) = .ok b ↔ a = b := by
  simp [pure, Except.pure]

theorem exists_bind_eq_ok {x : Except ε α} {f : α → Except ε β} {P : β → Prop} :
    (∃ b, x >>= f = .ok b ∧ P b) ↔ ∃ a, x = .ok a ∧ ∃ b, f a = .ok b ∧ P b := by
  simp only [bind_eq_ok_iff]
  constructor
  · rintro ⟨b, ⟨a, ha, hb⟩, hP⟩
    exact ⟨a, ha, b, hb, hP⟩
  · rintro ⟨a, ha, b, hb, hP⟩
    exact ⟨b, ⟨a, ha, hb⟩, hP⟩

theorem exists_pure_eq_ok {a : α} {P : α → Prop} :
    (∃ b, (pure a : Except ε α) = .ok b ∧ P b) ↔ P a := by
  simp [pure_eq_ok_iff]

/-- A traversal succeeds exactly when it does so item by item. -/
theorem mapM_eq_ok_iff {f : α → Except ε β} {xs : List α} {ys : List β} :
    xs.mapM f = .ok ys ↔ List.Forall₂ (fun x y => f x = .ok y) xs ys := by
  induction xs generalizing ys with
  | nil => cases ys <;> simp [pure, Except.pure]
  | cons x xs ih =>
      rw [List.mapM_cons, bind_eq_ok_iff]
      constructor
      · rintro ⟨y, hy, hrest⟩
        obtain ⟨rest, hmap, hpure⟩ := bind_eq_ok_iff.mp hrest
        rw [← pure_eq_ok_iff.mp hpure]
        exact .cons hy (ih.mp hmap)
      · intro h
        cases h with
        | cons hy hrest =>
            exact ⟨_, hy, bind_eq_ok_iff.mpr ⟨_, ih.mpr hrest, rfl⟩⟩

theorem forM_eq_ok_iff {f : α → Except ε Unit} {xs : List α} :
    xs.forM f = .ok ⟨⟩ ↔ ∀ x ∈ xs, f x = .ok ⟨⟩ := by
  induction xs with
  | nil => simp [pure, Except.pure]
  | cons x rest ih =>
      rw [List.forM, bind_eq_ok_iff, List.forall_mem_cons, ← ih]
      constructor
      · rintro ⟨⟨⟩, hx, hrest⟩
        exact ⟨hx, hrest⟩
      · rintro ⟨hx, hrest⟩
        exact ⟨⟨⟩, hx, hrest⟩

/-- A walk over a list ends at the first item that fails. -/
theorem forM_eq_error_iff {f : α → Except ε Unit} {xs : List α} {e : ε} :
    xs.forM f = .error e ↔
      ∃ before x after, xs = before ++ x :: after ∧
        (∀ y ∈ before, f y = .ok ⟨⟩) ∧ f x = .error e := by
  induction xs with
  | nil => simp [pure, Except.pure]
  | cons x rest ih =>
      rw [List.forM]
      cases hx : f x with
      | error e' =>
          constructor
          · intro h
            cases h
            exact ⟨[], x, rest, rfl, by simp, hx⟩
          · rintro ⟨before, y, after, heq, hbefore, hy⟩
            cases before with
            | nil =>
                cases heq
                rw [hx] at hy
                cases hy
                rfl
            | cons z before =>
                cases heq
                have hz := hbefore x List.mem_cons_self
                rw [hx] at hz
                cases hz
      | ok =>
          change rest.forM f = .error e ↔ _
          rw [ih]
          constructor
          · rintro ⟨before, y, after, rfl, hbefore, hy⟩
            exact ⟨x :: before, y, after, rfl,
              List.forall_mem_cons.mpr ⟨hx, hbefore⟩, hy⟩
          · rintro ⟨before, y, after, heq, hbefore, hy⟩
            cases before with
            | nil =>
                cases heq
                rw [hx] at hy
                cases hy
            | cons z before =>
                cases heq
                exact ⟨before, y, after, rfl,
                  fun w hw => hbefore w (List.mem_cons_of_mem _ hw), hy⟩

theorem exists_mem_of_forall₂ {R : α → β → Prop} {xs : List α} {ys : List β}
    (h : List.Forall₂ R xs ys) {x : α} (hx : x ∈ xs) : ∃ y ∈ ys, R x y := by
  induction h with
  | nil => cases hx
  | cons hhead htail ih =>
      rcases List.mem_cons.mp hx with rfl | hx
      · exact ⟨_, List.mem_cons_self, hhead⟩
      · obtain ⟨y, hy, hxy⟩ := ih hx
        exact ⟨y, List.mem_cons_of_mem _ hy, hxy⟩

theorem exists_mem_of_mapM {f : α → Except ε β} {xs : List α} {ys : List β}
    (h : xs.mapM f = .ok ys) {x : α} (hx : x ∈ xs) : ∃ y ∈ ys, f x = .ok y :=
  exists_mem_of_forall₂ (mapM_eq_ok_iff.mp h) hx

theorem exists_of_mem_mapM {f : α → Except ε β} {xs : List α} {ys : List β}
    (h : xs.mapM f = .ok ys) {y : β} (hy : y ∈ ys) : ∃ x ∈ xs, f x = .ok y :=
  exists_mem_of_forall₂ (List.Forall₂.flip (mapM_eq_ok_iff.mp h)) hy

theorem exists_mapM_eq_ok {f : α → Except ε β} {xs : List α}
    (h : ∀ x ∈ xs, ∃ y, f x = .ok y) :
    ∃ ys, xs.mapM f = .ok ys := by
  induction xs with
  | nil => exact ⟨[], rfl⟩
  | cons x rest ih =>
      obtain ⟨⟨y, hy⟩, hrest⟩ := List.forall_mem_cons.mp h
      obtain ⟨ys, hys⟩ := ih hrest
      refine ⟨y :: ys, ?_⟩
      rw [List.mapM_cons]
      exact bind_eq_ok_iff.mpr ⟨y, hy, bind_eq_ok_iff.mpr ⟨ys, hys, rfl⟩⟩

theorem exists_eq_ok_of_isOk {x : Except ε α} (h : x.isOk = true) :
    ∃ a, x = .ok a := by
  cases x with
  | error e => cases h
  | ok a => exact ⟨a, rfl⟩

theorem eq_ok_getD_of_isOk {x : Except ε α} {a : α} (h : x.isOk = true) :
    x = .ok (x.toOption.getD a) := by
  obtain ⟨b, rfl⟩ := exists_eq_ok_of_isOk h
  rfl

theorem toOption_eq_some_iff {x : Except ε α} {a : α} :
    x.toOption = some a ↔ x = .ok a := by
  cases x <;> simp [Except.toOption]

theorem Fault.ofMisuse_eq_ok_iff {x : Except Misuse α} {a : α} :
    Fault.ofMisuse x = .ok a ↔ x = .ok a := by
  cases x <;> simp [Fault.ofMisuse]

/-- A step that can only be misused, inside one that can have any fault. -/
theorem liftMisuse_eq_ok_iff {x : Except Misuse α} {a : α} :
    (liftM x : Except Fault α) = .ok a ↔ x = .ok a :=
  Fault.ofMisuse_eq_ok_iff

theorem eq_str_of_asKey? {v : Json} {s : String} (h : v.asKey? = .ok (some s)) :
    v = .str s := by
  cases v with
  | str s' =>
      cases h
      rfl
  | _ => cases h

namespace Emit

theorem outcome_bind_eq_ok_iff {x : Emit α} {f : α → Emit β} {b : β} :
    (x >>= f).outcome = .ok b ↔
      ∃ a, x.outcome = .ok a ∧ (f a).outcome = .ok b := by
  cases h : x.outcome with
  | error fault => simp [bind_of_error h]
  | ok a => simp [bind_of_ok h]

end Emit

end Typings
