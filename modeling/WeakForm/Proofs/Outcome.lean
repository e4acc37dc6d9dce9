import Mathlib.Data.List.Forall2
import Mathlib.Tactic

/-!
# Outcomes

How a chain of fallible steps succeeds. A chain succeeds exactly if all its steps do, and a step
taken over a list succeeds exactly if it does so for every item.
-/

namespace WeakForm

variable {ε α β : Type}

theorem bind_eq_ok {x : Except ε α} {f : α → Except ε β} {b : β} :
    (x >>= f) = .ok b ↔ ∃ a, x = .ok a ∧ f a = .ok b := by
  cases x with
  | error e => simp [bind, Except.bind]
  | ok a => simp [bind, Except.bind]

@[simp] theorem ok_bind (a : α) (f : α → Except ε β) : (Except.ok a >>= f) = f a := rfl

theorem toOption_eq_some {x : Except ε α} {a : α} : x.toOption = some a ↔ x = .ok a := by
  cases x <;> simp [Except.toOption]

theorem map_eq_ok {x : Except ε α} {f : α → β} {b : β} :
    x.map f = .ok b ↔ ∃ a, x = .ok a ∧ f a = b := by
  cases x with
  | error e => simp [Except.map]
  | ok a => simp [Except.map]

theorem exists_of_toBool {x : Except ε α} (h : x.toBool = true) : ∃ a, x = .ok a := by
  cases x with
  | error e => cases h
  | ok a => exact ⟨a, rfl⟩

theorem mapM_eq_ok_iff {f : α → Except ε β} {xs : List α} {ys : List β} :
    xs.mapM f = .ok ys ↔ List.Forall₂ (fun x y => f x = .ok y) xs ys := by
  induction xs generalizing ys with
  | nil => simp [pure, Except.pure, eq_comm]
  | cons x xs ih =>
    rw [List.mapM_cons, bind_eq_ok, List.forall₂_cons_left_iff]
    constructor
    · rintro ⟨y, hy, h⟩
      obtain ⟨zs, hzs, h⟩ := bind_eq_ok.mp h
      cases h
      exact ⟨y, zs, hy, ih.mp hzs, rfl⟩
    · rintro ⟨y, zs, hy, hzs, rfl⟩
      exact ⟨y, hy, by rw [ih.mpr hzs]; rfl⟩

/-- A step that succeeds for every item succeeds for the list. -/
theorem mapM_eq_ok_map {f : α → Except ε β} {g : α → β} {xs : List α}
    (h : ∀ x ∈ xs, f x = .ok (g x)) : xs.mapM f = .ok (xs.map g) := by
  rw [mapM_eq_ok_iff, List.forall₂_map_right_iff, List.forall₂_same]
  exact h

/-- A step over a list succeeds exactly if it does for every item; `g` foretells its results. -/
theorem mapM_eq_ok_iff_map {f : α → Except ε β} {g : α → β} (hg : ∀ x y, f x = .ok y → g x = y)
    {xs : List α} {ys : List β} :
    xs.mapM f = .ok ys ↔ (∀ x ∈ xs, ∃ y, f x = .ok y) ∧ ys = xs.map g := by
  constructor
  · intro h
    have hall := mapM_eq_ok_iff.mp h
    clear h
    induction hall with
    | nil => simp
    | cons hy _ ih =>
      obtain ⟨hex, rfl⟩ := ih
      exact ⟨List.forall_mem_cons.mpr ⟨⟨_, hy⟩, hex⟩, by rw [List.map_cons, hg _ _ hy]⟩
  · rintro ⟨hex, rfl⟩
    apply mapM_eq_ok_map
    intro x hx
    obtain ⟨y, hy⟩ := hex x hx
    rw [hy, hg x y hy]

/-- What two functions say alike about every item and its result they say about the lists. -/
theorem map_eq_of_mapM_eq_ok {γ : Type} {f : α → Except ε β} {xs : List α} {ys : List β}
    (h : xs.mapM f = .ok ys) {F : β → γ} {G : α → γ}
    (hFG : ∀ x ∈ xs, ∀ y, f x = .ok y → F y = G x) : ys.map F = xs.map G := by
  rw [mapM_eq_ok_iff] at h
  induction h with
  | nil => rfl
  | cons hy _ ih =>
    rw [List.map_cons, List.map_cons, hFG _ (by simp) _ hy,
      ih fun x hx => hFG x (List.mem_cons_of_mem _ hx)]

/-- Every result comes from an item. -/
theorem exists_of_mem_mapM {f : α → Except ε β} {xs : List α} {ys : List β}
    (h : xs.mapM f = .ok ys) {y : β} (hy : y ∈ ys) : ∃ x ∈ xs, f x = .ok y := by
  rw [mapM_eq_ok_iff] at h
  induction h with
  | nil => simp at hy
  | cons hx _ ih =>
    rcases List.mem_cons.mp hy with rfl | hy
    · exact ⟨_, by simp, hx⟩
    · obtain ⟨x, hmem, hx⟩ := ih hy
      exact ⟨x, List.mem_cons_of_mem _ hmem, hx⟩

theorem exists_mapM_eq_ok {f : α → Except ε β} {xs : List α} (h : ∀ x ∈ xs, ∃ y, f x = .ok y) :
    ∃ ys, xs.mapM f = .ok ys := by
  induction xs with
  | nil => exact ⟨[], rfl⟩
  | cons x xs ih =>
    obtain ⟨y, hy⟩ := h x (by simp)
    obtain ⟨ys, hys⟩ := ih fun z hz => h z (by simp [hz])
    exact ⟨y :: ys, by rw [List.mapM_cons, hy, ok_bind, hys]; rfl⟩

/-- If all errors are of one kind and there is one, the step fails for the list with such an error. -/
theorem exists_mapM_eq_error {f : α → Except ε β} {P : ε → Prop} {xs : List α}
    (h : ∀ x ∈ xs, (∃ y, f x = .ok y) ∨ ∃ e, f x = .error e ∧ P e) {x : α} (hx : x ∈ xs)
    (hfail : ∀ y, f x ≠ .ok y) : ∃ e, xs.mapM f = .error e ∧ P e := by
  induction xs with
  | nil => simp at hx
  | cons z zs ih =>
    obtain ⟨hz, hzs⟩ := List.forall_mem_cons.mp h
    rw [List.mapM_cons]
    rcases hz with ⟨y, hy⟩ | ⟨e, he, hP⟩
    · have hmem : x ∈ zs := by
        rcases List.mem_cons.mp hx with rfl | hmem
        · exact absurd hy (hfail y)
        · exact hmem
      obtain ⟨e, he, hP⟩ := ih hzs hmem
      exact ⟨e, by rw [hy, ok_bind, he]; rfl, hP⟩
    · exact ⟨e, by rw [he]; rfl, hP⟩

theorem exists_of_mapM_eq_ok {f : α → Except ε β} {xs : List α} {ys : List β}
    (h : xs.mapM f = .ok ys) {x : α} (hx : x ∈ xs) : ∃ y ∈ ys, f x = .ok y := by
  rw [mapM_eq_ok_iff] at h
  induction h with
  | nil => simp at hx
  | cons hy _ ih =>
    rcases List.mem_cons.mp hx with rfl | hx
    · exact ⟨_, by simp, hy⟩
    · obtain ⟨y, hmem, hy⟩ := ih hx
      exact ⟨y, List.mem_cons_of_mem _ hmem, hy⟩

end WeakForm

/-!
## Outcomes that are alike

Two computations are alike if both fail, or both succeed with results in a given relation. Steps
that are alike make chains that are alike.
-/

namespace WeakForm

variable {ε α β γ δ : Type} {R : α → β → Prop} {S : γ → δ → Prop}

inductive Alike (R : α → β → Prop) : Except ε α → Except ε β → Prop
  | ok {a : α} {b : β} (h : R a b) : Alike R (.ok a) (.ok b)
  | error (e e' : ε) : Alike R (.error e) (.error e')

namespace Alike

variable {x : Except ε α} {y : Except ε β}

theorem bind {f : α → Except ε γ} {g : β → Except ε δ} (h : Alike R x y)
    (hfg : ∀ a b, x = .ok a → y = .ok b → R a b → Alike S (f a) (g b)) :
    Alike S (x >>= f) (y >>= g) := by
  cases h with
  | ok h => exact hfg _ _ rfl rfl h
  | error e e' => exact .error e e'

theorem map {f : α → γ} {g : β → δ} (h : Alike R x y) (hfg : ∀ a b, R a b → S (f a) (g b)) :
    Alike S (x.map f) (y.map g) := by
  cases h with
  | ok h => exact .ok (hfg _ _ h)
  | error e e' => exact .error e e'

theorem mapM {f : γ → Except ε α} {g : δ → Except ε β} {xs : List γ} {ys : List δ}
    (h : List.Forall₂ (fun x y => Alike R (f x) (g y)) xs ys) :
    Alike (List.Forall₂ R) (xs.mapM f) (ys.mapM g) := by
  induction h with
  | nil => exact .ok .nil
  | cons hxy _ ih =>
    rw [List.mapM_cons, List.mapM_cons]
    exact hxy.bind fun a b _ _ hab => ih.bind fun as bs _ _ hall => .ok (.cons hab hall)

/-- Computations that are alike up to equality have the same values. -/
theorem toOption_eq {x y : Except ε α} (h : Alike Eq x y) : x.toOption = y.toOption := by
  cases h with
  | ok h => rw [h]
  | error e e' => rfl

end Alike

end WeakForm
