import Mathlib.Algebra.BigOperators.Fin
import Mathlib.Tactic
import WeakForm.Proofs.Lists
import WeakForm.Quadrature

/-!
# Tensor products of rules

The points of a rule combined over several dimensions are all tuples of points of the segment, the
first coordinate running fastest: the place of a tuple, written in the base of the number of points,
has the places of its coordinates as digits. A sum over all tuples of a product of functions of the
single coordinates is therefore the product of the sums over the segment.
-/

namespace WeakForm
namespace Quadrature

open Finset

section Tuples

variable {β : Type} (items : List β)

/-- All lists of `n` items, the first item running fastest. -/
def tuples : (n : ℕ) → List (List β)
  | 0 => [[]]
  | n + 1 => (tuples n).flatMap fun t => items.map fun x => x :: t

/-- One more item at the end is one that runs slowest. -/
theorem tuples_succ (n : ℕ) :
    tuples items (n + 1) = items.flatMap fun x => (tuples items n).map fun t => t ++ [x] := by
  induction n with
  | zero => simp [tuples, List.map_eq_flatMap]
  | succ n ih =>
    have hnext : tuples items (n + 1) =
        (tuples items n).flatMap fun t => items.map fun x => x :: t := rfl
    rw [tuples, ih, List.flatMap_assoc]
    refine List.flatMap_congr fun x _ => ?_
    rw [← ih, hnext, List.flatMap_map, List.map_flatMap]
    simp only [List.map_map, Function.comp_def, List.cons_append]

/-- A product whose last item runs fastest, each of its lists the other way round. -/
theorem map_reverse_product (n : ℕ) : (product items n).map List.reverse = tuples items n := by
  induction n with
  | zero => rfl
  | succ n ih =>
    rw [product, List.map_flatMap, tuples_succ, ← ih]
    simp only [List.map_map, Function.comp_def, List.reverse_cons]

theorem tuples_map {γ : Type} (f : β → γ) (n : ℕ) :
    (tuples items n).map (List.map f) = tuples (items.map f) n := by
  induction n with
  | zero => rfl
  | succ n ih =>
    rw [tuples, tuples, ← ih, List.map_flatMap, List.flatMap_map]
    simp only [List.map_map, Function.comp_def, List.map_cons]

/-- Points and weights that are looked up under the same indices belong together. -/
theorem tensorProduct_eq {α : Type} [One α] [Mul α] (rule : List (α × α)) (n : ℕ) :
    tensorProduct rule n = (tuples rule n).map fun t =>
      ⟨t.map Prod.fst, (t.map Prod.snd).foldl (· * ·) 1⟩ := by
  have hrule : (List.finRange rule.length).map rule.get = rule := List.map_get_finRange rule
  rw [tensorProduct, combinations, map_reverse_product]
  conv_rhs => rw [← hrule, ← tuples_map, List.map_map]
  simp only [Function.comp_def, List.map_map]

theorem length_tuples (n : ℕ) : (tuples items n).length = items.length ^ n := by
  induction n with
  | zero => rfl
  | succ n ih =>
    rw [tuples, List.length_flatMap]
    simp [ih, pow_succ]

/-- The tuple at place `k` consists of the items at the digits of `k`, the lowest first. The induction
is on the length of the tuples: one more coordinate is one more digit at the low end. -/
theorem getElem?_tuples {n k : ℕ} (hk : k < items.length ^ n) :
    ∃ t, (tuples items n)[k]? = some t ∧ t.length = n ∧
      ∀ d < n, t[d]? = items[k / items.length ^ d % items.length]? := by
  induction n generalizing k with
  | zero =>
    obtain rfl : k = 0 := by simpa using hk
    exact ⟨[], rfl, rfl, by simp⟩
  | succ n ih =>
    have hpos : 0 < items.length := by
      by_contra hzero
      simp [Nat.eq_zero_of_not_pos hzero] at hk
    have hdigit : k % items.length < items.length := Nat.mod_lt _ hpos
    obtain ⟨t, ht, hlength, hdigits⟩ := ih (k := k / items.length)
      (Nat.div_lt_of_lt_mul (by rwa [mul_comm, ← pow_succ]))
    refine ⟨items[k % items.length] :: t, ?_, by rw [List.length_cons, hlength], fun d hd => ?_⟩
    · have hplace := getElem?_flatMap_of_length (f := fun t => items.map fun x => x :: t)
        (fun t => List.length_map _) (tuples items n) (k := k / items.length) hdigit
      rw [Nat.div_add_mod'] at hplace
      rw [tuples, hplace, ht, Option.bind_some, List.getElem?_map, List.getElem?_eq_getElem hdigit]
      rfl
    · cases d with
      | zero => simp [hdigit]
      | succ d =>
        rw [List.getElem?_cons_succ, hdigits d (by omega), Nat.div_div_eq_div_mul, ← pow_succ']

end Tuples

section Sums

variable {α : Type} [CommSemiring α]

/-- The sum of the values of a function at the points, each times its weight. -/
def weightedSum (points : List (QuadraturePoint α)) (g : List α → α) : α :=
  (points.map fun q => q.weight * g q.position).sum

theorem weightedSum_tuples (rule : List (α × α)) (n : ℕ) (g : List α → α) :
    weightedSum (tensorProduct rule n) g =
      ((tuples rule n).map fun t => (t.map Prod.snd).prod * g (t.map Prod.fst)).sum := by
  rw [weightedSum, tensorProduct_eq, List.map_map]
  refine congrArg List.sum (List.map_congr_left fun t _ => ?_)
  simp only [Function.comp_apply, List.prod_eq_foldl]

theorem sum_flatMap_mul (ts : List (List (α × α))) (rule : List (α × α)) (f : α × α → α)
    (g : List (α × α) → α) (h : List (α × α) → α)
    (hh : ∀ t, ∀ x ∈ rule, h (x :: t) = f x * g t) :
    ((ts.flatMap fun t => rule.map fun x => x :: t).map h).sum =
      (rule.map f).sum * (ts.map g).sum := by
  induction ts with
  | nil => simp
  | cons t ts ih =>
    have hfirst : (rule.map fun x => h (x :: t)).sum = (rule.map f).sum * g t := by
      rw [List.map_congr_left (hh t), List.sum_map_mul_right]
    rw [List.flatMap_cons, List.map_append, List.sum_append, ih, List.map_cons, List.sum_cons,
      mul_add, List.map_map, ← hfirst]
    rfl

/-- The weighted sum of a product of functions of the coordinates is the product of their weighted
sums over the segment. -/
theorem weightedSum_tensorProduct (rule : List (α × α)) {n : ℕ} (f : Fin n → α → α) :
    weightedSum (tensorProduct rule n) (fun ξ => ∏ d, f d (ξ.getD d 0)) =
      ∏ d, (rule.map fun p => p.2 * f d p.1).sum := by
  rw [weightedSum_tuples]
  induction n with
  | zero => simp [tuples]
  | succ n ih =>
    rw [Fin.prod_univ_succ, ← ih fun d => f d.succ]
    refine sum_flatMap_mul _ _ _ _ _ fun t x _ => ?_
    simp only [List.map_cons, List.prod_cons, Fin.prod_univ_succ, Fin.val_zero, Fin.val_succ,
      List.getD_cons_zero, List.getD_cons_succ]
    ring

end Sums

/-- A rule combined over several dimensions has every combination of points once, in the order of the
digits of its place, with the product of the weights; sums of products are products of sums. -/
theorem tensorProduct_enumerates {α : Type} [CommSemiring α] (rule : List (α × α)) (dim : ℕ) :
    (tensorProduct rule dim).length = rule.length ^ dim ∧
    (∀ k < rule.length ^ dim, ∃ q, (tensorProduct rule dim)[k]? = some q ∧
      q.position.length = dim ∧
      (∀ d < dim, q.position[d]? = (rule.map Prod.fst)[k / rule.length ^ d % rule.length]?) ∧
      q.weight = ∏ d ∈ range dim,
        (rule.map Prod.snd).getD (k / rule.length ^ d % rule.length) 0) ∧
    ∀ f : Fin dim → α → α,
      weightedSum (tensorProduct rule dim) (fun ξ => ∏ d, f d (ξ.getD d 0)) =
        ∏ d, (rule.map fun p => p.2 * f d p.1).sum := by
  refine ⟨by rw [tensorProduct_eq, List.length_map, length_tuples], fun k hk => ?_,
    weightedSum_tensorProduct rule⟩
  obtain ⟨t, ht, hlength, hdigits⟩ := getElem?_tuples rule hk
  refine ⟨_, by rw [tensorProduct_eq, List.getElem?_map, ht]; rfl, by simpa using hlength,
    fun d hd => ?_, ?_⟩
  · rw [List.getElem?_map, hdigits d hd, List.getElem?_map]
  · have hweights : t.map Prod.snd = (List.range dim).map fun d =>
        (rule.map Prod.snd).getD (k / rule.length ^ d % rule.length) 0 := by
      refine List.ext_getElem? fun d => ?_
      by_cases hd : d < dim
      · have hmem : k / rule.length ^ d % rule.length < rule.length := by
          have hsome : t[d]?.isSome := by simp [hlength, hd]
          simpa [hdigits d hd] using hsome
        rw [List.getElem?_map, hdigits d hd, List.getElem?_map, List.getElem?_range hd]
        simp [hmem]
      · simp [hlength, not_lt.mp hd]
    change (t.map Prod.snd).foldl (· * ·) 1 = _
    rw [← List.prod_eq_foldl, hweights]
    rfl

end Quadrature
end WeakForm
