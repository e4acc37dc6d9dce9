import WeakForm.Proofs.RealScalar
import WeakForm.Proofs.Assembly.OverSides
import WeakForm.Proofs.Assembly.Shares
import WeakForm.Proofs.Kernel.Forms
import WeakForm.Proofs.Tensor.Broadcasting

/-!
# Linear combinations of weak forms

The values of two kernels are combined at every point, where they may have any shapes that can be
repeated to a common one. The sums over the points of a rule are then combined in the same way: all
shapes that occur fit the shape of the result, so no sum fails that has not failed before.
-/

namespace WeakForm

open Tensor (Fits InShape)

namespace Tensor

/-- An array is the combination of two others with the factors `x` and `y`, all of which may be
repeated to a shape. It is not repeated more than the two of them are. -/
structure IsCombination (shape : List ℕ) (x y : ℝ) (s t u : Tensor ℝ) : Prop where
  left : Fits s.shape u.shape
  right : Fits t.shape u.shape
  within : Fits u.shape shape
  entry : ∀ is, InShape shape is → u.entryAt is = x * s.entryAt is + y * t.entryAt is

variable {shape : List ℕ} {x y : ℝ} {s t u s' t' u' s'' t'' : Tensor ℝ}

theorem exists_isCombination (hs : Fits s.shape shape) (ht : Fits t.shape shape) :
    ∃ u, zipWith (· + ·) (s.map (x * ·)) (t.map (y * ·)) = some u ∧
      IsCombination shape x y s t u := by
  obtain ⟨u, hu, hleft, hright, hwithin, hentry⟩ :=
    exists_zipWith (· + ·) (a := s.map (x * ·)) (b := t.map (y * ·)) hs ht
  refine ⟨u, hu, hleft, hright, hwithin, fun is his => ?_⟩
  rw [hentry is his, entryAt_map (mul_zero x), entryAt_map (mul_zero y)]

theorem IsCombination.map_mul (h : IsCombination shape x y s t u) (c : ℝ) :
    IsCombination shape x y (s.map (c * ·)) (t.map (c * ·)) (u.map (c * ·)) := by
  refine ⟨h.left, h.right, h.within, fun is his => ?_⟩
  rw [entryAt_map (mul_zero c), entryAt_map (mul_zero c), entryAt_map (mul_zero c),
    h.entry is his]
  ring

/-- Sums of combinations are the combinations of the sums. -/
theorem IsCombination.add (h : IsCombination shape x y s t u)
    (h' : IsCombination shape x y s' t' u') (hs : zipWith (· + ·) s s' = some s'')
    (ht : zipWith (· + ·) t t' = some t'') :
    ∃ u'', zipWith (· + ·) u u' = some u'' ∧ IsCombination shape x y s'' t'' u'' := by
  obtain ⟨u'', hu, hfits, hfits', hwithin, hentry⟩ :=
    exists_zipWith (· + ·) h.within h'.within
  obtain ⟨r, hr, -, -, -, hsentry⟩ :=
    exists_zipWith (· + ·) (h.left.trans h.within) (h'.left.trans h'.within)
  obtain rfl := Option.some.inj (hr.symm.trans hs)
  obtain ⟨r, hr, -, -, -, htentry⟩ :=
    exists_zipWith (· + ·) (h.right.trans h.within) (h'.right.trans h'.within)
  obtain rfl := Option.some.inj (hr.symm.trans ht)
  refine ⟨u'', hu, fits_zipWith hs (h.left.trans hfits) (h'.left.trans hfits'),
    fits_zipWith ht (h.right.trans hfits) (h'.right.trans hfits'), hwithin, fun is his => ?_⟩
  rw [hentry is his, hsentry is his, htentry is his, h.entry is his, h'.entry is his]
  ring

end Tensor

open Tensor

namespace Kernel

/-- Wherever two kernels have values that can be combined, the third one has their combination as its
value. -/
def Combines (c k l : Kernel ℝ) (x y : ℝ) : Prop :=
  ∀ site s t u, k.integrand site = .ok s → l.integrand site = .ok t →
    zipWith (· + ·) (s.map (x * ·)) (t.map (y * ·)) = some u → c.integrand site = .ok u

variable {c k l : Kernel ℝ} {x y : ℝ} {e : Element ℝ} {shape : List ℕ} {s t u s' t' : Tensor ℝ}

section Integrals

theorem term_eq_ok {q : QuadraturePoint ℝ} :
    k.term e q = .ok s ↔ ∃ d v, e.detJ q.position = .ok d ∧
      k.integrand (.regular e (some q.position)) = .ok v ∧ s = v.map (q.weight * d * ·) := by
  rw [term, bind_eq_ok]
  refine exists_congr fun d => ?_
  rw [bind_eq_ok]
  constructor
  · rintro ⟨hd, v, hv, h⟩
    exact ⟨v, hd, hv, (Except.ok.inj h).symm⟩
  · rintro ⟨v, hd, hv, rfl⟩
    exact ⟨hd, v, hv, rfl⟩

theorem Combines.integrand (h : Combines c k l x y) {site : Site ℝ} (hk : k.integrand site = .ok s)
    (hl : l.integrand site = .ok t) (hs : Fits s.shape shape) (ht : Fits t.shape shape) :
    ∃ u, c.integrand site = .ok u ∧ IsCombination shape x y s t u := by
  obtain ⟨u, hu, hcombination⟩ := exists_isCombination (x := x) (y := y) hs ht
  exact ⟨u, h site s t u hk hl hu, hcombination⟩

theorem Combines.term (h : Combines c k l x y) {q : QuadraturePoint ℝ} (hk : k.term e q = .ok s)
    (hl : l.term e q = .ok t) (hs : Fits s.shape shape) (ht : Fits t.shape shape) :
    ∃ u, c.term e q = .ok u ∧ IsCombination shape x y s t u := by
  obtain ⟨d, v, hd, hv, rfl⟩ := term_eq_ok.mp hk
  obtain ⟨d', w, hd', hw, rfl⟩ := term_eq_ok.mp hl
  obtain rfl := Except.ok.inj (hd.symm.trans hd')
  obtain ⟨u, hu, hcombination⟩ := h.integrand hv hw hs ht
  exact ⟨_, term_eq_ok.mpr ⟨d, u, hd, hu, rfl⟩, hcombination.map_mul _⟩

/-- The shape of a sum is one that the shapes of its terms fit. -/
theorem fits_sumTerms {points : List (QuadraturePoint ℝ)} {total : Tensor ℝ}
    (h : sumTerms (k.term e) total points = .ok s) : Fits total.shape s.shape := by
  induction points generalizing total with
  | nil =>
    cases h
    exact .refl _
  | cons q points ih =>
    obtain ⟨v, -, h⟩ := bind_eq_ok.mp h
    obtain ⟨next, hnext, h⟩ := bind_eq_ok.mp h
    exact (fits_of_zipWith (orShapeMismatch_eq_ok.mp hnext)).1.trans (ih h)

/-- Partial sums that are combined lead to sums that are. -/
theorem Combines.sumTerms (h : Combines c k l x y) {points : List (QuadraturePoint ℝ)}
    (hk : sumTerms (k.term e) s points = .ok s') (hl : sumTerms (l.term e) t points = .ok t')
    (hs : Fits s'.shape shape) (ht : Fits t'.shape shape) (hu : IsCombination shape x y s t u) :
    ∃ u', sumTerms (c.term e) u points = .ok u' ∧ IsCombination shape x y s' t' u' := by
  induction points generalizing s t u with
  | nil =>
    cases hk
    cases hl
    exact ⟨u, rfl, hu⟩
  | cons q points ih =>
    obtain ⟨v, hv, hk⟩ := bind_eq_ok.mp hk
    obtain ⟨next, hnext, hk⟩ := bind_eq_ok.mp hk
    obtain ⟨w, hw, hl⟩ := bind_eq_ok.mp hl
    obtain ⟨next', hnext', hl⟩ := bind_eq_ok.mp hl
    have hadd := orShapeMismatch_eq_ok.mp hnext
    have hadd' := orShapeMismatch_eq_ok.mp hnext'
    obtain ⟨z, hz, hcombination⟩ := h.term hv hw
      ((fits_of_zipWith hadd).2.trans ((fits_sumTerms hk).trans hs))
      ((fits_of_zipWith hadd').2.trans ((fits_sumTerms hl).trans ht))
    obtain ⟨u'', hsum, hnextCombination⟩ := hu.add hcombination hadd hadd'
    obtain ⟨u', hu', hresult⟩ := ih hk hl hnextCombination
    refine ⟨u', ?_, hresult⟩
    rw [Kernel.sumTerms, hz, ok_bind, orShapeMismatch_eq_ok.mpr hsum, ok_bind, hu']

/-- The integral of a combination is the combination of the integrals. -/
theorem Combines.integrate (h : Combines c k l x y) (hk : k.integrate e = .ok s)
    (hl : l.integrate e = .ok t) (hs : Fits s.shape shape) (ht : Fits t.shape shape) :
    ∃ u, c.integrate e = .ok u ∧ IsCombination shape x y s t u := by
  unfold Kernel.integrate at hk hl ⊢
  cases hrule : rule e with
  | none =>
    rw [hrule] at hk hl
    exact h.integrand hk hl hs ht
  | some points =>
    rw [hrule] at hk hl
    cases points with
    | nil => cases hk
    | cons q points =>
      obtain ⟨v, hv, hk⟩ := bind_eq_ok.mp hk
      obtain ⟨w, hw, hl⟩ := bind_eq_ok.mp hl
      obtain ⟨z, hz, hcombination⟩ := h.term hv hw ((fits_sumTerms hk).trans hs)
        ((fits_sumTerms hl).trans ht)
      obtain ⟨u, hu, hresult⟩ := h.sumTerms hk hl hs ht hcombination
      exact ⟨u, by rw [sumOverRule, hz, ok_bind, hu], hresult⟩

/-- Two kernels whose values have the same shape have integrals of the same shape. -/
theorem shape_integrate_eq
    (h : ∀ ξ v w, k.integrand (.regular e ξ) = .ok v → l.integrand (.regular e ξ) = .ok w →
      v.shape = w.shape)
    (hk : k.integrate e = .ok s) (hl : l.integrate e = .ok t) : s.shape = t.shape := by
  have hterm {q : QuadraturePoint ℝ} {v w : Tensor ℝ} (hv : k.term e q = .ok v)
      (hw : l.term e q = .ok w) : v.shape = w.shape := by
    obtain ⟨d, v', -, hv', rfl⟩ := term_eq_ok.mp hv
    obtain ⟨d', w', -, hw', rfl⟩ := term_eq_ok.mp hw
    exact h _ v' w' hv' hw'
  have hadd {a b r a' b' r' : Tensor ℝ} (ha : a.shape = a'.shape) (hb : b.shape = b'.shape)
      (hr : zipWith (· + ·) a b = some r) (hr' : zipWith (· + ·) a' b' = some r') :
      r.shape = r'.shape := by
    obtain ⟨hleft, hright⟩ := fits_of_zipWith hr
    obtain ⟨hleft', hright'⟩ := fits_of_zipWith hr'
    exact (fits_zipWith hr (ha ▸ hleft') (hb ▸ hright')).antisymm
      (fits_zipWith hr' (ha ▸ hleft) (hb ▸ hright))
  have hsum (points : List (QuadraturePoint ℝ)) (a b : Tensor ℝ) (hab : a.shape = b.shape)
      (hk : Kernel.sumTerms (k.term e) a points = .ok s)
      (hl : Kernel.sumTerms (l.term e) b points = .ok t) : s.shape = t.shape := by
    induction points generalizing a b with
    | nil =>
      cases hk
      cases hl
      exact hab
    | cons q points ih =>
      obtain ⟨v, hv, hk⟩ := bind_eq_ok.mp hk
      obtain ⟨next, hnext, hk⟩ := bind_eq_ok.mp hk
      obtain ⟨w, hw, hl⟩ := bind_eq_ok.mp hl
      obtain ⟨next', hnext', hl⟩ := bind_eq_ok.mp hl
      exact ih next next' (hadd hab (hterm hv hw) (orShapeMismatch_eq_ok.mp hnext)
        (orShapeMismatch_eq_ok.mp hnext')) hk hl
  unfold Kernel.integrate at hk hl
  cases hrule : rule e with
  | none =>
    rw [hrule] at hk hl
    exact h none s t hk hl
  | some points =>
    rw [hrule] at hk hl
    cases points with
    | nil => cases hk
    | cons q points =>
      obtain ⟨v, hv, hk⟩ := bind_eq_ok.mp hk
      obtain ⟨w, hw, hl⟩ := bind_eq_ok.mp hl
      exact hsum points v w (hterm hv hw) hk hl

end Integrals

section Elements

theorem localMatrix_eq_ok {A : DenseMatrix ℝ} :
    k.localMatrix e = .ok A ↔ ∃ t, k.integrate e = .ok t ∧ t.atLeast2.toMatrix? = some A ∧
      A.rows = e.dofs ∧ A.cols = e.dofs := by
  rw [Kernel.localMatrix, bind_eq_ok]
  refine exists_congr fun t => and_congr_right fun _ => ?_
  dsimp only
  cases t.atLeast2.toMatrix? with
  | none => simp
  | some B =>
    dsimp only
    split_ifs with hsize
    · simp only [pure, Except.pure, Except.ok.injEq, Option.some.injEq]
      exact ⟨fun h => ⟨h, h ▸ hsize⟩, fun h => h.1⟩
    · simp only [Option.some.injEq, false_iff, not_and]
      rintro rfl hrows hcols
      exact hsize ⟨hrows, hcols⟩

theorem localVector_eq_ok {v : Array ℝ} :
    k.localVector e = .ok v ↔ ∃ t, k.integrate e = .ok t ∧ t.data = v ∧ v.size = e.dofs := by
  rw [Kernel.localVector, bind_eq_ok]
  refine exists_congr fun t => and_congr_right fun _ => ?_
  split_ifs with hsize
  · simp only [pure, Except.pure, Except.ok.injEq]
    exact ⟨fun h => ⟨h, h ▸ hsize⟩, fun h => h.1⟩
  · simp only [false_iff, not_and]
    rintro rfl
    exact hsize

/-- The matrix of an element is the combination of its matrices of the two kernels. -/
theorem Combines.localMatrix (h : Combines c k l x y) {A B : DenseMatrix ℝ}
    (hk : k.localMatrix e = .ok A) (hl : l.localMatrix e = .ok B) :
    ∃ C, c.localMatrix e = .ok C ∧ ∀ i < e.dofs, ∀ j < e.dofs,
      C.entry i j = x * A.entry i j + y * B.entry i j := by
  obtain ⟨s, hs, hA, hrows, hcols⟩ := localMatrix_eq_ok.mp hk
  obtain ⟨t, ht, hB, hrows', hcols'⟩ := localMatrix_eq_ok.mp hl
  obtain ⟨hsfits, hsentry⟩ := entry_of_atLeast2 hA
  obtain ⟨htfits, htentry⟩ := entry_of_atLeast2 hB
  rw [hrows'.trans hrows.symm, hcols'.trans hcols.symm] at htfits
  obtain ⟨u, hu, hcombination⟩ := h.integrate hs ht hsfits htfits
  obtain ⟨C, hC, hCrows, hCcols⟩ := exists_toMatrix? hA hcombination.left hcombination.within
  obtain ⟨-, huentry⟩ := entry_of_atLeast2 hC
  refine ⟨C, localMatrix_eq_ok.mpr ⟨u, hu, hC, hCrows.trans hrows, hCcols.trans hcols⟩,
    fun i hi j hj => ?_⟩
  have hin : InShape [A.rows, A.cols] [i, j] :=
    .cons (hrows.symm ▸ hi) (.cons (hcols.symm ▸ hj) .nil)
  rw [huentry i (by omega) j (by omega), hsentry i (by omega) j (by omega),
    htentry i (by omega) j (by omega), hcombination.entry _ hin]

/-- The vector of an element is the combination of its vectors of two kernels whose values have the
same shape. -/
theorem Combines.localVector (h : Combines c k l x y) {f g : Array ℝ}
    (hshape : ∀ ξ v w, k.integrand (.regular e ξ) = .ok v → l.integrand (.regular e ξ) = .ok w →
      v.shape = w.shape)
    (hk : k.localVector e = .ok f) (hl : l.localVector e = .ok g) :
    ∃ v, c.localVector e = .ok v ∧ ∀ i < e.dofs, v.getD i 0 = x * f.getD i 0 + y * g.getD i 0 := by
  obtain ⟨s, hs, rfl, hsize⟩ := localVector_eq_ok.mp hk
  obtain ⟨t, ht, rfl, hsize'⟩ := localVector_eq_ok.mp hl
  have hst := shape_integrate_eq hshape hs ht
  obtain ⟨u, hu, hcombination⟩ := h.integrate hs ht (.refl _) (hst ▸ .refl _)
  have hus : u.shape = s.shape := hcombination.within.antisymm hcombination.left
  have hvolume : volume s.shape = e.dofs := s.size_data ▸ hsize
  refine ⟨u.data, localVector_eq_ok.mpr ⟨u, hu, rfl, ?_⟩, fun i hi => ?_⟩
  · rw [u.size_data, hus, hvolume]
  · have hi' : i < volume s.shape := hvolume ▸ hi
    have hentry := hcombination.entry _ (unravel_spec hi').1
    rw [entryAt_unravel s hi'] at hentry
    rwa [← hus, entryAt_unravel u (hus ▸ hi'), hus, hst, entryAt_unravel t (hst ▸ hi')] at hentry

end Elements

section Shares

variable (h : Combines c k l x y)
include h

/-- What an element puts into a place of the global matrix is the combination of what it puts there
for the two kernels. -/
theorem Combines.matrixShare {A B : DenseMatrix ℝ} (hk : k.localMatrix e = .ok A)
    (hl : l.localMatrix e = .ok B) (i j : ℕ) :
    c.matrixShare e i j = x * k.matrixShare e i j + y * l.matrixShare e i j := by
  obtain ⟨C, hC, hentry⟩ := h.localMatrix hk hl
  simp only [Kernel.matrixShare, matrixOf_eq hk, matrixOf_eq hl, matrixOf_eq hC, Finset.mul_sum,
    ← Finset.sum_add_distrib]
  refine Finset.sum_congr rfl fun p hp => Finset.sum_congr rfl fun q hq => ?_
  rw [hentry p (Finset.mem_range.mp hp) q (Finset.mem_range.mp hq)]
  split_ifs <;> simp

theorem Combines.vectorShare {f g : Array ℝ}
    (hshape : ∀ ξ v w, k.integrand (.regular e ξ) = .ok v → l.integrand (.regular e ξ) = .ok w →
      v.shape = w.shape)
    (hk : k.localVector e = .ok f) (hl : l.localVector e = .ok g) (i : ℕ) :
    c.vectorShare e i = x * k.vectorShare e i + y * l.vectorShare e i := by
  obtain ⟨v, hv, hentry⟩ := h.localVector hshape hk hl
  simp only [Kernel.vectorShare, vectorOf_eq hk, vectorOf_eq hl, vectorOf_eq hv, Finset.mul_sum,
    ← Finset.sum_add_distrib]
  refine Finset.sum_congr rfl fun p hp => ?_
  rw [hentry p (Finset.mem_range.mp hp)]
  split_ifs <;> simp

end Shares

end Kernel
end WeakForm

/-!
## Assembly of linear combinations

What is assembled over all cells and what is assembled over tagged sides are sums over a list of
elements. A combination of kernels has a global matrix wherever the kernels have one, and it is the
combination of theirs. Vectors are combined where the values of the kernels have the same shape.
-/

namespace WeakForm
namespace Assembly

variable {m : Mesh ℝ} {boundary : Option TagId} {c k l : Kernel ℝ} {x y : ℝ}

theorem sum_combination (es : List (Element ℝ)) (f g : Element ℝ → ℝ) (x y : ℝ) :
    (es.map fun e => x * f e + y * g e).sum = x * (es.map f).sum + y * (es.map g).sum := by
  rw [List.sum_map_add, List.sum_map_mul_left, List.sum_map_mul_left]

/-- The two kernels have values of the same shape wherever both of them have one on the elements
over which is integrated. -/
def HaveSameShape (m : Mesh ℝ) (boundary : Option TagId) (k l : Kernel ℝ) : Prop :=
  ∀ es, IsDomain m boundary es → ∀ e ∈ es, ∀ ξ s t, k.integrand (.regular e ξ) = .ok s →
    l.integrand (.regular e ξ) = .ok t → s.shape = t.shape

section Combinations

variable (hm : m.Reachable) (hfrozen : m.frozen = true) (h : c.Combines k l x y)
include hm hfrozen h

/-- The matrix of a combination is the combination of the matrices. -/
theorem matrix_combination {A B : SparseMatrix ℝ} (hA : matrix m k boundary .triplet = .ok A)
    (hB : matrix m l boundary .triplet = .ok B) :
    ∃ C, matrix m c boundary .triplet = .ok C ∧ C.rows = m.dofs ∧ C.cols = m.dofs ∧
      ∀ i < m.dofs, ∀ j < m.dofs, C.entry i j = x * A.entry i j + y * B.entry i j := by
  obtain ⟨es, hes, hoverA⟩ := isMatrixOver_domain hm hfrozen hA
  obtain ⟨es', hes', hoverB⟩ := isMatrixOver_domain hm hfrozen hB
  obtain rfl := hes.unique hes'
  obtain ⟨C, hC⟩ : ∃ C, matrix m c boundary .triplet = .ok C := by
    refine exists_matrix_domain hes fun e he => ?_
    obtain ⟨K, hK, -⟩ := hoverA.exists_matrix e he
    obtain ⟨L, hL, -⟩ := hoverB.exists_matrix e he
    exact (h.localMatrix hK hL).imp fun _ h => h.1
  obtain ⟨es', hes', hoverC⟩ := isMatrixOver_domain hm hfrozen hC
  obtain rfl := hes.unique hes'
  refine ⟨C, hC, hoverC.rows, hoverC.cols, fun i hi j hj => ?_⟩
  rw [hoverA.entry i j hi hj, hoverB.entry i j hi hj, hoverC.entry i j hi hj, ← sum_combination]
  refine congrArg List.sum (List.map_congr_left fun e he => ?_)
  obtain ⟨K, hK, -⟩ := hoverA.exists_matrix e he
  obtain ⟨L, hL, -⟩ := hoverB.exists_matrix e he
  exact h.matrixShare hK hL i j

/-- The vector of a combination is the combination of the vectors. -/
theorem vector_combination {f g : Array ℝ} (hshape : HaveSameShape m boundary k l)
    (hf : vector m k boundary = .ok f) (hg : vector m l boundary = .ok g) :
    ∃ v, vector m c boundary = .ok v ∧ v.size = m.dofs ∧
      ∀ i < m.dofs, v.getD i 0 = x * f.getD i 0 + y * g.getD i 0 := by
  obtain ⟨es, hes, hoverf⟩ := isVectorOver_domain hm hfrozen hf
  obtain ⟨es', hes', hoverg⟩ := isVectorOver_domain hm hfrozen hg
  obtain rfl := hes.unique hes'
  obtain ⟨v, hv⟩ : ∃ v, vector m c boundary = .ok v := by
    refine exists_vector_domain hes fun e he => ?_
    obtain ⟨a, ha, -⟩ := hoverf.exists_vector e he
    obtain ⟨b, hb, -⟩ := hoverg.exists_vector e he
    exact (h.localVector (hshape es hes e he) ha hb).imp fun _ h => h.1
  obtain ⟨es', hes', hoverv⟩ := isVectorOver_domain hm hfrozen hv
  obtain rfl := hes.unique hes'
  refine ⟨v, hv, hoverv.size, fun i hi => ?_⟩
  rw [hoverf.entry i hi, hoverg.entry i hi, hoverv.entry i hi, ← sum_combination]
  refine congrArg List.sum (List.map_congr_left fun e he => ?_)
  obtain ⟨a, ha, -⟩ := hoverf.exists_vector e he
  obtain ⟨b, hb, -⟩ := hoverg.exists_vector e he
  exact h.vectorShare (hshape es hes e he) ha hb i

end Combinations

end Assembly
end WeakForm
