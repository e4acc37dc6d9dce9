import WeakForm.Proofs.RealScalar
import WeakForm.Proofs.Assembly.Diffusion
import WeakForm.Proofs.Assembly.Linearity
import WeakForm.Proofs.Element.Turns

/-!
# Weak forms on turned elements

The values of `N'*c*N` and `B'*D*B` on a turned element are those on the element at the turned points,
with their rows and columns in the order of the turned degrees of freedom. As the rule has the turned
points, too, so are the matrices of the elements, and both put the same into the global matrix. A
column `c*N'` does so if its coefficient is a number.
-/

namespace WeakForm

open Finset DenseMatrix

namespace Kernel

variable {k : Kernel ℝ} {e : Element ℝ}

section Axes

variable {A : DenseMatrix ℝ} {w : Value ℝ} {t : Tensor ℝ}

theorem length_between (h : Value.between A w = .ok t) (hne : A.cols ≠ 1) : t.shape.length = axesOf w := by
  obtain ⟨u, hu, h⟩ := bind_eq_ok.mp h
  obtain ⟨v, hv, ht⟩ := bind_eq_ok.mp h
  have hcolumns (M : DenseMatrix ℝ) : M.ColumnsCancel 0 := fun j => by simp
  have hrows (M : DenseMatrix ℝ) : M.RowsCancel 0 := fun i => by simp
  exact (isConservative_of_product (hcolumns _) (hrows _) rfl hne hu hv ht).axes_eq

/-- A value that is no number stands between a matrix and its transpose as a matrix if the result is one. -/
theorem length_of_axesOf (h : axesOf w = 2) (hw : w.scalar? = none) : w.toArray.shape.length = 2 := by
  rw [axesOf, hw] at h
  rw [← w.toArray.shape_numbers]
  exact h

/-- Between a matrix that is not square and its transpose there is no value with one axis. -/
theorem one_lt_axesOf (h : Value.between A w = .ok t) (hne : A.cols ≠ 1) (hsquare : A.rows ≠ A.cols) :
    1 < axesOf w := by
  obtain ⟨u, hu, h⟩ := bind_eq_ok.mp h
  obtain ⟨v, hv, -⟩ := bind_eq_ok.mp h
  obtain ⟨c, rfl, hkind, hlength, hmem, -⟩ :=
    mul_constant_eq_ok (A := A.transpose) (w := 0) (fun j => by simp) hne hu
  have hmem : A.cols ∈ c.complexParts.shape := hmem
  have hitem := NumberArray.item?_eq_none (Tensor.item?_eq_none hmem hne)
  obtain ⟨d, -, -, hproduct⟩ := Value.mul_eq_ok hkind hitem hv
  have hscalar : (Value.ofTensor (.ofMatrix A)).scalar? = none := item?_matrix_eq_none (.inr hne)
  have hparts : (Value.ofTensor (.ofMatrix A)).complexParts = .ofMatrix (A.map Complex.ofReal) :=
    complexParts_matrix A
  rcases hproduct with ⟨x, hx, -⟩ | ⟨-, hproduct⟩
  · rw [hscalar] at hx
    cases hx
  rw [hparts] at hproduct
  by_contra hle
  -- the axis has an entry for every column, and the product one for every row
  obtain ⟨n, hn⟩ := List.length_eq_one_iff.mp (show c.complexParts.shape.length = 1 by
    have hpos := List.length_pos_of_mem hmem
    omega)
  rw [hn, List.mem_singleton] at hmem
  exact hsquare ((Tensor.rows_of_mul?_axis hn hproduct).trans hmem.symm)

end Axes

section Forms

variable {defs : Definitions ℝ} {label text factor : String} {c : Expr} {t : Tensor ℝ}

/-- The forms such as `N'*c*N` and `B'*D*B`, with any expression in the middle. -/
def weighted (factor : String) (c : Expr) : Expr :=
  .binary .mul (.binary .mul (.transpose (.symbol factor)) c) (.symbol factor)

/-- The kernel is compiled from a text that reads as the expression. -/
def Reads (k : Kernel ℝ) (defs : Definitions ℝ) (tree : Expr) : Prop :=
  ∃ label text, compile label text defs = .ok k ∧ Expr.parse text = .ok tree

/-- The form `c*N'` for any expression. -/
def scaledColumn (c : Expr) : Expr := .binary .mul c (.transpose (.symbol "N"))

theorem integrand_weighted {matrixAt : List ℝ → Except (Error ℝ) (DenseMatrix ℝ)}
    (hk : compile label text defs = .ok k) (hparse : Expr.parse text = .ok (weighted factor c))
    (hfactor : ∀ fallback ξ, defs.meaning fallback (.regular e ξ) factor =
      (matrixAt (ξ.getD [])).map fun A => .ofTensor (.ofMatrix A)) (ξ : Option (List ℝ)) :
    k.integrand (.regular e ξ) = .ok t ↔ ∃ A w, matrixAt (ξ.getD []) = .ok A ∧
      c.eval (resolve defs (.regular e ξ)) = .ok w ∧ Value.between A w = .ok t := by
  rw [integrand_of_compile hk hparse, Definitions.resolve_eq_meaning]
  generalize hmeaning : defs.meaning _ (.regular e ξ) = meaning
  have hfactor : meaning factor = (matrixAt (ξ.getD [])).map fun A => .ofTensor (.ofMatrix A) :=
    hmeaning ▸ hfactor _ ξ
  simp only [weighted, Expr.eval, hfactor]
  cases matrixAt (ξ.getD []) with
  | error err =>
    refine iff_of_false (fun h => by cases h) ?_
    rintro ⟨A, w, hA, -⟩
    cases hA
  | ok A =>
    cases c.eval meaning with
    | error err =>
      refine iff_of_false (fun h => by cases h) ?_
      rintro ⟨A, w, -, hw, -⟩
      cases hw
    | ok w =>
      simp only [Except.map, ok_bind, pure, Except.pure, transpose_ofMatrix, Except.ok.injEq, exists_and_left,
        exists_eq_left', Operation.apply, Value.between]
      cases (Value.ofTensor (Tensor.ofMatrix A.transpose)).mul w <;> rfl

theorem integrand_scaledColumn (hk : compile label text defs = .ok k)
    (hparse : Expr.parse text = .ok (scaledColumn c)) (ξ : List ℝ) :
    k.integrand (.regular e (some ξ)) = .ok t ↔ ∃ N w, e.shape ξ = .ok N ∧
      c.eval (resolve defs (.regular e (some ξ))) = .ok w ∧
      w.mul (.ofTensor (.ofMatrix N.transpose)) >>= Value.toReals = .ok t := by
  rw [integrand_of_compile hk hparse, Definitions.resolve_eq_meaning]
  generalize hmeaning : defs.meaning _ (.regular e (some ξ)) = meaning
  have hfactor : meaning "N" = (e.shape ξ).map fun N => .ofTensor (.ofMatrix N) :=
    hmeaning ▸ meaning_shape (some ξ)
  simp only [scaledColumn, Expr.eval, hfactor]
  cases c.eval meaning with
  | error err =>
    refine iff_of_false (fun h => by cases h) ?_
    rintro ⟨N, w, -, hw, -⟩
    cases hw
  | ok w =>
    cases e.shape ξ with
    | error err =>
      refine iff_of_false (fun h => by cases h) ?_
      rintro ⟨N, w, hN, -⟩
      cases hN
    | ok N =>
      simp only [Except.map, ok_bind, pure, Except.pure, transpose_ofMatrix, Except.ok.injEq, exists_and_left,
        exists_eq_left', Operation.apply]

/-- Every name of the expression stands for a constant. -/
def IsConstant (defs : Definitions ℝ) (c : Expr) : Prop :=
  ∀ name ∈ c.names, Names.isReserved name = false ∧ ∃ v, defs.lookup name = some (.constant v)

/-- Every name of the expression stands for a coordinate in space or for a constant. -/
def IsPositional (defs : Definitions ℝ) (c : Expr) : Prop := ∀ name ∈ c.names,
  name ∈ Site.positionNames ∨ Names.isReserved name = false ∧ ∃ v, defs.lookup name = some (.constant v)

theorem resolve_constant {name : String} (hreserved : Names.isReserved name = false) {v : Value ℝ}
    (hname : defs.lookup name = some (.constant v)) (site : Site ℝ) : resolve defs site name = .ok v := by
  rw [Definitions.resolve_eq_meaning]
  exact meaning_constant hreserved hname site

theorem IsConstant.eval_eq (hc : IsConstant defs c) (site site' : Site ℝ) :
    c.eval (resolve defs site) = c.eval (resolve defs site') := by
  refine Expr.eval_congr fun name hname => ?_
  obtain ⟨hreserved, v, hv⟩ := hc name hname
  rw [resolve_constant hreserved hv, resolve_constant hreserved hv]

/-- The coefficient of a turned element has the values that it has at the turned points. -/
theorem IsPositional.eval_turned (hc : IsPositional defs c) (hf : e.family.HasTurn) (hside : e.side = none)
    (x y : ℝ) : c.eval (resolve defs (.regular e.turned (some [x, y]))) =
      c.eval (resolve defs (.regular e (some (e.family.turnPoint [x, y])))) := by
  refine Expr.eval_congr fun name hname => ?_
  rcases hc name hname with hposition | ⟨hreserved, v, hv⟩
  · have hcoordinate (e : Element ℝ) (ξ : List ℝ) : resolve defs (.regular e (some ξ)) name =
        ((e.position ξ).map (fun p => .ofArray p.toArray) >>=
          Site.coordinateIn Site.positionNames name).map .ofReal := by
      simp only [Site.positionNames, List.mem_cons, List.not_mem_nil, or_false] at hposition
      rcases hposition with rfl | rfl | rfl <;> rfl
    rw [hcoordinate, hcoordinate, Element.position_turned hf hside]
  · rw [resolve_constant hreserved hv, resolve_constant hreserved hv]

end Forms

/-- An element with a matrix has it, when it is turned, with the rows and columns in the order of the turned
places. -/
def TurnsMatrix (k : Kernel ℝ) (e : Element ℝ) : Prop := ∀ ⦃K⦄, k.localMatrix e = .ok K →
  ∃ K', k.localMatrix e.turned = .ok K' ∧
    ∀ i < e.dofs, ∀ j < e.dofs, K'.entry i j = K.entry (e.turnPlace i) (e.turnPlace j)

/-- An element with a vector has it, when it is turned, in the order of the turned places. -/
def TurnsVector (k : Kernel ℝ) (e : Element ℝ) : Prop := ∀ ⦃v⦄, k.localVector e = .ok v →
  ∃ v', k.localVector e.turned = .ok v' ∧ ∀ i < e.dofs, v'.getD i 0 = v.getD (e.turnPlace i) 0

section Integrals

/-- The rule of the element has the turned points, too, each with two coordinates. -/
theorem rule_of_hasTurn (hf : e.family.HasTurn) : rule e = some e.points ∧
    (e.points.map e.family.turnedPoint).Perm e.points ∧ ∀ q ∈ e.points, ∃ x y, q.position = [x, y] := by
  obtain ⟨points, hpoints⟩ := Option.isSome_iff_exists.mp (isSome_rule (e := e) hf.isLagrange)
  have hmem : e.points = points := by rw [Element.points, hpoints]; rfl
  rw [hmem]
  exact ⟨hpoints, hf.perm_points hpoints⟩

/-- On a turned element the measure and the values of the kernel are those at the turned points, if they are at
all points with the coordinates of one. -/
theorem exists_values_turned (hf : e.family.HasTurn) (hregular : e.IsRegular) {r c : ℕ} {σ τ : ℕ → ℕ}
    (hvalue : ∀ x y, (∃ q ∈ e.points, q.position = [x, y]) → ∃ V : DenseMatrix ℝ, V.rows = r ∧ V.cols = c ∧
      k.integrand (.regular e (some (e.family.turnPoint [x, y]))) = .ok (.ofMatrix V) ∧
      k.integrand (.regular e.turned (some [x, y])) = .ok (.ofMatrix (V.rearranged σ τ))) :
    ∃ (δ : QuadraturePoint ℝ → ℝ) (V : QuadraturePoint ℝ → DenseMatrix ℝ), ∀ q ∈ e.points,
      ((V q).rows = r ∧ (V q).cols = c) ∧ e.detJ q.position = .ok (δ q) ∧
      k.integrand (.regular e (some q.position)) = .ok (.ofMatrix (V q)) ∧
      e.turned.detJ q.position = .ok (δ (e.family.turnedPoint q)) ∧
      k.integrand (.regular e.turned (some q.position)) =
        .ok (.ofMatrix ((V (e.family.turnedPoint q)).rearranged σ τ)) := by
  obtain ⟨hrule, hperm, hpositions⟩ := rule_of_hasTurn hf
  -- every point is the turned one of another, so the kernel has a matrix at all of them
  have hvalues : ∀ q ∈ e.points, ∃ V : DenseMatrix ℝ, (V.rows = r ∧ V.cols = c) ∧
      k.integrand (.regular e (some q.position)) = .ok (.ofMatrix V) := by
    intro q hq
    obtain ⟨q', hq', rfl⟩ := List.mem_map.mp (hperm.symm.subset hq)
    obtain ⟨x, y, hxy⟩ := hpositions q' hq'
    obtain ⟨V, hrows, hcols, hV, -⟩ := hvalue x y ⟨q', hq', hxy⟩
    rw [← hxy] at hV
    exact ⟨V, ⟨hrows, hcols⟩, hV⟩
  have : Nonempty (DenseMatrix ℝ) := ⟨.ofFn 0 0 fun _ _ => 0⟩
  choose! V hsize hV using hvalues
  have hdet : ∀ q ∈ e.points, ∃ δ, e.detJ q.position = .ok δ := hregular _ hrule
  choose! δ hδ using hdet
  refine ⟨δ, V, fun q hq => ⟨hsize q hq, hδ q hq, hV q hq, ?_⟩⟩
  have hturned : e.family.turnedPoint q ∈ e.points := hperm.subset (List.mem_map_of_mem hq)
  have hδ := hδ _ hturned
  have hV := hV _ hturned
  obtain ⟨x, y, hxy⟩ := hpositions q hq
  obtain ⟨W, -, -, hW, hW'⟩ := hvalue x y ⟨q, hq, hxy⟩
  have hplace : (e.family.turnedPoint q).position = e.family.turnPoint [x, y] := hxy ▸ rfl
  rw [hplace] at hδ hV
  have hsame : W = V (e.family.turnedPoint q) :=
    Option.some.inj (congrArg Tensor.toMatrix? (Except.ok.inj (hW.symm.trans hV)))
  rw [hxy]
  exact ⟨Element.detJ_turned hf hδ, hsame ▸ hW'⟩

/-- The integral over a turned element is made of the same terms, one for every point of the rule. -/
theorem exists_integrate_turned (hf : e.family.HasTurn) (hregular : e.IsRegular) {r c : ℕ} {σ τ : ℕ → ℕ}
    (hvalue : ∀ x y, (∃ q ∈ e.points, q.position = [x, y]) → ∃ V : DenseMatrix ℝ, V.rows = r ∧ V.cols = c ∧
      k.integrand (.regular e (some (e.family.turnPoint [x, y]))) = .ok (.ofMatrix V) ∧
      k.integrand (.regular e.turned (some [x, y])) = .ok (.ofMatrix (V.rearranged σ τ))) :
    ∃ X X' : DenseMatrix ℝ, (k.integrate e = .ok (.ofMatrix X) ∧ X.rows = r ∧ X.cols = c) ∧
      (k.integrate e.turned = .ok (.ofMatrix X') ∧ X'.rows = r ∧ X'.cols = c) ∧
      ∀ i < r, ∀ j < c, X'.entry i j = X.entry (σ i) (τ j) := by
  obtain ⟨hrule, hperm, -⟩ := rule_of_hasTurn hf
  obtain ⟨δ, V, hV⟩ := exists_values_turned hf hregular hvalue
  have hsize : ∀ q ∈ e.points, (V (e.family.turnedPoint q)).rows = r ∧ (V (e.family.turnedPoint q)).cols = c :=
    fun q hq => (hV _ (hperm.subset (List.mem_map_of_mem hq))).1
  obtain ⟨X, hX, hrows, hcols, hentry⟩ := integrate_eq hrule (fun q hq => (hV q hq).2.1)
    (fun q hq => (hV q hq).2.2.1) fun q hq => (hV q hq).1
  obtain ⟨X', hX', hrows', hcols', hentry'⟩ := integrate_eq (e := e.turned) (r := r) (c := c) hrule
    (fun q hq => (hV q hq).2.2.2.1) (fun q hq => (hV q hq).2.2.2.2) hsize
  refine ⟨X, X', ⟨hX, hrows, hcols⟩, ⟨hX', hrows', hcols'⟩, fun i hi j hj => ?_⟩
  have hsum := (hperm.map fun q => q.weight * δ q * (V q).entry (σ i) (τ j)).sum_eq
  rw [List.map_map] at hsum
  rw [hentry', hentry, ← hsum]
  refine congrArg List.sum (List.map_congr_left fun q hq => ?_)
  obtain ⟨hr, hc⟩ := hsize q hq
  rw [entry_rearranged _ (hr ▸ hi) (hc ▸ hj)]
  rfl

/-- The integral has a term at every point of the rule, whose shape fits that of the integral. -/
theorem exists_fitting_term {u : Tensor ℝ} (hu : k.integrate e = .ok u) {q : QuadraturePoint ℝ} (hq : q ∈ e.points) :
    ∃ t, k.term e q = .ok t ∧ Tensor.Fits t.shape u.shape := by
  have hsum (points : List (QuadraturePoint ℝ)) (total : Tensor ℝ)
      (h : sumTerms (k.term e) total points = .ok u) :
      ∀ q ∈ points, ∃ t, k.term e q = .ok t ∧ Tensor.Fits t.shape u.shape := by
    induction points generalizing total with
    | nil => simp
    | cons q points ih =>
      obtain ⟨v, hv, h⟩ := bind_eq_ok.mp h
      obtain ⟨next, hnext, h⟩ := bind_eq_ok.mp h
      have hfits := (Tensor.fits_of_zipWith (orShapeMismatch_eq_ok.mp hnext)).2
      exact List.forall_mem_cons.mpr ⟨⟨v, hv, hfits.trans (fits_sumTerms h)⟩, ih next h⟩
  unfold integrate at hu
  unfold Element.points at hq
  cases hrule : rule e with
  | none => simp [hrule] at hq
  | some points =>
    rw [hrule] at hu hq
    cases points with
    | nil => simp at hq
    | cons q' points =>
      obtain ⟨v, hv, h⟩ := bind_eq_ok.mp hu
      rcases List.mem_cons.mp hq with rfl | hq
      · exact ⟨v, hv, fits_sumTerms h⟩
      · exact hsum points v h q hq

/-- A turned point of the rule is one of the rule, so there the kernel has a value that fits the integral. -/
theorem exists_value_of_integrate (hf : e.family.HasTurn) {u : Tensor ℝ} (hu : k.integrate e = .ok u) {x y : ℝ}
    (hxy : ∃ q ∈ e.points, q.position = [x, y]) : ∃ δ t, e.detJ (e.family.turnPoint [x, y]) = .ok δ ∧
      k.integrand (.regular e (some (e.family.turnPoint [x, y]))) = .ok t ∧ Tensor.Fits t.shape u.shape := by
  obtain ⟨q, hq, hxy⟩ := hxy
  have hturned : e.family.turnedPoint q ∈ e.points :=
    (rule_of_hasTurn hf).2.1.subset (List.mem_map_of_mem hq)
  obtain ⟨s, hs, hfits⟩ := exists_fitting_term hu hturned
  obtain ⟨δ, t, hδ, ht, rfl⟩ := term_eq_ok.mp hs
  exact ⟨δ, t, hxy ▸ hδ, hxy ▸ ht, hfits⟩

/-- The matrix of an element turns with it if the values of the kernel do, wherever they have at most two axes. -/
theorem turnsMatrix_of_integrand (hf : e.family.HasTurn)
    (hvalue : ∀ K x y δ t, k.localMatrix e = .ok K → e.detJ (e.family.turnPoint [x, y]) = .ok δ →
      k.integrand (.regular e (some (e.family.turnPoint [x, y]))) = .ok t → t.shape.length ≤ 2 →
        t.shape = [e.dofs, e.dofs] ∧ k.integrand (.regular e.turned (some [x, y])) =
          .ok (t.rearrange (placeIn e.dofs e.turnPlace e.turnPlace))) : k.TurnsMatrix e := by
  intro K hK
  obtain ⟨u, hu, hmatrix, hrows, hcols⟩ := localMatrix_eq_ok.mp hK
  have haxes : u.shape.length ≤ 2 := (Tensor.entry_of_atLeast2 hmatrix).1.length_le
  have hplace := fun i => Element.turnPlace_lt (k := i) hf
  obtain ⟨X, X', ⟨hX, -, -⟩, ⟨hX', hrows', hcols'⟩, hentry⟩ := exists_integrate_turned hf
      (isRegular_of_localMatrix k hK) (r := e.dofs) (c := e.dofs) (σ := e.turnPlace) (τ := e.turnPlace) (k := k)
      fun x y hxy => by
    obtain ⟨δ, t, hδ, ht, hfits⟩ := exists_value_of_integrate hf hu hxy
    obtain ⟨hshape, hmoved⟩ := hvalue K x y δ t hK hδ ht (hfits.length_le.trans haxes)
    obtain ⟨V, rfl⟩ := Tensor.exists_ofMatrix (t := t) (by rw [hshape]; rfl)
    obtain ⟨hVrows, hVcols⟩ : V.rows = e.dofs ∧ V.cols = e.dofs := by simpa [Tensor.ofMatrix] using hshape
    refine ⟨V, hVrows, hVcols, ht, ?_⟩
    rw [hmoved, ← Tensor.rearrange_ofMatrix V (hVrows ▸ hplace) (hVcols ▸ hplace), hVcols]
  obtain rfl := Except.ok.inj (hu.symm.trans hX)
  obtain rfl : X = K := Option.some.inj hmatrix
  exact ⟨X', localMatrix_eq_ok.mpr ⟨_, hX', rfl, hrows', hcols'⟩, hentry⟩

end Integrals

section Elements

variable {defs : Definitions ℝ} {label text : String} {c : Expr}

theorem between_turned (hf : e.family.HasTurn) (he : e.IsPlaced) {A : DenseMatrix ℝ} (hcols : A.cols = e.dofs)
    {w : Value ℝ} {t : Tensor ℝ} (h : Value.between A w = .ok t) (haxes : axesOf w = 2) :
    t.shape = [e.dofs, e.dofs] ∧ Value.between (A.withColumns e.turnPlace) w =
      .ok (t.rearrange (placeIn e.dofs e.turnPlace e.turnPlace)) := by
  rw [← hcols]
  exact Value.between_rearranged (hcols.trans_ne (Element.dofs_ne_one hf he))
    (fun j hj => hcols ▸ Element.turnPlace_lt hf (hcols ▸ hj)) h (length_of_axesOf haxes)

/-- With a constant in the middle all values have two axes if they add up to a matrix. -/
theorem axesOf_of_localMatrix {w : Value ℝ}
    (hvalue : ∀ ξ t, k.integrand (.regular e ξ) = .ok t → t.shape.length = axesOf w) (hdofs : e.dofs ≠ 1)
    {K : DenseMatrix ℝ} (hK : k.localMatrix e = .ok K) : axesOf w = 2 := by
  obtain ⟨u, hu, hmatrix, hrows, -⟩ := localMatrix_eq_ok.mp hK
  have haxes : u.shape.length = axesOf w := integrate_induction (fun t c _ ht => ht)
    (fun s t u hs ht hu => (Tensor.length_shape_zipWith (hs.trans ht.symm) hu).trans hs) hvalue hu
  rw [← haxes]
  obtain ⟨shape, data, hdata⟩ := u
  match shape with
  | [] | [n] =>
    cases hmatrix
    exact absurd hrows.symm hdofs
  | m :: n :: shape =>
    by_contra hne
    exact nomatch (Tensor.toMatrix?_eq_none hne).symm.trans hmatrix

section Turned

variable (hf : e.family.HasTurn) (he : e.IsPlaced) (hk : compile label text defs = .ok k)
include hf he hk

theorem turnsMatrix_mass (hside : e.side = none) (hc : IsPositional defs c)
    (hparse : Expr.parse text = .ok (weighted "N" c)) : k.TurnsMatrix e := by
  refine turnsMatrix_of_integrand hf fun K x y δ t _ _ ht hle => ?_
  obtain ⟨N, w, hN, hw, hbetween⟩ := (integrand_weighted hk hparse (fun _ => meaning_shape) _).mp ht
  obtain ⟨M, hM, hrows, hmoved⟩ := Element.shape_turned hf he x y
  obtain rfl := Except.ok.inj (hN.symm.trans hM)
  have hcols := he.cols_shape hN
  have hne := hcols.trans_ne (Element.dofs_ne_one hf he)
  have hflat : N.rows ≠ N.cols := by
    rw [hrows, hcols]
    exact Element.dofsPerNode_ne_dofs hf he
  have haxes : axesOf w = 2 :=
    le_antisymm (length_between hbetween hne ▸ hle) (one_lt_axesOf hbetween hne hflat)
  obtain ⟨hshape, hturned⟩ := between_turned hf he hcols hbetween haxes
  refine ⟨hshape, (integrand_weighted hk hparse (fun _ => meaning_shape) _).mpr ⟨_, w, hmoved, ?_, hturned⟩⟩
  rw [hc.eval_turned hf hside, hw]

theorem turnsMatrix_derivative (hspace : 0 < e.nodes.cols) (hc : IsConstant defs c)
    (hparse : Expr.parse text = .ok (weighted "B" c)) : k.TurnsMatrix e := by
  have hvalue (e : Element ℝ) {ξ : Option (List ℝ)} {t : Tensor ℝ} :=
    integrand_weighted (e := e) (t := t) hk hparse (fun _ => meaning_derivative) ξ
  have hdofs := Element.dofs_ne_one hf he
  refine turnsMatrix_of_integrand hf fun K x y δ t hK hδ ht _ => ?_
  obtain ⟨B, w, hB, hw, hbetween⟩ := (hvalue e).mp ht
  have haxes : axesOf w = 2 := by
    refine axesOf_of_localMatrix (fun ξ t ht => ?_) hdofs hK
    obtain ⟨A, w', hA, hw', hbetween⟩ := (hvalue e).mp ht
    rw [hc.eval_eq _ (.regular e (some (e.family.turnPoint [x, y]))), hw] at hw'
    cases hw'
    exact length_between hbetween ((he.cols_shapeDerivative hA).trans_ne hdofs)
  obtain ⟨hshape, hturned⟩ := between_turned hf he (he.cols_shapeDerivative hB) hbetween haxes
  refine ⟨hshape, (hvalue e.turned).mpr ⟨_, w, Element.shapeDerivative_turned hf he hspace hδ hB, ?_, hturned⟩⟩
  rw [hc.eval_eq _ (.regular e (some (e.family.turnPoint [x, y]))), hw]

/-- The vector of a column with a number for its coefficient. -/
theorem turnsVector_scaledColumn (hside : e.side = none) (hscalar : e.dofsPerNode = 1)
    (hc : IsPositional defs c)
    (hnumber : ∀ ξ w, c.eval (resolve defs (.regular e (some ξ))) = .ok w → w.scalar?.isSome)
    (hparse : Expr.parse text = .ok (scaledColumn c)) : k.TurnsVector e := by
  intro v hv
  obtain ⟨u, hu, -, -⟩ := localVector_eq_ok.mp hv
  obtain ⟨X, X', ⟨hX, hrows, hcols⟩, ⟨hX', hrows', hcols'⟩, hentry⟩ := exists_integrate_turned hf
      (isRegular_of_localVector k hv) (r := e.dofs) (c := 1) (σ := e.turnPlace) (τ := id) (k := k)
      fun x y hxy => by
    obtain ⟨δ, t, -, ht, -⟩ := exists_value_of_integrate hf hu hxy
    obtain ⟨N, w, hN, hw, hcolumn⟩ := (integrand_scaledColumn hk hparse _).mp ht
    obtain ⟨M, hM, hNrows, hmoved⟩ := Element.shape_turned hf he x y
    obtain rfl := Except.ok.inj (hN.symm.trans hM)
    obtain ⟨z, hz⟩ := Option.isSome_iff_exists.mp (hnumber _ w hw)
    have hNcols := he.cols_shape hN
    obtain ⟨hshape, hturned⟩ := Value.mul_transpose_rearranged hz
      (fun j hj => hNcols ▸ Element.turnPlace_lt hf (hNcols ▸ hj)) hcolumn
    obtain ⟨V, rfl⟩ := Tensor.exists_ofMatrix (t := t) (by rw [hshape]; rfl)
    obtain ⟨hVrows, hVcols⟩ : V.rows = N.cols ∧ V.cols = N.rows := by simpa [Tensor.ofMatrix] using hshape
    refine ⟨V, hVrows.trans hNcols, hVcols.trans (hNrows.trans hscalar), ht, ?_⟩
    rw [← hVcols, Tensor.rearrange_ofMatrix (τ := id) V ?_ fun _ h => h] at hturned
    · exact (integrand_scaledColumn hk hparse _).mpr
        ⟨_, w, hmoved, (hc.eval_turned hf hside x y).trans hw, hturned⟩
    · rw [hVrows, hNcols]
      exact fun _ => Element.turnPlace_lt hf
  obtain ⟨f, hf', hvalue⟩ := localVector_of_column hX hrows hcols
  obtain rfl := Except.ok.inj (hf'.symm.trans hv)
  obtain ⟨v', hv', hvalue'⟩ := localVector_of_column hX' hrows' hcols'
  refine ⟨v', hv', fun i hi => ?_⟩
  rw [hvalue', hvalue, hentry i hi 0 Nat.one_pos]
  rfl

end Turned

end Elements

end Kernel
end WeakForm
