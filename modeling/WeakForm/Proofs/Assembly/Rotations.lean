import WeakForm.Proofs.Assembly.Strategies
import WeakForm.Proofs.Kernel.ClosedForms
import WeakForm.Proofs.Kernel.Turns
import WeakForm.Proofs.Mesh.Rotations

/-!
# Assembly over rotated elements

The degrees of freedom of a turned element have moved like the rows and columns of its matrix, so the
matrix puts the same into the global one. Meshes that differ by the starting corner of an element thus
have the same matrices of `N'*c*N` and `B'*D*B`, whichever way they are assembled, and over a scalar
space the same vectors of `c*N'`, as long as `c` has a number as its value. A matrix in its place may
tell the corners apart.
-/

namespace WeakForm

open Finset

namespace Kernel

section Shares

variable {k : Kernel ℝ} {e : Element ℝ}

theorem matrixShare_turned (hf : e.family.HasTurn) (h : k.TurnsMatrix e) {K : DenseMatrix ℝ}
    (hK : k.localMatrix e = .ok K) (i j : ℕ) : k.matrixShare e.turned i j = k.matrixShare e i j := by
  obtain ⟨K', hK', hentry⟩ := h hK
  refine Eq.symm ?_
  rw [matrixShare, matrixShare, matrixOf_eq hK, matrixOf_eq hK', Element.dofs_turned,
    ← Element.sum_turnPlace hf]
  refine sum_congr rfl fun p hp => ?_
  rw [← Element.sum_turnPlace hf]
  refine sum_congr rfl fun q hq => ?_
  have hp := mem_range.mp hp
  have hq := mem_range.mp hq
  rw [Element.getElem?_getDof_turned hp, Element.getElem?_getDof_turned hq, hentry p hp q hq]

theorem vectorShare_turned (hf : e.family.HasTurn) (h : k.TurnsVector e) {v : Array ℝ}
    (hv : k.localVector e = .ok v) (i : ℕ) : k.vectorShare e.turned i = k.vectorShare e i := by
  obtain ⟨v', hv', hentry⟩ := h hv
  refine Eq.symm ?_
  rw [vectorShare, vectorShare, vectorOf_eq hv, vectorOf_eq hv', Element.dofs_turned,
    ← Element.sum_turnPlace hf]
  refine sum_congr rfl fun p hp => ?_
  have hp := mem_range.mp hp
  rw [Element.getElem?_getDof_turned hp, hentry p hp]

end Shares

end Kernel

namespace Assembly

section Contributions

variable {β γ : Type} {entries : Element ℝ → Except (Error ℝ) β} {part : Element ℝ → γ} {e e' : Element ℝ}

/-- Both elements have local values or none, and in the former case they put the same into what is assembled. -/
structure SameContribution (entries : Element ℝ → Except (Error ℝ) β) (part : Element ℝ → γ) (e e' : Element ℝ) :
    Prop where
  exists_iff : (∃ K, entries e' = .ok K) ↔ ∃ K, entries e = .ok K
  part_eq : ∀ {K}, entries e = .ok K → part e' = part e

/-- What a turn leaves unchanged does not depend on the corner. -/
theorem sameContribution_iterate {coords : DenseMatrix ℝ} {n id : ℕ} (h : Mesh.IsTurnable coords n id e)
    (hturn : ∀ e, Mesh.IsTurnable coords n id e → ∀ K, entries e = .ok K →
      (∃ K', entries e.turned = .ok K') ∧ part e.turned = part e) (s : ℕ) :
    SameContribution entries part e (Element.turned^[s] e) := by
  refine ⟨h.iterate_iff (P := fun e => ∃ K, entries e = .ok K) (fun e he ⟨K, hK⟩ => (hturn e he K hK).1) s,
    fun {K} hK => ?_⟩
  refine ((h.iterate_iff (P := fun z => (∃ K, entries z = .ok K) ∧ part z = part e) ?_ s).mpr ⟨⟨K, hK⟩, rfl⟩).2
  rintro z hz ⟨⟨K, hK⟩, hpart⟩
  obtain ⟨hex, hsame⟩ := hturn z hz K hK
  exact ⟨hex, hsame.trans hpart⟩

variable {es es' : List (Element ℝ)} (h : List.Forall₂ (SameContribution entries part) es es')
include h

theorem forall_exists_iff : (∀ e ∈ es', ∃ K, entries e = .ok K) ↔ ∀ e ∈ es, ∃ K, entries e = .ok K := by
  induction h with
  | nil => rfl
  | cons he _ ih => rw [List.forall_mem_cons, List.forall_mem_cons, he.exists_iff, ih]

theorem sum_part_eq (hex : ∀ e ∈ es, ∃ K, entries e = .ok K) (f : γ → ℝ) :
    (es'.map fun e => f (part e)).sum = (es.map fun e => f (part e)).sum := by
  induction h with
  | nil => rfl
  | cons he _ ih =>
    obtain ⟨⟨K, hK⟩, hex⟩ := List.forall_mem_cons.mp hex
    rw [List.map_cons, List.map_cons, List.sum_cons, List.sum_cons, he.part_eq hK, ih hex]

end Contributions

section Blocks

variable {m m' : Mesh ℝ} {k : Kernel ℝ} {e : Element ℝ} {method : AssemblyMethod}

/-- What the block of an element adds to the global matrix. -/
noncomputable def blockPart (k : Kernel ℝ) (e : Element ℝ) : AssemblyMethod → ℕ → ℕ → ℝ
  | .triplet => Block.spread ⟨globalDofs e, k.matrixOf e⟩
  | .direct => Block.kept ⟨globalDofs e, k.matrixOf e⟩

/-- With distinct nodes nothing is overwritten, so both ways add the shares of the element. -/
theorem blockPart_eq (hdof : ∀ d ∈ e.getDof, 0 ≤ d) (hnodup : e.nodeIds.Nodup) (method : AssemblyMethod) (i j : ℕ) :
    blockPart k e method i j = k.matrixShare e i j := by
  have hspread := spread_block k hdof i j
  cases method with
  | triplet => exact hspread
  | direct =>
    rw [Block.spread_eq_add, Block.overwritten_eq_zero _ (nodup_globalDofs hdof hnodup), zero_add] at hspread
    exact hspread

/-- The global matrix is the sum of the parts of the elements. -/
theorem entry_matrix {A : SparseMatrix ℝ} (hA : matrix m k none method = .ok A) {i : ℕ} (hi : i < m.dofs) (j : ℕ) :
    A.entry i j = ((m.cells.map Cell.element).map fun e => blockPart k e method i j).sum := by
  cases method with
  | triplet =>
    rw [matrix_triplet] at hA
    obtain ⟨blocks, hblocks, rfl⟩ := map_eq_ok.mp hA
    rw [entry_triplet (isSquare_of_matrixBlocks hblocks) hi, (matrixBlocks_none.mp hblocks).2]
    simp only [List.map_map]
    rfl
  | direct =>
    rw [matrix_direct] at hA
    obtain ⟨blocks, hblocks, rfl⟩ := map_eq_ok.mp hA
    rw [entry_direct _ hi, (matrixBlocks_none.mp hblocks).2]
    simp only [List.map_map]
    rfl

/-- There is a global matrix if and only if all elements have one. -/
theorem exists_matrix_iff : (∃ A, matrix m k none method = .ok A) ↔
    ∀ e ∈ m.cells.map Cell.element, ∃ K, k.localMatrix e = .ok K := by
  obtain ⟨assemble, hassemble⟩ : ∃ assemble, matrix m k none method = (matrixBlocks m k none).map assemble := by
    cases method with
    | triplet => exact ⟨_, matrix_triplet m k none⟩
    | direct => exact ⟨_, matrix_direct m k none⟩
  have hblocks : (∃ blocks, matrixBlocks m k none = .ok blocks) ↔
      ∀ e ∈ m.cells.map Cell.element, ∃ K, k.localMatrix e = .ok K := by
    simp only [matrixBlocks_none, exists_and_left, exists_eq, and_true, List.forall_mem_map]
  rw [← hblocks, hassemble]
  simp only [map_eq_ok, exists_comm (α := SparseMatrix ℝ), exists_and_left, exists_eq', and_true]

end Blocks

section Assembled

variable {m m' : Mesh ℝ} {k : Kernel ℝ}

theorem toOption_map_eq {ε β δ : Type} {x y : Except ε β} {f : β → δ}
    (hiff : (∃ b, x = .ok b) ↔ ∃ b, y = .ok b) (h : ∀ a b, x = .ok a → y = .ok b → f a = f b) :
    x.toOption.map f = y.toOption.map f := by
  cases x with
  | ok a =>
    obtain ⟨b, rfl⟩ := hiff.mp ⟨a, rfl⟩
    exact congrArg some (h a b rfl rfl)
  | error err =>
    cases y with
    | ok b =>
      obtain ⟨a, ha⟩ := hiff.mpr ⟨b, rfl⟩
      cases ha
    | error err' => rfl

/-- Meshes whose elements add the same have the same matrix or none. -/
theorem toOption_matrix_eq (hdofs : m'.dofs = m.dofs)
    (h : List.Forall₂ (SameContribution k.localMatrix (blockPart k)) (m.cells.map Cell.element)
      (m'.cells.map Cell.element)) (method : AssemblyMethod) :
    (matrix m' k none method).toOption.map SparseMatrix.toDense =
      (matrix m k none method).toOption.map SparseMatrix.toDense := by
  refine toOption_map_eq (exists_matrix_iff.trans ((forall_exists_iff h).trans exists_matrix_iff.symm))
    fun A' A hA' hA => ?_
  have hex := exists_matrix_iff.mp ⟨A, hA⟩
  obtain ⟨hrows, hcols⟩ := size_of_matrix hA
  obtain ⟨hrows', hcols'⟩ := size_of_matrix hA'
  rw [SparseMatrix.toDense_eq_iff (by rw [hrows, hrows', hdofs]) (by rw [hcols, hcols', hdofs])]
  intro i j hi _
  rw [hrows'] at hi
  rw [entry_matrix hA' hi, entry_matrix hA (hdofs ▸ hi)]
  exact sum_part_eq h hex fun part => part method i j

/-- Meshes whose elements add the same have the same vector or none. -/
theorem toOption_vector_eq (hm : InRange m) (hm' : InRange m') (hdofs : m'.dofs = m.dofs)
    (h : List.Forall₂ (SameContribution k.localVector k.vectorShare) (m.cells.map Cell.element)
      (m'.cells.map Cell.element)) : (vector m' k none).toOption = (vector m k none).toOption := by
  have hiff {m : Mesh ℝ} (hm : InRange m) : (∃ v, vector m k none = .ok v) ↔
      ∀ e ∈ m.cells.map Cell.element, ∃ f, k.localVector e = .ok f := by
    refine ⟨fun ⟨v, hv⟩ e he => ?_, fun hex => exists_vector fun c hc => hex _ (List.mem_map_of_mem hc)⟩
    obtain ⟨f, hf, -⟩ := (isVectorOver_cells hm hv).exists_vector e he
    exact ⟨f, hf⟩
  have hsame := toOption_map_eq (f := fun v => v)
    ((hiff hm').trans ((forall_exists_iff h).trans (hiff hm).symm)) fun v' v hv' hv => ?_
  · rwa [Option.map_id', Option.map_id'] at hsame
  have hover := isVectorOver_cells hm hv
  have hover' := isVectorOver_cells hm' hv'
  refine Array.ext (by rw [hover.size, hover'.size, hdofs]) fun i hi' hi => ?_
  have hentry := sum_part_eq h ((hiff hm).mp ⟨v, hv⟩) fun part => part i
  rw [← hover.entry i (hover.size ▸ hi), ← hover'.entry i (hover'.size ▸ hi')] at hentry
  simpa [hi, hi'] using hentry

end Assembled

section Corners

variable {m m' : Mesh ℝ} {k : Kernel ℝ} {e : Element ℝ} {coords : DenseMatrix ℝ} {n id i s : ℕ} {cell cell' : Cell ℝ}

theorem sameContribution_matrix (h : Mesh.IsTurnable coords n id e)
    (hturn : ∀ e, Mesh.IsTurnable coords n id e → k.TurnsMatrix e) (s : ℕ) :
    SameContribution k.localMatrix k.matrixShare e (Element.turned^[s] e) :=
  sameContribution_iterate h (fun e he _ hK => ⟨(hturn e he hK).imp fun _ h => h.1, funext₂ fun i j =>
    Kernel.matrixShare_turned he.hasTurn (hturn e he) hK i j⟩) s

theorem sameContribution_vector (h : Mesh.IsTurnable coords n id e)
    (hturn : ∀ e, Mesh.IsTurnable coords n id e → k.TurnsVector e) (s : ℕ) :
    SameContribution k.localVector k.vectorShare e (Element.turned^[s] e) :=
  sameContribution_iterate h (fun e he _ hv => ⟨(hturn e he hv).imp fun _ h => h.1, funext fun i =>
    Kernel.vectorShare_turned he.hasTurn (hturn e he) hv i⟩) s

theorem SameContribution.blockPart (h : Mesh.IsTurnable coords n id e)
    (hsame : SameContribution k.localMatrix k.matrixShare e (Element.turned^[s] e)) :
    SameContribution k.localMatrix (blockPart k) e (Element.turned^[s] e) := by
  refine ⟨hsame.exists_iff, fun hK => funext fun method => funext₂ fun i j => ?_⟩
  have hs := (h.iterate s).1
  rw [blockPart_eq hs.nonneg_getDof hs.nodup, blockPart_eq h.nonneg_getDof h.nodup, hsame.part_eq hK]

/-- If the rotated element contributes the same, so do all elements. -/
theorem forall₂_of_isRotated {β γ : Type} {entries : Element ℝ → Except (Error ℝ) β} {part : Element ℝ → γ}
    (h : m'.IsRotated i s m) (hcell : m.cells[i]? = some cell) (hcell' : m'.cells[i]? = some cell')
    (hsame : SameContribution entries part cell.element cell'.element) :
    List.Forall₂ (SameContribution entries part) (m.cells.map Cell.element) (m'.cells.map Cell.element) := by
  rw [List.forall₂_map_left_iff, List.forall₂_map_right_iff]
  refine List.forall₂_iff_get.mpr ⟨h.length_eq.symm, fun j hj hj' => ?_⟩
  have hd := List.getElem?_eq_getElem hj
  have hd' := List.getElem?_eq_getElem hj'
  by_cases hij : i = j
  · subst hij
    obtain rfl := Option.some.inj (hd.symm.trans hcell)
    obtain rfl := Option.some.inj (hd'.symm.trans hcell')
    exact hsame
  · rw [List.get_eq_getElem, List.get_eq_getElem, h.element_eq hd hd' hij]
    exact ⟨Iff.rfl, fun _ => rfl⟩

/-- An element that is a quadrilateral or a triangle with distinct nodes may start at any corner: it contributes
the same to the matrices of `N'*c*N` and `B'*D*B` and, if `c` has a number as its value, to the vector of `c*N'`
over a scalar space. -/
theorem starting_corner (h : m'.IsRotated i s m) (hcell : m.cells[i]? = some cell)
    (hfamily : cell.element.family ∈ [Family.quad4, .tri3]) (hnodup : cell.element.nodeIds.Nodup)
    {defs : Definitions ℝ} {c D : Expr} (hc : Kernel.IsPositional defs c) (hD : Kernel.IsConstant defs D)
    {mass stiffness load : Kernel ℝ} (hmass : mass.Reads defs (Kernel.weighted "N" c))
    (hstiffness : stiffness.Reads defs (Kernel.weighted "B" D)) (hload : load.Reads defs (Kernel.scaledColumn c)) :
    ∃ cell', m'.cells[i]? = some cell' ∧ cell'.element.nodeIds = cell.element.nodeIds.rotate s ∧
      (∀ k ∈ [mass, stiffness],
        SameContribution k.localMatrix k.matrixShare cell.element cell'.element ∧
        ∀ method, (matrix m' k none method).toOption.map SparseMatrix.toDense =
          (matrix m k none method).toOption.map SparseMatrix.toDense) ∧
      (m.dofsPerNode = 1 →
        (∀ (e : Element ℝ) ξ w, c.eval (Kernel.resolve defs (.regular e (some ξ))) = .ok w → w.scalar?.isSome) →
        SameContribution load.localVector load.vectorShare cell.element cell'.element ∧
        (vector m' load none).toOption = (vector m load none).toOption) := by
  have hlt : i < m'.cells.length := h.length_eq ▸ (List.getElem?_eq_some_iff.mp hcell).1
  have hcell' := List.getElem?_eq_getElem hlt
  have hturnable := h.isTurnable hcell hfamily hnodup
  have heq := h.element_eq_iterate hcell hcell' hfamily hnodup
  refine ⟨_, hcell', heq ▸ (hturnable.iterate s).2.2, fun k hk => ?_, fun hscalar hnumber => ?_⟩
  · have hturn : ∀ e, Mesh.IsTurnable (Mesh.coordinateMatrix m.nodes) m.dofsPerNode (i + 1) e →
        k.TurnsMatrix e := by
      intro e he
      rcases List.mem_pair.mp hk with rfl | rfl
      · obtain ⟨label, text, hcompile, hparse⟩ := hmass
        exact Kernel.turnsMatrix_mass he.hasTurn he.isPlaced hcompile he.side_eq hc hparse
      · obtain ⟨label, text, hcompile, hparse⟩ := hstiffness
        exact Kernel.turnsMatrix_derivative he.hasTurn he.isPlaced hcompile he.cols_pos hD hparse
    have hsame := sameContribution_matrix hturnable hturn s
    have hblock := hsame.blockPart hturnable
    rw [← heq] at hsame hblock
    exact ⟨hsame, toOption_matrix_eq h.dofs_eq (forall₂_of_isRotated h hcell hcell' hblock)⟩
  · obtain ⟨label, text, hcompile, hparse⟩ := hload
    have hsame := sameContribution_vector hturnable (k := load) (fun e he =>
      Kernel.turnsVector_scaledColumn he.hasTurn he.isPlaced hcompile he.side_eq
        ((Mesh.buildElement_eq_ok he.built).1.dofsPerNode_eq.trans hscalar) hc (hnumber e) hparse) s
    rw [← heq] at hsame
    exact ⟨hsame, toOption_vector_eq (inRange h.reachable h.frozen) (inRange h.reachable' h.frozen') h.dofs_eq
      (forall₂_of_isRotated h hcell hcell' hsame)⟩

/-- A triangle with a right angle at its first node, not yet frozen. -/
noncomputable def rightTriangle : Mesh ℝ :=
  .ofLists (.integer 1) [[0, 0], [1, 0], [0, 1]] [(.tri3, [1, 2, 3])]

theorem reachable_rightTriangle : rightTriangle.Reachable :=
  Mesh.reachable_ofLists _ (by simp) (by simp [Family.nodeCount])

theorem starting_corner_rightTriangle : ∃ mass stiffness load : Kernel ℝ,
    Kernel.compile "M" "N'*x*N" [("D", .constant (.plain (.integer 2)))] = .ok mass ∧
    Kernel.compile "K" "B'*D*B" [("D", .constant (.plain (.integer 2)))] = .ok stiffness ∧
    Kernel.compile "f" "x*N'" [("D", .constant (.plain (.integer 2)))] = .ok load ∧
    (rightTriangle.rotated 0 1).freeze.2.cells.map (fun c => c.element.nodeIds) = [[2, 3, 1]] ∧
    (∀ k ∈ [mass, stiffness], ∀ method,
      (matrix (rightTriangle.rotated 0 1).freeze.2 k none method).toOption.map SparseMatrix.toDense =
        (matrix rightTriangle.freeze.2 k none method).toOption.map SparseMatrix.toDense) ∧
    (vector (rightTriangle.rotated 0 1).freeze.2 load none).toOption =
      (vector rightTriangle.freeze.2 load none).toOption := by
  have hdefs : Definitions.AreNamed (α := ℝ) [("D", .constant (.plain (.integer 2)))] := by
    intro d hd
    obtain rfl := List.mem_singleton.mp hd
    exact ⟨by decide, by decide, rfl⟩
  have hmass : Expr.parse "N'*x*N" = .ok (Kernel.weighted "N" (.symbol "x")) := by cbv
  have hload : Expr.parse "x*N'" = .ok (Kernel.scaledColumn (.symbol "x")) := by cbv
  obtain ⟨mass, hm⟩ := Kernel.exists_compile hmass hdefs (by decide) "M"
  obtain ⟨stiffness, hs⟩ := Kernel.exists_compile Kernel.parse_diffusion hdefs (by decide) "K"
  obtain ⟨load, hl⟩ := Kernel.exists_compile hload hdefs (by decide) "f"
  have hposition : Kernel.IsPositional [("D", .constant (.plain (.integer 2)))] (.symbol "x") := by
    intro name hname
    obtain rfl := List.mem_singleton.mp hname
    exact .inl (by decide)
  have hconstant : Kernel.IsConstant [("D", .constant (.plain (.integer 2)))] (.symbol "D") := by
    intro name hname
    obtain rfl := List.mem_singleton.mp hname
    exact ⟨by decide, _, rfl⟩
  obtain ⟨hok, hrotated⟩ := Mesh.freeze_rotated reachable_rightTriangle rfl 0 1
  obtain ⟨_, -, -, hmatrices, hvector⟩ := starting_corner hrotated rfl
    (by decide) (by decide) hposition hconstant ⟨_, _, hm, hmass⟩ ⟨_, _, hs, Kernel.parse_diffusion⟩
    ⟨_, _, hl, hload⟩
  refine ⟨mass, stiffness, load, hm, hs, hl, rfl, fun k hk => (hmatrices k hk).2, (hvector rfl ?_).2⟩
  intro e ξ w hw
  obtain ⟨x, -, rfl⟩ := map_eq_ok.mp hw
  rfl

section Counterexample

/-- A matrix that distinguishes the first degree of freedom of a triangle. -/
noncomputable def firstCorner : DenseMatrix ℝ := .ofRows 3 [[1, 0, 0], [0, 0, 0], [0, 0, 0]]

theorem entry_firstCorner_mul (B : DenseMatrix ℝ) {r : ℕ} (hr : r < 3) :
    (firstCorner.mul B).entry r 0 = if r = 0 then B.entry 0 0 else 0 := by
  have hcols : firstCorner.cols = 3 := rfl
  rw [DenseMatrix.entry_mul, hcols]
  interval_cases r <;> norm_num [firstCorner, DenseMatrix.ofRows, DenseMatrix.entry_ofFn_eq, sum_range_succ]

/-- As a coefficient of `c*N'` it keeps the function of the first corner only. -/
theorem localVector_firstCorner {load : Kernel ℝ} {e : Element ℝ}
    (hload : load.Reads [("C", .constant (.ofTensor (.ofMatrix firstCorner)))] (Kernel.scaledColumn (.symbol "C")))
    (hf : e.family = .tri3) (hscalar : e.dofsPerNode = 1) (hcols : e.nodes.cols = 2) (harea : e.signedArea = 1 / 2) :
    ∃ v, load.localVector e = .ok v ∧ ∀ r < 3, v.getD r 0 = if r = 0 then 1 / 6 else 0 := by
  obtain ⟨label, text, hk, hparse⟩ := hload
  have hrule : Kernel.rule e = some e.points := by
    rw [Element.points_tri3 hf, Kernel.rule, hf, Family.familyRule_tri3]
  have hpoint : ∀ q ∈ e.points, ∃ x y, q.position = [x, y] := by
    simp [Element.points_tri3 hf]
  let row (ξ : List ℝ) : DenseMatrix ℝ := .ofRows 3 [Basis.tri3 (ξ.getD 0 0) (ξ.getD 1 0)]
  have hvalue : ∀ q ∈ e.points, load.integrand (.regular e (some q.position)) =
      .ok (.ofMatrix (firstCorner.mul (row q.position).transpose)) := by
    intro q hq
    obtain ⟨x, y, hxy⟩ := hpoint q hq
    obtain ⟨u, hu, hmatrix⟩ := (Value.isMatrix_ofTensor firstCorner).mul
      (Value.isMatrix_ofTensor (row q.position).transpose) (.inl (by decide))
      (.inl (show 3 ≠ 1 by decide)) rfl
    refine (Kernel.integrand_scaledColumn hk hparse _).mpr
      ⟨row q.position, .ofTensor (.ofMatrix firstCorner), ?_, ?_, ?_⟩
    · rw [hxy]
      exact Element.shape_triangle hf hscalar x y
    · exact Kernel.resolve_constant (by decide) rfl _
    · rw [hu, ok_bind, hmatrix.toReals]
  have hdet : ∀ q ∈ e.points, e.detJ q.position = .ok 1 := fun q _ => by
    rw [Element.detJ_triangle hf hcols (by rw [harea]; norm_num), harea]
    norm_num
  obtain ⟨X, hX, hrows, hcols', hentry⟩ := Kernel.integrate_eq hrule hdet hvalue fun q _ => ⟨rfl, rfl⟩
  obtain ⟨v, hv, hvalues⟩ := Kernel.localVector_of_column hX (by rw [hrows, Element.dofs, hf, hscalar]; rfl) hcols'
  refine ⟨v, hv, fun r hr => ?_⟩
  rw [hvalues, hentry]
  simp only [entry_firstCorner_mul _ hr, Element.points_tri3 hf, List.map_cons, List.map_nil, List.sum_cons,
    List.sum_nil]
  split_ifs with h
  · norm_num [row, DenseMatrix.ofRows, DenseMatrix.transpose, DenseMatrix.entry_ofFn_eq, Basis.tri3]
  · simp

/-- In a mesh of one triangle the function goes to the first place of the triangle. -/
theorem exists_vector_firstCorner {load : Kernel ℝ} {cell : Cell ℝ} (hm : InRange m) (hcells : m.cells = [cell])
    (hdofs : 0 < m.dofs)
    (hload : load.Reads [("C", .constant (.ofTensor (.ofMatrix firstCorner)))] (Kernel.scaledColumn (.symbol "C")))
    (hf : cell.element.family = .tri3) (hscalar : cell.element.dofsPerNode = 1)
    (hcols : cell.element.nodes.cols = 2) (harea : cell.element.signedArea = 1 / 2) :
    ∃ v, vector m load none = .ok v ∧
      v.getD 0 0 = if cell.element.getDof[0]? = some 0 then 1 / 6 else 0 := by
  obtain ⟨f, hlocal, hvalues⟩ := localVector_firstCorner hload hf hscalar hcols harea
  obtain ⟨v, hv⟩ := exists_vector (m := m) (k := load) fun c hc => by
    rw [hcells, List.mem_singleton] at hc
    exact ⟨f, hc ▸ hlocal⟩
  have hplaces : cell.element.dofs = 3 := by
    rw [Element.dofs, hf, hscalar]
    rfl
  refine ⟨v, hv, ?_⟩
  rw [(isVectorOver_cells hm hv).entry 0 hdofs, hcells, List.map_singleton, List.map_singleton, List.sum_singleton,
    Kernel.vectorShare, Kernel.vectorOf_eq hlocal, hplaces, sum_range_succ', sum_eq_zero, zero_add,
    hvalues 0 (by decide)]
  · rfl
  · intro p hp
    rw [hvalues (p + 1) (by have := mem_range.mp hp; omega), if_neg p.succ_ne_zero, ite_self]

/-- With a matrix in the place of the number the starting corner matters: the vector keeps the function of the
first corner, whichever it is. -/
theorem load_firstCorner_ne : ∃ load : Kernel ℝ,
    Kernel.compile "f" "C*N'" [("C", .constant (.ofTensor (.ofMatrix firstCorner)))] = .ok load ∧
    Kernel.IsPositional [("C", .constant (.ofTensor (.ofMatrix firstCorner)))] (.symbol "C") ∧
    (rightTriangle.rotated 0 1).freeze.2.IsRotated 0 1 rightTriangle.freeze.2 ∧
    rightTriangle.freeze.2.dofsPerNode = 1 ∧
    (∀ c ∈ rightTriangle.freeze.2.cells, c.element.family = .tri3 ∧ c.element.nodeIds = [1, 2, 3]) ∧
    ∃ v v', vector rightTriangle.freeze.2 load none = .ok v ∧
      vector (rightTriangle.rotated 0 1).freeze.2 load none = .ok v' ∧
      v.getD 0 0 = 1 / 6 ∧ v'.getD 0 0 = 0 := by
  have hdefs : Definitions.AreNamed [("C", .constant (.ofTensor (.ofMatrix firstCorner)))] := by
    intro d hd
    obtain rfl := List.mem_singleton.mp hd
    exact ⟨by decide, by decide, rfl⟩
  have hparse : Expr.parse "C*N'" = .ok (Kernel.scaledColumn (.symbol "C")) := by cbv
  obtain ⟨load, hload⟩ := Kernel.exists_compile hparse hdefs
    (by simp only [Kernel.scaledColumn, List.map_cons, List.map_nil]; decide) "f"
  have hposition : Kernel.IsPositional [("C", .constant (.ofTensor (.ofMatrix firstCorner)))] (.symbol "C") := by
    intro name hname
    obtain rfl := List.mem_singleton.mp hname
    exact .inr ⟨by decide, _, rfl⟩
  obtain ⟨-, hrotated⟩ := Mesh.freeze_rotated reachable_rightTriangle rfl 0 1
  obtain ⟨cell, hcells, hfamily, hdofs, hnodes, hids, hplaces⟩ : ∃ cell, rightTriangle.freeze.2.cells = [cell] ∧
      cell.element.family = .tri3 ∧ cell.element.dofsPerNode = 1 ∧
      cell.element.nodes = .ofRows 2 [[0, 0], [1, 0], [0, 1]] ∧ cell.element.nodeIds = [1, 2, 3] ∧
      cell.element.getDof = [0, 1, 2] := ⟨_, rfl, rfl, rfl, rfl, rfl, rfl⟩
  obtain ⟨cell', hcells', hfamily', hdofs', hnodes', hplaces'⟩ : ∃ cell,
      (rightTriangle.rotated 0 1).freeze.2.cells = [cell] ∧ cell.element.family = .tri3 ∧
      cell.element.dofsPerNode = 1 ∧ cell.element.nodes = .ofRows 2 [[1, 0], [0, 1], [0, 0]] ∧
      cell.element.getDof = [1, 2, 0] := ⟨_, rfl, rfl, rfl, rfl, rfl⟩
  have harea : cell.element.signedArea = 1 / 2 := by
    norm_num [Element.signedArea, hfamily, Family.sides, Element.cross, hnodes, DenseMatrix.ofRows,
      DenseMatrix.entry_ofFn_eq]
  have harea' : cell'.element.signedArea = 1 / 2 := by
    norm_num [Element.signedArea, hfamily', Family.sides, Element.cross, hnodes', DenseMatrix.ofRows,
      DenseMatrix.entry_ofFn_eq]
  obtain ⟨v, hv, hentry⟩ := exists_vector_firstCorner (inRange hrotated.reachable hrotated.frozen) hcells
    (show 0 < 3 by decide) ⟨_, _, hload, hparse⟩ hfamily hdofs (by rw [hnodes]; rfl) harea
  obtain ⟨v', hv', hentry'⟩ := exists_vector_firstCorner (inRange hrotated.reachable' hrotated.frozen') hcells'
    (show 0 < 3 by decide) ⟨_, _, hload, hparse⟩ hfamily' hdofs' (by rw [hnodes']; rfl) harea'
  refine ⟨load, hload, hposition, hrotated, rfl, ?_, v, v', hv, hv', ?_, ?_⟩
  · rw [hcells]
    exact List.forall_mem_singleton.mpr ⟨hfamily, hids⟩
  · rw [hentry, hplaces]
    exact if_pos rfl
  · rw [hentry', hplaces']
    exact if_neg (by decide)

end Counterexample

end Corners

end Assembly
end WeakForm
