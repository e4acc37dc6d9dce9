import WeakForm.Proofs.Assembly.Ones
import WeakForm.Proofs.Assembly.Shares
import WeakForm.Proofs.Element.LocalProducts
import WeakForm.Proofs.Kernel.Copies

/-!
# Assembly over all cells

The global matrix and vector of a kernel over a whole mesh are the sums of what the elements have
at each place. They do not depend on the order of the elements; for elements that are added again
in another order the kernel must not look at their numbers.
-/

namespace WeakForm

namespace Kernel

variable {α : Type} [Scalar α]

/-- The values of the kernel do not depend on the numbers of elements. -/
def IgnoresNumbers (k : Kernel α) : Prop :=
  ∀ (e : Element α) (id : ℤ) (ξ : Option (List α)),
    (k.integrand (.regular (e.renumbered id) ξ)).toOption =
      (k.integrand (.regular e ξ)).toOption

variable {k : Kernel α}

theorem IgnoresNumbers.localMatrix (hk : k.IgnoresNumbers) (e : Element α) (id : ℤ) :
    (k.localMatrix (e.renumbered id)).toOption = (k.localMatrix e).toOption :=
  Agrees.localMatrix (hk e id) (e.isCopy_renumbered id)

theorem IgnoresNumbers.localVector (hk : k.IgnoresNumbers) (e : Element α) (id : ℤ) :
    (k.localVector (e.renumbered id)).toOption = (k.localVector e).toOption :=
  Agrees.localVector (hk e id) (e.isCopy_renumbered id)

end Kernel

/-- Over the reals there is a zero matrix of any size. -/
theorem Mesh.zeroMatrix_eq (m : Mesh ℝ) : m.zeroMatrix = .ok (.empty m.dofs m.dofs) := by
  simp [Mesh.zeroMatrix, Scalar.isWord, Scalar.word, Except.map]

namespace Assembly

section Methods

variable (m : Mesh ℝ) (k : Kernel ℝ) (boundary : Option TagId)

theorem matrix_direct :
    matrix m k boundary .direct = (matrixBlocks m k boundary).map (direct m.dofs) := by
  simp only [matrix, checkCapacity_real, ok_bind]
  rfl

/-- Without blocks there is nothing to add up, so the special case makes no difference. -/
theorem matrix_triplet :
    matrix m k boundary .triplet = (matrixBlocks m k boundary).map (triplet m.dofs) := by
  simp only [matrix]
  cases matrixBlocks m k boundary with
  | error err => rfl
  | ok blocks =>
    rw [ok_bind]
    cases blocks with
    | nil => exact m.zeroMatrix_eq
    | cons b blocks => rfl

theorem vector_eq :
    vector m k boundary =
      (vectorBlocks m k boundary).map (·.foldl scatter (Array.replicate m.dofs 0)) := by
  simp only [vector, checkCapacity_real, ok_bind]
  rfl

end Methods

section Cells

variable {m : Mesh ℝ} {k : Kernel ℝ}

theorem blocks_eq_ok {β : Type} {entries : Element ℝ → Except (Error ℝ) β} {value : Element ℝ → β}
    (hvalue : ∀ {e K}, entries e = .ok K → value e = K) {cells : List (Cell ℝ)}
    {blocks : List (Block β)} :
    cells.mapM (fun c => blockOf entries c.element) = .ok blocks ↔
      (∀ c ∈ cells, ∃ K, entries c.element = .ok K) ∧
        blocks = cells.map fun c => ⟨globalDofs c.element, value c.element⟩ := by
  rw [mapM_eq_ok_iff_map (g := fun c => ⟨globalDofs c.element, value c.element⟩)]
  · refine and_congr_left fun _ => forall₂_congr ?_
    intro c _
    simp only [blockOf_eq_ok]
    exact ⟨fun ⟨_, K, hK, _⟩ => ⟨K, hK⟩, fun ⟨K, hK⟩ => ⟨_, K, hK, rfl⟩⟩
  · intro c b hb
    obtain ⟨K, hK, rfl⟩ := blockOf_eq_ok.mp hb
    rw [hvalue hK]

theorem matrixBlocks_none {blocks : List (Block (DenseMatrix ℝ))} :
    matrixBlocks m k none = .ok blocks ↔
      (∀ c ∈ m.cells, ∃ K, k.localMatrix c.element = .ok K) ∧
        blocks = m.cells.map fun c => ⟨globalDofs c.element, k.matrixOf c.element⟩ :=
  blocks_eq_ok Kernel.matrixOf_eq

theorem vectorBlocks_none {blocks : List (Block (Array ℝ))} :
    vectorBlocks m k none = .ok blocks ↔
      (∀ c ∈ m.cells, ∃ f, k.localVector c.element = .ok f) ∧
        blocks = m.cells.map fun c => ⟨globalDofs c.element, k.vectorOf c.element⟩ :=
  blocks_eq_ok Kernel.vectorOf_eq

/-- The matrix exists if all elements have one. -/
theorem exists_matrix (h : ∀ c ∈ m.cells, ∃ K, k.localMatrix c.element = .ok K) :
    ∃ A, matrix m k none .triplet = .ok A := by
  rw [matrix_triplet, matrixBlocks_none.mpr ⟨h, rfl⟩]
  exact ⟨_, rfl⟩

/-- The vector exists if all elements have one. -/
theorem exists_vector (h : ∀ c ∈ m.cells, ∃ f, k.localVector c.element = .ok f) :
    ∃ v, vector m k none = .ok v := by
  rw [vector_eq, vectorBlocks_none.mpr ⟨h, rfl⟩]
  exact ⟨_, rfl⟩

/-- All indices of the cells are in range. -/
def InRange (m : Mesh ℝ) : Prop :=
  ∀ e ∈ m.cells.map Cell.element, ∀ d ∈ e.getDof, 0 ≤ d ∧ d < m.dofs

theorem inRange (hm : m.Reachable) (hf : m.frozen = true) : InRange m := by
  intro e he d hd
  obtain ⟨c, hc, rfl⟩ := List.mem_map.mp he
  exact (hm.wellFormed.built hf).mem_getDof hc hd

theorem isMatrixOver_cells (hm : InRange m) {A : SparseMatrix ℝ}
    (hA : matrix m k none .triplet = .ok A) :
    k.IsMatrixOver (m.cells.map Cell.element) m.dofs A := by
  rw [matrix_triplet] at hA
  obtain ⟨blocks, hblocks, rfl⟩ := map_eq_ok.mp hA
  obtain ⟨hex, rfl⟩ := matrixBlocks_none.mp hblocks
  have hsize : ∀ c ∈ m.cells, ∃ K, k.localMatrix c.element = .ok K ∧
      K.rows = c.element.dofs ∧ K.cols = c.element.dofs := by
    intro c hc
    obtain ⟨K, hK⟩ := hex c hc
    exact ⟨K, hK, Kernel.localMatrix_size hK⟩
  refine ⟨by simp [triplet], by simp [triplet], hm, ?_, fun i j hi hj => ?_⟩
  · intro e he
    obtain ⟨c, hc, rfl⟩ := List.mem_map.mp he
    exact hsize c hc
  · rw [entry_triplet _ hi, List.map_map, List.map_map]
    · congr 1
      apply List.map_congr_left
      intro c hc
      exact spread_block k (fun d hd => (hm _ (List.mem_map_of_mem hc) d hd).1) i j
    · intro b hb
      obtain ⟨c, hc, rfl⟩ := List.mem_map.mp hb
      obtain ⟨K, hK, hrows, hcols⟩ := hsize c hc
      exact ⟨by simp [Kernel.matrixOf_eq hK, hrows], by simp [Kernel.matrixOf_eq hK, hcols]⟩

theorem isVectorOver_cells (hm : InRange m) {v : Array ℝ} (hv : vector m k none = .ok v) :
    k.IsVectorOver (m.cells.map Cell.element) m.dofs v := by
  rw [vector_eq] at hv
  obtain ⟨blocks, hblocks, rfl⟩ := map_eq_ok.mp hv
  obtain ⟨hex, rfl⟩ := vectorBlocks_none.mp hblocks
  have hsize : ∀ c ∈ m.cells, ∃ f, k.localVector c.element = .ok f ∧
      f.size = c.element.dofs := by
    intro c hc
    obtain ⟨f, hf⟩ := hex c hc
    exact ⟨f, hf, Kernel.localVector_size hf⟩
  refine ⟨by simp [size_foldl_scatter], hm, ?_, fun i hi => ?_⟩
  · intro e he
    obtain ⟨c, hc, rfl⟩ := List.mem_map.mp he
    exact hsize c hc
  · rw [getD_foldl_scatter _ _ (by simpa using hi), List.map_map, List.map_map]
    have hzero : (Array.replicate m.dofs (0 : ℝ)).getD i 0 = 0 := by simp [hi]
    rw [hzero, zero_add]
    congr 1
    apply List.map_congr_left
    intro c hc
    obtain ⟨f, hf, hsize⟩ := hsize c hc
    exact spreadAt_block (fun d hd => (hm _ (List.mem_map_of_mem hc) d hd).1)
      (by rw [Kernel.vectorOf_eq hf, hsize]) i

end Cells

section Reordering

variable {m m' : Mesh ℝ} {k : Kernel ℝ}

/-- With the same local data in another order all indices are still in range, and all elements
still have local values. -/
theorem local_of_perm {β : Type} {entries : Element ℝ → Except (Error ℝ) β}
    (h : ((m'.cells.map Cell.element).map (Kernel.localData entries)).Perm
      ((m.cells.map Cell.element).map (Kernel.localData entries)))
    (hm : InRange m) (hdofs : m'.dofs = m.dofs)
    (hex : ∀ e ∈ m.cells.map Cell.element, ∃ K, entries e = .ok K) :
    InRange m' ∧ ∀ c ∈ m'.cells, ∃ K, entries c.element = .ok K := by
  have hdata : ∀ e' ∈ m'.cells.map Cell.element, ∃ e ∈ m.cells.map Cell.element,
      Kernel.localData entries e = Kernel.localData entries e' := fun e' he' =>
    List.mem_map.mp (h.subset (List.mem_map_of_mem he'))
  constructor
  · intro e' he' d hd
    obtain ⟨e, he, heq⟩ := hdata e' he'
    have hdof : e.getDof = e'.getDof := congrArg Prod.fst heq
    rw [hdofs]
    exact hm e he d (hdof ▸ hd)
  · intro c hc
    obtain ⟨e, he, heq⟩ := hdata _ (List.mem_map_of_mem hc)
    obtain ⟨K, hK⟩ := hex e he
    have hentries : (entries e).toOption = (entries c.element).toOption := congrArg Prod.snd heq
    rw [hK] at hentries
    cases hc' : entries c.element with
    | error err => simp [hc', Except.toOption] at hentries
    | ok K' => exact ⟨K', rfl⟩

theorem matrix_of_perm (hm : InRange m) (hdofs : m'.dofs = m.dofs)
    (h : ((m'.cells.map Cell.element).map (Kernel.localData k.localMatrix)).Perm
      ((m.cells.map Cell.element).map (Kernel.localData k.localMatrix)))
    {A : SparseMatrix ℝ} (hA : matrix m k none .triplet = .ok A) :
    ∃ A', matrix m' k none .triplet = .ok A' ∧ A'.toDense = A.toDense := by
  have hover := isMatrixOver_cells hm hA
  obtain ⟨hm', hex⟩ := local_of_perm h hm hdofs fun e he =>
    (hover.exists_matrix e he).imp fun _ hK => hK.1
  obtain ⟨A', hA'⟩ := exists_matrix hex
  have hover' : k.IsMatrixOver _ m.dofs A' := hdofs ▸ isMatrixOver_cells hm' hA'
  exact ⟨A', hA', hover.toDense_eq hover' h⟩

theorem vector_of_perm (hm : InRange m) (hdofs : m'.dofs = m.dofs)
    (h : ((m'.cells.map Cell.element).map (Kernel.localData k.localVector)).Perm
      ((m.cells.map Cell.element).map (Kernel.localData k.localVector)))
    {v : Array ℝ} (hv : vector m k none = .ok v) : vector m' k none = .ok v := by
  have hover := isVectorOver_cells hm hv
  obtain ⟨hm', hex⟩ := local_of_perm h hm hdofs fun e he =>
    (hover.exists_vector e he).imp fun _ hf => hf.1
  obtain ⟨v', hv'⟩ := exists_vector hex
  have hover' : k.IsVectorOver _ m.dofs v' := hdofs ▸ isVectorOver_cells hm' hv'
  have heq : v' = v := hover.eq hover' h
  rw [hv', heq]

/-- The elements of `m'` are those of `m` in another order: the list of cells is rearranged, or the
elements were added to the same nodes in another order, which also changes their numbers. -/
def IsReordering (k : Kernel ℝ) (m m' : Mesh ℝ) : Prop :=
  (m'.cells.Perm m.cells ∧ m'.dofs = m.dofs) ∨
    (m'.Reachable ∧ m'.frozen = true ∧ m'.space = m.space ∧ m'.nodes = m.nodes ∧
      m'.connectivity.Perm m.connectivity ∧ k.IgnoresNumbers)

theorem IsReordering.dofs_eq (h : IsReordering k m m') (hm : m.Reachable) (hf : m.frozen = true) :
    m'.dofs = m.dofs := by
  rcases h with ⟨-, hdofs⟩ | ⟨hm', hf', hspace, hnodes, -, -⟩
  · exact hdofs
  · have hb := hm.wellFormed.built hf
    have hb' := hm'.wellFormed.built hf'
    rw [hb.dofs, hb'.dofs, hb.dofsPerNode_eq hb' hspace hnodes, hnodes]

theorem IsReordering.perm {β : Type} {entries : Element ℝ → Except (Error ℝ) β}
    (h : IsReordering k m m') (hm : m.Reachable) (hf : m.frozen = true)
    (hk : k.IgnoresNumbers → ∀ e id, (entries (e.renumbered id)).toOption = (entries e).toOption) :
    ((m'.cells.map Cell.element).map (Kernel.localData entries)).Perm
      ((m.cells.map Cell.element).map (Kernel.localData entries)) := by
  rcases h with ⟨hperm, -⟩ | ⟨hm', hf', hspace, hnodes, hconn, hblind⟩
  · exact (hperm.map _).map _
  · have helements := (hm.wellFormed.built hf).perm_elements (hm'.wellFormed.built hf') hspace
      hnodes hconn
    have hdata (cells : List (Cell ℝ)) :
        (cells.map fun c => c.element.renumbered 0).map (Kernel.localData entries) =
          (cells.map Cell.element).map (Kernel.localData entries) := by
      rw [List.map_map, List.map_map]
      exact List.map_congr_left fun c _ => Prod.ext rfl (hk hblind c.element 0)
    rw [← hdata, ← hdata]
    exact helements.map _

/-- Over a whole mesh, every entry of the global matrix and of the global vector is the sum of the
local entries that belong there, and the order of the elements does not matter. -/
theorem assembly_over_cells (hm : m.Reachable) (hf : m.frozen = true) (k : Kernel ℝ) :
    (∀ A, matrix m k none .triplet = .ok A →
      k.IsMatrixOver (m.cells.map Cell.element) m.dofs A ∧
      ∀ m', IsReordering k m m' →
        ∃ A', matrix m' k none .triplet = .ok A' ∧ A'.toDense = A.toDense) ∧
    (∀ v, vector m k none = .ok v →
      k.IsVectorOver (m.cells.map Cell.element) m.dofs v ∧
      ∀ m', IsReordering k m m' → vector m' k none = .ok v) := by
  have hrange := inRange hm hf
  constructor
  · intro A hA
    refine ⟨isMatrixOver_cells hrange hA, ?_⟩
    intro m' h
    exact matrix_of_perm hrange (h.dofs_eq hm hf) (h.perm hm hf fun hk => hk.localMatrix) hA
  · intro v hv
    refine ⟨isVectorOver_cells hrange hv, ?_⟩
    intro m' h
    exact vector_of_perm hrange (h.dofs_eq hm hf) (h.perm hm hf fun hk => hk.localVector) hv

/-- The stiffness of a bar: its middle takes that of both segments. -/
theorem exists_stiffness_bar {x : ℝ}
    (hk : ∀ c ∈ Mesh.bar.cells, k.IsStiffness c.element (DenseMatrix.scalarWeight x)) :
    ∃ A, matrix Mesh.bar k none .triplet = .ok A ∧
      A.matrix 3 = !![x, -x, 0; -x, x + x, -x; 0, -x, x] := by
  obtain ⟨A, hA⟩ := exists_matrix fun c hc =>
    (hk c hc).exists_localMatrix (Mesh.isStraight_bar hc).isDifferentiable
  obtain ⟨c, d, hcells, hc', hd'⟩ := Mesh.exists_cells_bar
  have hc : c ∈ Mesh.bar.cells := by simp [hcells]
  have hd : d ∈ Mesh.bar.cells := by simp [hcells]
  have hover := isMatrixOver_cells (inRange Mesh.reachable_bar rfl) hA
  have hfirst {p q : ℕ} := (Mesh.isStraight_bar hc).entry_matrixOf (hk c hc) (p := p) (q := q)
  have hsecond {p q : ℕ} := (Mesh.isStraight_bar hd).entry_matrixOf (hk d hd) (p := p) (q := q)
  refine ⟨A, hA, Matrix.ext fun i j => ?_⟩
  rw [SparseMatrix.matrix, Matrix.of_apply, hover.entry i j i.isLt j.isLt, hcells]
  simp only [Kernel.matrixShare, List.map_cons, List.map_nil, List.sum_cons, List.sum_nil, hc', hd',
    (Mesh.isStraight_bar hc).dofs_eq, (Mesh.isStraight_bar hd).dofs_eq]
  fin_cases i <;> fin_cases j <;>
    simp [Finset.sum_range_succ, hfirst, hsecond, DenseMatrix.scalarWeight]

/-- It takes half of the load of each. -/
theorem exists_load_bar {x : ℝ}
    (hk : ∀ c ∈ Mesh.bar.cells, k.IsColumn c.element fun N i => x * N.entry 0 i) :
    ∃ v, vector Mesh.bar k none = .ok v ∧ v.getD 1 0 = x := by
  obtain ⟨v, hv⟩ := exists_vector fun c hc =>
    ((Mesh.isStraight_bar hc).exists_localVector (hk c hc)).imp fun _ hf => hf.1
  obtain ⟨c, d, hcells, hc', hd'⟩ := Mesh.exists_cells_bar
  have hc : c ∈ Mesh.bar.cells := by simp [hcells]
  have hd : d ∈ Mesh.bar.cells := by simp [hcells]
  have hover := isVectorOver_cells (inRange Mesh.reachable_bar rfl) hv
  obtain ⟨f, hf, hfvalue⟩ := (Mesh.isStraight_bar hc).exists_localVector (hk c hc)
  obtain ⟨g, hg, hgvalue⟩ := (Mesh.isStraight_bar hd).exists_localVector (hk d hd)
  have hlast : f[1]?.getD 0 = x / 2 := by simpa using hfvalue 1 one_lt_two
  have hfirst : g[0]?.getD 0 = x / 2 := by simpa using hgvalue 0 two_pos
  refine ⟨v, hv, ?_⟩
  rw [hover.entry 1 (by decide), hcells]
  simp [Kernel.vectorShare, hc', hd', (Mesh.isStraight_bar hc).dofs_eq, (Mesh.isStraight_bar hd).dofs_eq,
    Finset.sum_range_succ, Kernel.vectorOf_eq hf, Kernel.vectorOf_eq hg, hlast, hfirst]

/-- The stiffness and the load of a bar. -/
noncomputable def barConstants : Definitions ℝ :=
  [("D", .constant (.plain (.real 3))), ("c", .constant (.plain (.real 2)))]

theorem exists_compile_bar {text : String} {tree : Expr} (hparse : Expr.parse text = .ok tree)
    (hnames : ∀ n ∈ tree.names, Names.isReserved n = true ∨ n ∈ ["D", "c"]) (label : String) :
    ∃ k, Kernel.compile label text barConstants = .ok k := by
  have hnamed : barConstants.AreNamed := by
    intro d hd
    rcases List.mem_pair.mp hd with rfl | rfl <;> exact ⟨by decide, by decide, rfl⟩
  exact Kernel.exists_compile hparse hnamed hnames label

theorem assembly_over_bar : ∃ k l A v,
    Kernel.compile "K" "B'*D*B" barConstants = .ok k ∧ Kernel.compile "f" "c*N'" barConstants = .ok l ∧
      matrix Mesh.bar k none .triplet = .ok A ∧ vector Mesh.bar l none = .ok v ∧
      k.IsMatrixOver (Mesh.bar.cells.map Cell.element) 3 A ∧
      l.IsVectorOver (Mesh.bar.cells.map Cell.element) 3 v ∧
      A.matrix 3 = !![3, -3, 0; -3, 3 + 3, -3; 0, -3, 3] ∧ v.getD 1 0 = 2 := by
  obtain ⟨k, hk⟩ := exists_compile_bar Kernel.parse_diffusion (by decide) "K"
  obtain ⟨l, hl⟩ := exists_compile_bar Kernel.parse_loaded (by decide) "f"
  obtain ⟨A, hA, hentry⟩ := exists_stiffness_bar fun c hc =>
    Kernel.isStiffness_scalar hk Kernel.parse_diffusion (by decide) rfl
      (Mesh.isStraight_bar hc).isLagrange (Mesh.isStraight_bar hc).dofsPerNode_eq
  obtain ⟨v, hv, hvalue⟩ := exists_load_bar fun c hc =>
    Kernel.isColumn_loaded hl (x := .real 2) trivial rfl fun _ _ =>
      Element.rows_shape (Mesh.isStraight_bar hc).dofsPerNode_eq
  exact ⟨k, l, A, v, hk, hl, hA, hv, ((assembly_over_cells Mesh.reachable_bar rfl k).1 A hA).1,
    ((assembly_over_cells Mesh.reachable_bar rfl l).2 v hv).1, hentry, hvalue⟩

end Reordering

end Assembly
end WeakForm
