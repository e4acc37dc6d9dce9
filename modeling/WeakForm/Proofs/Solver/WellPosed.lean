import WeakForm.Proofs.RealScalar
import WeakForm.Proofs.Assembly.Energy
import WeakForm.Proofs.Assembly.OverCells
import WeakForm.Proofs.Element.LocalProducts
import WeakForm.Proofs.Mesh.Intervals
import WeakForm.Proofs.Solver.AffineFields
import WeakForm.Proofs.Solver.Steady

/-!
# Well-posed steady problems

Over a connected mesh of Lagrange elements with one degree of freedom per node the form `B'*B` has no
energy only for constant fields. If at least one degree of freedom is essential, the reduced matrix is
therefore positive definite, and the problem has exactly one solution.
-/

namespace WeakForm

open Matrix Condition WeakForm.Partition

namespace Partition

variable {n : ℕ} {X : Matrix (Fin n) (Fin n) ℝ} {fixed : Fin n → Prop}

/-- A regular system has exactly one solution. -/
theorem IsRegular.existsUnique (hX : IsRegular X fixed) (b g : Fin n → ℝ) :
    ∃! u, IsSolution X b g fixed u := by
  classical
  -- fixed unknowns stand for themselves, the others for the left sides of their equations
  let sides : (Fin n → ℝ) →ₗ[ℝ] Fin n → ℝ := LinearMap.pi fun i =>
    if fixed i then LinearMap.proj i else LinearMap.proj i ∘ₗ X.mulVecLin
  have hfixed (u : Fin n → ℝ) (i : Fin n) (hi : fixed i) : sides u i = u i := by simp [sides, hi]
  have hfree (u : Fin n → ℝ) (i : Fin n) (hi : ¬ fixed i) : sides u i = (X *ᵥ u) i := by
    simp [sides, hi]
  have hinjective : Function.Injective sides := by
    refine (injective_iff_map_eq_zero sides).mpr fun u hu => isRegular_iff.mp hX u ?_ ?_
    · exact fun i hi => (hfixed u i hi).symm.trans (congrFun hu i)
    · exact fun i hi => (hfree u i hi).symm.trans (congrFun hu i)
  obtain ⟨u, hu⟩ := LinearMap.injective_iff_surjective.mp hinjective
    fun i => if fixed i then g i else b i
  have hsolution : IsSolution X b g fixed u := by
    refine ⟨fun i hi => ?_, fun i hi => ?_⟩
    · exact (hfixed u i hi).symm.trans ((congrFun hu i).trans (if_pos hi))
    · exact (hfree u i hi).symm.trans ((congrFun hu i).trans (if_neg hi))
  exact ⟨u, hsolution, fun v hv => hv.unique hX hsolution⟩

end Partition

namespace Element

variable {n : ℕ} {e : Element ℝ}

/-- The value at a node of a vector with one entry per node, zero for numbers that are not nodes. -/
def nodal (w : Fin n → ℝ) (k : ℤ) : ℝ :=
  if h : (k - 1).toNat < n then w ⟨(k - 1).toNat, h⟩ else 0

/-- With one degree of freedom per node an element takes the values at its nodes. -/
theorem valuesOf_nodal (hscalar : e.dofsPerNode = 1) (w : Fin n → ℝ) {p : ℕ} {k : ℤ}
    (hk : e.nodeIds[p]? = some k) (hone : 1 ≤ k) (hle : k ≤ n) : e.valuesOf w p = nodal w k := by
  have hlt : (k - 1).toNat < n := by omega
  have hdof : e.getDof[p]? = some ((((⟨(k - 1).toNat, hlt⟩ : Fin n) : ℕ)) : ℤ) := by
    have hentry := e.getElem?_getDof p (i := 0) (by omega)
    rw [hscalar, hk, mul_one, add_zero] at hentry
    rw [hentry, Option.map_some, dofIndex]
    congr 1
    push_cast
    omega
  rw [valuesOf_eq hdof, nodal, dif_pos hlt]

theorem nodal_natCast (w : Fin n → ℝ) {i : ℕ} (hi : i < n) :
    nodal w ((i : ℤ) + 1) = w ⟨i, hi⟩ := by
  have hindex : ((i : ℤ) + 1 - 1).toNat = i := by omega
  simp [nodal, hi]

end Element

namespace Kernel

variable {m : Mesh ℝ} {k : Kernel ℝ} {A : SparseMatrix ℝ} {W : ℕ → ℕ → ℝ} {fixed : Fin m.dofs → Prop}

/-- Over a connected mesh of scalar Lagrange elements the reduced matrix of a positive weight is
positive definite as soon as one degree of freedom is fixed. -/
theorem posDef_of_isConnected (hm : m.Reachable) (hfrozen : m.frozen = true)
    (hscalar : m.dofsPerNode = 1) (hfamilies : ∀ c ∈ m.cells, c.element.family.IsLagrange)
    (hconnected : m.IsConnected) (hA : Assembly.matrix m k none .triplet = .ok A)
    (hk : ∀ c ∈ m.cells, k.IsStiffness c.element W)
    (hW : ∀ c ∈ m.cells, ∀ q ∈ c.element.points,
      DenseMatrix.IsPositive W (c.element.derivativeAt q).rows)
    (hfixed : ∃ d, fixed d) :
    ((A.matrix m.dofs).toBlock (¬ fixed ·) (¬ fixed ·)).PosDef := by
  have hbuilt := hm.wellFormed.built hfrozen
  have hdofs : m.dofs = m.nodes.length := by rw [hbuilt.dofs, hscalar, mul_one]
  have hover := Assembly.isMatrixOver_cells (Assembly.inRange hm hfrozen) hA
  refine hover.posDef_toBlock (W := W) (by simpa using hk) (by simpa using hW)
    fun w hw hflat => ?_
  -- the vector is constant on every cell
  have hlocal : ∀ a b, m.Adjacent a b → Element.nodal w a = Element.nodal w b := by
    rintro a b ⟨c, hc, ha, hb⟩
    obtain ⟨hrange, hone⟩ := hbuilt.of_mem_cells hc
    have hcell := List.mem_map_of_mem (f := Cell.element) hc
    obtain ⟨K, hK, -⟩ := hover.exists_matrix _ hcell
    have hconstant := Element.constant_of_times_eq_zero (hfamilies c hc) (hone.trans hscalar)
      (hm.wellFormed.cols_nodes_pos hfrozen hc) ((hk c hc).isCongruence.isDifferentiable hK)
      (hflat _ hcell)
    have hvalue : ∀ k ∈ c.element.nodeIds, Element.nodal w k = c.element.valuesOf w 0 := by
      intro k hk
      obtain ⟨p, hp, rfl⟩ := List.mem_iff_getElem.mp hk
      obtain ⟨h1, hle⟩ := hrange _ hk
      rw [← hconstant p (c.element.length_nodeIds ▸ hp)]
      exact (Element.valuesOf_nodal (hone.trans hscalar) w (List.getElem?_eq_getElem hp) h1
        (hdofs ▸ hle)).symm
    rw [hvalue a ha, hvalue b hb]
  obtain ⟨d, hd⟩ := hfixed
  funext i
  have hnode (j : Fin m.dofs) : Element.nodal w ((j : ℕ) + 1 : ℤ) = w j := by
    have hj : (((j : ℕ) + 1 : ℤ) - 1).toNat = j := by omega
    simp [Element.nodal]
  have hchain := hconnected ((i : ℕ) + 1) ((d : ℕ) + 1) (by omega) (by omega) (by omega) (by omega)
  have hvalue := Mesh.eq_of_chain hlocal hchain
  rw [hnode, hnode, hw d hd] at hvalue
  exact hvalue

end Kernel

namespace Simulation

variable {m : Mesh ℝ} {defs : Definitions ℝ} {label : String} {k : Kernel ℝ} {A : SparseMatrix ℝ}
  {conditions : List (Condition ℝ)}

/-- Over a connected mesh of Lagrange elements with one degree of freedom per node, embedded or not,
at least one of which is essential, the reduced matrix of `B'*B` is symmetric and positive definite.
The steady problem has exactly one solution for all forces and all values, and the solver finds it. -/
theorem steady_wellPosed (hm : m.Reachable) (hfrozen : m.frozen = true)
    (hscalar : m.dofsPerNode = 1) (hfamilies : ∀ c ∈ m.cells, c.element.family.IsLagrange)
    (hconnected : m.IsConnected) (hk : Kernel.compile label "B'*B" defs = .ok k)
    (hA : Assembly.matrix m k none .triplet = .ok A)
    (hessential : ∃ d : Fin m.dofs, IsEssential m conditions d) :
    ((A.matrix m.dofs).toBlock (fun d => ¬ IsEssential m conditions d)
      (fun d => ¬ IsEssential m conditions d)).PosDef ∧
    (∀ f g : Fin m.dofs → ℝ,
      ∃! u, IsSolution (A.matrix m.dofs) f g (fun d => IsEssential m conditions d) u) ∧
    ∀ (s : Simulation ℝ) (f : Fin m.dofs → ℝ), (∀ c ∈ conditions, c.Applicable m none) →
      s.PosesSteady m conditions (A.matrix m.dofs) f →
      ∃ u, s.solveSteady.1 = .ok (Array.ofFn u) ∧ IsSolution (A.matrix m.dofs) f
        (fun d => prescribedValue m none conditions d) (fun d => IsEssential m conditions d) u := by
  have hposDef := Kernel.posDef_of_isConnected hm
    hfrozen hscalar hfamilies hconnected hA
    (fun c hc => Kernel.isStiffness_grammian hk (hfamilies c hc)
      (((hm.wellFormed.built hfrozen).of_mem_cells hc).2.trans hscalar))
    (fun _ _ _ _ => DenseMatrix.isPositive_scalarWeight one_pos _) hessential
  have hregular := isRegular_of_posDef hposDef
  refine ⟨hposDef, hregular.existsUnique, fun s f hconditions hs => ?_⟩
  obtain ⟨u, s', hu, -, -, hsolution⟩ := hs.exists_solution hm hfrozen hconditions hregular
  exact ⟨u, congrArg Prod.fst hu, hsolution⟩

/-- The nodes of two segments of the plane, one after the other. -/
def bentNodes : List (List ℝ) := [[0, 0], [3, 4], [3, 5]]

theorem isDifferentiable_bentLine {c : Family × List ℤ} (hc : c ∈ Grid.segments .line2 2) {e : Element ℝ}
    (he : e.IsMade c.1 (Mesh.nodesOf (Mesh.coordinateMatrix bentNodes) c.2) c.2 1) :
    e.family.IsLagrange ∧ e.IsDifferentiable := by
  have hcols : e.nodes.cols = 2 := by
    rw [he.nodes_eq]
    exact Mesh.nodeDim_eq (by simp [bentNodes]) (by simp [bentNodes])
  have hcell : c = (.line2, [1, 2]) ∨ c = (.line2, [2, 3]) := by
    simpa [Grid.segments, List.range_succ] using hc
  obtain ⟨hline, hne⟩ : c.1 = .line2 ∧
      (Mesh.nodesOf (Mesh.coordinateMatrix bentNodes) c.2).entry 1 1 ≠
        (Mesh.nodesOf (Mesh.coordinateMatrix bentNodes) c.2).entry 0 1 := by
    rcases hcell with rfl | rfl
    · rw [Mesh.entry_nodesOf (p := 1) rfl rfl, Mesh.entry_nodesOf (p := 0) rfl rfl]
      norm_num
    · rw [Mesh.entry_nodesOf (p := 1) rfl rfl, Mesh.entry_nodesOf (p := 0) rfl rfl]
      norm_num
  rw [← he.nodes_eq] at hne
  have hf : e.family = .line2 := he.family_eq.trans hline
  exact ⟨hf ▸ by decide, Element.isDifferentiable_line2 hf he.dofsPerNode_eq (by omega) (by omega) hne⟩

/-- The two segments with a tag for their ends. -/
noncomputable def bentLine (essential : Bool) : Mesh ℝ :=
  ((Mesh.ofLists (.integer 1) bentNodes (Grid.segments .line2 2)).freeze.2.addBoundary (.name "ends") []
    essential).2

theorem exists_bentLine (essential : Bool) : ∃ r,
    (Mesh.ofLists (.integer 1) bentNodes (Grid.segments .line2 2)).freeze.1 = .ok () ∧
    ((Mesh.ofLists (.integer 1) bentNodes (Grid.segments .line2 2)).freeze.2.addBoundary (.name "ends")
      [] essential).1 = .ok r ∧
    (bentLine essential).IsOver bentNodes (Grid.segments .line2 2) 1 ∧
    (bentLine essential).regions = [((TagId.name "ends").key, r)] ∧ r.essential = essential ∧
    ∀ k, k ∈ (bentLine essential).regionNodeIds r ↔ k = 1 ∨ k = 3 := by
  have hnodes : ∀ x ∈ bentNodes, 1 ≤ x.length ∧ x.length ≤ 3 := by simp [bentNodes]
  have hspace : Space.dofsPerNode (.integer 1 : Datum ℝ) (Mesh.nodeDim bentNodes) = .ok 1 := rfl
  have hcells : ∀ c ∈ Grid.segments .line2 2, c.2.length = c.1.nodeCount ∧
      (∀ fixed, c.1.fixedDofs = some fixed → 1 = fixed) ∧
        ∀ k ∈ c.2, 1 ≤ k ∧ k ≤ (bentNodes.length : ℤ) := by
    simp only [bentNodes, List.length_cons, List.length_nil]
    decide
  obtain ⟨hok, hfrozen, hregions⟩ :=
    Mesh.isOver_freeze hnodes ⟨by simp [bentNodes], by decide⟩ hspace hcells
  obtain ⟨r, m, hadd, h, hregions, hessential, hends⟩ :=
    hfrozen.exists_tagExterior hregions (TagId.isPlain_name "ends") essential
  obtain rfl : bentLine essential = m := congrArg Prod.snd hadd
  exact ⟨r, hok, congrArg Prod.fst hadd, h, hregions, hessential, fun k =>
    (hends k).trans (Grid.mem_exterior_segments (.inl rfl) Nat.two_pos)⟩

theorem exists_stiffness_bentLine {m : Mesh ℝ} (h : m.IsOver bentNodes (Grid.segments .line2 2) 1) :
    (∀ c ∈ m.cells, c.element.family.IsLagrange) ∧ ∃ k A, Kernel.compile "K" "B'*B" [] = .ok k ∧
      Assembly.matrix m k none .triplet = .ok A := by
  have hnamed : Definitions.AreNamed ([] : Definitions ℝ) := fun _ h => nomatch h
  obtain ⟨k, hk⟩ := Kernel.exists_compile Kernel.parse_grammian hnamed (by decide) "K"
  have hlocal : ∀ c ∈ m.cells, ∃ K, k.localMatrix c.element = .ok K :=
    h.of_mem_cells (P := fun e => ∃ K, k.localMatrix e = .ok K) fun c hc e he =>
      have ⟨hf, hdiff⟩ := isDifferentiable_bentLine hc he
      (Kernel.isStiffness_grammian hk hf he.dofsPerNode_eq).exists_localMatrix hdiff
  obtain ⟨A, hA⟩ := Assembly.exists_matrix hlocal
  exact ⟨h.of_mem_cells fun c hc e he => (isDifferentiable_bentLine hc he).1, k, A, hk, hA⟩

theorem steady_of_bentLine_wellPosed : ∃ (m : Mesh ℝ) (k : Kernel ℝ) (A : SparseMatrix ℝ)
      (conditions : List (Condition ℝ)), m.IsOver bentNodes (Grid.segments .line2 2) 1 ∧
    Kernel.compile "K" "B'*B" [] = .ok k ∧ Assembly.matrix m k none .triplet = .ok A ∧
    (∀ d : Fin m.dofs, IsEssential m conditions d ↔ (d : ℕ) ≠ 1) ∧
    ((A.matrix m.dofs).toBlock (fun d => ¬ IsEssential m conditions d)
      (fun d => ¬ IsEssential m conditions d)).PosDef := by
  obtain ⟨r, -, -, h, hregions, -, hends⟩ := exists_bentLine true
  obtain ⟨-, hvalues⟩ := isEssential_onTag 0 [] h.frozen (TagId.isPlain_name "ends") hregions h.coords_eq
    h.dofsPerNode_eq (by decide) (Nat.zero_le _)
  have hessential (d : Fin (bentLine true).dofs) :
      IsEssential (bentLine true) [onTag (.name "ends") (.affine 0 [])] d ↔ (d : ℕ) ≠ 1 := by
    have hlt : (d : ℕ) < 3 := d.isLt.trans_eq h.dofs_eq
    rw [(hvalues d).1, hends]
    omega
  obtain ⟨hfamilies, k, A, hk, hA⟩ := exists_stiffness_bentLine h
  have hdofs : 0 < (bentLine true).dofs := by
    rw [h.dofs_eq]
    decide
  obtain ⟨hposDef, -, -⟩ := steady_wellPosed h.reachable h.frozen h.dofsPerNode_eq hfamilies
    (Grid.isConnected_segments rfl h) hk hA ⟨⟨0, hdofs⟩, (hessential _).mpr Nat.zero_ne_one⟩
  exact ⟨_, k, A, _, h, hk, hA, hessential, hposDef⟩

end Simulation
end WeakForm
