import WeakForm.Proofs.RealScalar
import WeakForm.Proofs.Assembly.Diffusion
import WeakForm.Proofs.Element.AffineFields
import WeakForm.Proofs.Mesh.Grids
import WeakForm.Proofs.Solver.Steady

/-!
# Equilibrium of plane solids

The matrix of `B'*D*B` over plane elements with two degrees of freedom per node takes every rigid
motion of the nodes to zero, from both sides. Multiplied with a rigid motion, the equations of a steady
problem have no stiffness in them. So the reactions have the same sum and the same moment as the load,
up to the sign, whatever the solution is.
-/

namespace WeakForm

open Finset Matrix

namespace Mesh

variable {m : Mesh ℝ}

/-- The motion of the nodes of a plane by a translation and a rotation about the origin: the first
components at the even places, the second ones at the odd places. -/
noncomputable def rigidMotion (m : Mesh ℝ) (a c ω : ℝ) (d : Fin m.dofs) : ℝ :=
  let x := m.nodes.getD (d / 2) []
  if (d : ℕ) % 2 = 0 then a - ω * x.getD 1 0 else c + ω * x.getD 0 0

/-- The sums of both components of nodal forces and their moment about the origin. -/
noncomputable def resultant (m : Mesh ℝ) (v : Fin m.dofs → ℝ) : ℝ × ℝ × ℝ :=
  (∑ k ∈ range m.nodes.length, padded v (k * 2), ∑ k ∈ range m.nodes.length, padded v (k * 2 + 1),
    ∑ k ∈ range m.nodes.length, ((m.nodes.getD k []).getD 0 0 * padded v (k * 2 + 1) -
      (m.nodes.getD k []).getD 1 0 * padded v (k * 2)))

variable (hplane : m.dofs = m.nodes.length * 2)
include hplane

theorem padded_rigidMotion (a c ω : ℝ) {k : ℕ} (hk : k < m.nodes.length) :
    padded (m.rigidMotion a c ω) (k * 2) = a - ω * (m.nodes.getD k []).getD 1 0 ∧
      padded (m.rigidMotion a c ω) (k * 2 + 1) = c + ω * (m.nodes.getD k []).getD 0 0 := by
  have hfirst := padded_coe (m.rigidMotion a c ω) ⟨k * 2, by omega⟩
  have hsecond := padded_coe (m.rigidMotion a c ω) ⟨k * 2 + 1, by omega⟩
  have hdiv : (k * 2 + 1) / 2 = k := by omega
  have hmod : (k * 2 + 1) % 2 = 1 := by omega
  constructor
  · rw [hfirst]
    simp [rigidMotion]
  · rw [hsecond]
    simp [rigidMotion, hdiv, hmod]

/-- The work of nodal forces on a rigid motion. -/
theorem dotProduct_rigidMotion (v : Fin m.dofs → ℝ) (a c ω : ℝ) : v ⬝ᵥ m.rigidMotion a c ω =
    a * (m.resultant v).1 + c * (m.resultant v).2.1 + ω * (m.resultant v).2.2 := by
  have hpadded : v ⬝ᵥ m.rigidMotion a c ω =
      ∑ d ∈ range (m.nodes.length * 2), padded v d * padded (m.rigidMotion a c ω) d := by
    rw [← hplane, sum_range]
    simp only [padded_coe]
    rfl
  rw [hpadded, sum_range_mul_eq]
  simp only [resultant, mul_sum, ← sum_add_distrib, sum_range_succ, sum_range_zero, zero_add, add_zero]
  refine sum_congr rfl fun k hk => ?_
  obtain ⟨hfirst, hsecond⟩ := padded_rigidMotion hplane a c ω (mem_range.mp hk)
  rw [hfirst, hsecond]
  ring

/-- Forces that do no work together on any rigid motion have opposite resultants. -/
theorem resultant_eq_neg {v w : Fin m.dofs → ℝ}
    (h : ∀ a c ω, v ⬝ᵥ m.rigidMotion a c ω = -(w ⬝ᵥ m.rigidMotion a c ω)) :
    m.resultant v = -m.resultant w := by
  simp only [dotProduct_rigidMotion hplane] at h
  have hfirst := h 1 0 0
  have hsecond := h 0 1 0
  have hmoment := h 0 0 1
  simp only [one_mul, zero_mul, add_zero, zero_add] at hfirst hsecond hmoment
  exact Prod.ext hfirst (Prod.ext hsecond hmoment)

end Mesh

namespace Simulation

variable {m : Mesh ℝ} {k : Kernel ℝ} {defs : Definitions ℝ} {label : String} {D : Value ℝ}
  {A : SparseMatrix ℝ}

section Motions

variable (hm : m.Reachable) (hfrozen : m.frozen = true) (hdofs : m.dofsPerNode = 2)
include hm hfrozen hdofs

/-- An element of the mesh takes part in a rigid motion. -/
theorem valuesOf_rigidMotion {x : Cell ℝ} (hx : x ∈ m.cells) (a c ω : ℝ) :
    ∀ p < x.element.family.nodeCount,
      x.element.valuesOf (m.rigidMotion a c ω) (p * 2) = a - ω * x.element.nodes.entry p 1 ∧
        x.element.valuesOf (m.rigidMotion a c ω) (p * 2 + 1) = c + ω * x.element.nodes.entry p 0 := by
  intro p hp
  have hbuilt := hm.wellFormed.built hfrozen
  have hplane : m.dofs = m.nodes.length * 2 := by rw [hbuilt.dofs, hdofs]
  obtain ⟨hmade, hids⟩ := hbuilt.isMade_of_mem hx
  have hlt : p < x.element.nodeIds.length := by rwa [x.element.length_nodeIds]
  obtain ⟨hone, hle⟩ := hids _ (List.getElem_mem hlt)
  obtain ⟨k, hk⟩ : ∃ k : ℕ, x.element.nodeIds[p] = (k : ℤ) + 1 := ⟨(x.element.nodeIds[p] - 1).toNat, by omega⟩
  have hid : x.element.nodeIds[p]? = some ((k : ℤ) + 1) := by rw [List.getElem?_eq_getElem hlt, hk]
  have hnodes : k < m.nodes.length := by omega
  have hnode : m.nodes[((k : ℤ) + 1 - 1).toNat]? = some m.nodes[k] := by simp [hnodes]
  have htwo := hmade.dofsPerNode_eq.trans hdofs
  have hvalue (i : ℕ) (hi : i < 2) : x.element.valuesOf (m.rigidMotion a c ω) (p * 2 + i) =
      padded (m.rigidMotion a c ω) (k * 2 + i) := by
    have h := Element.valuesOf_padded (m.rigidMotion a c ω) hid (htwo.symm ▸ hi)
      (by rw [htwo]; omega)
    rwa [htwo] at h
  have hcoordinate (j : ℕ) : x.element.nodes.entry p j = (m.nodes.getD k []).getD j 0 := by
    rw [hmade.nodes_eq, Mesh.entry_nodesOf hid hnode, List.getD_eq_getElem _ _ hnodes]
  obtain ⟨hfirst, hsecond⟩ := Mesh.padded_rigidMotion hplane a c ω hnodes
  rw [hcoordinate, hcoordinate, ← hfirst, ← hsecond]
  exact ⟨hvalue 0 two_pos, hvalue 1 one_lt_two⟩

/-- Rigid motions are taken to zero from both sides. -/
theorem rigidMotion_eq_zero
    (hfamilies : ∀ x ∈ m.cells, x.element.family ∈ [Family.quad4, Family.tri3, Family.tri6])
    (hk : Kernel.compile label "B'*D*B" defs = .ok k) (hD : defs.lookup "D" = some (.constant D))
    (hA : Assembly.matrix m k none .triplet = .ok A) (a c ω : ℝ) :
    A.matrix m.dofs *ᵥ m.rigidMotion a c ω = 0 ∧ m.rigidMotion a c ω ᵥ* A.matrix m.dofs = 0 := by
  have hdim : ∀ x ∈ m.cells, x.element.family.dim = 2 := by
    intro x hx
    have hfamily := hfamilies x hx
    revert hfamily
    cases x.element.family <;> decide
  have htwo : ∀ x ∈ m.cells, x.element.dofsPerNode = 2 := fun x hx =>
    ((hm.wellFormed.built hfrozen).isMade_of_mem hx).1.dofsPerNode_eq.trans hdofs
  refine Assembly.eq_zero_of_derivatives hm hfrozen (fun x hx => ?_) hk hD (fun x hx ξ B hB => ?_) hA
  · rw [Element.dofs, htwo x hx]
    omega
  · exact Element.rowsCancel_rigid (hdim x hx) (htwo x hx) hB
      (valuesOf_rigidMotion hm hfrozen hdofs hx a c ω)

end Motions

/-- Over plane elements with two degrees of freedom per node the matrix of `B'*D*B` takes rigid motions
to zero from both sides, whatever the constant is. The reactions of any vector, be it the solution or
not, have the opposite resultant of the load, and so have those that the solver keeps, whatever is
essential. -/
theorem global_equilibrium (hm : m.Reachable) (hfrozen : m.frozen = true) (hdofs : m.dofsPerNode = 2)
    (hfamilies : ∀ x ∈ m.cells, x.element.family ∈ [Family.quad4, Family.tri3, Family.tri6])
    (hk : Kernel.compile label "B'*D*B" defs = .ok k) (hD : defs.lookup "D" = some (.constant D))
    (hA : Assembly.matrix m k none .triplet = .ok A) :
    (∀ a c ω, A.matrix m.dofs *ᵥ m.rigidMotion a c ω = 0 ∧
      m.rigidMotion a c ω ᵥ* A.matrix m.dofs = 0) ∧
    (∀ (K : NumberMatrix ℝ) (f u : Fin m.dofs → ℝ), K.Represents (A.matrix m.dofs) →
      ∃ r : Fin m.dofs → ℝ, reactions K (Array.ofFn f) (Array.ofFn u) = .ok (.ofVector (Array.ofFn r)) ∧
        m.resultant r = -m.resultant f) ∧
    ∀ (s : Simulation ℝ) conditions (f : Fin m.dofs → ℝ) u s',
      s.PosesSteady m conditions (A.matrix m.dofs) f → s.solveSteady = (.ok u, s') →
        ∃ r : Fin m.dofs → ℝ, s'.scheme = .steady (some (.ofVector (Array.ofFn r))) ∧
          m.resultant r = -m.resultant f := by
  have hzero := rigidMotion_eq_zero hm hfrozen hdofs hfamilies hk hD hA
  have hplane : m.dofs = m.nodes.length * 2 := by rw [(hm.wellFormed.built hfrozen).dofs, hdofs]
  have hbalance (f u : Fin m.dofs → ℝ) :
      m.resultant (A.matrix m.dofs *ᵥ u - f) = -m.resultant f := by
    refine Mesh.resultant_eq_neg hplane fun a c ω => ?_
    rw [sub_dotProduct, dotProduct_comm, dotProduct_mulVec, (hzero a c ω).2, zero_dotProduct, zero_sub]
  refine ⟨hzero, fun K f u hK => ⟨_, reactions_eq hK f u, hbalance f u⟩,
    fun s conditions f u s' hs h => ?_⟩
  obtain ⟨v, -, hscheme⟩ := hs.reactions_of_solveSteady hm h
  exact ⟨_, hscheme, hbalance f v⟩

section Plate

/-- The nodes of a triangle that is cut into three ones around a node in its interior. -/
def plateNodes : List (List ℝ) := [[0, 0], [3, 0], [0, 3], [1, 1]]

/-- Its elements. -/
def plateCells : List (Family × List ℤ) := [(.tri3, [1, 2, 4]), (.tri3, [2, 3, 4]), (.tri3, [3, 1, 4])]

/-- The sides of its elements: one on the rim, and two that end in the interior. -/
def plateSide (i s : Fin 3) : List ℤ :=
  (![![[1, 2], [2, 4], [4, 1]], ![[2, 3], [3, 4], [4, 2]], ![[3, 1], [1, 4], [4, 3]]] i s)

theorem sideOf_plate {i s : ℕ} {ids : List ℤ} :
    Mesh.sideOf plateCells i s = some ids ↔ ∃ j t : Fin 3, (i, s) = (↑j, ↑t) ∧ ids = plateSide j t := by
  have hsides : ∀ j t : Fin 3, Mesh.sideOf plateCells j t = some (plateSide j t) := by decide
  constructor
  · intro h
    obtain ⟨c, hc, hbind⟩ := Option.bind_eq_some_iff.mp h
    obtain ⟨places, hplaces, -⟩ := Option.map_eq_some_iff.mp hbind
    obtain ⟨hi, rfl⟩ := List.getElem?_eq_some_iff.mp hc
    obtain ⟨hs, -⟩ := List.getElem?_eq_some_iff.mp hplaces
    have hlength : ∀ c ∈ plateCells, c.1.sides.length = 3 := by decide
    have hs' : s < 3 := (hlength _ (List.getElem_mem hi)).subst hs
    exact ⟨⟨i, hi⟩, ⟨s, hs'⟩, rfl, Option.some.inj (h.symm.trans (hsides ⟨i, hi⟩ ⟨s, hs'⟩))⟩
  · rintro ⟨j, t, heq, rfl⟩
    cases heq
    exact hsides j t

/-- The sides of the rim are exterior, the other ones are shared. -/
theorem isExterior_plate_iff {i s : ℕ} {ids : List ℤ} :
    Mesh.IsExterior plateCells i s ids ↔ s = 0 ∧ ∃ j : Fin 3, i = j ∧ ids = plateSide j 0 := by
  have hshared : ∀ j t : Fin 3, t ≠ 0 → ∃ j' t' : Fin 3, (j', t') ≠ (j, t) ∧
      (plateSide j' t').toFinset = (plateSide j t).toFinset := by decide
  have hexterior : ∀ j j' t' : Fin 3, (plateSide j' t').toFinset = (plateSide j 0).toFinset →
      (j', t') = (j, 0) := by decide
  constructor
  · rintro ⟨hside, hunique⟩
    obtain ⟨j, t, heq, rfl⟩ := sideOf_plate.mp hside
    cases heq
    by_cases ht : t = 0
    · subst ht
      exact ⟨rfl, j, rfl, rfl⟩
    · obtain ⟨j', t', hother, hkey⟩ := hshared j t ht
      have hsame := hunique j' t' _ (sideOf_plate.mpr ⟨j', t', rfl, rfl⟩) (sortedSet_eq_iff.mpr hkey)
      exact (hother (Prod.ext (Fin.ext (congrArg Prod.fst hsame)) (Fin.ext (congrArg Prod.snd hsame)))).elim
  · rintro ⟨rfl, j, rfl, rfl⟩
    refine .of_mem (sideOf_plate.mpr ⟨j, 0, rfl, rfl⟩) fun i' s' ids' hside' hmem => ?_
    obtain ⟨j', t', heq, rfl⟩ := sideOf_plate.mp hside'
    obtain ⟨rfl, rfl⟩ := Prod.mk.inj (hexterior j j' t' (List.toFinset.ext hmem))
    exact heq

/-- The node in the interior is the only one that is on no exterior side. -/
theorem mem_exterior_plate {k : ℤ} :
    (∃ i s ids, Mesh.IsExterior plateCells i s ids ∧ k ∈ ids) ↔ k = 1 ∨ k = 2 ∨ k = 3 := by
  constructor
  · rintro ⟨i, s, ids, hexterior, hk⟩
    obtain ⟨rfl, j, rfl, rfl⟩ := isExterior_plate_iff.mp hexterior
    have hends : ∀ j : Fin 3, ∀ k ∈ plateSide j 0, k = 1 ∨ k = 2 ∨ k = 3 := by decide
    exact hends j k hk
  · intro hk
    have hrim : ∀ k ∈ [1, 2, 3], ∃ j : Fin 3, k ∈ plateSide j 0 := by decide
    obtain ⟨j, hj⟩ := hrim k (by simpa using hk)
    exact ⟨j, 0, _, isExterior_plate_iff.mpr ⟨rfl, j, rfl, rfl⟩, hj⟩

/-- The plate with two degrees of freedom per node, whose rim is held. -/
noncomputable def plate : Mesh ℝ :=
  ((Mesh.ofLists (.integer 2) plateNodes plateCells).freeze.2.addBoundary (.name "rim") [] true).2

theorem exists_plate : ∃ r, plate.IsOver plateNodes plateCells 2 ∧
    plate.regions = [((TagId.name "rim").key, r)] ∧ r.essential = true ∧
      ∀ k, k ∈ plate.regionNodeIds r ↔ k = 1 ∨ k = 2 ∨ k = 3 := by
  have hnodes : ∀ x ∈ plateNodes, 1 ≤ x.length ∧ x.length ≤ 3 := by simp [plateNodes]
  have hspace : Space.dofsPerNode (.integer 2 : Datum ℝ) (Mesh.nodeDim plateNodes) = .ok 2 := rfl
  have hcells : ∀ c ∈ plateCells, c.2.length = c.1.nodeCount ∧
      (∀ fixed, c.1.fixedDofs = some fixed → 2 = fixed) ∧
        ∀ k ∈ c.2, 1 ≤ k ∧ k ≤ (plateNodes.length : ℤ) := by
    simp only [plateNodes, List.length_cons, List.length_nil]
    decide
  obtain ⟨-, hfrozen, hregions⟩ :=
    Mesh.isOver_freeze hnodes ⟨by simp [plateNodes], by decide⟩ hspace hcells
  obtain ⟨r, m, hadd, h, hregions, hessential, hrim⟩ :=
    hfrozen.exists_tagExterior hregions (TagId.isPlain_name "rim") true
  obtain rfl : plate = m := congrArg Prod.snd hadd
  exact ⟨r, h, hregions, hessential, fun k => (hrim k).trans mem_exterior_plate⟩

/-- The degrees of freedom of the rim are essential, those of the node in the interior are not. -/
theorem isEssential_plate (d : Fin plate.dofs) : Condition.IsEssential plate [] d ↔ (d : ℕ) < 6 := by
  obtain ⟨r, h, hregions, hessential, hrim⟩ := exists_plate
  have hlt : (d : ℕ) < 8 := d.isLt.trans_eq h.dofs_eq
  have hmem : (d : ℤ) ∈ plate.essentialDofs ↔
      ∃ k, (k = 1 ∨ k = 2 ∨ k = 3) ∧ ∃ i < 2, (k - 1) * 2 + (i : ℕ) = (d : ℤ) := by
    simp [Mesh.essentialDofs, Mesh.essentialNodes, hregions, hessential, (TagId.isPlain_name "rim").present,
      Mesh.allDofs, h.dofsPerNode_eq, hrim]
  have hplate : Condition.IsEssential plate [] d ↔ (d : ℤ) ∈ plate.essentialDofs := by
    simp [Condition.IsEssential]
  rw [hplate, hmem]
  constructor
  · rintro ⟨k, hk, i, hi, hd⟩
    omega
  · intro hd
    exact ⟨(d : ℕ) / 2 + 1, by omega, (d : ℕ) % 2, by omega, by omega⟩

section Elements

variable {c : Family × List ℤ} {e : Element ℝ}
  (he : e.IsMade c.1 (Mesh.nodesOf (Mesh.coordinateMatrix plateNodes) c.2) c.2 2)
include he

theorem entry_nodes_plate {p : ℕ} {k : ℤ} {x : List ℝ} (hp : c.2[p]? = some k)
    (hx : plateNodes[(k - 1).toNat]? = some x) (j : ℕ) : e.nodes.entry p j = x.getD j 0 :=
  he.nodes_eq ▸ Mesh.entry_nodesOf hp hx j

theorem cols_nodes_plate : e.nodes.cols = 2 := by
  rw [he.nodes_eq]
  exact Mesh.nodeDim_eq (by simp [plateNodes]) (by simp [plateNodes])

/-- Every element is a triangle whose corners run counter clockwise. -/
theorem isDifferentiable_plate (hc : c ∈ plateCells) : e.family = .tri3 ∧ e.IsDifferentiable := by
  have hcell : c = (.tri3, [1, 2, 4]) ∨ c = (.tri3, [2, 3, 4]) ∨ c = (.tri3, [3, 1, 4]) := by
    simpa [plateCells] using hc
  have hfamily : e.family = .tri3 := he.family_eq.trans (by rcases hcell with rfl | rfl | rfl <;> rfl)
  have hdim : e.family.dim = 2 := by rw [hfamily]; rfl
  have haffine := Element.IsAffine.of_tri3 hfamily
  have hdet : 0 < (DenseMatrix.ofFn 2 e.nodes.cols fun d k =>
      e.nodes.entry (d + 1) k - e.nodes.entry 0 k).det := by
    rw [DenseMatrix.det_ofFn_two (cols_nodes_plate he)]
    have hentry {p : ℕ} {k : ℤ} {x : List ℝ} := entry_nodes_plate he (p := p) (k := k) (x := x)
    rcases hcell with rfl | rfl | rfl
    all_goals
      rw [hentry (p := 0) rfl rfl 0, hentry (p := 0) rfl rfl 1, hentry (p := 1) rfl rfl 0,
        hentry (p := 1) rfl rfl 1, hentry (p := 2) rfl rfl 0, hentry (p := 2) rfl rfl 1]
      norm_num
  exact ⟨hfamily, haffine.isDifferentiable_plane hdim he.dofsPerNode_eq (cols_nodes_plate he)
    (haffine.measure_pos (Family.isLagrange_of_dim hdim) (cols_nodes_plate he).symm hdet).2⟩

end Elements

/-- A displacement of the node in the interior stretches and shears the first element. -/
theorem times_derivativeAt_plate {e : Element ℝ}
    (he : e.IsMade .tri3 (Mesh.nodesOf (Mesh.coordinateMatrix plateNodes) [1, 2, 4]) [1, 2, 4] 2) {n : ℕ}
    (hn : n = 8) {w : Fin n → ℝ} (hw : ∀ d < 6, padded w d = 0) {q : QuadraturePoint ℝ}
    (hq : q ∈ e.points) (i : ℕ) :
    (e.derivativeAt q).times (e.valuesOf w) i = [0, padded w 7, padded w 6].getD i 0 := by
  obtain ⟨hfamily, hdifferentiable⟩ := isDifferentiable_plate (c := (.tri3, [1, 2, 4])) he (.head _)
  obtain ⟨B, hB⟩ := hdifferentiable.exists_derivative q hq
  have hcorner {p k : ℕ} {x y : ℝ} (hk : [1, 2, 4][p]? = some ((k : ℤ) + 1)) (hlt : k < 4)
      (hnode : plateNodes[((k : ℤ) + 1 - 1).toNat]? = some [x, y]) : e.nodes.entry p 1 = y ∧
        e.valuesOf w (p * 2) = padded w (k * 2) ∧ e.valuesOf w (p * 2 + 1) = padded w (k * 2 + 1) := by
    have hvalue {i : ℕ} (hi : i < 2) : e.valuesOf w (p * 2 + i) = padded w (k * 2 + i) := by
      have h := Element.valuesOf_padded w (he.nodeIds_eq ▸ hk) (he.dofsPerNode_eq.symm ▸ hi)
        (by rw [he.dofsPerNode_eq]; omega)
      rwa [he.dofsPerNode_eq] at h
    exact ⟨entry_nodes_plate (c := (.tri3, [1, 2, 4])) he hk hnode 1, hvalue two_pos, hvalue one_lt_two⟩
  rw [Element.derivativeAt_eq hB, Element.times_strains (by rw [hfamily]; rfl) he.dofsPerNode_eq hB
    (a := 0) (c := 0) (s := fun k => [0, padded w 6].getD k 0) (t := fun k => [0, padded w 7].getD k 0)
    fun p hp => ?_]
  · rcases i with _ | _ | _ | i <;> simp
  · have hlt : p < 3 := by rwa [hfamily] at hp
    have htimes (v : ℝ) : e.nodes.times (fun k => [0, v].getD k 0) p = e.nodes.entry p 1 * v := by
      simp [DenseMatrix.times, cols_nodes_plate (c := (.tri3, [1, 2, 4])) he, sum_range_succ]
    rw [htimes, htimes]
    -- the last corner is the only one that moves, and that has not zero as its second coordinate
    interval_cases p
    · obtain ⟨hentry, hx, hy⟩ := hcorner (p := 0) (k := 0) rfl (by omega) rfl
      rw [hentry, hx, hy]
      simp [hw]
    · obtain ⟨hentry, hx, hy⟩ := hcorner (p := 1) (k := 1) rfl (by omega) rfl
      rw [hentry, hx, hy]
      simp [hw]
    · obtain ⟨hentry, hx, hy⟩ := hcorner (p := 2) (k := 3) rfl (by omega) rfl
      rw [hentry, hx, hy]
      simp

/-- An elastic matrix that is not symmetric. -/
noncomputable def skewElasticity : DenseMatrix ℝ := .ofRows 3 [[3, 1, 0], [0, 2, 1], [1, 0, 1]]

theorem isDefinite_skewElasticity : DenseMatrix.IsDefinite skewElasticity.entry 3 := by
  rintro t ⟨k, hk, hne⟩
  have hpairing : DenseMatrix.pairing skewElasticity.entry 3 t t =
      2 * t 0 ^ 2 + t 1 ^ 2 + ((t 0 + t 1) ^ 2 + (t 1 + t 2) ^ 2 + (t 2 + t 0) ^ 2) / 2 := by
    simp [DenseMatrix.pairing, sum_range_succ, skewElasticity, DenseMatrix.ofRows, DenseMatrix.entry_ofFn_eq]
    ring
  rw [hpairing]
  have hpos : 0 < t k ^ 2 := by positivity
  interval_cases k
  · positivity
  · positivity
  · nlinarith [sq_nonneg (t 2 / 2 + t 0), sq_nonneg (t 0), sq_nonneg (t 1), sq_nonneg (t 0 + t 1),
      sq_nonneg (t 1 + t 2)]

theorem of_mem_cells_plate {m : Mesh ℝ} (h : m.IsOver plateNodes plateCells 2) : ∀ c ∈ m.cells,
    c.element.family = .tri3 ∧ c.element.dofsPerNode = 2 ∧ c.element.IsDifferentiable :=
  h.of_mem_cells (P := fun e => e.family = .tri3 ∧ e.dofsPerNode = 2 ∧ e.IsDifferentiable)
    fun _ hc _ he => ⟨(isDifferentiable_plate he hc).1, he.dofsPerNode_eq, (isDifferentiable_plate he hc).2⟩

noncomputable def plateConstants : Definitions ℝ :=
  [("D", .constant (.ofTensor (.ofMatrix skewElasticity)))]

theorem exists_stiffness_plate {m : Mesh ℝ} (h : m.IsOver plateNodes plateCells 2) : ∃ kernel K,
    Kernel.compile "K" "B'*D*B" plateConstants = .ok kernel ∧
      Assembly.matrix m kernel none .triplet = .ok K ∧
      ∀ c ∈ m.cells, kernel.IsStiffness c.element skewElasticity.entry := by
  have hnamed : plateConstants.AreNamed := by
    intro d hd
    obtain rfl := List.mem_singleton.mp hd
    exact ⟨by decide, by decide, rfl⟩
  obtain ⟨kernel, hkernel⟩ := Kernel.exists_compile Kernel.parse_diffusion hnamed
    (by simp only [Kernel.sandwich, plateConstants, List.map_cons, List.map_nil]; decide) "K"
  have hcells := of_mem_cells_plate h
  have hstiffness : ∀ c ∈ m.cells, kernel.IsStiffness c.element skewElasticity.entry := by
    intro c hc
    obtain ⟨hfamily, hdofs, -⟩ := hcells c hc
    have hdim : c.element.family.dim = 2 := by rw [hfamily]; rfl
    have hplaced := h.reachable.wellFormed.isPlaced h.frozen hc
    have hsix : c.element.dofs = 6 := by rw [Element.dofs, hfamily, hdofs]; rfl
    exact
      { isCongruence := Kernel.isCongruence_matrix hkernel Kernel.parse_diffusion (by decide)
          (Value.isMatrix_ofTensor skewElasticity) rfl (by decide) rfl fun ξ B hB =>
            ⟨(hplaced.cols_shapeDerivative hB).trans_ne (by omega), Element.rows_strains hdim hdofs hB⟩
        cols_eq := fun _ _ hB => hplaced.cols_shapeDerivative hB
        hasRule := Kernel.isSome_rule (Family.isLagrange_of_dim hdim) }
  obtain ⟨K, hK⟩ := Assembly.exists_matrix fun c hc => (hstiffness c hc).exists_localMatrix (hcells c hc).2.2
  exact ⟨kernel, K, hkernel, hK, hstiffness⟩

/-- With the rim held there is one solution. -/
theorem isRegular_plate {m : Mesh ℝ} (h : m.IsOver plateNodes plateCells 2) {kernel : Kernel ℝ}
    {K : SparseMatrix ℝ} (hk : ∀ c ∈ m.cells, kernel.IsStiffness c.element skewElasticity.entry)
    (hK : Assembly.matrix m kernel none .triplet = .ok K) {fixed : Fin m.dofs → Prop}
    (hfixed : ∀ d, fixed d ↔ (d : ℕ) < 6) : Partition.IsRegular (K.matrix m.dofs) fixed := by
  have hdofs : m.dofs = 8 := h.dofs_eq
  have hover := Assembly.isMatrixOver_cells (Assembly.inRange h.reachable h.frozen) hK
  have hrows : ∀ c ∈ m.cells, ∀ q ∈ c.element.points, (c.element.derivativeAt q).rows = 3 := by
    intro c hc q hq
    obtain ⟨hfamily, htwo, hdifferentiable⟩ := of_mem_cells_plate h c hc
    obtain ⟨B, hB⟩ := hdifferentiable.exists_derivative q hq
    rw [Element.derivativeAt_eq hB]
    exact Element.rows_strains (by rw [hfamily]; rfl) htwo hB
  refine hover.isRegular_of_isDefinite (W := skewElasticity.entry) (List.forall_mem_map.mpr hk)
    (List.forall_mem_map.mpr fun c hc q hq => hrows c hc q hq ▸ isDefinite_skewElasticity) fun w hw hflat => ?_
  have hrim : ∀ d < 6, padded w d = 0 := fun d hd =>
    (padded_coe w ⟨d, by omega⟩).trans (hw _ ((hfixed _).mpr hd))
  -- the first element has no strains, so its corner in the interior does not move
  obtain ⟨c, cells, ⟨hmade, -⟩, -, hcells⟩ := List.forall₂_cons_left_iff.mp h.forall₂_cells
  have hc : c ∈ m.cells := hcells ▸ List.mem_cons_self
  obtain ⟨q, hq⟩ : ∃ q, q ∈ c.element.points := by
    rw [Element.points, Kernel.rule, (of_mem_cells_plate h c hc).1]
    exact ⟨_, .head _⟩
  have hstrain (i : ℕ) (hi : i < 3) : [0, padded w 7, padded w 6].getD i 0 = 0 := by
    rw [← times_derivativeAt_plate hmade hdofs hrim hq i]
    exact hflat _ (List.mem_map_of_mem hc) q hq i (hrows c hc q hq ▸ hi)
  have hseven : padded w 7 = 0 := hstrain 1 (by omega)
  have hsix : padded w 6 = 0 := hstrain 2 (by omega)
  funext d
  have hd : (d : ℕ) < 6 ∨ (d : ℕ) = 6 ∨ (d : ℕ) = 7 := by omega
  rw [← padded_coe w d]
  rcases hd with hd | hd | hd
  · exact hrim d hd
  · rw [hd]
    exact hsix
  · rw [hd]
    exact hseven

/-- The node in the interior is loaded, and one of the rim. -/
noncomputable def plateForce (d : Fin plate.dofs) : ℝ := [0, 0, 1, 0, 0, 0, 3, 2].getD d 0

/-- The solver of the plate. -/
noncomputable def heldPlate (K : SparseMatrix ℝ) : Simulation ℝ where
  settings := []
  conditions := []
  components := [("stiffness", .matrix (.reals K)), ("force", .vector (Array.ofFn plateForce))]
  solution := none
  scheme := .steady none
  mesh := plate
  formulation := none

theorem global_equilibrium_of_plate : ∃ (kernel : Kernel ℝ) (K : SparseMatrix ℝ) (u : Array ℝ)
    (s' : Simulation ℝ) (r : Fin plate.dofs → ℝ),
    Kernel.compile "K" "B'*D*B" plateConstants = .ok kernel ∧
    Assembly.matrix plate kernel none .triplet = .ok K ∧
    (∀ d : Fin plate.dofs, Condition.IsEssential plate [] d ↔ (d : ℕ) < 6) ∧
    (∀ a c ω, K.matrix plate.dofs *ᵥ plate.rigidMotion a c ω = 0 ∧
      plate.rigidMotion a c ω ᵥ* K.matrix plate.dofs = 0) ∧
    (heldPlate K).solveSteady = (.ok u, s') ∧
    s'.scheme = .steady (some (.ofVector (Array.ofFn r))) ∧
    plate.resultant r = -plate.resultant plateForce := by
  obtain ⟨-, h, -⟩ := exists_plate
  obtain ⟨kernel, K, hkernel, hK, hstiffness⟩ := exists_stiffness_plate h
  have hover := Assembly.isMatrixOver_cells (Assembly.inRange h.reachable h.frozen) hK
  obtain ⟨hzero, -, hsolver⟩ := global_equilibrium h.reachable h.frozen h.dofsPerNode_eq
    (fun c hc => by rw [(of_mem_cells_plate h c hc).1]; simp) hkernel rfl hK
  have hposes : (heldPlate K).PosesSteady plate [] (K.matrix plate.dofs) plateForce :=
    ⟨rfl, rfl, _, heldPlate K, heldPlate K, rfl, NumberMatrix.represents_reals hover.rows hover.cols, rfl⟩
  obtain ⟨u, s', hu, -, -, -⟩ := hposes.exists_solution h.reachable h.frozen (fun _ h => nomatch h)
    (isRegular_plate h hstiffness hK isEssential_plate)
  obtain ⟨r, hscheme, hbalance⟩ := hsolver _ _ _ _ _ hposes hu
  exact ⟨kernel, K, _, s', r, hkernel, hK, isEssential_plate, hzero, hu, hscheme, hbalance⟩

end Plate

end Simulation
end WeakForm
