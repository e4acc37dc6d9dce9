import WeakForm.Proofs.Assembly.OverSides
import WeakForm.Proofs.Mesh.Renumbering

/-!
# Assembly over renumbered meshes

The elements over which a matrix or a vector is assembled on a renumbered mesh are copies of those
on the mesh itself, in another order. A copy has the same local values at other indices, so that the
entries of the matrix and of the vector are the same at the new indices.
-/

namespace WeakForm

section Indices

variable {π : Equiv.Perm ℕ} {n : ℕ}

/-- The new index of a degree of freedom; every node has `n` of them, which stay in order. -/
def movedDof (π : Equiv.Perm ℕ) (n d : ℕ) : ℕ := π (d / n) * n + d % n

theorem movedDof_add (π : Equiv.Perm ℕ) (k : ℕ) {i : ℕ} (hi : i < n) :
    movedDof π n (k * n + i) = π k * n + i := by
  obtain ⟨hnode, hplace⟩ := DenseMatrix.index_div_mod hi k
  rw [movedDof, hnode, hplace]

theorem movedDof_div (π : Equiv.Perm ℕ) (hn : 0 < n) (d : ℕ) : movedDof π n d / n = π (d / n) :=
  (DenseMatrix.index_div_mod (Nat.mod_lt d hn) _).1

theorem movedDof_mod (π : Equiv.Perm ℕ) (hn : 0 < n) (d : ℕ) : movedDof π n d % n = d % n :=
  (DenseMatrix.index_div_mod (Nat.mod_lt d hn) _).2

theorem movedDof_injective (π : Equiv.Perm ℕ) (hn : 0 < n) : Function.Injective (movedDof π n) := by
  intro d d' h
  have hquotient := congrArg (· / n) h
  have hrest := congrArg (· % n) h
  simp only [movedDof_div π hn, movedDof_mod π hn, π.injective.eq_iff] at hquotient hrest
  rw [← Nat.div_add_mod d n, ← Nat.div_add_mod d' n, hquotient, hrest]

/-- The degrees of freedom of a node get the new number of the node. -/
theorem movedDof_index (π : Equiv.Perm ℕ) {k i : ℤ} (hk : 1 ≤ k) (hi : 0 ≤ i) (hlt : i < n) :
    ∃ d : ℕ, (k - 1) * (n : ℤ) + i = d ∧ (movedNode π k - 1) * (n : ℤ) + i = movedDof π n d := by
  obtain ⟨j, rfl⟩ : ∃ j : ℕ, k = j + 1 := ⟨(k - 1).toNat, by omega⟩
  lift i to ℕ using hi
  refine ⟨j * n + i, by push_cast; ring, ?_⟩
  rw [movedDof_add π j (by exact_mod_cast hlt), movedNode]
  simp

theorem index_eq_movedDof_iff {k i : ℤ} (hk : 1 ≤ k) (hi : 0 ≤ i) (hlt : i < n) (d : ℕ) :
    (movedNode π k - 1) * (n : ℤ) + i = movedDof π n d ↔ (k - 1) * (n : ℤ) + i = d := by
  obtain ⟨d', hd', hmoved⟩ := movedDof_index π hk hi hlt
  rw [hmoved, hd', Nat.cast_inj, Nat.cast_inj, (movedDof_injective π (by omega)).eq_iff]

end Indices

namespace Element.IsCopy

variable {π : Equiv.Perm ℕ} {e e' : Element ℝ} {n : ℕ} (h : e'.IsCopy (movedNode π) e)
include h

theorem getDof_eq_map (hone : ∀ k ∈ e.nodeIds, 1 ≤ k) :
    e'.getDof = e.getDof.map fun d => (movedDof π e.dofsPerNode d.toNat : ℤ) := by
  rw [getDof_eq, getDof_eq, h.nodeIds_eq, h.dofsPerNode_eq, List.flatMap_map, List.map_flatMap]
  refine List.flatMap_congr fun k hk => ?_
  rw [List.map_map]
  refine List.map_congr_left fun i hi => ?_
  obtain ⟨d, hd, hmoved⟩ := movedDof_index π (hone k hk) (Int.natCast_nonneg i)
    (Nat.cast_lt.mpr (List.mem_range.mp hi))
  rw [Function.comp_apply, dofIndex, dofIndex, hd, hmoved, Int.toNat_natCast]

/-- A copy has a degree of freedom under its new index where the element has it. -/
theorem getElem?_getDof_iff (hone : ∀ k ∈ e.nodeIds, 1 ≤ k) (hn : e.dofsPerNode = n) (hpos : 0 < n)
    (hdof : ∀ d ∈ e.getDof, 0 ≤ d) (p i : ℕ) :
    e'.getDof[p]? = some (movedDof π n i : ℤ) ↔ e.getDof[p]? = some (i : ℤ) := by
  rw [h.getDof_eq_map hone, hn, List.getElem?_map, Option.map_eq_some_iff]
  constructor
  · rintro ⟨d, hd, hmoved⟩
    have hindex := movedDof_injective π hpos (Nat.cast_injective hmoved)
    rw [hd, ← hindex, Int.toNat_of_nonneg (hdof d (List.mem_of_getElem? hd))]
  · intro hd
    exact ⟨i, hd, by rw [Int.toNat_natCast]⟩

end Element.IsCopy

/-- The numbers of an element name nodes and degrees of freedom, of which every node has `n`. -/
structure Element.IsNumbered (e : Element ℝ) (n : ℕ) : Prop where
  one_le : ∀ k ∈ e.nodeIds, 1 ≤ k
  dofsPerNode_eq : e.dofsPerNode = n
  nonneg : ∀ d ∈ e.getDof, 0 ≤ d

theorem Element.IsNumbered.buildSide {e side : Element ℝ} {n : ℕ} (h : e.IsNumbered n) {s : ℤ}
    (hside : e.buildSide s = .ok side) : side.IsNumbered n := by
  obtain ⟨nodes, hnodes, hn, hids⟩ := buildSide_eq_ok hside
  refine ⟨fun k hk => ?_, hn.trans h.dofsPerNode_eq, fun d hd =>
    h.nonneg d (Assembly.mem_getDof_side hside hd)⟩
  rw [hids] at hk
  obtain ⟨l, hl, rfl⟩ := List.mem_map.mp hk
  have hlt : l < e.nodeIds.length := by
    rw [e.length_nodeIds]
    exact (Family.lt_of_mem_sides (sideNodes_mem hnodes)).2 l hl
  rw [List.getD_eq_getElem?_getD, List.getElem?_eq_getElem hlt, Option.getD_some]
  exact h.one_le _ (List.getElem_mem hlt)

namespace Kernel

variable {π : Equiv.Perm ℕ} {e e' : Element ℝ} {n : ℕ} {k : Kernel ℝ}

theorem Agrees.matrixShare (hk : k.Agrees e e') (h : e'.IsCopy (movedNode π) e) (he : e.IsNumbered n)
    (hn : 0 < n) (i j : ℕ) :
    k.matrixShare e' (movedDof π n i) (movedDof π n j) = k.matrixShare e i j := by
  have hmatrix : k.matrixOf e' = k.matrixOf e := by rw [matrixOf, hk.localMatrix h, matrixOf]
  have hindex := h.getElem?_getDof_iff he.one_le he.dofsPerNode_eq hn he.nonneg
  simp only [Kernel.matrixShare, h.dofs_eq, hmatrix, hindex]

theorem Agrees.vectorShare (hk : k.Agrees e e') (h : e'.IsCopy (movedNode π) e) (he : e.IsNumbered n)
    (hn : 0 < n) (i : ℕ) : k.vectorShare e' (movedDof π n i) = k.vectorShare e i := by
  have hvector : k.vectorOf e' = k.vectorOf e := by rw [vectorOf, hk.localVector h, vectorOf]
  have hindex := h.getElem?_getDof_iff he.one_le he.dofsPerNode_eq hn he.nonneg
  simp only [Kernel.vectorShare, h.dofs_eq, hvector, hindex]

end Kernel

namespace Assembly

section Domains

variable {m : Mesh ℝ} {boundary : Option TagId} {es : List (Element ℝ)}

/-- Sides are numbered like their elements. -/
theorem IsDomain.isNumbered (hm : m.Reachable) (hf : m.frozen = true) (h : IsDomain m boundary es) :
    ∀ e ∈ es, e.IsNumbered m.dofsPerNode := by
  have hb := hm.wellFormed.built hf
  have hcells : ∀ c ∈ m.cells, c.element.IsNumbered m.dofsPerNode := fun c hc =>
    ⟨fun k hk => ((hb.of_mem_cells hc).1 k hk).1, (hb.of_mem_cells hc).2,
      fun d hd => (hb.mem_getDof hc hd).1⟩
  cases boundary with
  | none =>
    obtain rfl := h
    intro e he
    obtain ⟨c, hc, rfl⟩ := List.mem_map.mp he
    exact hcells c hc
  | some tag =>
    obtain ⟨r, hr, -, hsides⟩ := h
    intro e he
    obtain ⟨x, -, hx⟩ := exists_of_mem_mapM hsides he
    obtain ⟨c, hc, hside⟩ := sideElement_eq_ok hx
    exact (hcells c (mem_cells_of_cell hc)).buildSide hside

end Domains

section Copies

variable {π ρ : Equiv.Perm ℕ} {m m' : Mesh ℝ} {k : Kernel ℝ} {boundary : Option TagId}
  {es es' : List (Element ℝ)} {n : ℕ}

/-- The elements of the second list are copies of those of the first one, in another order. -/
def AreCopies (π : Equiv.Perm ℕ) (es es' : List (Element ℝ)) : Prop :=
  ∃ zs : List (Element ℝ), zs.Perm es' ∧ List.Forall₂ (fun e z => z.IsCopy (movedNode π) e) es zs

/-- What copies have in common they sum up to. -/
theorem AreCopies.sum_eq (h : AreCopies π es es') {f g : Element ℝ → ℝ}
    (hfg : ∀ e ∈ es, ∀ z : Element ℝ, z.IsCopy (movedNode π) e → g z = f e) :
    (es'.map g).sum = (es.map f).sum := by
  obtain ⟨zs, hperm, hzs⟩ := h
  rw [← (hperm.map g).sum_eq]
  clear hperm
  induction hzs with
  | nil => rfl
  | cons hz _ ih =>
    obtain ⟨he, hes⟩ := List.forall_mem_cons.mp hfg
    rw [List.map_cons, List.map_cons, List.sum_cons, List.sum_cons, he _ hz, ih hes]

theorem AreCopies.exists_mem (h : AreCopies π es es') {z : Element ℝ} (hz : z ∈ es') :
    ∃ e ∈ es, z.IsCopy (movedNode π) e := by
  obtain ⟨zs, hperm, hzs⟩ := h
  exact exists_mem_of_forall₂ hzs (hperm.mem_iff.mpr hz)

theorem areCopies_cells (h : m'.IsCopy π ρ m) :
    AreCopies π (m.cells.map Cell.element) (m'.cells.map Cell.element) := by
  have helements : Moved (fun e e' => e'.IsCopy (movedNode π) e) ρ (m.cells.map Cell.element)
      (m'.cells.map Cell.element) :=
    Moved.map_iff.mpr (h.cells.imp fun _ _ _ _ _ hcopy => hcopy.element)
  exact helements.exists_perm

/-- The side of a copy is a copy of the side. -/
theorem exists_sideElement (h : m'.IsCopy π ρ m) {ref : ℕ × ℕ} {c : Cell ℝ} {side : Element ℝ}
    (hone : 1 ≤ ref.1) (hc : m.cells[ref.1 - 1]? = some c) (hside : m.sideElement ref = .ok side) :
    ∃ side', m'.sideElement (movedCell ρ ref.1, ref.2) = .ok side' ∧
      side'.IsCopy (movedNode π) side := by
  obtain ⟨d, hd, hbuild⟩ := sideElement_eq_ok hside
  have hcell := cell_eq_ok hc
  rw [Nat.sub_add_cancel hone] at hcell
  obtain rfl := Except.ok.inj (hcell.symm.trans hd)
  obtain ⟨c', hc', hcopy⟩ := h.cells.exists_right hc
  obtain ⟨side', hbuild', hside'⟩ := hcopy.element.buildSide hbuild
  refine ⟨side', ?_, hside'⟩
  rw [Mesh.sideElement, movedCell, cell_eq_ok hc', ok_bind, hbuild']

/-- The sides with a tag are copies of each other. -/
theorem exists_tagged (h : m'.IsCopy π ρ m) {tag : TagId} (hes : IsTagged m tag es) :
    ∃ es', IsTagged m' tag es' ∧ AreCopies π es es' := by
  obtain ⟨r, hr, hnodup, hsides⟩ := hes
  obtain ⟨r', hr', hmatch⟩ := h.exists_boundary hr
  have hin := sidesIn_boundary h.isOver.reachable hr
  have hnodup' := nodup_boundary h.isOver'.reachable hr'
  let moved (ref : ℕ × ℕ) : ℕ × ℕ := (movedCell ρ ref.1, ref.2)
  -- both boundaries list each of their sides once, so it is enough to compare their members
  have hperm : r'.sides.Perm (r.sides.map moved) := by
    refine (List.perm_ext_iff_of_nodup hnodup' ?_).mpr fun ref' => ?_
    · refine hnodup.map_on fun ref href other hother heq => ?_
      obtain ⟨hcell, hside⟩ := Prod.ext_iff.mp heq
      have hone := (hin.exists_cell ref href).1
      have hone' := (hin.exists_cell other hother).1
      have hplace : ref.1 - 1 = other.1 - 1 := ρ.injective (Nat.succ_injective hcell)
      exact Prod.ext (by omega) hside
    · rw [hmatch.mem_sides, List.mem_map]
      simp only [moved, eq_comm]
  obtain ⟨zs, hzs, hcopies⟩ : ∃ zs : List (Element ℝ),
      List.Forall₂ (fun ref z => m'.sideElement (moved ref) = .ok z) r.sides zs ∧
        List.Forall₂ (fun e z => z.IsCopy (movedNode π) e) es zs := by
    refine exists_forall₂ (mapM_eq_ok_iff.mp hsides) fun ref href side hside => ?_
    obtain ⟨hone, c, hc, -⟩ := hin.exists_cell ref href
    exact exists_sideElement h hone hc hside
  have hmoved : List.Forall₂ (fun ref z => m'.sideElement ref = .ok z) (r.sides.map moved) zs :=
    List.forall₂_map_left_iff.mpr hzs
  obtain ⟨es', hes', hzs'⟩ := List.perm_comp_forall₂ hperm hmoved
  exact ⟨es', ⟨r', hr', hnodup', mapM_eq_ok_iff.mpr hes'⟩, zs, hzs'.symm, hcopies⟩

/-- What is assembled over on a renumbered mesh are copies. -/
theorem IsDomain.exists_copies (h : m'.IsCopy π ρ m) (hes : IsDomain m boundary es) :
    ∃ es', IsDomain m' boundary es' ∧ AreCopies π es es' := by
  cases boundary with
  | none =>
    obtain rfl := hes
    exact ⟨_, rfl, areCopies_cells h⟩
  | some tag => exact exists_tagged h hes

theorem dofsPerNode_pos_of_lt {i : ℕ} (hb : m.Built) (hi : i < m.dofs) : 0 < m.dofsPerNode := by
  rw [hb.dofs] at hi
  exact Nat.pos_of_mul_pos_left (Nat.zero_lt_of_lt hi)

/-- A degree of freedom has a new index on the renumbered mesh. -/
theorem movedDof_lt (h : m'.IsCopy π ρ m) {i : ℕ} (hi : i < m.dofs) :
    movedDof π m.dofsPerNode i < m'.dofs := by
  have hpos := dofsPerNode_pos_of_lt h.isOver.built hi
  rw [h.isOver.dofs_eq] at hi
  rw [h.isOver'.dofs_eq, ← Nat.div_lt_iff_lt_mul hpos, movedDof_div π hpos, h.nodes.lt_iff]
  exact Nat.div_lt_of_lt_mul (by rwa [mul_comm])

variable (h : m'.IsCopy π ρ m) (hk : k.FromSource)
include h hk

/-- The matrix of a renumbered mesh has the same entries at the new indices. -/
theorem exists_matrix_of_isCopy {A : SparseMatrix ℝ} (hA : matrix m k boundary .triplet = .ok A) :
    ∃ A', matrix m' k boundary .triplet = .ok A' ∧ A'.rows = m'.dofs ∧ A'.cols = m'.dofs ∧
      ∀ i j, i < m.dofs → j < m.dofs →
        A'.entry (movedDof π m.dofsPerNode i) (movedDof π m.dofsPerNode j) = A.entry i j := by
  obtain ⟨es, hes, hover⟩ := isMatrixOver_domain h.isOver.reachable h.isOver.frozen hA
  have hnumbered := hes.isNumbered h.isOver.reachable h.isOver.frozen
  obtain ⟨es', hes', hcopies⟩ := hes.exists_copies h
  obtain ⟨A', hA'⟩ := exists_matrix_domain (k := k) hes' fun z hz => by
    obtain ⟨e, he, hcopy⟩ := hcopies.exists_mem hz
    obtain ⟨K, hK, -⟩ := hover.exists_matrix e he
    exact ⟨K, Kernel.eq_ok_of_toOption ((hk.agrees hcopy).localMatrix hcopy) hK⟩
  obtain ⟨zs, hzs, hover'⟩ := isMatrixOver_domain h.isOver'.reachable h.isOver'.frozen hA'
  obtain rfl := hes'.unique hzs
  refine ⟨A', hA', hover'.rows, hover'.cols, fun i j hi hj => ?_⟩
  have hpos := dofsPerNode_pos_of_lt h.isOver.built hi
  rw [hover'.entry _ _ (movedDof_lt h hi) (movedDof_lt h hj), hover.entry i j hi hj]
  exact hcopies.sum_eq fun e he z hz => (hk.agrees hz).matrixShare hz (hnumbered e he) hpos i j

/-- The vector of a renumbered mesh has the same entries at the new indices. -/
theorem exists_vector_of_isCopy {v : Array ℝ} (hv : vector m k boundary = .ok v) :
    ∃ v', vector m' k boundary = .ok v' ∧ v'.size = m'.dofs ∧
      ∀ i, i < m.dofs → v'.getD (movedDof π m.dofsPerNode i) 0 = v.getD i 0 := by
  obtain ⟨es, hes, hover⟩ := isVectorOver_domain h.isOver.reachable h.isOver.frozen hv
  have hnumbered := hes.isNumbered h.isOver.reachable h.isOver.frozen
  obtain ⟨es', hes', hcopies⟩ := hes.exists_copies h
  obtain ⟨v', hv'⟩ := exists_vector_domain (k := k) hes' fun z hz => by
    obtain ⟨e, he, hcopy⟩ := hcopies.exists_mem hz
    obtain ⟨f, hf, -⟩ := hover.exists_vector e he
    exact ⟨f, Kernel.eq_ok_of_toOption ((hk.agrees hcopy).localVector hcopy) hf⟩
  obtain ⟨zs, hzs, hover'⟩ := isVectorOver_domain h.isOver'.reachable h.isOver'.frozen hv'
  obtain rfl := hes'.unique hzs
  refine ⟨v', hv', hover'.size, fun i hi => ?_⟩
  have hpos := dofsPerNode_pos_of_lt h.isOver.built hi
  rw [hover'.entry _ (movedDof_lt h hi), hover.entry i hi]
  exact hcopies.sum_eq fun e he z hz => (hk.agrees hz).vectorShare hz (hnumbered e he) hpos i

end Copies

end Assembly
end WeakForm
