import WeakForm.Proofs.Assembly.OverSides
import WeakForm.Proofs.Assembly.Overwriting
import WeakForm.Proofs.Linear.Elimination

/-!
# The two ways of assembly

Direct and triplet assembly fail alike, and where they succeed they differ by the overwritten
entries. So they agree for all kernels exactly if every node that carries entries of a block is at
its last place in its element, or if no kernel has an integral at all.
-/

namespace WeakForm
namespace Assembly

variable {m : Mesh ℝ} {k : Kernel ℝ}

/-- Both ways of assembly have the same matrix or the same error. -/
def Agree (m : Mesh ℝ) (k : Kernel ℝ) (boundary : Option TagId) : Prop :=
  (matrix m k boundary .direct).map SparseMatrix.toDense =
    (matrix m k boundary .triplet).map SparseMatrix.toDense

/-- What direct assembly leaves out at row `i` and column `j`. -/
noncomputable def lost (blocks : List (Block (DenseMatrix ℝ))) (i j : ℕ) : ℝ :=
  (blocks.map fun b => b.overwritten i j).sum

/-- All elements that are integrated over are regular. -/
def Integrable (m : Mesh ℝ) : Option TagId → Prop
  | none => ∀ c ∈ m.cells, c.element.IsRegular
  | some tag => ∃ sides, IsTagged m tag sides ∧ ∀ e ∈ sides, e.IsRegular

/-- All nodes of cells, or those of the tagged sides of cells, are at their last places among the
nodes of the cell. -/
def Separates (m : Mesh ℝ) : Option TagId → Prop
  | none => ∀ c ∈ m.cells, c.element.nodeIds.Nodup
  | some tag => ∀ r, m.boundary tag = .ok r → ∀ side ∈ r.sides, ∀ c, m.cell side.1 = .ok c →
      ∀ nodes, c.element.sideNodes side.2 = .ok nodes → ∀ k ∈ nodes, IsLast c.element.nodeIds k

section Blocks

variable {boundary : Option TagId} {blocks : List (Block (DenseMatrix ℝ))}

theorem isSquare_of_matrixBlocks (h : matrixBlocks m k boundary = .ok blocks) :
    ∀ b ∈ blocks, b.IsSquare := by
  intro b hb
  cases boundary with
  | none =>
    obtain ⟨hex, rfl⟩ := matrixBlocks_none.mp h
    obtain ⟨c, hc, rfl⟩ := List.mem_map.mp hb
    obtain ⟨K, hK⟩ := hex c hc
    obtain ⟨hrows, hcols⟩ := Kernel.localMatrix_size hK
    exact ⟨by simp [Kernel.matrixOf_eq hK, hrows], by simp [Kernel.matrixOf_eq hK, hcols]⟩
  | some tag =>
    obtain ⟨r, groups, -, -, hblocks⟩ := matrixBlocks_some.mp h
    obtain ⟨g, -, hg⟩ := exists_of_mem_mapM hblocks hb
    obtain ⟨K, hK, rfl⟩ := blockOf_eq_ok.mp hg
    obtain ⟨-, -, hrows, hcols, -⟩ := sideMatrix_eq_ok hK
    exact ⟨by simp [hrows], by simp [hcols]⟩

/-- The two ways agree on a kernel exactly if nothing is lost in total at any place. -/
theorem agree_iff_lost :
    Agree m k boundary ↔ ∀ blocks, matrixBlocks m k boundary = .ok blocks →
      ∀ i j, i < m.dofs → j < m.dofs → lost blocks i j = 0 := by
  rw [Agree, matrix_direct, matrix_triplet]
  cases h : matrixBlocks m k boundary with
  | error err => simp [Except.map]
  | ok blocks =>
    simp only [Except.map, Except.ok.injEq, forall_eq']
    exact direct_eq_triplet_iff (isSquare_of_matrixBlocks h) m.dofs

/-- Without negative entries nothing is lost in total only if no block loses anything. -/
theorem overwritten_of_lost {i j : ℕ} (h : ∀ b ∈ blocks, ∀ p q, 0 ≤ b.entries.entry p q)
    (hlost : lost blocks i j = 0) : ∀ b ∈ blocks, b.overwritten i j = 0 := by
  have hnonneg : ∀ x ∈ blocks.map fun b => b.overwritten i j, 0 ≤ x := by
    intro x hx
    obtain ⟨b, hb, rfl⟩ := List.mem_map.mp hx
    exact Block.overwritten_nonneg (h b hb) i j
  intro b hb
  refine le_antisymm ?_ (Block.overwritten_nonneg (h b hb) i j)
  rw [← hlost]
  exact List.single_le_sum hnonneg _ (List.mem_map_of_mem hb)

theorem lost_of_overwritten {i j : ℕ} (h : ∀ b ∈ blocks, b.overwritten i j = 0) :
    lost blocks i j = 0 := by
  apply List.sum_eq_zero
  intro x hx
  obtain ⟨b, hb, rfl⟩ := List.mem_map.mp hx
  exact h b hb

end Blocks

section Cells

/-- The places of all nodes of an element are all of its places. -/
theorem mem_places_range {e : Element ℝ} {p : ℕ} :
    p ∈ e.places (List.range e.family.nodeCount) ↔ p < e.dofs := by
  constructor
  · exact Element.lt_of_mem_places fun k hk => List.mem_range.mp hk
  · intro hp
    have hpos : 0 < e.dofsPerNode := Nat.pos_of_ne_zero fun h0 => by simp [Element.dofs, h0] at hp
    refine Element.mem_places.mpr ⟨p / e.dofsPerNode, List.mem_range.mpr ?_, p % e.dofsPerNode,
      Nat.mod_lt _ hpos, (Nat.div_add_mod' _ _).symm⟩
    rwa [Nat.div_lt_iff_lt_mul hpos]

theorem forall_isLast_range_iff {e : Element ℝ} :
    (∀ k ∈ List.range e.family.nodeCount, IsLast e.nodeIds k) ↔ e.nodeIds.Nodup := by
  rw [← forall_isLast_iff, e.length_nodeIds]
  simp only [List.mem_range]

theorem entry_ne_zero {A : DenseMatrix ℝ} {p q : ℕ} (h : A.entry p q ≠ 0) :
    p < A.rows ∧ q < A.cols := by
  constructor
  · by_contra hp
    exact h (A.entry_of_rows_le (not_lt.mp hp))
  · by_contra hq
    exact h (A.entry_of_cols_le (not_lt.mp hq))

theorem lost_cells (hm : InRange m) (hs : Separates m none)
    {blocks : List (Block (DenseMatrix ℝ))} (h : matrixBlocks m k none = .ok blocks) (i j : ℕ) :
    lost blocks i j = 0 := by
  obtain ⟨hex, rfl⟩ := matrixBlocks_none.mp h
  apply lost_of_overwritten
  intro b hb
  obtain ⟨c, hc, rfl⟩ := List.mem_map.mp hb
  obtain ⟨K, hK⟩ := hex c hc
  obtain ⟨hrows, hcols⟩ := Kernel.localMatrix_size hK
  refine overwritten_of_nodes (fun d hd => (hm _ (List.mem_map_of_mem hc) d hd).1) rfl
    (fun p q hpq => ?_) (forall_isLast_range_iff.mpr (hs c hc)) i j
  obtain ⟨hp, hq⟩ := entry_ne_zero hpq
  rw [Kernel.matrixOf_eq hK, hrows] at hp
  rw [Kernel.matrixOf_eq hK, hcols] at hq
  exact ⟨mem_places_range.mpr hp, mem_places_range.mpr hq⟩

theorem separates_cells (hm : InRange m) (hn : ∀ c ∈ m.cells, 0 < c.element.dofsPerNode)
    (hreg : Integrable m none) (hagree : Agree m .ones none) : Separates m none := by
  have hones : ∀ c ∈ m.cells, ∃ x : ℝ, 0 < x ∧ Kernel.ones.matrixOf c.element =
      .ofFn c.element.dofs c.element.dofs fun _ _ => x := by
    intro c hc
    obtain ⟨x, hx, hK⟩ := Kernel.localMatrix_ones (hreg c hc)
    exact ⟨x, hx, Kernel.matrixOf_eq hK⟩
  have hblocks := matrixBlocks_none.mpr ⟨fun c hc => by
    obtain ⟨x, -, hK⟩ := Kernel.localMatrix_ones (hreg c hc)
    exact ⟨_, hK⟩, rfl⟩
  have hlost := agree_iff_lost.mp hagree _ hblocks
  have hentry (c : Cell ℝ) (hc : c ∈ m.cells) :
      ∀ p q, 0 ≤ (Kernel.ones.matrixOf c.element).entry p q := by
    obtain ⟨x, hx, hK⟩ := hones c hc
    rw [hK]
    exact Kernel.entry_constant_nonneg _ hx
  intro c hc
  have hdof := hm _ (List.mem_map_of_mem (f := Cell.element) hc)
  rw [← forall_isLast_range_iff]
  refine isLast_of_nodes (b := ⟨globalDofs c.element, Kernel.ones.matrixOf c.element⟩)
    (fun d hd => (hdof d hd).1) (hn c hc) rfl (fun k hk => List.mem_range.mp hk)
    (hentry c hc) (fun p hp => ?_) (fun i hi => ?_)
  · obtain ⟨x, hx, hK⟩ := hones c hc
    have hlt := mem_places_range.mp hp
    simp only [hK, Kernel.entry_constant, hlt, and_self, if_true]
    exact hx
  · obtain ⟨d, hd, rfl⟩ := List.mem_map.mp hi
    have hlt : d.toNat < m.dofs := by
      have := hdof d hd
      omega
    refine overwritten_of_lost (fun b hb => ?_) (hlost _ _ hlt hlt) _ (List.mem_map_of_mem hc)
    obtain ⟨c', hc', rfl⟩ := List.mem_map.mp hb
    exact hentry c' hc'

end Cells

section Sides

variable {e : Element ℝ} {sides : List ℕ} {K : DenseMatrix ℝ}

/-- The local nodes of some sides of an element. -/
def sideNodesOf (e : Element ℝ) (sides : List ℕ) : List ℕ :=
  sides.flatMap fun s : ℕ => (e.sideNodes s).toOption.getD []

theorem mem_sideNodesOf {node : ℕ} :
    node ∈ sideNodesOf e sides ↔
      ∃ s ∈ sides, ∃ nodes, e.sideNodes s = .ok nodes ∧ node ∈ nodes := by
  rw [sideNodesOf, List.mem_flatMap]
  refine exists_congr fun s => and_congr_right ?_
  intro _
  cases e.sideNodes s with
  | error err => simp [Except.toOption]
  | ok nodes => simp [Except.toOption]

theorem partAt_eq_zero {b : Block (DenseMatrix ℝ)} {p q : ℕ}
    (h : p ∉ b.dofs ∨ q ∉ b.dofs) : b.partAt p q = 0 := by
  unfold Block.partAt
  rcases h with hp | hq
  · rw [List.idxOf?_eq_none_iff.mpr hp]
    rfl
  · rw [List.idxOf?_eq_none_iff.mpr hq]
    cases b.dofs.idxOf? p <;> rfl

/-- The block of an element for some of its sides has entries at their places only. -/
theorem mem_places_of_sideMatrix (h : sideMatrix k e sides = .ok K) {p q : ℕ}
    (hpq : K.entry p q ≠ 0) :
    p ∈ e.places (sideNodesOf e sides) ∧ q ∈ e.places (sideNodesOf e sides) := by
  obtain ⟨parts, hparts, hrows, hcols, hentry⟩ := sideMatrix_eq_ok h
  obtain ⟨hp, hq⟩ := entry_ne_zero hpq
  rw [hentry p q (hrows ▸ hp) (hcols ▸ hq)] at hpq
  obtain ⟨b, hb, hne⟩ : ∃ b ∈ parts, b.partAt p q ≠ 0 := by
    by_contra hall
    push Not at hall
    refine hpq (List.sum_eq_zero fun x hx => ?_)
    obtain ⟨b, hb, rfl⟩ := List.mem_map.mp hx
    exact hall b hb
  obtain ⟨s, hs, hpart⟩ := exists_of_mem_mapM hparts hb
  obtain ⟨side, nodes, -, hnodes, -, hdofs, -, -⟩ := sidePart_eq_ok hpart
  have hsub := e.places_subset fun node hnode =>
    mem_sideNodesOf.mpr ⟨s, hs, nodes, hnodes, hnode⟩
  have hmem : p ∈ b.dofs ∧ q ∈ b.dofs := by
    by_contra hnot
    exact hne (partAt_eq_zero (not_and_or.mp hnot))
  rw [hdofs] at hmem
  exact ⟨hsub p hmem.1, hsub q hmem.2⟩

theorem entries_ones {s : ℕ} {b : Block (DenseMatrix ℝ)}
    (h : sidePart Kernel.ones.localMatrix e s = .ok b) :
    ∃ c : ℝ, 0 < c ∧ b.entries = .ofFn b.dofs.length b.dofs.length fun _ _ => c := by
  obtain ⟨side, nodes, -, -, -, hdofs, hgetDof, hK⟩ := sidePart_eq_ok h
  obtain ⟨c, hc, hc'⟩ := Kernel.localMatrix_ones (Kernel.isRegular_of_localMatrix _ hK)
  have hlen : side.dofs = b.dofs.length := by
    rw [← Element.length_getDof, hgetDof, hdofs, List.length_map]
  rw [hK, hlen] at hc'
  exact ⟨c, hc, Except.ok.inj hc'⟩

theorem partAt_ones_nonneg {s : ℕ} {b : Block (DenseMatrix ℝ)}
    (h : sidePart Kernel.ones.localMatrix e s = .ok b) (p q : ℕ) : 0 ≤ b.partAt p q := by
  obtain ⟨c, hc, hb⟩ := entries_ones h
  unfold Block.partAt
  cases b.dofs.idxOf? p with
  | none => exact le_rfl
  | some a =>
    cases b.dofs.idxOf? q with
    | none => exact le_rfl
    | some a' =>
      change 0 ≤ b.entries.entry a a'
      rw [hb]
      exact Kernel.entry_constant_nonneg _ hc a a'

theorem partAt_ones_pos {s : ℕ} {b : Block (DenseMatrix ℝ)}
    (h : sidePart Kernel.ones.localMatrix e s = .ok b) {p : ℕ} (hp : p ∈ b.dofs) :
    0 < b.partAt p p := by
  obtain ⟨c, hc, hb⟩ := entries_ones h
  obtain ⟨a, ha⟩ := Option.isSome_iff_exists.mp (List.isSome_idxOf?.mpr hp)
  obtain ⟨hlt, -, -⟩ := List.idxOf?_eq_some_iff.mp ha
  simp only [Block.partAt, ha, Option.elim_some, hb, Kernel.entry_constant, hlt, and_self, if_true]
  exact hc

/-- The block of ones for some sides of an element is positive at the places of these sides. -/
theorem entry_sideMatrix_ones (h : sideMatrix .ones e sides = .ok K) :
    (∀ p q, 0 ≤ K.entry p q) ∧ ∀ p ∈ e.places (sideNodesOf e sides), 0 < K.entry p p := by
  obtain ⟨parts, hparts, hrows, hcols, hentry⟩ := sideMatrix_eq_ok h
  have hnonneg (p q : ℕ) : ∀ x ∈ parts.map fun b => b.partAt p q, 0 ≤ x := by
    intro x hx
    obtain ⟨b, hb, rfl⟩ := List.mem_map.mp hx
    obtain ⟨s, -, hpart⟩ := exists_of_mem_mapM hparts hb
    exact partAt_ones_nonneg hpart p q
  constructor
  · intro p q
    by_cases hpq : K.entry p q = 0
    · exact hpq.ge
    · obtain ⟨hp, hq⟩ := entry_ne_zero hpq
      rw [hentry p q (hrows ▸ hp) (hcols ▸ hq)]
      exact List.sum_nonneg (hnonneg p q)
  · intro p hp
    obtain ⟨node, hnode, i, hi, rfl⟩ := Element.mem_places.mp hp
    obtain ⟨s, hs, nodes, hnodes, hmem⟩ := mem_sideNodesOf.mp hnode
    obtain ⟨b, hb, hpart⟩ := exists_of_mapM_eq_ok hparts hs
    obtain ⟨side, nodes', -, hnodes', hfam, hdofs, -, -⟩ := sidePart_eq_ok hpart
    obtain rfl : nodes = nodes' := Except.ok.inj (hnodes.symm.trans hnodes')
    have hplace := Element.mem_places.mpr ⟨node, hmem, i, hi, rfl⟩
    have hlt := Element.lt_of_mem_places (Family.lt_of_mem_sides hfam).2 hplace
    rw [hentry _ _ hlt hlt]
    refine lt_of_lt_of_le (partAt_ones_pos hpart (hdofs ▸ hplace)) ?_
    exact List.single_le_sum (hnonneg _ _) _ (List.mem_map_of_mem hb)

end Sides

section Tagged

variable {tag : TagId} {blocks : List (Block (DenseMatrix ℝ))}

theorem lost_sides (hm : InRange m) (hs : Separates m (some tag))
    (h : matrixBlocks m k (some tag) = .ok blocks) (i j : ℕ) : lost blocks i j = 0 := by
  obtain ⟨r, groups, hr, hgroups, hblocks⟩ := matrixBlocks_some.mp h
  apply lost_of_overwritten
  intro b hb
  obtain ⟨g, hg, hgb⟩ := exists_of_mem_mapM hblocks hb
  obtain ⟨K, hK, rfl⟩ := blockOf_eq_ok.mp hgb
  have he := mem_of_elementGroups hgroups hg
  refine overwritten_of_nodes (fun d hd => (hm _ he d hd).1) rfl
    (fun p q hpq => mem_places_of_sideMatrix hK hpq) (fun node hnode => ?_) i j
  obtain ⟨s, hsides, nodes, hnodes, hmem⟩ := mem_sideNodesOf.mp hnode
  obtain ⟨id, c, hside, hc, hce⟩ := exists_side_of_group hgroups hg hsides
  rw [← hce] at hnodes ⊢
  exact hs r hr (id, s) hside c hc nodes hnodes node hmem

/-- If all sides of the groups have a matrix, so has every group. -/
theorem exists_blocks_ones (hreg : Integrable m (some tag)) :
    ∃ blocks, matrixBlocks m .ones (some tag) = .ok blocks := by
  obtain ⟨sides, ⟨r, hr, -, hsides⟩, hreg⟩ := hreg
  have hside : ∀ x ∈ r.sides, ∃ c side, m.cell x.1 = .ok c ∧
      c.element.buildSide x.2 = .ok side ∧ side.IsRegular := by
    intro x hx
    obtain ⟨side, hmem, hside⟩ := exists_of_mapM_eq_ok hsides hx
    obtain ⟨c, hc, hbuild⟩ := sideElement_eq_ok hside
    exact ⟨c, side, hc, hbuild, hreg side hmem⟩
  obtain ⟨groups, hgroups⟩ := exists_groups fun x hx => by
    obtain ⟨c, -, hc, -⟩ := hside x hx
    exact ⟨c, hc⟩
  obtain ⟨blocks, hblocks⟩ : ∃ blocks,
      groups.mapM (fun g => blockOf (sideMatrix .ones · g.2) g.1) = .ok blocks := by
    apply exists_mapM_eq_ok
    intro g hg
    obtain ⟨K, hK⟩ := exists_sideMatrix (k := .ones) (e := g.1) fun s (hs : s ∈ g.2) => by
      obtain ⟨id, c, hx, hc, hce⟩ := exists_side_of_group hgroups hg hs
      obtain ⟨c', side, hc', hbuild, hregular⟩ := hside (id, s) hx
      obtain rfl : c = c' := Except.ok.inj (hc.symm.trans hc')
      obtain ⟨x, -, hx⟩ := Kernel.localMatrix_ones hregular
      exact exists_sidePart (hce ▸ hbuild) hx
    exact ⟨_, blockOf_eq_ok.mpr ⟨K, hK, rfl⟩⟩
  exact ⟨blocks, matrixBlocks_some.mpr ⟨r, groups, hr, hgroups, hblocks⟩⟩

theorem separates_sides (hm : InRange m) (hn : ∀ c ∈ m.cells, 0 < c.element.dofsPerNode)
    (hreg : Integrable m (some tag)) (hagree : Agree m .ones (some tag)) :
    Separates m (some tag) := by
  obtain ⟨blocks, hblocks⟩ := exists_blocks_ones hreg
  have hlost := agree_iff_lost.mp hagree blocks hblocks
  obtain ⟨r, groups, hr, hgroups, hmap⟩ := matrixBlocks_some.mp hblocks
  have hentry : ∀ b ∈ blocks, ∀ p q, 0 ≤ b.entries.entry p q := by
    intro b hb
    obtain ⟨g, -, hgb⟩ := exists_of_mem_mapM hmap hb
    obtain ⟨K, hK, rfl⟩ := blockOf_eq_ok.mp hgb
    exact (entry_sideMatrix_ones hK).1
  intro r' hr' x hx c hc nodes hnodes node hnode
  obtain rfl : r = r' := Except.ok.inj (hr.symm.trans hr')
  obtain ⟨c', g, hc', hg, hgc, hs⟩ := exists_group hgroups hx
  obtain rfl : c = c' := Except.ok.inj (hc.symm.trans hc')
  obtain ⟨b, hb, hgb⟩ := exists_of_mapM_eq_ok hmap hg
  obtain ⟨K, hK, rfl⟩ := blockOf_eq_ok.mp hgb
  have hdof := hm _ (mem_of_elementGroups hgroups hg)
  rw [← hgc] at hnodes ⊢
  refine isLast_of_nodes (fun d hd => (hdof d hd).1)
    (hgc ▸ hn c (mem_cells_of_cell hc)) rfl (fun node' hnode' => ?_) (hentry _ hb)
    (entry_sideMatrix_ones hK).2 (fun i hi => ?_) node
    (mem_sideNodesOf.mpr ⟨x.2, hs, nodes, hnodes, hnode⟩)
  · obtain ⟨s, -, nodes', hnodes', hmem⟩ := mem_sideNodesOf.mp hnode'
    exact (Family.lt_of_mem_sides (Element.sideNodes_mem hnodes')).2 node' hmem
  · obtain ⟨d, hd, rfl⟩ := List.mem_map.mp hi
    have hlt : d.toNat < m.dofs := by
      have := hdof d hd
      omega
    exact overwritten_of_lost hentry (hlost _ _ hlt hlt) _ hb

end Tagged

section Main

variable {boundary : Option TagId}

/-- Where some kernel can be assembled all elements that are integrated over are regular. -/
theorem integrable_of_matrixBlocks (hm : m.Reachable) {blocks : List (Block (DenseMatrix ℝ))}
    (h : matrixBlocks m k boundary = .ok blocks) : Integrable m boundary := by
  cases boundary with
  | none =>
    intro c hc
    obtain ⟨K, hK⟩ := (matrixBlocks_none.mp h).1 c hc
    exact Kernel.isRegular_of_localMatrix k hK
  | some tag =>
    obtain ⟨r, groups, hr, hgroups, hblocks⟩ := matrixBlocks_some.mp h
    obtain ⟨sides, hsides, hex⟩ := exists_sides k.localMatrix (sideMatrix k)
      (fun _ _ _ h => (sideMatrix_eq_ok h).imp fun _ hp => hp.1) hgroups hblocks
    refine ⟨sides, ⟨r, hr, nodup_boundary hm hr, hsides⟩, ?_⟩
    intro e he
    obtain ⟨K, hK⟩ := hex e he
    exact Kernel.isRegular_of_localMatrix k hK

/-- The two ways of assembly agree on a kernel exactly if the overwritten entries add up to zero at
each place, and they agree on all kernels exactly if the nodes that carry entries are at their last
places wherever there are integrals at all. -/
theorem direct_agrees_iff (hm : m.Reachable) (hf : m.frozen = true) (boundary : Option TagId) :
    (∀ k, Agree m k boundary ↔ ∀ blocks, matrixBlocks m k boundary = .ok blocks →
      ∀ i j, i < m.dofs → j < m.dofs → lost blocks i j = 0) ∧
    ((∀ k, Agree m k boundary) ↔ (Integrable m boundary → Separates m boundary)) := by
  have hrange := inRange hm hf
  have hn : ∀ c ∈ m.cells, 0 < c.element.dofsPerNode :=
    fun c hc => hm.wellFormed.dofsPerNode_pos hf hc
  refine ⟨fun k => agree_iff_lost, fun hagree hreg => ?_, fun hsep k => ?_⟩
  · cases boundary with
    | none => exact separates_cells hrange hn hreg (hagree .ones)
    | some tag => exact separates_sides hrange hn hreg (hagree .ones)
  · rw [agree_iff_lost]
    intro blocks hblocks i j _ _
    have hs := hsep (integrable_of_matrixBlocks hm hblocks)
    cases boundary with
    | none => exact lost_cells hrange hs hblocks i j
    | some tag => exact lost_sides hrange hs hblocks i j

theorem direct_agrees_over_taggedSegment :
    (∀ k, Agree taggedSegment k none) ∧ ∀ k, Agree taggedSegment k (some (.name "ends")) := by
  have hfrozen : taggedSegment.frozen = true := by decide +kernel
  have hdistinct : Separates taggedSegment none := by
    change ∀ c ∈ taggedSegment.cells, c.element.nodeIds.Nodup
    decide +kernel
  have hsides : Separates taggedSegment (some (.name "ends")) := by
    intro r _ side _ c hc nodes hnodes node hnode
    have hlast := forall_isLast_iff.mpr (hdistinct c (mem_cells_of_cell hc))
    refine hlast node ?_
    rw [c.element.length_nodeIds]
    exact (Family.lt_of_mem_sides (Element.sideNodes_mem hnodes)).2 node hnode
  exact ⟨(direct_agrees_iff reachable_taggedSegment hfrozen none).2.mpr fun _ => hdistinct,
    (direct_agrees_iff reachable_taggedSegment hfrozen _).2.mpr fun _ => hsides⟩

end Main

section Collapsed

/-- The corners of a triangle. -/
noncomputable def triangleCoords : DenseMatrix ℝ := .ofRows 2 [[0, 0], [1, 0], [0, 1]]

/-- A quadrilateral that is collapsed to a triangle by naming a corner twice. -/
noncomputable def collapsedQuad : Mesh ℝ :=
  (Mesh.ofLists (.text "scalar") [[0, 0], [1, 0], [0, 1]] [(.quad4, [1, 2, 3, 3])]).freeze.2

theorem reachable_collapsedQuad : collapsedQuad.Reachable :=
  .step (Mesh.reachable_ofLists _ (by simp) (by simp [Family.nodeCount])) (.freeze _)

theorem det_collapsedQuad (x y : ℝ) :
    ((DenseMatrix.ofRows 4 (Basis.quad4Gradient x y)).mul
      (triangleCoords.selectRows [0, 1, 2, 2])).det = (1 - y) / 8 := by
  rw [DenseMatrix.det_two rfl rfl]
  simp [DenseMatrix.mul, DenseMatrix.entry_ofFn, DenseMatrix.ofRows, DenseMatrix.selectRows,
    triangleCoords, sumTo, Basis.quad4Gradient]
  norm_num
  ring

/-- The collapsed quadrilateral is accepted and regular, but the two ways differ. -/
theorem direct_differs_over_collapsedQuad :
    collapsedQuad.Reachable ∧ collapsedQuad.frozen = true ∧ ¬ Agree collapsedQuad .ones none := by
  have hfrozen : collapsedQuad.frozen = true := by decide +kernel
  have hfamily : ∀ c ∈ collapsedQuad.cells, c.element.family = .quad4 := by decide +kernel
  have hnodes : collapsedQuad.cells.map (fun c => c.element.nodes) =
      [triangleCoords.selectRows [0, 1, 2, 2]] := rfl
  have hregular : Integrable collapsedQuad none := by
    intro c hc
    have hc' : c.element.nodes = triangleCoords.selectRows [0, 1, 2, 2] := by
      have hmem := List.mem_map_of_mem (f := fun c : Cell ℝ => c.element.nodes) hc
      rwa [hnodes, List.mem_singleton] at hmem
    apply Element.isRegular_quad4 (hfamily c hc) (by rw [hc']; rfl)
    intro x y _ hy
    rw [hc', det_collapsedQuad]
    linarith [(abs_lt.mp hy).2]
  refine ⟨reachable_collapsedQuad, hfrozen, ?_⟩
  intro hagree
  have hn : ∀ c ∈ collapsedQuad.cells, 0 < c.element.dofsPerNode :=
    fun c hc => reachable_collapsedQuad.wellFormed.dofsPerNode_pos hfrozen hc
  have hdistinct : ∀ c ∈ collapsedQuad.cells, c.element.nodeIds.Nodup :=
    separates_cells (inRange reachable_collapsedQuad hfrozen) hn hregular hagree
  revert hdistinct
  decide +kernel

end Collapsed

end Assembly
end WeakForm
