import WeakForm.Proofs.Assembly.Scatter

/-!
# Overwritten entries

When direct assembly loses something of a block. It keeps the entry at the last pair of positions
with given indices, and the last pair consists of the last position of either index. So nothing is
lost if only such positions carry entries; and a positive entry at any other one is lost if no
entry is negative to make up for it.
-/

namespace WeakForm

section Lists

variable {β : Type} {R : β → β → Prop} {items : List β} {x y : β}

/-- All but the last of some ordered items are followed by another one. -/
theorem exists_later_of_mem_dropLast (h : items.Pairwise R) (hx : x ∈ items.dropLast) :
    ∃ y ∈ items, R x y := by
  induction items using List.reverseRecOn with
  | nil => simp at hx
  | append_singleton items z _ =>
    rw [List.dropLast_concat] at hx
    exact ⟨z, by simp, (List.pairwise_append.mp h).2.2 x hx z (by simp)⟩

theorem mem_dropLast_of_later (hasymm : ∀ a b, R a b → ¬ R b a) (h : items.Pairwise R)
    (hx : x ∈ items) (hy : y ∈ items) (hxy : R x y) : x ∈ items.dropLast := by
  induction items using List.reverseRecOn with
  | nil => simp at hx
  | append_singleton items z _ =>
    rw [List.dropLast_concat]
    rcases List.mem_append.mp hx with hx | hx
    · exact hx
    · rw [List.mem_singleton] at hx
      rcases List.mem_append.mp hy with hy | hy
      · have hyz : R y z := (List.pairwise_append.mp h).2.2 y hy z (by simp)
        exact absurd (hx ▸ hxy) (hasymm y z hyz)
      · rw [List.mem_singleton] at hy
        rw [hx, hy] at hxy
        exact absurd hxy (hasymm z z hxy)

end Lists

namespace Assembly

/-- The order in which the pairs of positions are written. -/
def WrittenBefore (a b : ℕ × ℕ) : Prop := a.1 < b.1 ∨ a.1 = b.1 ∧ a.2 < b.2

theorem WrittenBefore.asymm (a b : ℕ × ℕ) (h : WrittenBefore a b) : ¬ WrittenBefore b a := by
  unfold WrittenBefore at *
  omega

theorem pairwise_positionPairs (n : ℕ) : (positionPairs n).Pairwise WrittenBefore := by
  unfold positionPairs
  rw [List.pairwise_flatMap]
  constructor
  · intro p _
    rw [List.pairwise_map]
    exact List.pairwise_lt_range.imp fun h => .inr ⟨rfl, h⟩
  · refine List.pairwise_lt_range.imp fun {p p'} h a ha b hb => ?_
    obtain ⟨q, -, rfl⟩ := List.mem_map.mp ha
    obtain ⟨q', -, rfl⟩ := List.mem_map.mp hb
    exact .inl h

/-- No later position has the index of this one. -/
def IsLast {ι : Type} (indices : List ι) (p : ℕ) : Prop :=
  ∀ p', p < p' → p' < indices.length → indices[p']? ≠ indices[p]?

theorem forall_isLast_iff {ι : Type} {indices : List ι} :
    (∀ p < indices.length, IsLast indices p) ↔ indices.Nodup := by
  rw [List.nodup_iff_getElem?_ne_getElem?]
  constructor
  · intro h p p' hp hp'
    exact (h p (by omega) p' hp hp').symm
  · intro h p _ p' hp hp'
    exact (h p p' hp hp').symm

namespace Block

variable {b : Block (DenseMatrix ℝ)}

theorem mem_placesAt {pq : ℕ × ℕ} {i j : ℕ} :
    pq ∈ b.placesAt i j ↔ b.dofs[pq.1]? = some i ∧ b.dofs[pq.2]? = some j := by
  simp only [placesAt, List.mem_filter, mem_positionPairs, decide_eq_true_eq]
  refine ⟨And.right, fun h => ⟨⟨?_, ?_⟩, h⟩⟩
  · exact (List.getElem?_eq_some_iff.mp h.1).1
  · exact (List.getElem?_eq_some_iff.mp h.2).1

theorem pairwise_placesAt (b : Block (DenseMatrix ℝ)) (i j : ℕ) :
    (b.placesAt i j).Pairwise WrittenBefore :=
  (pairwise_positionPairs _).filter _

/-- Nothing is lost of a block that has entries at last positions only. -/
theorem overwritten_of_isLast
    (h : ∀ p q, b.entries.entry p q ≠ 0 → IsLast b.dofs p ∧ IsLast b.dofs q) (i j : ℕ) :
    b.overwritten i j = 0 := by
  apply List.sum_eq_zero
  intro x hx
  obtain ⟨pq, hpq, rfl⟩ := List.mem_map.mp hx
  by_contra hne
  obtain ⟨hp, hq⟩ := h pq.1 pq.2 hne
  obtain ⟨later, hlater, horder⟩ := exists_later_of_mem_dropLast (b.pairwise_placesAt i j) hpq
  obtain ⟨hpi, hqj⟩ := mem_placesAt.mp (List.mem_of_mem_dropLast hpq)
  obtain ⟨hpi', hqj'⟩ := mem_placesAt.mp hlater
  rcases horder with hlt | ⟨-, hlt⟩
  · exact hp later.1 hlt (List.getElem?_eq_some_iff.mp hpi').1 (hpi'.trans hpi.symm)
  · exact hq later.2 hlt (List.getElem?_eq_some_iff.mp hqj').1 (hqj'.trans hqj.symm)

theorem overwritten_nonneg (h : ∀ p q, 0 ≤ b.entries.entry p q) (i j : ℕ) :
    0 ≤ b.overwritten i j := by
  apply List.sum_nonneg
  intro x hx
  obtain ⟨pq, -, rfl⟩ := List.mem_map.mp hx
  exact h pq.1 pq.2

/-- A positive entry on the diagonal is lost unless its position is the last with its index. -/
theorem isLast_of_overwritten (h : ∀ p q, 0 ≤ b.entries.entry p q) {p i : ℕ}
    (hp : b.dofs[p]? = some i) (hpos : 0 < b.entries.entry p p) (hzero : b.overwritten i i = 0) :
    IsLast b.dofs p := by
  intro p' hlt _ heq
  have hmem : (p, p) ∈ b.placesAt i i := mem_placesAt.mpr ⟨hp, hp⟩
  have hmem' : (p', p') ∈ b.placesAt i i := mem_placesAt.mpr ⟨heq.trans hp, heq.trans hp⟩
  have hdrop : (p, p) ∈ (b.placesAt i i).dropLast :=
    mem_dropLast_of_later WrittenBefore.asymm (b.pairwise_placesAt i i) hmem hmem' (.inl hlt)
  have hle : b.entryAt (p, p) ≤ b.overwritten i i := by
    refine List.single_le_sum (fun x hx => ?_) _ (List.mem_map_of_mem hdrop)
    obtain ⟨pq, -, rfl⟩ := List.mem_map.mp hx
    exact h pq.1 pq.2
  rw [hzero] at hle
  exact absurd hpos (not_lt.mpr hle)

end Block

section Nodes

variable {α : Type} {e : Element α}

/-- The degrees of freedom of a node are at their last positions exactly if the node is. -/
theorem isLast_globalDofs_iff (hdof : ∀ d ∈ e.getDof, 0 ≤ d) {k c : ℕ}
    (hc : c < e.dofsPerNode) :
    IsLast (globalDofs e) (k * e.dofsPerNode + c) ↔ IsLast e.nodeIds k := by
  have hget (k' : ℕ) {c' : ℕ} (hc' : c' < e.dofsPerNode) (i : ℕ) :
      (globalDofs e)[k' * e.dofsPerNode + c']? = some i ↔
        ∃ node, e.nodeIds[k']? = some node ∧ Element.dofIndex e.dofsPerNode node c' = i := by
    rw [getElem?_globalDofs hdof, Element.getElem?_getDof e k' hc', Option.map_eq_some_iff]
  have hpos : 0 < e.dofsPerNode := by omega
  have hdofs : e.dofs = e.nodeIds.length * e.dofsPerNode := by rw [e.length_nodeIds]; rfl
  constructor
  · intro h k' hlt hk' heq
    have hplace : k' * e.dofsPerNode + c < e.dofs := by
      rw [hdofs]
      exact DenseMatrix.index_lt hk' hc
    have hbefore : k * e.dofsPerNode + c < k' * e.dofsPerNode + c :=
      Nat.add_lt_add_right (Nat.mul_lt_mul_of_pos_right hlt hpos) c
    refine h _ hbefore (by simpa using hplace) (Option.ext ?_)
    intro i
    rw [hget k' hc, hget k hc, heq]
  · intro h p hlt hp heq
    have hp' : p < e.dofs := by simpa using hp
    have hsplit : p / e.dofsPerNode * e.dofsPerNode + p % e.dofsPerNode = p := Nat.div_add_mod' _ _
    have hc' : p % e.dofsPerNode < e.dofsPerNode := Nat.mod_lt _ hpos
    have hk' : p / e.dofsPerNode < e.nodeIds.length := by
      rw [Nat.div_lt_iff_lt_mul hpos, ← hdofs]
      exact hp'
    rw [← hsplit] at hlt heq hp
    have hi := List.getElem?_eq_getElem hp
    obtain ⟨node', hnode', hi'⟩ := (hget _ hc' _).mp hi
    obtain ⟨node, hnode, hi''⟩ := (hget k hc _).mp (heq ▸ hi)
    obtain ⟨hnodes, hcc⟩ := Element.dofIndex_inj hc' hc (hi'.trans hi''.symm)
    rw [hcc] at hlt
    have hkk : k < p / e.dofsPerNode := by
      by_contra hge
      have := Nat.mul_le_mul_right e.dofsPerNode (not_lt.mp hge)
      omega
    exact h _ hkk hk' (by rw [hnode', hnode, hnodes])

end Nodes

section Blocks

variable {e : Element ℝ} {nodes : List ℕ} {b : Block (DenseMatrix ℝ)}

/-- Nothing is lost if all nodes that carry entries are at their last places. -/
theorem overwritten_of_nodes (hdof : ∀ d ∈ e.getDof, 0 ≤ d) (hb : b.dofs = globalDofs e)
    (hentry : ∀ p q, b.entries.entry p q ≠ 0 → p ∈ e.places nodes ∧ q ∈ e.places nodes)
    (hlast : ∀ k ∈ nodes, IsLast e.nodeIds k) (i j : ℕ) : b.overwritten i j = 0 := by
  have hplace : ∀ p ∈ e.places nodes, IsLast b.dofs p := by
    intro p hp
    obtain ⟨k, hk, c, hc, rfl⟩ := Element.mem_places.mp hp
    rw [hb]
    exact (isLast_globalDofs_iff hdof hc).mpr (hlast k hk)
  refine Block.overwritten_of_isLast (fun p q hpq => ?_) i j
  obtain ⟨hp, hq⟩ := hentry p q hpq
  exact ⟨hplace p hp, hplace q hq⟩

/-- If nothing is lost of positive entries, all nodes that carry them are at their last places. -/
theorem isLast_of_nodes (hdof : ∀ d ∈ e.getDof, 0 ≤ d) (hn : 0 < e.dofsPerNode)
    (hb : b.dofs = globalDofs e) (hnodes : ∀ k ∈ nodes, k < e.family.nodeCount)
    (hentry : ∀ p q, 0 ≤ b.entries.entry p q)
    (hpos : ∀ p ∈ e.places nodes, 0 < b.entries.entry p p)
    (hzero : ∀ i ∈ b.dofs, b.overwritten i i = 0) : ∀ k ∈ nodes, IsLast e.nodeIds k := by
  intro k hk
  have hp : k * e.dofsPerNode + 0 ∈ e.places nodes := Element.mem_places.mpr ⟨k, hk, 0, hn, rfl⟩
  have hlt : k * e.dofsPerNode + 0 < b.dofs.length := by
    rw [hb, length_globalDofs]
    exact Element.lt_of_mem_places hnodes hp
  have hlast := Block.isLast_of_overwritten hentry (List.getElem?_eq_getElem hlt) (hpos _ hp)
    (hzero _ (List.getElem_mem hlt))
  rw [hb] at hlast
  exact (isLast_globalDofs_iff hdof hn).mp hlast

end Blocks

end Assembly
end WeakForm
