import Mathlib.Logic.Relation
import WeakForm.Proofs.RealScalar
import WeakForm.Mesh.Grid
import WeakForm.Proofs.Mesh.Grids

/-!
# Grids of intervals

The grid of an interval has equidistant nodes, and every cell joins two neighbours. Its exterior is
made of the two ends.
-/

/-!
## Chains of cells

Two nodes are linked by a chain of cells, each of which shares a node with the next one. What has one
value on every cell then has the same value at both.
-/

namespace WeakForm
namespace Mesh

section Chains

variable {α : Type} {m : Mesh α} {a b : ℤ}

/-- Both nodes belong to one cell. -/
def Adjacent (m : Mesh α) (a b : ℤ) : Prop :=
  ∃ c ∈ m.cells, a ∈ c.element.nodeIds ∧ b ∈ c.element.nodeIds

/-- Any two nodes are linked by a chain of cells, each of which shares a node with the next one. -/
def IsConnected (m : Mesh α) : Prop :=
  ∀ a b : ℤ, 1 ≤ a → a ≤ m.nodes.length → 1 ≤ b → b ≤ m.nodes.length →
    Relation.ReflTransGen m.Adjacent a b

theorem Adjacent.symm (h : m.Adjacent a b) : m.Adjacent b a := by
  obtain ⟨c, hc, ha, hb⟩ := h
  exact ⟨c, hc, hb, ha⟩

/-- What has one value on every cell has one value on every chain of cells. -/
theorem eq_of_chain {β : Type} {f : ℤ → β} (hf : ∀ a b, m.Adjacent a b → f a = f b)
    (h : Relation.ReflTransGen m.Adjacent a b) : f a = f b := by
  induction h with
  | refl => rfl
  | tail _ hstep ih => exact ih.trans (hf _ _ hstep)

/-- It is enough that all nodes are linked with one of them. -/
theorem isConnected_of_root (root : ℤ) (h : ∀ a : ℤ, 1 ≤ a → a ≤ m.nodes.length →
    Relation.ReflTransGen m.Adjacent root a) : m.IsConnected := by
  have hback {a : ℤ} (ha : Relation.ReflTransGen m.Adjacent root a) :
      Relation.ReflTransGen m.Adjacent a root := by
    induction ha with
    | refl => exact .refl
    | tail _ hstep ih => exact .head hstep.symm ih
  exact fun a b ha ha' hb hb' => (hback (h a ha ha')).trans (h b hb hb')

end Chains

/-- The nodes of an element of the list are adjacent. -/
theorem IsOver.adjacent {m : Mesh ℝ} {nodes : List (List ℝ)} {connectivity : List (Family × List ℤ)}
    {d : ℕ} (h : m.IsOver nodes connectivity d) {c : Family × List ℤ} (hc : c ∈ connectivity) {a b : ℤ}
    (ha : a ∈ c.2) (hb : b ∈ c.2) : m.Adjacent a b := by
  obtain ⟨i, hi, rfl⟩ := List.mem_iff_getElem.mp hc
  have hcells := h.forall₂_cells
  have hi' : i < m.cells.length := hcells.length_eq ▸ hi
  obtain ⟨hmade, -⟩ := hcells.get hi hi'
  change m.cells[i].element.IsMade connectivity[i].1 _ connectivity[i].2 _ at hmade
  exact ⟨_, List.getElem_mem hi', hmade.nodeIds_eq ▸ ha, hmade.nodeIds_eq ▸ hb⟩

end Mesh
end WeakForm

/-!
## Cells and exterior of the grid
-/

namespace WeakForm
namespace Grid

section Points

variable {lo hi : ℝ} {n : ℕ}

/-- Without rounding all points are the same number of steps from the start. -/
theorem point_eq (byShare : Bool) (hn : 0 < n) (i : ℕ) :
    point byShare lo hi n i = lo + i * spacing lo hi n := by
  have hne : (n : ℝ) ≠ 0 := by exact_mod_cast hn.ne'
  unfold point
  split_ifs with hi
  · rw [hi, spacing]
    field_simp
    ring
  · rw [spacing]
    ring
  · rfl

theorem points_eq (hn : 0 < n) :
    points lo hi n = (List.range (n + 1)).map fun i : ℕ => lo + i * spacing lo hi n :=
  List.map_congr_left fun i _ => point_eq _ hn i

theorem spacing_pos (hlt : lo < hi) (hn : 0 < n) : 0 < spacing lo hi n :=
  div_pos (sub_pos.mpr hlt) (by exact_mod_cast hn)

theorem mul_spacing (hn : 0 < n) : n * spacing lo hi n = hi - lo :=
  mul_div_cancel₀ _ (by exact_mod_cast hn.ne')

end Points

section Checks

variable {lo hi : ℝ} {n : ℕ}

theorem checkExtent_eq_ok (axis : String) (hlt : lo < hi) (hn : 0 < n) :
    checkExtent axis (.real lo) (.real hi) (.integer n) = .ok () := by
  have hless : (Datum.real lo).less? (.real hi) = some true := by
    simp [Datum.less?, Datum.lessLeaf?, hlt]
  have hcount : (Datum.integer (α := ℝ) n).less? (.integer 1) = some false := by
    simp [Datum.less?, Datum.lessLeaf?, Datum.integer?, Nat.pos_iff_ne_zero.mp hn]
  rw [checkExtent, hless, hcount]

theorem entries_real (x : ℝ) : (Datum.real x).entries coordinate = .ok (.scalar x) := by
  unfold Datum.entries
  rw [Datum.shape?, Datum.leaves]
  · simp [coordinate, Tensor.mostAxes, Tensor.reshape?, Tensor.ofArray, volume, pure, Except.pure,
      Tensor.scalar]
  all_goals simp

theorem ends_real (lo hi : ℝ) : ends (.real lo) (.real hi) = .ok [(lo, hi)] := by
  rw [ends, entries_real, entries_real, ok_bind, ok_bind, Tensor.zipWith, dif_pos (by rfl)]
  simp [Tensor.scalar, pure, Except.pure]

theorem partCount_integer (n : ℕ) : partCount (.integer n : Datum ℝ) = .ok n := rfl

end Checks

/-- The nodes of the grid of an interval. -/
noncomputable def intervalNodes (lo hi : ℝ) (n : ℕ) : List (List ℝ) :=
  (List.range (n + 1)).map fun i : ℕ => [lo + i * spacing lo hi n]

/-- The cells of the grid of an interval. -/
def segments (f : Family) (n : ℕ) : List (Family × List ℤ) :=
  (List.range n).map fun i : ℕ => (f, [(i : ℤ) + 1, (i : ℤ) + 2])

section Nodes

variable {lo hi : ℝ} {n i : ℕ}

theorem length_intervalNodes : (intervalNodes lo hi n).length = n + 1 := by simp [intervalNodes]

theorem getElem?_intervalNodes (hi' : i ≤ n) :
    (intervalNodes lo hi n)[i]? = some [lo + i * spacing lo hi n] := by
  simp [intervalNodes, Nat.lt_succ_of_le hi']

theorem nodeDim_intervalNodes : Mesh.nodeDim (intervalNodes lo hi n) = 1 :=
  Mesh.nodeDim_eq (List.ne_nil_of_length_pos (length_intervalNodes ▸ Nat.succ_pos n))
    (by simp [intervalNodes])

/-- The coordinate of a node of a cell. -/
theorem entry_nodesOf_interval {ids : List ℤ} {p : ℕ} (hp : ids[p]? = some ((i : ℤ) + 1))
    (hi' : i ≤ n) : (Mesh.nodesOf (Mesh.coordinateMatrix (intervalNodes lo hi n)) ids).entry p 0 =
      lo + i * spacing lo hi n := by
  have hx : (intervalNodes lo hi n)[((i : ℤ) + 1 - 1).toNat]? = some [lo + i * spacing lo hi n] := by
    rw [add_sub_cancel_right]
    exact getElem?_intervalNodes hi'
  exact Mesh.entry_nodesOf hp hx 0

end Nodes

section Meshes

variable {lo hi : ℝ} {n d : ℕ} {f : Family}

/-- The segments with two nodes. -/
def IsSegment (f : Family) : Prop := f = .line2 ∨ f = .beam2

/-- The grid of an interval. Without a space it has the degrees of freedom of its family. -/
theorem exists_intervalOfData (hf : IsSegment f) {space : Datum ℝ}
    (hspace : space = .null ∧ d = f.fixedDofs.getD 1 ∨ Space.dofsPerNode space 1 = .ok d)
    (hlt : lo < hi) (hn : 0 < n) :
    ∃ space', intervalOfData space (.real lo) (.real hi) (.integer n) f.name =
        .ok (.ofLists space' (intervalNodes lo hi n) (segments f n)) ∧
      Space.dofsPerNode space' 1 = .ok d := by
  have hname : (family f.name : Except (Error ℝ) Family) = .ok f := by
    rcases hf with rfl | rfl
    · rw [family, show Family.ofName? Family.line2.name = some .line2 by decide +kernel]
    · rw [family, show Family.ofName? Family.beam2.name = some .beam2 by decide +kernel]
  have hnodes : segmentPoints [(lo, hi)] n = intervalNodes lo hi n := by
    simp only [segmentPoints, List.map_cons, List.map_nil, point_eq _ hn, intervalNodes]
  have hline (space' : Datum ℝ) : line? space' (segmentPoints [(lo, hi)]) n f =
      some (.ofLists space' (intervalNodes lo hi n) (segments f n)) := by
    rw [← hnodes]
    rcases hf with rfl | rfl <;> rfl
  unfold intervalOfData
  rw [checkExtent_eq_ok "x" hlt hn, ok_bind, hname, ok_bind,
    if_pos (by rcases hf with rfl | rfl <;> decide), partCount_integer, ok_bind, ends_real, ok_bind,
    checkCapacity_real, ok_bind, if_neg (by simp)]
  simp only [hline]
  refine ⟨_, rfl, ?_⟩
  rcases hspace with ⟨rfl, rfl⟩ | hd
  · rcases hf with rfl | rfl
    · have hscalar : (Text.lowercase "scalar" == "scalar") = true := by decide +kernel
      simp [Space.dofsPerNode, hscalar, Family.fixedDofs]
    · rfl
  · cases space with
    | null => cases hd
    | _ => exact hd

/-- The grid of an interval is frozen. -/
theorem isOver_interval (hf : IsSegment f) {space : Datum ℝ} (hd : Space.dofsPerNode space 1 = .ok d)
    (hfixed : ∀ fixed, f.fixedDofs = some fixed → d = fixed) (hn : 0 < n) :
    (Mesh.ofLists space (intervalNodes lo hi n) (segments f n)).freeze.1 = .ok () ∧
      (Mesh.ofLists space (intervalNodes lo hi n) (segments f n)).freeze.2.IsOver
        (intervalNodes lo hi n) (segments f n) d ∧
      (Mesh.ofLists space (intervalNodes lo hi n) (segments f n)).freeze.2.regions = [] := by
  have hone : ∀ x ∈ intervalNodes lo hi n, 1 ≤ x.length ∧ x.length ≤ 3 := by simp [intervalNodes]
  have hne : intervalNodes lo hi n ≠ [] :=
    List.ne_nil_of_length_pos (length_intervalNodes ▸ Nat.succ_pos n)
  refine Mesh.isOver_freeze hone ⟨hne, ?_⟩ (nodeDim_intervalNodes ▸ hd) ?_
  · exact List.ne_nil_of_length_pos (by simpa [segments] using hn)
  · intro c hc
    obtain ⟨i, hi, rfl⟩ := List.mem_map.mp hc
    rw [List.mem_range] at hi
    refine ⟨by rcases hf with rfl | rfl <;> rfl, hfixed, ?_⟩
    simp only [List.forall_mem_cons, length_intervalNodes]
    refine ⟨by omega, by omega, by simp⟩

/-- Nodes that are joined one after the other are linked. -/
theorem isConnected_segments {m : Mesh ℝ} {nodes : List (List ℝ)} (hnodes : nodes.length = n + 1)
    (h : m.IsOver nodes (segments f n) d) : m.IsConnected := by
  have hlength : m.nodes.length = n + 1 := by rw [h.nodes_eq, hnodes]
  have hchain (i : ℕ) (hi : i ≤ n) : Relation.ReflTransGen m.Adjacent 1 ((i : ℤ) + 1) := by
    induction i with
    | zero => exact .refl
    | succ i ih =>
      refine (ih (Nat.le_of_succ_le hi)).tail (h.adjacent (c := (f, [(i : ℤ) + 1, (i : ℤ) + 2])) ?_ ?_ ?_)
      · exact List.mem_map.mpr ⟨i, List.mem_range.mpr hi, rfl⟩
      · simp
      · push_cast
        simp [add_assoc]
  refine Mesh.isConnected_of_root 1 fun a ha ha' => ?_
  obtain ⟨i, rfl⟩ : ∃ i : ℕ, a = (i : ℤ) + 1 := ⟨(a - 1).toNat, by omega⟩
  exact hchain i (by omega)

section Exterior

variable {i s : ℕ} {ids : List ℤ} {k : ℤ}

/-- The sides of the cells are single nodes. -/
theorem sideOf_segments (hf : IsSegment f) :
    Mesh.sideOf (segments f n) i s = some ids ↔ i < n ∧ s < 2 ∧ ids = [(i : ℤ) + s + 1] := by
  have hsides : f.sides = [[0], [1]] := by rcases hf with rfl | rfl <;> rfl
  unfold Mesh.sideOf segments
  by_cases hi : i < n
  · match s with
    | 0 => simp [hi, hsides, eq_comm]
    | 1 => simp [hi, hsides, eq_comm, add_assoc]
    | s + 2 => simp [hi, hsides]
  · simp [hi]

/-- The exterior nodes of the grid of an interval are its ends. -/
theorem mem_exterior_segments (hf : IsSegment f) (hn : 0 < n) :
    (∃ i s ids, Mesh.IsExterior (segments f n) i s ids ∧ k ∈ ids) ↔ k = 1 ∨ k = n + 1 := by
  constructor
  · rintro ⟨i, s, ids, ⟨hside, hunique⟩, hk⟩
    obtain ⟨hi, hs, rfl⟩ := (sideOf_segments hf).mp hside
    rw [List.mem_singleton] at hk
    by_contra hends
    -- the node is also the other end of a neighbour
    obtain hs | hs : s = 0 ∨ s = 1 := by omega
    · have hother : Mesh.sideOf (segments f n) (i - 1) 1 = some [(i : ℤ) + s + 1] :=
        (sideOf_segments hf).mpr ⟨by omega, by omega, by congr 1; push_cast; omega⟩
      have := hunique _ _ _ hother rfl
      simp [hs] at this
    · have hother : Mesh.sideOf (segments f n) (i + 1) 0 = some [(i : ℤ) + s + 1] :=
        (sideOf_segments hf).mpr ⟨by omega, by omega, by congr 1; push_cast; omega⟩
      have := hunique _ _ _ hother rfl
      simp [hs] at this
  · have hend {i s : ℕ} (hi : i < n) (hs : s < 2) (hk : k = i + s + 1)
        (hunique : ∀ j t : ℕ, j < n → t < 2 → (j : ℤ) + t = i + s → j = i ∧ t = s) :
        ∃ i s ids, Mesh.IsExterior (segments f n) i s ids ∧ k ∈ ids := by
      refine ⟨i, s, [(i : ℤ) + s + 1], .of_mem ((sideOf_segments hf).mpr ⟨hi, hs, rfl⟩) ?_, by simp [hk]⟩
      intro j t ids' hside' hmem
      obtain ⟨hj, ht, rfl⟩ := (sideOf_segments hf).mp hside'
      have hnode : (j : ℤ) + t + 1 = i + s + 1 := by simpa using hmem ((j : ℤ) + t + 1)
      obtain ⟨rfl, rfl⟩ := hunique j t hj ht (by omega)
      rfl
    rintro (rfl | rfl)
    · exact hend (i := 0) (s := 0) hn (by omega) (by simp) fun j t _ _ _ => by omega
    · exact hend (i := n - 1) (s := 1) (by omega) (by omega) (by push_cast; omega)
        fun j t _ _ _ => by omega

end Exterior

end Meshes

end Grid
end WeakForm

/-!
## Tagged ends

A condition on the coordinate selects either end of the grid of an interval. The nodes of a tagged
boundary are given by its sides and by the connectivity alone, so they do not depend on what is tagged
later.
-/

namespace WeakForm

namespace Predicate

/-- The first coordinate has the given value. -/
noncomputable def isAt (v : ℝ) : Predicate ℝ := .compare (.integer 0) .equal (.real v)

theorem holdsAt_isAt {v : ℝ} {points : List (List ℝ)} (h : ∀ p ∈ points, p ≠ []) :
    (isAt v).holdsAt points = .ok (points.all fun p => Scalar.same (p.getD 0 0) v) := by
  induction points with
  | nil => rfl
  | cons p points ih =>
    obtain ⟨hp, hpoints⟩ := List.forall_mem_cons.mp h
    obtain ⟨x, rest, rfl⟩ := List.exists_cons_of_ne_nil hp
    have heval : (isAt v).eval (x :: rest) = .ok (Scalar.same x v) := by
      have hindex : position? (x :: rest).length 0 = some 0 := position?_natCast (Nat.succ_pos _)
      have haxis : (Datum.integer (α := ℝ) 0).toIndex = .ok 0 := rfl
      rw [isAt, eval, haxis, ok_bind, hindex]
      rfl
    rw [holdsAt, heval, List.all_cons, List.getD_cons_zero]
    cases Scalar.same x v with
    | true => exact ih hpoints
    | false => rfl

end Predicate

namespace Mesh

variable {m : Mesh ℝ} {r : Region} {k : ℤ}

/-- The nodes of a boundary are those that the connectivity gives to its sides. -/
theorem mem_regionNodeIds_iff (hm : m.WellFormed) (hfrozen : m.frozen = true)
    (hkind : r.kind = .boundary) : k ∈ m.regionNodeIds r ↔
      ∃ ref ∈ r.sides, ∃ ids, sideOf m.connectivity (ref.1 - 1) ref.2 = some ids ∧ k ∈ ids := by
  simp only [mem_regionNodeIds hkind, sideOf_eq_some hm hfrozen]
  refine exists_congr fun ref => and_congr_right fun _ => ?_
  constructor
  · rintro ⟨c, side, hc, hs, hk⟩
    exact ⟨_, ⟨c, side, hc, hs, rfl⟩, hk⟩
  · rintro ⟨ids, ⟨c, side, hc, hs, rfl⟩, hk⟩
    exact ⟨c, side, hc, hs, hk⟩

end Mesh

namespace Grid

variable {lo hi : ℝ} {n d : ℕ} {f : Family} {m : Mesh ℝ} (hf : IsSegment f)
  (h : m.IsOver (intervalNodes lo hi n) (segments f n) d)
include hf h

/-- The sides of the cells of an interval are points. -/
theorem sidePoints_segments {i s : ℕ} {c : Cell ℝ} {side : CellSide} (hc : m.cells[i]? = some c)
    (hs : c.sides[s]? = some side) : i < n ∧ s < 2 ∧ c.sideNodeIds side = [(i : ℤ) + s + 1] ∧
      c.sidePoints side = [[lo + (i + s : ℕ) * spacing lo hi n]] := by
  have hside : Mesh.sideOf (segments f n) i s = some (c.sideNodeIds side) := by
    rw [← h.connectivity_eq]
    exact (Mesh.sideOf_eq_some h.reachable.wellFormed h.frozen).mpr ⟨c, side, hc, hs, rfl⟩
  obtain ⟨hi', hs', hids⟩ := (sideOf_segments hf).mp hside
  refine ⟨hi', hs', hids, ?_⟩
  have hcells := h.forall₂_cells
  have hlt : i < (segments f n).length := by simpa [segments] using hi'
  obtain ⟨hcell, rfl⟩ := List.getElem?_eq_some_iff.mp hc
  obtain ⟨hmade, -⟩ := hcells.get hlt hcell
  simp only [segments, List.get_eq_getElem, List.getElem_map, List.getElem_range] at hmade
  have hsides : m.cells[i].sides.map CellSide.nodes = [[0], [1]] := by
    rw [h.reachable.wellFormed.sides _ (List.getElem_mem hcell), hmade.family_eq]
    rcases hf with rfl | rfl <;> rfl
  have hnodes : side.nodes = [s] := by
    have hget := congrArg (·[s]?) hsides
    simp only [List.getElem?_map, hs, Option.map_some] at hget
    interval_cases s <;> simpa using hget
  have hcols : m.cells[i].element.nodes.cols = 1 := by
    rw [hmade.nodes_eq]
    exact nodeDim_intervalNodes
  have hentry : m.cells[i].element.nodes.entry s 0 = lo + (i + s : ℕ) * spacing lo hi n := by
    rw [hmade.nodes_eq]
    refine entry_nodesOf_interval (i := i + s) ?_ (by omega)
    interval_cases s
    · rfl
    · simp [add_assoc]
  rw [Cell.sidePoints, hnodes, List.map_singleton, DenseMatrix.row, hcols, ← hentry]
  rfl

/-- The end with node number `j + 1` is tagged by its coordinate. -/
theorem exists_tagEnd (hlt : lo < hi) (hn : 0 < n) {j : ℕ} (hj : j = 0 ∨ j = n) {tag : TagId}
    (htag : tag.IsPlain) (hnew : m.regions.lookup tag.key = none) (essential : Bool) :
    ∃ r m', m.addBoundary tag [.predicate (.isAt (lo + j * spacing lo hi n))] essential = (.ok r, m') ∧
      m'.IsOver (intervalNodes lo hi n) (segments f n) d ∧
      m'.regions = m.regions ++ [(tag.key, r)] ∧ r.kind = .boundary ∧ r.essential = essential ∧
      ∀ k, (∃ ref ∈ r.sides, ∃ ids, Mesh.sideOf (segments f n) (ref.1 - 1) ref.2 = some ids ∧ k ∈ ids) ↔
        k = (j : ℤ) + 1 := by
  have hspacing := spacing_pos hlt hn
  have htakes : ∀ c ∈ m.cells, ∀ side ∈ c.sides,
      Mesh.takesSide [.predicate (.isAt (lo + j * spacing lo hi n))] c side =
        .ok (side.onBoundary && (c.sidePoints side).all fun p =>
          Scalar.same (p.getD 0 0) (lo + j * spacing lo hi n)) := by
    intro c hc side hside
    obtain ⟨i, hi', hc⟩ := List.getElem_of_mem hc
    obtain ⟨s, hs, hside⟩ := List.getElem_of_mem hside
    obtain ⟨-, -, -, hpoints⟩ := sidePoints_segments hf h (hc ▸ List.getElem?_eq_getElem hi')
      (hside ▸ List.getElem?_eq_getElem hs)
    have hselects : Mesh.selects c side (.predicate (.isAt (lo + j * spacing lo hi n))) =
        .ok ((c.sidePoints side).all fun p => Scalar.same (p.getD 0 0) (lo + j * spacing lo hi n)) :=
      Predicate.holdsAt_isAt (by rw [hpoints]; simp)
    unfold Mesh.takesSide
    rw [Mesh.selectsAny, hselects]
    cases side.onBoundary with
    | false => rfl
    | true =>
      cases (c.sidePoints side).all fun p => Scalar.same (p.getD 0 0) (lo + j * spacing lo hi n) <;> rfl
  obtain ⟨r, cells, hadd, hcells, hkind, hessential, hmem⟩ := Mesh.addBoundary_eq_ok
    h.frozen htag hnew rfl htakes
  have hover := h.step (.addBoundary m tag [.predicate (.isAt (lo + j * spacing lo hi n))] essential)
  rw [hadd] at hover
  refine ⟨r, _, hadd, hover, rfl, hkind, hessential, fun k => ?_⟩
  have hat (i : ℕ) : lo + (i : ℝ) * spacing lo hi n = lo + j * spacing lo hi n ↔ i = j := by
    rw [add_right_inj, mul_left_inj' hspacing.ne', Nat.cast_inj]
  constructor
  · rintro ⟨⟨id, s⟩, href, ids, hside, hk⟩
    obtain ⟨-, c, side, hc, hs, htaken⟩ := (hmem _).mp href
    obtain ⟨-, -, -, hpoints⟩ := sidePoints_segments hf h hc hs
    obtain ⟨-, -, rfl⟩ := (sideOf_segments hf).mp hside
    have hcoordinate : id - 1 + s = j := by
      rw [hpoints, Bool.and_eq_true] at htaken
      rw [← hat]
      simpa using htaken.2
    rw [List.mem_singleton.mp hk, ← hcoordinate]
    push_cast
    ring
  · rintro rfl
    have hend : (j : ℤ) + 1 = 1 ∨ (j : ℤ) + 1 = n + 1 := by omega
    obtain ⟨i, s, ids, hexterior, hk⟩ := (mem_exterior_segments hf hn).mpr hend
    obtain ⟨-, -, rfl⟩ := (sideOf_segments hf).mp hexterior.sideOf_eq
    have hplace : i + s = j := by
      have := List.mem_singleton.mp hk
      omega
    rw [← h.connectivity_eq] at hexterior
    obtain ⟨c, side, hc, hs, hboundary, -⟩ :=
      (Mesh.isExterior_iff h.reachable h.frozen).mp hexterior
    obtain ⟨-, -, -, hpoints⟩ := sidePoints_segments hf h hc hs
    refine ⟨(i + 1, s), (hmem _).mpr ⟨by omega, c, side, by simpa using hc, hs, ?_⟩, _, ?_, hk⟩
    · rw [hboundary, hpoints, hplace]
      simp
    · rw [← h.connectivity_eq]
      exact hexterior.sideOf_eq

end Grid
end WeakForm
