import WeakForm.Proofs.RealScalar
import WeakForm.Element.Side
import WeakForm.Proofs.Element.Fields
import WeakForm.Proofs.Element.Placements
import WeakForm.Proofs.Mesh.Elements

/-!
# Traces on sides

The points of a side lie on the reference element between those of its two ends. There the basis
functions of the element are those of the side for the nodes of the side, and zero for all other nodes,
so that fields and positions on a side depend on nothing but its nodes. The basis functions of a side
belong to its ends in a symmetric way: turning the side around exchanges the ends.
-/

namespace WeakForm

open Finset

namespace Family

variable {f g : Family} {places : List ℕ} {x : ℝ}

/-- The point of the reference element at parameter `x` of the side with the given local nodes. A side
that is a point has one end only. -/
noncomputable def sidePoint (f : Family) (places : List ℕ) (x : ℝ) : List ℝ :=
  (List.range f.dim).map fun d =>
    (1 - x) / 2 * f.reference (places.getD 0 0) d +
      (1 + x) / 2 * f.reference (places.getD 1 (places.getD 0 0)) d

/-- The families of sides. -/
def IsSide (g : Family) : Prop := g ∈ [point, line2, line3]

/-- The basis functions of a side, which do not depend on its nodes. -/
noncomputable def sideBasis (g : Family) (x : ℝ) : List ℝ :=
  match g with
  | line2 => Basis.line2 x
  | line3 => Basis.line3 x
  | _ => [1]

theorem IsSide.cases (hg : g.IsSide) : g = point ∨ g = line2 ∨ g = line3 := by
  simpa [IsSide] using hg

theorem IsSide.basis_eq (hg : g.IsSide) (nodes : DenseMatrix ℝ) (x : ℝ) :
    g.basis nodes [x] = .ok (g.sideBasis x) ∧ g.geometryBasis nodes [x] = .ok (g.sideBasis x) ∧
      (g.sideBasis x).length = g.nodeCount := by
  rcases hg.cases with rfl | rfl | rfl <;> exact ⟨rfl, rfl, rfl⟩

/-- Two families of sides are the same if they have as many nodes. -/
theorem IsSide.eq_of_nodeCount {g' : Family} (hg : g.IsSide) (hg' : g'.IsSide)
    (h : g.nodeCount = g'.nodeCount) : g = g' := by
  rcases hg.cases with rfl | rfl | rfl <;> rcases hg'.cases with rfl | rfl | rfl <;>
    first | rfl | exact absurd h (by decide)

theorem IsLagrange.exists_sideFamily (hf : f.IsLagrange) : ∃ g, f.sideFamily = some g ∧ g.IsSide := by
  rcases hf.cases with rfl | rfl | rfl | rfl | rfl <;> exact ⟨_, rfl, by simp [IsSide]⟩

/-- On a side the basis functions of an element are those of the side for its nodes and zero for all
other nodes. -/
theorem IsLagrange.basis_sidePoint (hf : f.IsLagrange) (hg : f.sideFamily = some g)
    (hplaces : places ∈ f.sides) (nodes : DenseMatrix ℝ) (x : ℝ) :
    ∃ n, f.basis nodes (f.sidePoint places x) = .ok n ∧ n.length = f.nodeCount ∧
      ∀ φ, blend n φ = blend (g.sideBasis x) fun p => φ (places.getD p 0) := by
  rcases hf.cases with rfl | rfl | rfl | rfl | rfl <;> cases hg <;>
    simp only [sides, List.mem_cons, List.not_mem_nil, or_false] at hplaces
  case inl | inr.inl =>
    rcases hplaces with rfl | rfl
    all_goals
      refine ⟨_, rfl, rfl, fun φ => ?_⟩
      norm_num [reference, referenceNodes, sideBasis, Basis.line2, Basis.line3]
      ring
  all_goals
    rcases hplaces with rfl | rfl | rfl | rfl
    all_goals
      refine ⟨_, rfl, rfl, fun φ => ?_⟩
      norm_num [reference, referenceNodes, sideBasis, Basis.line2, Basis.line3, Basis.quad4,
        Basis.tri3, Basis.tri6]
      ring

/-- Two sides with the same nodes and the same ends run in the same direction or in opposite ones. -/
theorem IsSide.eq_or_reversed {ids ids' : List ℤ} (hg : g.IsSide)
    (hids : ids.length = g.nodeCount) (hids' : ids'.length = g.nodeCount)
    (hnodup : ids.Nodup) (hset : ids.toFinset = ids'.toFinset)
    (hends : (ids.take 2).toFinset = (ids'.take 2).toFinset) :
    ids' = ids ∨ ∃ a b rest, ids = a :: b :: rest ∧ ids' = b :: a :: rest := by
  have hpair {a b a' b' : ℤ} (h : ({a, b} : Finset ℤ) = {a', b'}) :
      a = a' ∧ b = b' ∨ a = b' ∧ b = a' := by
    apply Set.pair_eq_pair_iff.mp
    simpa using congrArg ((↑) : Finset ℤ → Set ℤ) h
  rcases hg.cases with rfl | rfl | rfl
  · obtain ⟨a, rfl⟩ := List.length_eq_one_iff.mp hids
    obtain ⟨a', rfl⟩ := List.length_eq_one_iff.mp hids'
    left
    simpa using hset.symm
  · obtain ⟨a, b, rfl⟩ := List.length_eq_two.mp hids
    obtain ⟨a', b', rfl⟩ := List.length_eq_two.mp hids'
    rcases hpair (by simpa using hset) with ⟨rfl, rfl⟩ | ⟨rfl, rfl⟩
    · exact .inl rfl
    · exact .inr ⟨a, b, [], rfl, rfl⟩
  · obtain ⟨a, b, c, rfl⟩ := List.length_eq_three.mp hids
    obtain ⟨a', b', c', rfl⟩ := List.length_eq_three.mp hids'
    have hdistinct : (a ≠ b ∧ a ≠ c) ∧ b ≠ c := by simpa using hnodup
    have hmem : c ∈ [a', b', c'].toFinset := hset ▸ by simp
    have hmiddle : c = a' ∨ c = b' ∨ c = c' := by simpa using hmem
    rcases hpair (by simpa using hends) with ⟨rfl, rfl⟩ | ⟨rfl, rfl⟩
    · obtain rfl : c = c' := by omega
      exact .inl rfl
    · obtain rfl : c = c' := by omega
      exact .inr ⟨a, b, [c], rfl, rfl⟩

/-- Turning a side around exchanges the functions of its ends and keeps that of its middle. -/
theorem IsSide.blend_reversed {a b : ℤ} {rest : List ℤ} (hg : g.IsSide)
    (hrest : rest.length + 2 = g.nodeCount) (ψ : ℤ → ℝ) (x : ℝ) :
    blend (g.sideBasis x) (fun p => ψ ((a :: b :: rest).getD p 0)) =
      blend (g.sideBasis (-x)) fun p => ψ ((b :: a :: rest).getD p 0) := by
  rcases hg.cases with rfl | rfl | rfl
  · cases hrest
  · norm_num [sideBasis, Basis.line2]
    ring
  · norm_num [sideBasis, Basis.line3]
    ring

/-- Sides with the same nodes and the same ends combine values at the nodes in the same way, at the
same parameter if they start at the same node and at the opposite one otherwise. -/
theorem IsSide.blend_matching {ids ids' : List ℤ} (hg : g.IsSide) (hids : ids.length = g.nodeCount)
    (hids' : ids'.length = g.nodeCount) (hnodup : ids.Nodup) (hset : ids.toFinset = ids'.toFinset)
    (hends : (ids.take 2).toFinset = (ids'.take 2).toFinset) (ψ : ℤ → ℝ) (x : ℝ) :
    blend (g.sideBasis x) (fun p => ψ (ids.getD p 0)) =
      blend (g.sideBasis (if ids.head? = ids'.head? then x else -x)) fun p => ψ (ids'.getD p 0) := by
  rcases hg.eq_or_reversed hids hids' hnodup hset hends with rfl | ⟨a, b, rest, rfl, rfl⟩
  · rw [if_pos rfl]
  · have hne : a ≠ b := by
      rintro rfl
      simp at hnodup
    rw [if_neg (by simpa using hne)]
    exact hg.blend_reversed hids ψ x

end Family

namespace Element

variable {e side : Element ℝ} {u : Array ℝ} {s : ℤ} {places : List ℕ} {x : ℝ}

/-- At parameter `x` of a side the element and the side itself have the given values and the given
position. -/
def HasTrace (e : Element ℝ) (s : ℤ) (u : Array ℝ) (x : ℝ) (values place : List ℝ) : Prop :=
  ∃ places side, e.sideNodes s = .ok places ∧ e.buildSide s = .ok side ∧
    e.evaluate u (e.family.sidePoint places x) = .ok values ∧ side.evaluate u [x] = .ok values ∧
    e.position (e.family.sidePoint places x) = .ok place ∧ side.position [x] = .ok place

theorem trueNodes_of_buildSide (h : e.buildSide s = .ok side) (hs : e.sideNodes s = .ok places) :
    side.trueNodes = e.nodes.selectRows places := by
  unfold buildSide at h
  split at h
  · cases h
  · split at h
    · cases h
    · rename_i places' hplaces
      cases hs.symm.trans hplaces
      cases h
      rfl

/-- The degrees of freedom of a side belong to its element. -/
theorem forall_mem_getDof_side (h : e.buildSide s = .ok side) {P : ℤ → Prop}
    (hP : ∀ d ∈ e.getDof, P d) : ∀ d ∈ side.getDof, P d := by
  obtain ⟨nodes, -, hnodes, hdofs⟩ := getDof_side h
  intro d hd
  rw [hdofs, List.mem_map] at hd
  obtain ⟨p, hp, rfl⟩ := hd
  have hlt : p < e.getDof.length :=
    e.length_getDof ▸ lt_of_mem_places (Family.lt_of_mem_sides hnodes).2 hp
  apply hP
  rw [List.getD_eq_getElem _ _ hlt]
  exact List.getElem_mem hlt

/-- The values and the position on a side of a Lagrange element are those at the nodes of the side,
combined by the basis of the side. -/
theorem hasTrace {g : Family} (hf : e.family.IsLagrange) (hg : e.family.sideFamily = some g)
    (hgside : g.IsSide) (hplain : e.side = none) (hs : e.sideNodes s = .ok places)
    (hpos : 0 < e.dofsPerNode) (hu : ∀ d ∈ e.getDof, 0 ≤ d ∧ d < u.size) (x : ℝ) :
    e.HasTrace s u x
      ((List.range e.dofsPerNode).map fun i => blend (g.sideBasis x) fun p =>
        component u e.dofsPerNode (e.nodeIds.getD (places.getD p 0) 0) i)
      ((List.range e.nodes.cols).map fun k => blend (g.sideBasis x) fun p =>
        e.nodes.entry (places.getD p 0) k) := by
  have hplaces := sideNodes_mem hs
  have hlength : places.length = g.nodeCount := sideNodes_length hg hs
  obtain ⟨side, hbuild⟩ := exists_buildSide hg hs
  obtain ⟨n, hn, hcount, htrace⟩ := hf.basis_sidePoint hg hplaces e.nodes x
  obtain ⟨places', hs', hdofs, hids⟩ := buildSide_eq_ok hbuild
  obtain rfl : places = places' := Except.ok.inj (hs.symm.trans hs')
  have hfamily : side.family = g := Option.some.inj ((sideFamily_of_buildSide hbuild).symm.trans hg)
  obtain ⟨hbasis, hgeometry, hside⟩ := hgside.basis_eq side.nodes x
  have htrue := trueNodes_of_buildSide hbuild hs
  have hplain' : e.trueNodes = e.nodes := by rw [trueNodes, hplain]
  refine ⟨places, side, hs, hbuild, ?_, ?_, ?_, ?_⟩
  · rw [evaluate_eq_ok hn hcount hpos hu]
    simp only [htrace]
  · rw [evaluate_eq_ok (by rw [hfamily, hbasis]) (by rw [hfamily, hside]) (hdofs ▸ hpos)
      (forall_mem_getDof_side hbuild hu), hdofs, hids]
    apply congrArg Except.ok
    apply List.map_congr_left
    intro i _
    apply blend_congr
    intro p hp
    rw [hside, ← hlength] at hp
    simp [hp]
  · rw [position_eq_ok (hf.geometryBasis_eq .. ▸ hn) (by rw [hplain', hcount, e.rows_nodes]), hplain']
    simp only [htrace]
  · rw [position_eq_ok (by rw [hfamily, hgeometry]) (by rw [htrue, hside, ← hlength]; rfl), htrue]
    apply congrArg Except.ok
    apply List.map_congr_left
    intro k hk
    apply blend_congr
    intro p hp
    rw [hside, ← hlength] at hp
    exact DenseMatrix.entry_ofFn _ hp (List.mem_range.mp hk)

end Element

end WeakForm
