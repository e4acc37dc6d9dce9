import WeakForm.Proofs.Assembly.Renumbering
import WeakForm.Proofs.Mesh.Elements
import WeakForm.Proofs.Solver.Prescribed
import WeakForm.Proofs.Solver.Problems
import WeakForm.Proofs.Solver.WellPosed

/-!
# Solutions on renumbered meshes

Constant conditions prescribe the same values on a renumbered mesh, at the new indices. A steady
problem, the matrix and the force of which are assembled, therefore has the same solution there but
for the order of its entries.
-/

/-!
## Constant conditions

A condition may prescribe the same on all of its nodes: one number for all components, or one for
each. What it prescribes on a node depends neither on where the node lies nor on the other nodes.
-/

namespace WeakForm

namespace Condition

variable {α : Type} [Scalar α] {m m' : Mesh α} {time : Option (Datum α)} {c : Condition α}

/-- The value is a number, or a list of them, and no field. -/
def IsConstant (c : Condition α) : Prop :=
  ∃ d v, c.value = .data d ∧ d.toReals = .ok v ∧ v.shape.length ≤ 1

section Values

/-- A list of numbers has one for every component. -/
theorem size_of_rawValues {d : Datum α} {v w : Tensor α} (hd : d.toReals = .ok v)
    {coords : DenseMatrix α} {n : ℕ} (h : rawValues (.data d) coords n time = .ok w)
    (haxis : v.shape.length = 1) : v.data.size = n := by
  obtain ⟨v', hv', h⟩ := bind_eq_ok.mp h
  obtain rfl := Except.ok.inj (hd.symm.trans hv')
  by_contra hne
  rw [if_pos ⟨haxis, hne⟩] at h
  cases h

/-- Constants are repeated for every node. -/
theorem exists_nodeValues {d : Datum α} {v : Tensor α} (hd : d.toReals = .ok v)
    (hv : v.shape.length ≤ 1) {n : ℕ} (hn : v.shape.length = 1 → v.data.size = n) :
    ∃ row : List α, row.length = n ∧ ∀ coords : DenseMatrix α, ∃ t,
      nodeValues (.data d) coords n time = .ok t ∧
        t.data.toList = (List.range coords.rows).flatMap fun _ => row := by
  let row := (List.range n).map fun j => v.get (Tensor.project v.shape [0, j])
  have hrow : row.length = n := by simp [row]
  refine ⟨row, hrow, fun coords => ?_⟩
  have hraw : rawValues (.data d) coords n time = .ok v := by
    rw [rawValues, hd, ok_bind, if_neg fun h => h.2 (hn h.1)]
    rfl
  obtain ⟨hproject, hshape⟩ : (∀ i j, Tensor.project v.shape [i, j] = Tensor.project v.shape [0, j]) ∧
      Tensor.broadcastShape v.shape [coords.rows, n] = some [coords.rows, n] := by
    have hsize := v.size_data
    generalize v.shape = shape at hv hn hsize
    cases shape with
    | nil => exact ⟨fun _ _ => rfl, rfl⟩
    | cons k rest =>
      obtain rfl : rest = [] := List.eq_nil_of_length_eq_zero (by simpa using hv)
      obtain rfl : k = n := by rw [← hn rfl, hsize, volume, volume, mul_one]
      exact ⟨fun _ _ => rfl, by simp [Tensor.broadcastShape, Tensor.broadcastReversed]⟩
  rw [nodeValues, hraw, ok_bind, Tensor.broadcastTo?, if_pos hshape]
  refine ⟨_, rfl, ?_⟩
  rw [Tensor.ofFn_pair, Tensor.ofMatrix, DenseMatrix.toList_ofFn]
  simp only [hproject, row]

end Values

section Components

theorem nodup_components (n : ℕ) (chosen : Option ℤ) : (components n chosen).Nodup := by
  cases chosen with
  | none => exact List.nodup_range.map Nat.cast_injective
  | some i => exact List.nodup_singleton i

theorem component?_congr (h : m'.dofsPerNode = m.dofsPerNode) (number : Datum α) :
    component? m' number = component? m number := by
  unfold component? Mesh.component Mesh.checkFactor
  rw [h]

end Components

/-- What a constant condition prescribes on every node. -/
theorem IsConstant.exists_row (hc : c.IsConstant) (h : c.Applicable m time) :
    ∃ row : List (ℤ × α), (row.map Prod.fst).Nodup ∧
      (∀ w ∈ row, 0 ≤ w.1 ∧ w.1 < (m.dofsPerNode : ℤ)) ∧
      ∀ (m' : Mesh α) (ids : List ℤ), m'.dofsPerNode = m.dofsPerNode → m'.coords ≠ none →
        m'.getNodeIds c.tag = .ok ids → c.Applicable m' time ∧
          c.prescriptions m' time = ids.flatMap fun k =>
            row.map fun w => ((k - 1) * (m.dofsPerNode : ℤ) + w.1, w.2) := by
  obtain ⟨d, v, hvalue, hd, hv⟩ := hc
  obtain ⟨⟨r, hr⟩, hwhole⟩ := h
  unfold essentialValues at hr
  obtain ⟨placed, -, hr⟩ := bind_eq_ok.mp hr
  obtain ⟨chosen, hchosen, hr⟩ := bind_eq_ok.mp hr
  let comps := components m.dofsPerNode chosen
  let count := if chosen.isSome then 1 else m.dofsPerNode
  obtain ⟨values, hvalues, hall⟩ : ∃ row : List α, row.length = count ∧
      ∀ coords : DenseMatrix α, ∃ t, nodeValues (.data d) coords count time = .ok t ∧
        t.data.toList = (List.range coords.rows).flatMap fun _ => row := by
    refine exists_nodeValues hd hv fun haxis => ?_
    split at hr
    · cases hr
    obtain ⟨t, ht, -⟩ := bind_eq_ok.mp hr
    obtain ⟨w, hw, -⟩ := bind_eq_ok.mp ht
    rw [hvalue] at hw
    exact size_of_rawValues hd hw haxis
  have hlength : comps.length = values.length := by rw [hvalues, length_components]
  have hfst : (comps.zip values).map Prod.fst = comps := List.map_fst_zip hlength.le
  refine ⟨comps.zip values, by rw [hfst]; exact nodup_components _ _, fun w hw => ?_, ?_⟩
  · have hmem : w.1 ∈ comps := (List.of_mem_zip hw).1
    exact range_of_mem_components hchosen hwhole hmem
  intro m' ids hn hcoords hids
  obtain ⟨coords, hcoords⟩ := Option.ne_none_iff_exists'.mp hcoords
  obtain ⟨t, ht, hlist⟩ := hall (Mesh.nodeCoords coords ids)
  have hrows : ((List.range (Mesh.nodeCoords coords ids).rows).flatMap fun _ => values) =
      ids.flatMap fun _ => values := by
    simp [List.flatMap_def, Mesh.nodeCoords, DenseMatrix.selectRows]
  have hessential : c.essentialValues m' time = .ok (ids.flatMap fun k => comps.map fun i =>
      (k - 1) * (m.dofsPerNode : ℤ) + i, ids.flatMap fun _ => values) := by
    rw [essentialValues, hids, ok_bind, component?_congr hn, hchosen, ok_bind, hcoords, hvalue, hn]
    dsimp only
    rw [ht, ok_bind, hlist, hrows]
    rfl
  refine ⟨⟨⟨_, hessential⟩, hwhole⟩, ?_⟩
  rw [prescriptions, hessential]
  dsimp only
  rw [List.zip, zipWith_flatMap _ _ _ _ fun k _ => by rw [List.length_map, hlength]]
  exact List.flatMap_congr fun k _ => List.zip_map_left

/-- A number can be prescribed for all components of existing nodes. -/
theorem applicable_number {m : Mesh ℝ} {time : Option (Datum ℝ)} {tag : Option TagId} {ids : List ℤ}
    (hids : m.getNodeIds tag = .ok ids) (hcoords : m.coords ≠ none) (x : ℝ) :
    (⟨tag, .data (.real x), .null⟩ : Condition ℝ).Applicable m time := by
  obtain ⟨coords, hcoords⟩ := Option.ne_none_iff_exists'.mp hcoords
  have hall : component? m .null = .ok none := by
    rw [component?, checkCapacity_real]
    rfl
  obtain ⟨t, ht⟩ : ∃ t, nodeValues (.data (.real x)) (Mesh.nodeCoords coords ids) m.dofsPerNode time =
      .ok t := by
    have hscalar : (Tensor.scalar x).shape.length = 0 := rfl
    obtain ⟨row, -, hrow⟩ := exists_nodeValues (d := .real x) (v := .scalar x) (n := m.dofsPerNode) rfl
      (by omega) (by omega)
    exact (hrow _).imp fun _ h => h.1
  have hvalues : (⟨tag, .data (.real x), .null⟩ : Condition ℝ).essentialValues m time =
      .ok (ids.flatMap fun k => (components m.dofsPerNode none).map fun i =>
        (k - 1) * (m.dofsPerNode : ℤ) + i, t.data.toList) := by
    rw [essentialValues, hids, ok_bind, hall, ok_bind, hcoords]
    exact congrArg (· >>= _) ht
  refine ⟨⟨_, hvalues⟩, fun _ h => ?_⟩
  cases h

end Condition

end WeakForm

/-!
## Solutions
-/

namespace WeakForm

open Matrix WeakForm.Partition

namespace Partition

section Indices

variable {n n' : ℕ} {X : Matrix (Fin n) (Fin n) ℝ} {X' : Matrix (Fin n') (Fin n') ℝ}
  {fixed : Fin n → Prop} {fixed' : Fin n' → Prop} {b g u : Fin n → ℝ} {b' g' : Fin n' → ℝ}

/-- A system with exactly one solution is regular. -/
theorem isRegular_of_existsUnique (h : ∃! u, IsSolution X b g fixed u) : IsRegular X fixed := by
  obtain ⟨u, hu, hunique⟩ := h
  refine isRegular_iff.mpr fun w hfixed hfree => ?_
  have hsum : u + w = u := hunique _ ⟨fun i hi => ?_, fun i hi => ?_⟩
  · exact add_eq_left.mp hsum
  · rw [Pi.add_apply, hfixed i hi, add_zero, hu.fixed_eq i hi]
  · rw [mulVec_add, Pi.add_apply, hfree i hi, add_zero, hu.balance i hi]

variable (e : Fin n ≃ Fin n')

theorem mulVec_reindex (hX : ∀ i j, X' (e i) (e j) = X i j) (w : Fin n' → ℝ) (i : Fin n) :
    (X' *ᵥ w) (e i) = (X *ᵥ (w ∘ e)) i := by
  simp only [mulVec, dotProduct, ← hX]
  exact (e.sum_comp fun j => X' (e i) j * w j).symm

theorem IsRegular.reindex (h : IsRegular X fixed) (hX : ∀ i j, X' (e i) (e j) = X i j)
    (hfixed : ∀ i, fixed' (e i) ↔ fixed i) : IsRegular X' fixed' := by
  refine isRegular_iff.mpr fun w hw hbalance => ?_
  have hzero : w ∘ e = 0 := by
    refine isRegular_iff.mp h _ (fun i hi => hw _ ((hfixed i).mpr hi)) fun i hi => ?_
    rw [← mulVec_reindex e hX]
    exact hbalance _ fun hmem => hi ((hfixed i).mp hmem)
  funext j
  have hj := congrFun hzero (e.symm j)
  rwa [Function.comp_apply, e.apply_symm_apply] at hj

/-- A solution stays one under other indices. -/
theorem IsSolution.reindex (h : IsSolution X b g fixed u) (hX : ∀ i j, X' (e i) (e j) = X i j)
    (hb : ∀ i, b' (e i) = b i) (hg : ∀ i, g' (e i) = g i) (hfixed : ∀ i, fixed' (e i) ↔ fixed i) :
    IsSolution X' b' g' fixed' (u ∘ e.symm) := by
  have hu : (u ∘ e.symm) ∘ e = u := by
    funext i
    simp
  constructor
  · intro j hj
    obtain ⟨i, rfl⟩ := e.surjective j
    rw [hg, ← h.fixed_eq i ((hfixed i).mp hj), Function.comp_apply, e.symm_apply_apply]
  · intro j hj
    obtain ⟨i, rfl⟩ := e.surjective j
    rw [mulVec_reindex e hX, hu, hb, h.balance i fun hi => hj ((hfixed i).mpr hi)]

end Indices

end Partition

section Conditions

variable {π ρ : Equiv.Perm ℕ} {m m' : Mesh ℝ} {time : Option (Datum ℝ)}

open Condition

/-- What is prescribed on nodes by their components is prescribed once for each. -/
theorem nodup_indices_of_nodes {n : ℕ} {ids comps : List ℤ} (hids : ids.Nodup) (hcomps : comps.Nodup)
    (hrange : ∀ i ∈ comps, 0 ≤ i ∧ i < (n : ℤ)) :
    (ids.flatMap fun k => comps.map fun i => (k - 1) * (n : ℤ) + i).Nodup := by
  rw [List.nodup_flatMap]
  refine ⟨fun k _ => hcomps.map (add_right_injective _), hids.imp fun {k l} hne => ?_⟩
  rw [Function.onFun, List.disjoint_left]
  intro d hd hd'
  obtain ⟨i, hi, rfl⟩ := List.mem_map.mp hd
  obtain ⟨j, hj, heq⟩ := List.mem_map.mp hd'
  obtain ⟨hi₀, hi₁⟩ := hrange i hi
  obtain ⟨hj₀, hj₁⟩ := hrange j hj
  lift i to ℕ using hi₀
  lift j to ℕ using hj₀
  exact hne (Element.dofIndex_inj (by exact_mod_cast hi₁) (by exact_mod_cast hj₁) heq.symm).1

namespace Mesh.IsCopy

variable (h : m'.IsCopy π ρ m)
include h

/-- A constant condition prescribes the same values at the new indices. -/
theorem lookup_prescriptions {c : Condition ℝ} (hc : c.IsConstant) (happ : c.Applicable m time) :
    c.Applicable m' time ∧ ∀ d, (c.prescriptions m' time).reverse.lookup
      (movedDof π m.dofsPerNode d : ℤ) = (c.prescriptions m time).reverse.lookup (d : ℤ) := by
  obtain ⟨row, hnodup, hrange, hall⟩ := hc.exists_row happ
  obtain ⟨⟨r, hr⟩, -⟩ := happ
  obtain ⟨ids, hids, -⟩ := bind_eq_ok.mp hr
  obtain ⟨ids', hids', hperm⟩ := h.getNodeIds hids
  obtain ⟨-, hprescriptions⟩ := hall m ids rfl (by rw [h.isOver.coords_eq]; simp) hids
  obtain ⟨happ', hprescriptions'⟩ :=
    hall m' ids' h.dofsPerNode_eq (by rw [h.isOver'.coords_eq]; simp) hids'
  refine ⟨happ', fun d => ?_⟩
  have hone : ∀ k ∈ ids, 1 ≤ k := fun k hk =>
    (h.isOver.reachable.wellFormed.range_of_getNodeIds hids hk).1
  -- a condition gives every degree of freedom at most one value, so the order of the nodes is no matter
  have hkeys {ids : List ℤ} (hids : ids.Nodup) : ((ids.flatMap fun k => row.map fun w =>
      ((k - 1) * (m.dofsPerNode : ℤ) + w.1, w.2)).reverse.map Prod.fst).Nodup := by
    rw [List.map_reverse, List.nodup_reverse, List.map_flatMap]
    have hindices := nodup_indices_of_nodes hids hnodup fun i hi => by
      obtain ⟨w, hw, rfl⟩ := List.mem_map.mp hi
      exact hrange w hw
    simpa only [List.map_map, Function.comp_def] using hindices
  rw [hprescriptions, hprescriptions']
  refine Option.ext fun x => ?_
  rw [lookup_eq_some_iff_mem (hkeys (nodup_of_getNodeIds hids')),
    lookup_eq_some_iff_mem (hkeys (nodup_of_getNodeIds hids)), List.mem_reverse, List.mem_reverse]
  simp only [List.mem_flatMap, List.mem_map, Prod.mk.injEq, hperm.mem_iff]
  have hindex (k : ℤ) (hk : k ∈ ids) (w : ℤ × ℝ) (hw : w ∈ row) :=
    index_eq_movedDof_iff (π := π) (hone k hk) (hrange w hw).1 (hrange w hw).2 d
  constructor
  · rintro ⟨_, ⟨k, hk, rfl⟩, w, hw, hd, hx⟩
    exact ⟨k, hk, w, hw, (hindex k hk w hw).mp hd, hx⟩
  · rintro ⟨k, hk, w, hw, hd, hx⟩
    exact ⟨_, ⟨k, hk, rfl⟩, w, hw, (hindex k hk w hw).mpr hd, hx⟩

theorem applicable_of_isConstant {c : Condition ℝ} (hc : c.IsConstant) (happ : c.Applicable m time) :
    c.Applicable m' time := (h.lookup_prescriptions hc happ).1

theorem mem_allDofs_iff {ids ids' : List ℤ} (hids : ∀ k ∈ ids, 1 ≤ k)
    (hperm : ids'.Perm (ids.map (movedNode π))) (d : ℕ) :
    (movedDof π m.dofsPerNode d : ℤ) ∈ m'.allDofs ids' ↔ (d : ℤ) ∈ m.allDofs ids := by
  simp only [Mesh.allDofs, h.dofsPerNode_eq, List.mem_flatMap, List.mem_map, List.mem_range,
    hperm.mem_iff]
  have hindex (k : ℤ) (hk : k ∈ ids) (i : ℕ) (hi : i < m.dofsPerNode) :=
    index_eq_movedDof_iff (π := π) (hids k hk) (Int.natCast_nonneg i) (Nat.cast_lt.mpr hi) d
  constructor
  · rintro ⟨_, ⟨k, hk, rfl⟩, i, hi, hd⟩
    exact ⟨k, hk, i, hi, (hindex k hk i hi).mp hd⟩
  · rintro ⟨k, hk, i, hi, hd⟩
    exact ⟨_, ⟨k, hk, rfl⟩, i, hi, (hindex k hk i hi).mpr hd⟩

/-- The same degrees of freedom are essential. -/
theorem mem_essentialDofs_iff (d : ℕ) :
    (movedDof π m.dofsPerNode d : ℤ) ∈ m'.essentialDofs ↔ (d : ℤ) ∈ m.essentialDofs := by
  have hone : ∀ ids ∈ m.essentialNodes, ∀ k ∈ ids, 1 ≤ k := fun ids hids k hk =>
    (h.isOver.reachable.wellFormed.range_of_mem_essentialNodes h.isOver.built hids hk).1
  have hnodes := h.forall₂_essentialNodes
  unfold Mesh.essentialDofs
  generalize m.essentialNodes = lists at hone hnodes
  generalize m'.essentialNodes = lists' at hnodes
  induction hnodes with
  | nil => simp
  | cons hperm _ ih =>
    obtain ⟨hids, hone⟩ := List.forall_mem_cons.mp hone
    rw [List.flatMap_cons, List.flatMap_cons, List.mem_append, List.mem_append]
    exact or_congr (h.mem_allDofs_iff hids hperm d) (ih hone)

variable {conditions : List (Condition ℝ)}
  (hconditions : ∀ c ∈ conditions, c.IsConstant ∧ c.Applicable m time)
include hconditions

theorem isEssential_iff (d : ℕ) : IsEssential m' conditions (movedDof π m.dofsPerNode d) ↔
    IsEssential m conditions d := by
  refine or_congr (exists_congr fun c => and_congr_right fun hc => ?_) (h.mem_essentialDofs_iff d)
  obtain ⟨hconstant, happ⟩ := hconditions c hc
  obtain ⟨happ', hlookup⟩ := h.lookup_prescriptions hconstant happ
  have hsome := congrArg Option.isSome (hlookup d)
  rwa [isSome_lookup_prescriptions happ', isSome_lookup_prescriptions happ, decide_eq_decide] at hsome

theorem lastValue?_eq (d : ℕ) : lastValue? m' time conditions (movedDof π m.dofsPerNode d) =
    lastValue? m time conditions d := by
  induction conditions with
  | nil => rfl
  | cons c conditions ih =>
    obtain ⟨⟨hconstant, happ⟩, hconditions⟩ := List.forall_mem_cons.mp hconditions
    rw [lastValue?_cons, lastValue?_cons, ih hconditions, (h.lookup_prescriptions hconstant happ).2 d]

theorem prescribedValue_eq (d : ℕ) :
    prescribedValue m' time conditions (movedDof π m.dofsPerNode d) =
      prescribedValue m time conditions d := by
  rw [prescribedValue, prescribedValue, h.lastValue?_eq hconditions]

end Mesh.IsCopy

end Conditions

section Systems

variable {π ρ : Equiv.Perm ℕ} {m m' : Mesh ℝ} {form : Option (Kernel ℝ × Option TagId)}

namespace Mesh

section Sizes

theorem size_of_assembledMatrix {A : SparseMatrix ℝ} (hA : m.assembledMatrix form = .ok A) :
    A.rows = m.dofs ∧ A.cols = m.dofs := by
  cases form with
  | none => exact size_of_zeroMatrix hA
  | some source =>
    have hmatrix : Assembly.matrix m source.1 source.2 .triplet = .ok A := hA
    exact Assembly.size_of_matrix hmatrix

theorem size_of_assembledVector {v : Array ℝ} (hv : m.assembledVector form = .ok v) :
    v.size = m.dofs := by
  cases form with
  | none => exact size_of_zeroVector hv
  | some source =>
    have hvector : Assembly.vector m source.1 source.2 = .ok v := hv
    exact Assembly.size_of_vector hvector

end Sizes

namespace IsCopy

variable (h : m'.IsCopy π ρ m)
include h

/-- The new indices of all degrees of freedom. -/
theorem exists_equiv : ∃ e : Fin m.dofs ≃ Fin m'.dofs, ∀ i, (e i : ℕ) = movedDof π m.dofsPerNode i := by
  let moved (i : Fin m.dofs) : Fin m'.dofs := ⟨movedDof π m.dofsPerNode i, Assembly.movedDof_lt h i.isLt⟩
  have hinjective : Function.Injective moved := fun i j hij => Fin.ext
    (movedDof_injective π (Assembly.dofsPerNode_pos_of_lt h.isOver.built i.isLt) (Fin.ext_iff.mp hij))
  have hbijective := (Fintype.bijective_iff_injective_and_card moved).mpr
    ⟨hinjective, by rw [Fintype.card_fin, Fintype.card_fin, h.dofs_eq]⟩
  exact ⟨.ofBijective moved hbijective, fun _ => rfl⟩

variable (hform : ∀ source ∈ form, source.1.FromSource)
include hform

theorem exists_assembledMatrix {A : SparseMatrix ℝ} (hA : m.assembledMatrix form = .ok A) :
    ∃ A', m'.assembledMatrix form = .ok A' ∧ ∀ i j, i < m.dofs → j < m.dofs →
      A'.entry (movedDof π m.dofsPerNode i) (movedDof π m.dofsPerNode j) = A.entry i j := by
  cases form with
  | none =>
    obtain rfl := Except.ok.inj (m.zeroMatrix_eq.symm.trans hA)
    exact ⟨_, m'.zeroMatrix_eq, fun i j _ _ => by simp⟩
  | some source =>
    obtain ⟨A', hA', -, -, hentry⟩ := Assembly.exists_matrix_of_isCopy h (hform source rfl) hA
    exact ⟨A', hA', hentry⟩

theorem exists_assembledVector {v : Array ℝ} (hv : m.assembledVector form = .ok v) :
    ∃ v', m'.assembledVector form = .ok v' ∧
      ∀ i, i < m.dofs → v'.getD (movedDof π m.dofsPerNode i) 0 = v.getD i 0 := by
  cases form with
  | none =>
    obtain rfl := Except.ok.inj (m.zeroVector_eq.symm.trans hv)
    exact ⟨_, m'.zeroVector_eq, fun i hi => by simp [hi, Assembly.movedDof_lt h hi]⟩
  | some source =>
    obtain ⟨v', hv', -, hentry⟩ := Assembly.exists_vector_of_isCopy h (hform source rfl) hv
    exact ⟨v', hv', hentry⟩

end IsCopy

/-- The vector has the values that the conditions prescribe, and it balances the other equations of
the system. -/
def Solves (m : Mesh ℝ) (conditions : List (Condition ℝ)) (A : SparseMatrix ℝ) (v : Array ℝ)
    (u : Fin m.dofs → ℝ) : Prop :=
  IsSolution (A.matrix m.dofs) (fun i => v.getD i 0)
    (fun d => Condition.prescribedValue m none conditions d)
    (fun d => Condition.IsEssential m conditions d) u

/-- Under the new indices a solution is one of the system of the renumbered mesh. -/
theorem IsCopy.solves_reindex (h : m'.IsCopy π ρ m) {conditions : List (Condition ℝ)}
    (hconditions : ∀ c ∈ conditions, c.IsConstant ∧ c.Applicable m none)
    {e : Fin m.dofs ≃ Fin m'.dofs} (he : ∀ i, (e i : ℕ) = movedDof π m.dofsPerNode i)
    {A A' : SparseMatrix ℝ} (hentry : ∀ i j, i < m.dofs → j < m.dofs →
      A'.entry (movedDof π m.dofsPerNode i) (movedDof π m.dofsPerNode j) = A.entry i j)
    {v v' : Array ℝ}
    (hvalue : ∀ i, i < m.dofs → v'.getD (movedDof π m.dofsPerNode i) 0 = v.getD i 0)
    (hregular : IsRegular (A.matrix m.dofs) fun d => Condition.IsEssential m conditions d)
    {u : Fin m.dofs → ℝ} (hu : m.Solves conditions A v u) :
    (IsRegular (A'.matrix m'.dofs) fun d => Condition.IsEssential m' conditions d) ∧
      m'.Solves conditions A' v' (u ∘ e.symm) := by
  have hX (i j : Fin m.dofs) : A'.matrix m'.dofs (e i) (e j) = A.matrix m.dofs i j := by
    change A'.entry (e i) (e j) = A.entry i j
    rw [he, he, hentry i j i.isLt j.isLt]
  have hb (i : Fin m.dofs) : v'.getD (e i) 0 = v.getD i 0 := by rw [he, hvalue i i.isLt]
  have hg (i : Fin m.dofs) : Condition.prescribedValue m' none conditions (e i) =
      Condition.prescribedValue m none conditions i := by
    rw [he, h.prescribedValue_eq hconditions]
  have hfixed (i : Fin m.dofs) : Condition.IsEssential m' conditions (e i) ↔
      Condition.IsEssential m conditions i := by
    rw [he]
    exact h.isEssential_iff hconditions i
  exact ⟨hregular.reindex e hX hfixed, IsSolution.reindex e hu hX hb hg hfixed⟩

end Mesh

namespace Simulation

variable {s : Simulation ℝ}

/-- The system of a fresh solver is what is assembled on its mesh. -/
theorem posesSteady_assembled {form' : Option (Kernel ℝ × Option TagId)} (hmesh : s.mesh = m)
    (hmatrix : s.Takes "stiffness" .matrix form)
    (hforce : s.Takes "force" .vector form') {A : SparseMatrix ℝ}
    (hA : m.assembledMatrix form = .ok A) {v : Array ℝ} (hv : m.assembledVector form' = .ok v) :
    s.PosesSteady m s.conditions (A.matrix m.dofs) fun i => v.getD i 0 := by
  obtain ⟨hrows, hcols⟩ := Mesh.size_of_assembledMatrix hA
  have hsize := Mesh.size_of_assembledVector hv
  exact posesSteady_of_takes hmesh hmatrix hforce hA hrows hcols (by rw [hv, ofFn_getD hsize])

/-- What a component is assembled from does not depend on the mesh. -/
theorem Takes.withMesh {which : String} {kind : EntryKind} (h : s.Takes which kind form)
    (m' : Mesh ℝ) : { s with mesh := m' }.Takes which kind form := by
  cases h with
  | off hoff => exact .off hoff
  | entry hon hnew hname hsys hmethod hconstant hentry =>
    exact .entry hon hnew hname hsys hmethod hconstant hentry

/-- A fresh solver with constant conditions finds the same values on a renumbered mesh. -/
theorem exists_solution_of_isCopy {stiffness force : Option (Kernel ℝ × Option TagId)}
    (h : m'.IsCopy π ρ m) (hmesh : s.mesh = m) (hstiffness : s.Takes "stiffness" .matrix stiffness)
    (hforce : s.Takes "force" .vector force)
    (hsources : ∀ form ∈ [stiffness, force], ∀ source ∈ form, source.1.FromSource)
    (hconditions : ∀ c ∈ s.conditions, c.IsConstant ∧ c.Applicable m none)
    {A : SparseMatrix ℝ} (hA : m.assembledMatrix stiffness = .ok A)
    {v : Array ℝ} (hv : m.assembledVector force = .ok v)
    (hunique : ∃! u, m.Solves s.conditions A v u) :
    ∃ u u', s.solveSteady.1 = .ok u ∧ { s with mesh := m' }.solveSteady.1 = .ok u' ∧
      u.size = m.dofs ∧ u'.size = m.dofs ∧
      ∀ i, i < m.dofs → u'.getD (movedDof π m.dofsPerNode i) 0 = u.getD i 0 := by
  obtain ⟨hsource, hsource'⟩ : (∀ source ∈ stiffness, source.1.FromSource) ∧
      ∀ source ∈ force, source.1.FromSource := by simpa using hsources
  have hposes := posesSteady_assembled hmesh hstiffness hforce hA hv
  have hregular := isRegular_of_existsUnique hunique
  obtain ⟨u, s₁, hu, -, -, hsolution⟩ := hposes.exists_solution h.isOver.reachable h.isOver.frozen
    (fun c hc => (hconditions c hc).2) hregular
  obtain ⟨A', hA', hentry⟩ := h.exists_assembledMatrix hsource hA
  obtain ⟨v', hv', hvalue⟩ := h.exists_assembledVector hsource' hv
  have hposes' := posesSteady_assembled rfl (hstiffness.withMesh m') (hforce.withMesh m') hA' hv'
  obtain ⟨e, he⟩ := h.exists_equiv
  obtain ⟨hregular', hsolution'⟩ := h.solves_reindex hconditions he hentry hvalue hregular hsolution
  have hu' := hposes'.solveSteady_eq h.isOver'.reachable h.isOver'.frozen
    (fun c hc => h.applicable_of_isConstant (hconditions c hc).1 (hconditions c hc).2)
    hregular' hsolution'
  refine ⟨_, _, congrArg Prod.fst hu, hu', Array.size_ofFn, Array.size_ofFn.trans h.dofs_eq,
    fun i hi => ?_⟩
  rw [show movedDof π m.dofsPerNode i = e ⟨i, hi⟩ from (he ⟨i, hi⟩).symm]
  simp [hi]

end Simulation

namespace Mesh

/-- The component `c` of node `k`, counted from zero, has become that of node `π k`. -/
structure MovesVector (π : Equiv.Perm ℕ) (m : Mesh ℝ) (v v' : Array ℝ) : Prop where
  size_eq : v'.size = v.size
  getD_eq : ∀ k c, k < m.nodes.length → c < m.dofsPerNode →
    v'.getD (π k * m.dofsPerNode + c) 0 = v.getD (k * m.dofsPerNode + c) 0

/-- The rows and the columns of the nodes have become those of their images. -/
structure MovesMatrix (π : Equiv.Perm ℕ) (m : Mesh ℝ) (A A' : SparseMatrix ℝ) : Prop where
  rows_eq : A'.rows = A.rows
  cols_eq : A'.cols = A.cols
  entry_eq : ∀ k l c d, k < m.nodes.length → l < m.nodes.length → c < m.dofsPerNode →
    d < m.dofsPerNode → A'.entry (π k * m.dofsPerNode + c) (π l * m.dofsPerNode + d) =
      A.entry (k * m.dofsPerNode + c) (l * m.dofsPerNode + d)

theorem Built.index_lt (hb : m.Built) {k c : ℕ} (hk : k < m.nodes.length) (hc : c < m.dofsPerNode) :
    k * m.dofsPerNode + c < m.dofs := by
  rw [hb.dofs]
  calc k * m.dofsPerNode + c < (k + 1) * m.dofsPerNode := by rw [Nat.succ_mul]; omega
    _ ≤ m.nodes.length * m.dofsPerNode := Nat.mul_le_mul_right _ hk

/-- However the nodes and the elements of a mesh are numbered, as long as it is tagged by the same
calls, what is assembled over it or over one of its boundaries only changes its indices. The same
holds of what a fresh solver finds under constant conditions if there is only one solution. -/
theorem Renumbering.equivariant (h : Renumbering π ρ m m') :
    (∀ (k : Kernel ℝ) (boundary : Option TagId), k.FromSource →
      (∀ A, Assembly.matrix m k boundary .triplet = .ok A →
        ∃ A', Assembly.matrix m' k boundary .triplet = .ok A' ∧ MovesMatrix π m A A') ∧
      ∀ v, Assembly.vector m k boundary = .ok v →
        ∃ v', Assembly.vector m' k boundary = .ok v' ∧ MovesVector π m v v') ∧
    ∀ (s : Simulation ℝ) (stiffness force : Option (Kernel ℝ × Option TagId)),
      s.mesh = m → s.Takes "stiffness" .matrix stiffness → s.Takes "force" .vector force →
      (∀ form ∈ [stiffness, force], ∀ source ∈ form, source.1.FromSource) →
      (∀ c ∈ s.conditions, c.IsConstant ∧ c.Applicable m none) →
      ∀ A v, m.assembledMatrix stiffness = .ok A → m.assembledVector force = .ok v →
        (∃! u, m.Solves s.conditions A v u) →
        ∃ u u', s.solveSteady.1 = .ok u ∧ { s with mesh := m' }.solveSteady.1 = .ok u' ∧
          MovesVector π m u u' := by
  have hcopy := h.isCopy
  have hindex {k c : ℕ} (hk : k < m.nodes.length) (hc : c < m.dofsPerNode) :=
    hcopy.isOver.built.index_lt hk hc
  refine ⟨fun k boundary hk => ⟨fun A hA => ?_, fun v hv => ?_⟩,
    fun s stiffness force hmesh hstiffness hforce hsources hconditions A v hA hv hunique => ?_⟩
  · obtain ⟨A', hA', hrows, hcols, hentry⟩ := Assembly.exists_matrix_of_isCopy hcopy hk hA
    have hassembled : m.assembledMatrix (some (k, boundary)) = .ok A := hA
    obtain ⟨hrows₀, hcols₀⟩ := Mesh.size_of_assembledMatrix hassembled
    refine ⟨A', hA', by rw [hrows, hrows₀, hcopy.dofs_eq], by rw [hcols, hcols₀, hcopy.dofs_eq],
      fun p q c d hp hq hc hd => ?_⟩
    rw [← movedDof_add π p hc, ← movedDof_add π q hd, hentry _ _ (hindex hp hc) (hindex hq hd)]
  · obtain ⟨v', hv', hsize, hvalue⟩ := Assembly.exists_vector_of_isCopy hcopy hk hv
    have hassembled : m.assembledVector (some (k, boundary)) = .ok v := hv
    have hsize₀ := Mesh.size_of_assembledVector hassembled
    refine ⟨v', hv', by rw [hsize, hsize₀, hcopy.dofs_eq], fun p c hp hc => ?_⟩
    rw [← movedDof_add π p hc, hvalue _ (hindex hp hc)]
  · obtain ⟨u, u', hu, hu', hsize, hsize', hvalue⟩ := Simulation.exists_solution_of_isCopy hcopy hmesh
      hstiffness hforce hsources hconditions hA hv hunique
    refine ⟨u, u', hu, hu', hsize'.trans hsize.symm, fun p c hp hc => ?_⟩
    rw [← movedDof_add π p hc, hvalue _ (hindex hp hc)]

/-- The bent line with other numbers of its first two nodes and of its segments. -/
noncomputable def swappedLine : Mesh ℝ :=
  ((ofLists (.integer 1) [[3, 4], [0, 0], [3, 5]]
    [(.line2, [1, 3]), (.line2, [2, 1])]).freeze.2.addBoundary (.name "ends") [] true).2

theorem renumbering_swappedLine :
    Renumbering (Equiv.swap 0 1) (Equiv.swap 0 1) (Simulation.bentLine true) swappedLine := by
  have hline : (ofLists (.integer 1) Simulation.bentNodes (Grid.segments .line2 2)).Reachable :=
    reachable_ofLists _ (by simp [Simulation.bentNodes]) (by decide)
  have hswapped : (ofLists (.integer 1) ([[3, 4], [0, 0], [3, 5]] : List (List ℝ))
      [(.line2, [1, 3]), (.line2, [2, 1])]).Reachable := reachable_ofLists _ (by simp) (by decide)
  have hpermutes : (ofLists (.integer 1) Simulation.bentNodes (Grid.segments .line2 2)).Permutes
      (Equiv.swap 0 1) (Equiv.swap 0 1)
      (ofLists (.integer 1) [[3, 4], [0, 0], [3, 5]] [(.line2, [1, 3]), (.line2, [2, 1])]) := by
    refine ⟨rfl, fun k => ?_, fun i => ?_⟩
    · rcases k with _ | _ | _ | k <;> rfl
    · rcases i with _ | _ | i <;> rfl
  obtain ⟨r, hok, hadd, -⟩ := Simulation.exists_bentLine true
  exact .addBoundary (.freeze hline hswapped rfl hpermutes hok) _ _ _ hadd

/-- A solver that has yet to assemble its matrix and a force on both ends, where the value is given. -/
noncomputable def endsSolver (k : Kernel ℝ) : Simulation ℝ where
  settings := [("stiffness", .text "K"), ("force", .text "f")]
  conditions := [⟨some (.name "ends"), .data (.real 3), .null⟩]
  components := []
  solution := none
  scheme := .steady none
  mesh := Simulation.bentLine true
  formulation := some ⟨.triplet, [], [("K", ⟨.matrix, k, none, none⟩),
    ("f", ⟨.vector, .uniform "f" (.real 5), some (.name "ends"), none⟩)]⟩

/-- The first node is an end. -/
theorem isEssential_bentLine (conditions : List (Condition ℝ)) :
    ∃ d : Fin (Simulation.bentLine true).dofs,
      Condition.IsEssential (Simulation.bentLine true) conditions d := by
  obtain ⟨r, -, -, h, hregions, hessential, hends⟩ := Simulation.exists_bentLine true
  have hdofs : 0 < (Simulation.bentLine true).dofs := by
    rw [h.dofs_eq]
    decide
  refine ⟨⟨0, hdofs⟩, .inr ?_⟩
  simp [essentialDofs, essentialNodes, hregions, hessential, (TagId.isPlain_name "ends").present, allDofs,
    h.dofsPerNode_eq, hends]

theorem equivariant_swappedLine : ∃ (k : Kernel ℝ) (u u' : Array ℝ),
    Kernel.compile "K" "B'*B" [] = .ok k ∧ (endsSolver k).solveSteady.1 = .ok u ∧
    { endsSolver k with mesh := swappedLine }.solveSteady.1 = .ok u' ∧
    MovesVector (Equiv.swap 0 1) (Simulation.bentLine true) u u' ∧
    (∃ A A', Assembly.matrix (Simulation.bentLine true) k none .triplet = .ok A ∧
      Assembly.matrix swappedLine k none .triplet = .ok A' ∧
      MovesMatrix (Equiv.swap 0 1) (Simulation.bentLine true) A A') ∧
    ∃ v v', Assembly.vector (Simulation.bentLine true) (.uniform "f" (.real 5)) (some (.name "ends")) =
        .ok v ∧
      Assembly.vector swappedLine (.uniform "f" (.real 5)) (some (.name "ends")) = .ok v' ∧
      MovesVector (Equiv.swap 0 1) (Simulation.bentLine true) v v' := by
  obtain ⟨hassembly, hsolver⟩ := Renumbering.equivariant renumbering_swappedLine
  obtain ⟨r, -, -, h, hregions, -, -⟩ := Simulation.exists_bentLine true
  obtain ⟨hfamilies, k, A, hk, hA⟩ := Simulation.exists_stiffness_bentLine h
  obtain ⟨v, hv⟩ : ∃ v, Assembly.vector (Simulation.bentLine true) (.uniform "f" (.real 5))
      (some (.name "ends")) = .ok v := exists_of_toBool (by decide +kernel)
  have hstiffness : k.FromSource := .ofSource "K" (.form (.text "B'*B")) [] k (by simp) hk
  have hforce : (Kernel.uniform "f" (.real (5 : ℝ))).FromSource :=
    .ofSource "f" (.uniform (.real 5)) [] _ (by simp) rfl
  have hlookup : (Simulation.bentLine true).regions.lookup (TagId.name "ends").key = some r := by
    simp [hregions]
  have hids := getNodeIds_eq_ok h.frozen (TagId.isPlain_name "ends") hlookup
  have hconditions : ∀ c ∈ (endsSolver k).conditions,
      c.IsConstant ∧ c.Applicable (Simulation.bentLine true) none :=
    List.forall_mem_singleton.mpr ⟨⟨_, _, rfl, rfl, Nat.zero_le 1⟩,
      Condition.applicable_number hids (by simp [h.coords_eq]) 3⟩
  obtain ⟨-, hunique, -⟩ := Simulation.steady_wellPosed h.reachable h.frozen h.dofsPerNode_eq hfamilies
    (Grid.isConnected_segments rfl h) hk hA (isEssential_bentLine (endsSolver k).conditions)
  have hmatrices : (endsSolver k).Takes "stiffness" .matrix (some (k, none)) :=
    .entry rfl rfl rfl rfl (fun _ => rfl) rfl rfl
  have hvectors : (endsSolver k).Takes "force" .vector
      (some (.uniform "f" (.real 5), some (.name "ends"))) :=
    .entry rfl rfl rfl rfl (fun _ => rfl) rfl rfl
  obtain ⟨u, u', hu, hu', hmoved⟩ := hsolver (endsSolver k) _ _ rfl hmatrices hvectors
    (by simp [hstiffness, hforce]) hconditions A v hA hv (hunique _ _)
  obtain ⟨A', hA', hmatrix⟩ := (hassembly k none hstiffness).1 A hA
  obtain ⟨v', hv', hvector⟩ := (hassembly _ _ hforce).2 v hv
  exact ⟨k, u, u', hk, hu, hu', hmoved, ⟨A, A', hA, hA', hmatrix⟩, v, v', hv, hv', hvector⟩

end Mesh

end Systems

end WeakForm
