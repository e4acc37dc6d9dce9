import Mathlib.Data.List.GetD
import WeakForm.Proofs.Assembly.Shares
import WeakForm.Proofs.Mesh.Elements

/-!
# Side integrals within an element

The integrals over some sides of an element are added up in a block of the element, each at the
places of its side. Spreading this block over the global indices of the element puts every entry of
a side where the indices of the side itself say, so the detour makes no difference.
-/

namespace WeakForm
namespace Assembly

open Finset

theorem nodup_globalDofs {α : Type} {e : Element α} (hdof : ∀ d ∈ e.getDof, 0 ≤ d)
    (h : e.nodeIds.Nodup) : (globalDofs e).Nodup :=
  (Element.nodup_getDof h).map_on fun d hd d' hd' he => by
    have := hdof d hd
    have := hdof d' hd'
    omega

section Places

/-- A sum over all places of something that is there only at some of them. -/
theorem sum_idxOf? {n : ℕ} {places : List ℕ} (hn : places.Nodup) (hlt : ∀ p ∈ places, p < n)
    (f : ℕ → ℕ → ℝ) :
    ∑ p ∈ range n, (places.idxOf? p).elim 0 (f p) =
      ∑ a ∈ range places.length, f (places.getD a 0) a := by
  have hp (p : ℕ) : (places.idxOf? p).elim 0 (f p) =
      ∑ a ∈ range places.length, if places.getD a 0 = p then f p a else 0 := by
    cases hidx : places.idxOf? p with
    | none =>
      have hmem : p ∉ places := List.idxOf?_eq_none_iff.mp hidx
      refine (sum_eq_zero fun a ha => if_neg fun he => hmem ?_).symm
      have ha' : a < places.length := mem_range.mp ha
      rw [List.getD_eq_getElem _ _ ha'] at he
      exact he ▸ List.getElem_mem ha'
    | some a =>
      obtain ⟨ha, hpa, -⟩ := List.idxOf?_eq_some_iff.mp hidx
      rw [sum_eq_single_of_mem a (mem_range.mpr ha)]
      · simp [ha, hpa]
      · intro a' ha' hne
        have ha'' : a' < places.length := mem_range.mp ha'
        refine if_neg fun he => hne ?_
        rw [List.getD_eq_getElem _ _ ha'', ← hpa] at he
        exact (hn.getElem_inj_iff).mp he
  simp only [hp]
  rw [sum_comm]
  apply sum_congr rfl
  intro a ha
  have ha' : a < places.length := mem_range.mp ha
  have hin : places.getD a 0 ∈ range n := by
    rw [List.getD_eq_getElem _ _ ha', mem_range]
    exact hlt _ (List.getElem_mem ha')
  rw [sum_ite_eq, if_pos hin]

end Places

namespace Block

/-- What a part of a block has at row `p` and column `q` of the block. -/
def partAt (b : Block (DenseMatrix ℝ)) (p q : ℕ) : ℝ :=
  (b.dofs.idxOf? p).elim 0 fun a => (b.dofs.idxOf? q).elim 0 fun c => b.entries.entry a c

/-- What a part of a block has at place `p` of the block. -/
def vectorPartAt (b : Block (Array ℝ)) (p : ℕ) : ℝ :=
  (b.dofs.idxOf? p).elim 0 fun a => b.entries.getD a 0

/-- The entries of a part at selected rows and columns are those of its own matrix. -/
theorem sum_partAt {n : ℕ} {b : Block (DenseMatrix ℝ)} (hn : b.dofs.Nodup)
    (hlt : ∀ p ∈ b.dofs, p < n) (P Q : ℕ → Prop) [DecidablePred P] [DecidablePred Q] :
    (∑ p ∈ range n, ∑ q ∈ range n, if P p ∧ Q q then b.partAt p q else 0) =
      ∑ a ∈ range b.dofs.length, ∑ c ∈ range b.dofs.length,
        if P (b.dofs.getD a 0) ∧ Q (b.dofs.getD c 0) then b.entries.entry a c else 0 := by
  have hrow (p q : ℕ) : (if P p ∧ Q q then b.partAt p q else 0) =
      (b.dofs.idxOf? q).elim 0 fun c => (b.dofs.idxOf? p).elim 0 fun a =>
        if P p ∧ Q q then b.entries.entry a c else 0 := by
    unfold partAt
    cases b.dofs.idxOf? p <;> cases b.dofs.idxOf? q <;> simp
  simp only [hrow, sum_idxOf? hn hlt]
  rw [sum_comm]
  simp only [sum_idxOf? hn hlt]
  rw [sum_comm]

theorem sum_vectorPartAt {n : ℕ} {b : Block (Array ℝ)} (hn : b.dofs.Nodup)
    (hlt : ∀ p ∈ b.dofs, p < n) (P : ℕ → Prop) [DecidablePred P] :
    (∑ p ∈ range n, if P p then b.vectorPartAt p else 0) =
      ∑ a ∈ range b.dofs.length, if P (b.dofs.getD a 0) then b.entries.getD a 0 else 0 := by
  have hrow (p : ℕ) : (if P p then b.vectorPartAt p else 0) =
      (b.dofs.idxOf? p).elim 0 fun a => if P p then b.entries.getD a 0 else 0 := by
    unfold vectorPartAt
    cases b.dofs.idxOf? p <;> simp
  simp only [hrow, sum_idxOf? hn hlt]

end Block

section Parts

theorem size_foldl_addAt (parts : List (Block (DenseMatrix ℝ))) (A : DenseMatrix ℝ) :
    let B := parts.foldl (fun A p => addAt A p.dofs p.entries) A
    B.rows = A.rows ∧ B.cols = A.cols := by
  induction parts generalizing A with
  | nil => exact ⟨rfl, rfl⟩
  | cons b parts ih => exact ih _

theorem entry_foldl_addAt (parts : List (Block (DenseMatrix ℝ))) (A : DenseMatrix ℝ) {p q : ℕ}
    (hp : p < A.rows) (hq : q < A.cols) :
    (parts.foldl (fun A p => addAt A p.dofs p.entries) A).entry p q =
      A.entry p q + (parts.map fun b => b.partAt p q).sum := by
  induction parts generalizing A with
  | nil => simp
  | cons b parts ih =>
    have hadd : (addAt A b.dofs b.entries).entry p q = A.entry p q + b.partAt p q := by
      rw [addAt, DenseMatrix.entry_ofFn _ hp hq, Block.partAt]
      cases b.dofs.idxOf? p <;> cases b.dofs.idxOf? q <;> simp
    rw [List.foldl_cons, ih (addAt A b.dofs b.entries) hp hq, hadd, List.map_cons, List.sum_cons,
      add_assoc]

theorem size_foldl_addVectorAt (parts : List (Block (Array ℝ))) (v : Array ℝ) :
    (parts.foldl (fun v p => addVectorAt v p.dofs p.entries) v).size = v.size := by
  induction parts generalizing v with
  | nil => rfl
  | cons b parts ih => rw [List.foldl_cons, ih, addVectorAt, Array.size_mapIdx]

theorem getD_foldl_addVectorAt (parts : List (Block (Array ℝ))) (v : Array ℝ) {p : ℕ}
    (hp : p < v.size) :
    (parts.foldl (fun v p => addVectorAt v p.dofs p.entries) v).getD p 0 =
      v.getD p 0 + (parts.map fun b => b.vectorPartAt p).sum := by
  induction parts generalizing v with
  | nil => simp
  | cons b parts ih =>
    have hsize : (addVectorAt v b.dofs b.entries).size = v.size := by simp [addVectorAt]
    have hadd : (addVectorAt v b.dofs b.entries).getD p 0 = v.getD p 0 + b.vectorPartAt p := by
      simp only [Array.getD_eq_getD_getElem?, addVectorAt, Array.getElem?_mapIdx,
        Block.vectorPartAt, Array.getElem?_eq_getElem hp]
      cases b.dofs.idxOf? p <;> simp
    rw [List.foldl_cons, ih _ (hsize ▸ hp), hadd, List.map_cons, List.sum_cons, add_assoc]

end Parts

section Sides

variable {e : Element ℝ}

theorem sidePart_eq_ok {β : Type} {integral : Element ℝ → Except (Error ℝ) β} {s : ℕ}
    {b : Block β} (h : sidePart integral e s = .ok b) :
    ∃ side nodes, e.buildSide s = .ok side ∧ e.sideNodes s = .ok nodes ∧
      nodes ∈ e.family.sides ∧ b.dofs = e.places nodes ∧
      side.getDof = (e.places nodes).map (fun p => e.getDof.getD p 0) ∧
      integral side = .ok b.entries := by
  unfold sidePart at h
  obtain ⟨side, hside, h⟩ := bind_eq_ok.mp h
  obtain ⟨dofs, hdofs, h⟩ := bind_eq_ok.mp h
  obtain ⟨entries, hentries, h⟩ := bind_eq_ok.mp h
  cases h
  obtain ⟨nodes, hnodes, hmem, hgetDof⟩ := Element.getDof_side hside
  have hplaces := Element.toNat_sideDof hnodes
  rw [hdofs] at hplaces
  exact ⟨side, nodes, hside, hnodes, hmem, Except.ok.inj hplaces, hgetDof, hentries⟩

theorem exists_sidePart {β : Type} {integral : Element ℝ → Except (Error ℝ) β} {s : ℕ}
    {side : Element ℝ} {K : β} (hside : e.buildSide s = .ok side) (hK : integral side = .ok K) :
    ∃ b, sidePart integral e s = .ok b := by
  obtain ⟨nodes, hnodes, -⟩ := Element.buildSide_eq_ok hside
  exact ⟨_, by rw [sidePart, hside, ok_bind, Element.sideDof_eq hnodes, ok_bind, hK]; rfl⟩

/-- The degrees of freedom of a side have the indices that the element has at their places. -/
theorem getElem?_map_places {nodes : List ℕ} (hnodes : nodes ∈ e.family.sides) {a : ℕ}
    (ha : a < (e.places nodes).length) (d : ℤ) :
    ((e.places nodes).map fun p => e.getDof.getD p 0)[a]? = some d ↔
      e.getDof[(e.places nodes).getD a 0]? = some d := by
  have hlt : (e.places nodes)[a] < e.getDof.length := by
    rw [Element.length_getDof]
    exact Element.lt_of_mem_places (Family.lt_of_mem_sides hnodes).2 (List.getElem_mem ha)
  rw [List.getElem?_map, List.getElem?_eq_getElem ha, List.getD_eq_getElem _ _ ha,
    List.getElem?_eq_getElem hlt, Option.map_some, List.getD_eq_getElem _ _ hlt]

section Shares

/-- The share of side `s` of an element, or zero if there is no such side. -/
noncomputable def sideShare (share : Element ℝ → ℝ) (e : Element ℝ) (s : ℕ) : ℝ :=
  (e.buildSide s).toOption.elim 0 share

theorem sideShare_eq {share : Element ℝ → ℝ} {s : ℕ} {side : Element ℝ}
    (h : e.buildSide s = .ok side) : sideShare share e s = share side := by
  rw [sideShare, h]
  rfl

variable {k : Kernel ℝ}

theorem sum_sidePart {s : ℕ} {b : Block (DenseMatrix ℝ)}
    (h : sidePart k.localMatrix e s = .ok b) (i j : ℕ) :
    (∑ p ∈ range e.dofs, ∑ q ∈ range e.dofs,
      if e.getDof[p]? = some (i : ℤ) ∧ e.getDof[q]? = some (j : ℤ) then b.partAt p q else 0) =
      sideShare (k.matrixShare · i j) e s := by
  obtain ⟨side, nodes, hside, -, hnodes, hdofs, hgetDof, hK⟩ := sidePart_eq_ok h
  obtain ⟨hnodup, hlt⟩ := Family.lt_of_mem_sides hnodes
  have hlen : side.dofs = (e.places nodes).length := by
    rw [← Element.length_getDof, hgetDof, List.length_map]
  rw [Block.sum_partAt (hdofs ▸ e.nodup_places hnodup)
    fun p hp => Element.lt_of_mem_places hlt (hdofs ▸ hp)]
  rw [sideShare_eq hside, Kernel.matrixShare, Kernel.matrixOf_eq hK, hlen, hdofs, hgetDof]
  apply sum_congr rfl
  intro a ha
  apply sum_congr rfl
  intro c hc
  simp only [getElem?_map_places hnodes (mem_range.mp ha),
    getElem?_map_places hnodes (mem_range.mp hc)]

theorem sum_sideVectorPart {s : ℕ} {b : Block (Array ℝ)}
    (h : sidePart k.localVector e s = .ok b) (i : ℕ) :
    (∑ p ∈ range e.dofs, if e.getDof[p]? = some (i : ℤ) then b.vectorPartAt p else 0) =
      sideShare (k.vectorShare · i) e s := by
  obtain ⟨side, nodes, hside, -, hnodes, hdofs, hgetDof, hf⟩ := sidePart_eq_ok h
  obtain ⟨hnodup, hlt⟩ := Family.lt_of_mem_sides hnodes
  have hlen : side.dofs = (e.places nodes).length := by
    rw [← Element.length_getDof, hgetDof, List.length_map]
  rw [Block.sum_vectorPartAt (hdofs ▸ e.nodup_places hnodup)
    fun p hp => Element.lt_of_mem_places hlt (hdofs ▸ hp)]
  rw [sideShare_eq hside, Kernel.vectorShare, Kernel.vectorOf_eq hf, hlen, hdofs, hgetDof]
  apply sum_congr rfl
  intro a ha
  simp only [getElem?_map_places hnodes (mem_range.mp ha)]

theorem sum_list_sum {ι β : Type} (S : Finset ι) (items : List β) (f : ι → β → ℝ) :
    ∑ p ∈ S, (items.map (f p)).sum = (items.map fun b => ∑ p ∈ S, f p b).sum := by
  induction items with
  | nil => simp
  | cons b items ih => simp only [List.map_cons, List.sum_cons, sum_add_distrib, ih]

theorem ite_list_sum {β : Type} (c : Prop) [Decidable c] (items : List β) (f : β → ℝ) :
    (if c then (items.map f).sum else 0) = (items.map fun b => if c then f b else 0).sum := by
  split_ifs <;> simp

theorem sideMatrix_eq_ok {sides : List ℕ} {K : DenseMatrix ℝ}
    (h : sideMatrix k e sides = .ok K) :
    ∃ parts, sides.mapM (sidePart k.localMatrix e) = .ok parts ∧ K.rows = e.dofs ∧
      K.cols = e.dofs ∧ ∀ p q, p < e.dofs → q < e.dofs →
        K.entry p q = (parts.map fun b => b.partAt p q).sum := by
  unfold sideMatrix at h
  rw [checkCapacity_real, ok_bind] at h
  obtain ⟨parts, hparts, h⟩ := bind_eq_ok.mp h
  cases h
  obtain ⟨hrows, hcols⟩ := size_foldl_addAt parts (.zero e.dofs e.dofs)
  refine ⟨parts, hparts, hrows, hcols, ?_⟩
  intro p q hp hq
  rw [entry_foldl_addAt parts _ hp hq, DenseMatrix.zero, DenseMatrix.entry_ofFn _ hp hq, zero_add]

theorem sideVector_eq_ok {sides : List ℕ} {f : Array ℝ} (h : sideVector k e sides = .ok f) :
    ∃ parts, sides.mapM (sidePart k.localVector e) = .ok parts ∧ f.size = e.dofs ∧
      ∀ p < e.dofs, f.getD p 0 = (parts.map fun b => b.vectorPartAt p).sum := by
  unfold sideVector at h
  rw [checkCapacity_real, ok_bind] at h
  obtain ⟨parts, hparts, h⟩ := bind_eq_ok.mp h
  cases h
  refine ⟨parts, hparts, by simp [size_foldl_addVectorAt], ?_⟩
  intro p hp
  have hzero : (Array.replicate e.dofs (0 : ℝ)).getD p 0 = 0 := by simp [hp]
  rw [getD_foldl_addVectorAt parts _ (by simpa using hp), hzero, zero_add]

theorem exists_sideMatrix {sides : List ℕ}
    (h : ∀ s ∈ sides, ∃ b, sidePart k.localMatrix e s = .ok b) :
    ∃ K, sideMatrix k e sides = .ok K := by
  obtain ⟨parts, hparts⟩ := exists_mapM_eq_ok h
  exact ⟨_, by rw [sideMatrix, checkCapacity_real, ok_bind, hparts]; rfl⟩

theorem exists_sideVector {sides : List ℕ}
    (h : ∀ s ∈ sides, ∃ b, sidePart k.localVector e s = .ok b) :
    ∃ f, sideVector k e sides = .ok f := by
  obtain ⟨parts, hparts⟩ := exists_mapM_eq_ok h
  exact ⟨_, by rw [sideVector, checkCapacity_real, ok_bind, hparts]; rfl⟩

/-- The block of an element for some of its sides spreads the matrices of these sides. -/
theorem spread_sideMatrix (hdof : ∀ d ∈ e.getDof, 0 ≤ d) {sides : List ℕ} {K : DenseMatrix ℝ}
    (h : sideMatrix k e sides = .ok K) (i j : ℕ) :
    Block.spread ⟨globalDofs e, K⟩ i j = (sides.map (sideShare (k.matrixShare · i j) e)).sum := by
  obtain ⟨parts, hparts, -, -, hentry⟩ := sideMatrix_eq_ok h
  rw [← map_eq_of_mapM_eq_ok hparts fun s _ b hb => sum_sidePart hb i j, Block.spread_eq_sum]
  simp only [getElem?_globalDofs hdof, length_globalDofs, ← sum_list_sum, ← ite_list_sum]
  apply sum_congr rfl
  intro p hp
  apply sum_congr rfl
  intro q hq
  rw [hentry p q (mem_range.mp hp) (mem_range.mp hq)]

theorem spreadAt_sideVector (hdof : ∀ d ∈ e.getDof, 0 ≤ d) {sides : List ℕ} {f : Array ℝ}
    (h : sideVector k e sides = .ok f) (i : ℕ) :
    Block.spreadAt ⟨globalDofs e, f⟩ i = (sides.map (sideShare (k.vectorShare · i) e)).sum := by
  obtain ⟨parts, hparts, hsize, hentry⟩ := sideVector_eq_ok h
  have hb : Block.IsAligned ⟨globalDofs e, f⟩ := by
    rw [Block.IsAligned, length_globalDofs, hsize]
  rw [← map_eq_of_mapM_eq_ok hparts fun s _ b hb => sum_sideVectorPart hb i,
    Block.spreadAt_eq_sum hb]
  simp only [getElem?_globalDofs hdof, length_globalDofs, ← sum_list_sum, ← ite_list_sum]
  apply sum_congr rfl
  intro p hp
  rw [hentry p (mem_range.mp hp)]

end Shares

end Sides

end Assembly
end WeakForm
