import Mathlib.Tactic
import WeakForm.Element.Data
import WeakForm.Proofs.Mesh.Elements

/-!
# Lists of degrees of freedom

With doubles for scalars, whole numbers in arrays are words of a machine. Up to words, expanding a list
of nodes gives the indices of their degrees of freedom, node by node. Expanding is undone exactly if
all products of a node with the number of its degrees of freedom are words.
-/

namespace WeakForm

section Words

variable {a b c : ℤ}

theorem word_eq (a : ℤ) : Scalar.word Float a = a.bmod (2 ^ 64) := rfl

theorem isWord_iff : Scalar.isWord Float a = true ↔ -2 ^ 63 ≤ a ∧ a < 2 ^ 63 := by
  have hle := Int.le_bmod (x := a) (m := 2 ^ 64) (by decide)
  have hlt := Int.bmod_lt (x := a) (m := 2 ^ 64) (by decide)
  rw [Scalar.isWord, word_eq, beq_iff_eq]
  constructor
  · intro h
    rw [h] at hle hlt
    exact ⟨hle, hlt⟩
  · rintro ⟨hle, hlt⟩
    exact Int.bmod_eq_of_le hle hlt

theorem word_of_isWord (h : Scalar.isWord Float a = true) : Scalar.word Float a = a :=
  beq_iff_eq.mp h

theorem isWord_word (a : ℤ) : Scalar.isWord Float (Scalar.word Float a) = true := by
  simp [Scalar.isWord, word_eq]

@[simp] theorem word_word_add (a b : ℤ) :
    Scalar.word Float (Scalar.word Float a + b) = Scalar.word Float (a + b) := by
  simp [word_eq]

/-- A number between two words is one. -/
theorem isWord_of_le_of_le (ha : Scalar.isWord Float a = true) (hc : Scalar.isWord Float c = true)
    (hab : a ≤ b) (hbc : b ≤ c) : Scalar.isWord Float b = true := by
  rw [isWord_iff] at *
  omega

/-- A number that is close to its word is one. -/
theorem isWord_of_abs_lt (h : |Scalar.word Float a - a| < 2 ^ 64) : Scalar.isWord Float a = true := by
  obtain ⟨q, hq⟩ : ((2 : ℤ) ^ 64) ∣ Scalar.word Float a - a := by
    rw [word_eq]
    exact_mod_cast Int.dvd_bmod_sub_self (x := a) (m := 2 ^ 64)
  rw [hq, abs_mul, abs_of_pos (by norm_num : (0 : ℤ) < 2 ^ 64)] at h
  have hzero : q = 0 := by
    by_contra hne
    have := Int.one_le_abs hne
    omega
  rw [hzero, mul_zero, sub_eq_zero] at hq
  rw [← hq]
  exact isWord_word a

/-- Where there may be an array, its length is a word, and so is any moderate multiple of it. -/
theorem isWord_of_checkCapacity {bytes count : ℕ} (hbytes : 0 < bytes)
    (h : checkCapacity (α := Float) bytes count = .ok ()) {k : ℕ} (hk : k ≤ memoryShare * count) :
    Scalar.isWord Float k = true := by
  unfold checkCapacity at h
  dsimp only at h
  split_ifs at h with hsize hmemory
  rw [Bool.not_eq_true', Bool.not_eq_false, isWord_iff] at hmemory
  have hle : k ≤ bytes * count * memoryShare := by
    calc k ≤ memoryShare * count := hk
      _ = 1 * count * memoryShare := by ring
      _ ≤ bytes * count * memoryShare :=
        Nat.mul_le_mul_right _ (Nat.mul_le_mul_right _ hbytes)
  have hle' : (k : ℤ) ≤ bytes * count * memoryShare := by exact_mod_cast hle
  rw [isWord_iff]
  omega

theorem checkCapacity_of_le {bytes count count' : ℕ} (hle : count' ≤ count)
    (h : checkCapacity (α := Float) bytes count = .ok ()) :
    checkCapacity (α := Float) bytes count' = .ok () := by
  have hzero : Scalar.isWord Float 0 = true := isWord_iff.mpr ⟨by norm_num, by norm_num⟩
  have hnonneg : (0 : ℤ) ≤ bytes * count' := by positivity
  have hnonneg' : (0 : ℤ) ≤ bytes * count' * memoryShare := by positivity
  have hle' : (bytes : ℤ) * count' ≤ bytes * count := by exact_mod_cast Nat.mul_le_mul_left bytes hle
  have hshare : (bytes : ℤ) * count' * memoryShare ≤ bytes * count * memoryShare :=
    mul_le_mul_of_nonneg_right hle' (Int.natCast_nonneg _)
  unfold checkCapacity at h ⊢
  dsimp only at h ⊢
  split_ifs at h with hsize hmemory
  rw [Bool.not_eq_true', Bool.not_eq_false] at hsize hmemory
  rw [isWord_of_le_of_le hzero hsize hnonneg hle', isWord_of_le_of_le hzero hmemory hnonneg' hshare]
  rfl

end Words

namespace Dof

/-- The indices of the degrees of freedom of some nodes. -/
def indices (n : ℕ) (nodes : List ℤ) : List ℤ :=
  nodes.flatMap fun k => (List.range n).map (Element.dofIndex n k)

variable {n : ℕ} {nodes : List ℤ}

section Indices

/-- A degree of freedom belongs to one component of one node. -/
theorem bijective_dofIndex (hn : 0 < n) :
    Function.Bijective fun p : ℤ × Fin n => Element.dofIndex n p.1 p.2 := by
  constructor
  · rintro ⟨k, i⟩ ⟨k', i'⟩ h
    obtain ⟨hk, hi⟩ := Element.dofIndex_inj i.isLt i'.isLt h
    exact Prod.ext hk (Fin.ext hi)
  · intro d
    have hpos : (0 : ℤ) < n := by exact_mod_cast hn
    refine ⟨(d / n + 1, ⟨(d % n).toNat, ?_⟩), ?_⟩
    · have := Int.emod_lt_of_pos d hpos
      omega
    · have hrest := Int.toNat_of_nonneg (Int.emod_nonneg d hpos.ne')
      simp only [Element.dofIndex, hrest]
      rw [add_sub_cancel_right, mul_comm]
      exact Int.mul_ediv_add_emod d n

/-- The degrees of freedom of a list of nodes come node by node. -/
theorem getElem?_indices (nodes : List ℤ) (p : ℕ) {i : ℕ} (hi : i < n) :
    (indices n nodes)[p * n + i]? = nodes[p]?.map fun k => Element.dofIndex n k i := by
  rw [indices, getElem?_flatMap_of_length (fun _ => by simp) _ hi]
  cases nodes[p]? <;> simp [hi]

theorem length_indices (n : ℕ) (nodes : List ℤ) : (indices n nodes).length = n * nodes.length := by
  simp [indices, mul_comm]

/-- The places of all degrees of freedom of some local nodes. -/
def places (n : ℕ) (nodes : List ℕ) : List ℕ :=
  nodes.flatMap fun k => (List.range n).map fun i => k * n + i

theorem indices_succ (n : ℕ) (nodes : List ℕ) :
    indices n (nodes.map fun k : ℕ => (k : ℤ) + 1) = (places n nodes).map Nat.cast := by
  rw [indices, places, List.map_flatMap, List.flatMap_map]
  apply List.flatMap_congr
  intro k _
  rw [List.map_map]
  exact List.map_congr_left fun i _ => by simp [Element.dofIndex]

theorem map_expand_sub_one (n : ℕ) (nodes : List ℤ) :
    (expand n nodes).map (· - 1) = indices n nodes :=
  Element.map_expand n nodes

/-- The nodes from one on own the degrees of freedom from one on. -/
theorem expand_range (n m : ℕ) : expand n ((List.range m).map fun k : ℕ => (k : ℤ) + 1) =
    (List.range (m * n)).map fun k : ℕ => (k : ℤ) + 1 := by
  induction m with
  | zero => simp [expand]
  | succ m ih =>
    rw [List.range_succ, List.map_append, expand, List.flatMap_append, ← expand, ih, Nat.succ_mul,
      List.range_add, List.map_append, List.map_map]
    congr 1
    rw [List.map_singleton, List.flatMap_singleton, ofNode]
    apply List.map_congr_left
    intro i _
    simp only [Function.comp_apply]
    push_cast
    ring

end Indices

section Transform

/-- There is a list of the degrees of freedom if memory suffices for it. -/
theorem transform_eq_ok_iff (hword : Scalar.isWord Float n = true) {dofs : List ℤ} :
    transform (α := Float) nodes n = .ok dofs ↔
      checkCapacity (α := Float) 8 (n * nodes.length) = .ok () ∧ dofs = inWords Float (expand n nodes) := by
  have hsize : ((n : ℤ) * (nodes.length : ℤ)).toNat = n * nodes.length := by
    exact_mod_cast Int.toNat_natCast (n * nodes.length)
  have hnonneg : ¬ (n : ℤ) * (nodes.length : ℤ) < 0 := not_lt.mpr (by positivity)
  rw [transform, if_neg hnonneg, hsize, bind_eq_ok, if_neg (by simp [hword])]
  constructor
  · rintro ⟨⟨⟩, hcapacity, h⟩
    exact ⟨hcapacity, (Except.ok.inj h).symm⟩
  · rintro ⟨hcapacity, rfl⟩
    exact ⟨(), hcapacity, rfl⟩

/-- Up to words, the degrees of freedom of a list are one more than their indices. -/
theorem inWords_map_sub_one (n : ℕ) (nodes : List ℤ) :
    inWords Float ((inWords Float (expand n nodes)).map (· - 1)) = inWords Float (indices n nodes) := by
  rw [← map_expand_sub_one]
  simp only [inWords, List.map_map]
  apply List.map_congr_left
  intro d _
  simp only [Function.comp_apply, sub_eq_add_neg, word_word_add]

/-- Every `n`-th item of parts of length `n` is the first of a part. -/
theorem everyNth_flatMap {β γ : Type} {part : β → List γ} {first : β → γ}
    (hpart : ∀ x, (part x).length = n ∧ (part x).head? = some (first x)) (items : List β) :
    everyNth n (items.flatMap part) = items.map first := by
  have hkeep (s : ℕ) (hs : n ∣ s) : (((items.flatMap part).zipIdx s).filter
      fun p => p.2 % n == 0).map Prod.fst = items.map first := by
    induction items generalizing s with
    | nil => rfl
    | cons x items ih =>
      obtain ⟨hlength, hhead⟩ := hpart x
      obtain ⟨others, hx⟩ : ∃ others, part x = first x :: others :=
        ⟨_, (List.cons_head?_tail hhead).symm⟩
      rw [hx, List.length_cons] at hlength
      have hothers : (others.zipIdx (s + 1)).filter (fun p => p.2 % n == 0) = [] := by
        refine List.filter_eq_nil_iff.mpr fun p hp => ?_
        obtain ⟨hle, hlt, -⟩ := List.mem_zipIdx (x := p.1) (i := p.2) hp
        have hne : p.2 % n ≠ 0 := by
          rw [← Nat.add_sub_of_le (show s ≤ p.2 by omega), Nat.add_mod,
            Nat.mod_eq_zero_of_dvd hs, Nat.zero_add, Nat.mod_mod, Nat.mod_eq_of_lt (by omega)]
          omega
        simpa using hne
      have hfirst : s % n = 0 := Nat.mod_eq_zero_of_dvd hs
      rw [List.flatMap_cons, hx, List.zipIdx_append, List.zipIdx_cons, List.filter_append,
        List.filter_cons_of_pos (by simpa using hfirst), hothers, List.map_append, List.length_cons,
        hlength, ih (s + n) (hs.add (dvd_refl n))]
      rfl
  exact hkeep 0 (dvd_zero n)

/-- Among the degrees of freedom of some nodes, every `n`-th is the first one of a node. -/
theorem everyNth_expand (hn : 0 < n) (nodes : List ℤ) :
    everyNth n (inWords Float (expand n nodes)) =
      nodes.map fun k => Scalar.word Float (k * n - n + 1) := by
  rw [inWords, expand, List.map_flatMap]
  refine everyNth_flatMap (fun k => ⟨by simp [ofNode], ?_⟩) nodes
  obtain ⟨n', rfl⟩ : ∃ n', n = n' + 1 := ⟨n - 1, by omega⟩
  simp [ofNode, List.range_succ_eq_map]

theorem inverseTransform_inWords (hn : 0 < n) (hword : Scalar.isWord Float n = true)
    (nodes : List ℤ) : inverseTransform (α := Float) (inWords Float (expand n nodes)) n =
      .ok (nodes.map fun k => Scalar.word Float (Int.fdiv (Scalar.word Float (k * n)) n)) := by
  have hzero : ¬ (n : ℤ) = 0 := by omega
  have hneg : ¬ (n : ℤ) < 0 := by omega
  rw [inverseTransform, if_neg hzero, if_neg (by simp [hword])]
  simp only [if_neg hneg, Int.toNat_natCast]
  rw [everyNth_expand hn, inWords, List.map_map, List.map_map]
  refine congrArg Except.ok (List.map_congr_left fun k _ => ?_)
  have hlast : k * (n : ℤ) - n + 1 + (n - 1) = k * n := by ring
  simp only [Function.comp_apply, add_sub_assoc, word_word_add]
  rw [← add_sub_assoc, add_sub_assoc, hlast]

/-- A node is found again exactly if its product with the number of its degrees of freedom is a
word. -/
theorem word_fdiv_eq_iff (hn : 0 < n) (hword : Scalar.isWord Float n = true) {k : ℤ} :
    Scalar.word Float (Int.fdiv (Scalar.word Float (k * n)) n) = k ↔
      Scalar.isWord Float (k * n) = true := by
  have hpos : (0 : ℤ) < n := by exact_mod_cast hn
  have hproduct := isWord_word (k * n)
  rw [Int.fdiv_eq_ediv_of_nonneg _ hpos.le]
  generalize hw : Scalar.word Float (k * n) = w at hproduct
  have hquotient : Scalar.isWord Float (w / n) = true := by
    rw [isWord_iff] at hproduct ⊢
    have hbound : (2 : ℤ) ^ 63 ≤ 2 ^ 63 * n := le_mul_of_one_le_right (by norm_num) hpos
    refine ⟨Int.le_ediv_of_mul_le hpos ?_, Int.ediv_lt_of_lt_mul hpos (hproduct.2.trans_le hbound)⟩
    rw [neg_mul]
    exact (neg_le_neg hbound).trans hproduct.1
  rw [word_of_isWord hquotient]
  constructor
  · intro h
    apply isWord_of_abs_lt
    have hrest := Int.mul_ediv_add_emod w n
    have hnonneg := Int.emod_nonneg w hpos.ne'
    have hlt := Int.emod_lt_of_pos w hpos
    have hn := (isWord_iff.mp hword).2
    rw [h] at hrest
    rw [hw, abs_lt]
    constructor <;> linarith
  · intro h
    rw [← hw, word_of_isWord h]
    exact Int.mul_ediv_cancel _ hpos.ne'

/-- Expanding a list of nodes is undone exactly if all products with `n` are words. -/
theorem inverseTransform_transform_iff (hn : 0 < n) (hword : Scalar.isWord Float n = true)
    {dofs : List ℤ} (h : transform (α := Float) nodes n = .ok dofs) :
    inverseTransform (α := Float) dofs n = .ok nodes ↔
      ∀ k ∈ nodes, Scalar.isWord Float (k * n) = true := by
  rw [((transform_eq_ok_iff hword).mp h).2]
  rw [inverseTransform_inWords hn hword, Except.ok.injEq]
  conv_lhs => rhs; rw [← List.map_id' nodes]
  rw [List.map_inj_left]
  exact forall₂_congr fun k _ => word_fdiv_eq_iff hn hword

/-- The nodes from one on in any order own the degrees of freedom from one on. -/
theorem transform_perm {m : ℕ} {dofs : List ℤ} (hword : Scalar.isWord Float n = true)
    (hnodes : nodes.Perm ((List.range m).map fun k : ℕ => (k : ℤ) + 1))
    (h : transform (α := Float) nodes n = .ok dofs) :
    dofs.Perm ((List.range (m * n)).map fun k : ℕ => (k : ℤ) + 1) := by
  have hlength : nodes.length = m := by simpa using hnodes.length_eq
  obtain ⟨hcapacity, rfl⟩ := (transform_eq_ok_iff hword).mp h
  have hexpand : (expand n nodes).Perm ((List.range (m * n)).map fun k : ℕ => (k : ℤ) + 1) := by
    rw [← expand_range]
    exact hnodes.flatMap_right _
  have hwords : inWords Float (expand n nodes) = expand n nodes := by
    rw [inWords]
    conv_rhs => rw [← List.map_id' (expand n nodes)]
    refine List.map_congr_left fun d hd => word_of_isWord ?_
    obtain ⟨k, hk, rfl⟩ := List.mem_map.mp (hexpand.subset hd)
    rw [List.mem_range] at hk
    rw [hlength, mul_comm] at hcapacity
    have hle : k + 1 ≤ memoryShare * (m * n) :=
      hk.trans_le (Nat.le_mul_of_pos_left _ (by decide))
    exact_mod_cast isWord_of_checkCapacity (by decide) hcapacity hle
  rw [hwords]
  exact hexpand

/-- A node whose first and last degree of freedom can be counted in words. -/
structure Fits (n : ℕ) (k : ℤ) : Prop where
  first : Scalar.isWord Float ((k - 1) * n) = true
  last : Scalar.isWord Float (k * n) = true

theorem inWords_indices_of_fits (h : ∀ k ∈ nodes, Fits n k) :
    inWords Float (indices n nodes) = indices n nodes := by
  rw [inWords]
  conv_rhs => rw [← List.map_id' (indices n nodes)]
  refine List.map_congr_left fun d hd => word_of_isWord ?_
  obtain ⟨k, hk, hd⟩ := List.mem_flatMap.mp hd
  obtain ⟨i, hi, rfl⟩ := List.mem_map.mp hd
  have hi : (i : ℤ) < n := by exact_mod_cast List.mem_range.mp hi
  obtain ⟨hfirst, hlast⟩ := h k hk
  rw [sub_mul, one_mul] at hfirst
  rw [Element.dofIndex, sub_mul, one_mul]
  exact isWord_of_le_of_le hfirst hlast (by omega) (by omega)

end Transform

end Dof

namespace ElementData

open Dof

variable {e : ElementData Float} {n : ℕ}

theorem dofsOf_eq_ok (hn : e.dofsPerNode = .integer n) (hword : Scalar.isWord Float n = true)
    {nodes : List ℤ} (hcapacity : checkCapacity (α := Float) 8 (n * nodes.length) = .ok ()) :
    e.dofsOf nodes = .ok (inWords Float (indices n nodes)) := by
  have hsame : e.dofsPerNode.same (.integer 1) = ((n : ℤ) == 1) := by
    rw [hn]
    simp [Datum.same, Datum.sameLeaf, Datum.integer?]
  rw [dofsOf, hsame]
  by_cases hone : n = 1
  · subst hone
    simp [indices, Element.dofIndex, List.map_eq_flatMap, pure, Except.pure]
  · have htransform := (transform_eq_ok_iff hword).mpr ⟨hcapacity, rfl⟩
    have hne : ((n : ℤ) == 1) = false := by simpa using hone
    rw [hne, hn]
    change transform nodes (n : ℤ) >>= _ = _
    rw [htransform]
    exact congrArg Except.ok (inWords_map_sub_one n nodes)

theorem mem_sides_of_sideNodes {s : ℤ} {nodes : List ℕ} (h : e.sideNodes s = .ok nodes) :
    nodes ∈ e.family.sides := by
  unfold sideNodes at h
  split at h
  · rename_i found hfound
    cases h
    obtain ⟨k, -, hk⟩ := Option.bind_eq_some_iff.mp hfound
    exact List.mem_of_getElem? hk
  · cases h

theorem length_le_of_mem_sides {f : Family} {nodes : List ℕ} (h : nodes ∈ f.sides) :
    nodes.length ≤ f.nodeCount := by
  revert nodes
  cases f <;> decide

/-- A family with sides says of which family they are. -/
theorem exists_sideFamily {f : Family} {nodes : List ℕ} (h : nodes ∈ f.sides) :
    ∃ g, f.sideFamily = some g := by
  cases f with
  | point => cases h
  | line2 | line3 | quad4 | tri3 | tri6 | beam2 => exact ⟨_, rfl⟩

/-- The degrees of freedom of an element at the places of a side are those of the side. -/
theorem getDof_side (hn : e.dofsPerNode = .integer n) (hword : Scalar.isWord Float n = true)
    (hids : e.nodeIds.length = e.family.nodeCount)
    (hcapacity : checkCapacity (α := Float) 8 (n * e.family.nodeCount) = .ok ()) {s : ℤ}
    {nodes : List ℕ} (hs : e.sideNodes s = .ok nodes) :
    ∃ (dofs : List ℤ) (places : List ℕ) (side : ElementData Float), e.getDof = .ok dofs ∧
      e.sideDof s = .ok (places.map Nat.cast) ∧ e.buildSide (.integer s) = .ok side ∧
      (∀ p ∈ places, p < dofs.length) ∧ side.getDof = .ok (places.map fun p => dofs.getD p 0) := by
  have hside := mem_sides_of_sideNodes hs
  obtain ⟨f, hf⟩ := exists_sideFamily hside
  have hlt := (Family.lt_of_mem_sides hside).2
  have hfits : checkCapacity (α := Float) 8 (n * nodes.length) = .ok () :=
    checkCapacity_of_le (Nat.mul_le_mul_left n (length_le_of_mem_sides hside)) hcapacity
  have hbound : ∀ p ∈ places n nodes, p < n * e.family.nodeCount := by
    intro p hp
    obtain ⟨k, hk, hp⟩ := List.mem_flatMap.mp hp
    obtain ⟨i, hi, rfl⟩ := List.mem_map.mp hp
    calc k * n + i < k * n + n := by simpa using hi
      _ = n * (k + 1) := by ring
      _ ≤ n * e.family.nodeCount := Nat.mul_le_mul_left n (hlt k hk)
  have hplaces : e.sideDof s = .ok ((places n nodes).map Nat.cast) := by
    rw [sideDof, hs, ok_bind, dofsOf_eq_ok hn hword (by rw [List.length_map]; exact hfits), indices_succ, inWords,
      List.map_map]
    refine congrArg Except.ok (List.map_congr_left fun p hp => ?_)
    rw [Function.comp_apply]
    apply word_of_isWord
    exact isWord_of_checkCapacity (by decide) hcapacity
      ((hbound p hp).le.trans (Nat.le_mul_of_pos_left _ (by decide)))
  let side : ElementData Float :=
    { id := e.id, family := f, nodes := arcLengths f (slicesAt e.nodes nodes)
      nodeIds := nodes.map fun k => e.nodeIds.getD k 0, dofsPerNode := e.dofsPerNode
      side := some ⟨slicesAt e.nodes nodes, center e.nodes⟩ }
  have hbuild : e.buildSide (.integer s) = .ok side := by
    rw [buildSide, hf]
    change (e.sideNodes s >>= _) = _
    rw [hs]
    rfl
  have hsideDofs : side.getDof = .ok (inWords Float (indices n side.nodeIds)) :=
    dofsOf_eq_ok hn hword (by rw [List.length_map]; exact hfits)
  refine ⟨_, _, _, dofsOf_eq_ok hn hword (by rw [hids]; exact hcapacity), hplaces, hbuild, fun p hp => ?_, ?_⟩
  · rw [inWords, List.length_map, length_indices, hids]
    exact hbound p hp
  · rw [hsideDofs, inWords, indices, List.flatMap_map, List.map_flatMap, places, List.map_flatMap]
    refine congrArg Except.ok (List.flatMap_congr fun k hk => ?_)
    have hk' : k < e.nodeIds.length := by
      rw [hids]
      exact hlt k hk
    rw [List.map_map, List.map_map]
    refine List.map_congr_left fun i hi => ?_
    simp only [Function.comp_apply, inWords, List.getD_eq_getElem?_getD, List.getElem?_map,
      getElem?_indices _ _ (List.mem_range.mp hi), List.getElem?_eq_getElem hk', Option.map_some,
      Option.getD_some]

end ElementData

end WeakForm
