import WeakForm.Mesh.Drawing
import WeakForm.Proofs.Element.DofLists
import WeakForm.Proofs.Solver.Prescribed

/-!
# One numbering of the degrees of freedom

Component `i` of node `k` has the index `(k - 1) * n + i`, where `n` is the number of components. The
degrees of freedom of nodes, of elements and of conditions, the marks of a selection and the values of
a drawing all follow this rule.
-/

namespace WeakForm

open Dof

/-- Data for all components or for one of them. -/
def Datum.ofComponent {α : Type} : Option ℕ → Datum α
  | none => .null
  | some i => .integer i

/-- The indices of the degrees of freedom of some nodes, for all components or for one of them. -/
def Dof.indicesOf (n : ℕ) (component : Option ℕ) (nodes : List ℤ) : List ℤ :=
  match component with
  | none => indices n nodes
  | some i => nodes.map fun k => Element.dofIndex n k i

namespace Mesh

variable {α : Type} {m : Mesh α} {component : Option ℕ} {ids : List ℤ}

/-- The nodes that a selection is made for, in lists. All of the mesh need not be listed. -/
def NodeLists (m : Mesh α) (tag : Option TagId) (mode : DofMode) (lists : List (List ℤ)) : Prop :=
  match tag, mode with
  | some tag, _ => ∃ ids, m.getNodeIds (some tag) = .ok ids ∧ lists = [ids]
  | none, .all => lists = []
  | none, _ => lists = m.essentialNodes

/-- The marks of the degrees of freedom of the listed nodes that belong to the component. -/
def marksOf [Scalar α] (m : Mesh α) (tag : Option TagId) (mode : DofMode) (component : Datum α)
    (lists : List (List ℤ)) : List Bool :=
  (markPlaces (Array.replicate m.dofs (tag.isNone && mode == .all))
    (lists.flatMap m.allDofs)).toList.zipIdx.map fun b =>
      (b.1 && m.inComponent component b.2) != (mode == .nonessential)

/-- Finds the lists of nodes. -/
def nodeLists (m : Mesh α) (tag : Option TagId) (mode : DofMode) : Except (Error α) (List (List ℤ)) :=
  match tag, mode with
  | some tag, _ => (m.getNodeIds (some tag)).map fun ids => [ids]
  | none, .all => .ok []
  | none, _ => .ok m.essentialNodes

theorem nodeLists_eq_ok {tag : Option TagId} {mode : DofMode} {lists : List (List ℤ)} :
    m.nodeLists tag mode = .ok lists ↔ m.NodeLists tag mode lists := by
  have hcomm (found : List (List ℤ)) : (.ok found : Except (Error α) _) = .ok lists ↔ lists = found := by
    rw [Except.ok.injEq, eq_comm]
  cases tag with
  | some tag => exact map_eq_ok.trans (exists_congr fun ids => and_congr_right fun _ => eq_comm)
  | none => cases mode <;> exact hcomm _

/-- Checks the component of a selection. -/
def checkComponent [Scalar α] (m : Mesh α) : Datum α → Except (Error α) Unit
  | .null => .ok ()
  | number => (m.component number).map fun _ => ()

theorem checkComponent_eq_ok [Scalar α] {component : Datum α} :
    m.checkComponent component = .ok () ↔ component = .null ∨ ∃ c, m.component component = .ok c := by
  cases component <;> simp [checkComponent, map_eq_ok]

theorem checkFrozen_eq_ok : m.checkFrozen = .ok () ↔ m.frozen = true := by
  unfold checkFrozen
  split_ifs with h <;> simp [h]

/-- The steps of a selection whose mode is known. -/
theorem getDof_eq [Scalar α] {tag : Option TagId} {mode : String} {component : Datum α}
    {chosen : DofMode} (hmode : DofMode.ofName? mode = some chosen) :
    m.getDof tag mode component = (do
      m.checkFrozen
      checkCapacity 1 m.dofs
      let lists ← m.nodeLists tag chosen
      lists.forM m.checkDofs
      m.checkComponent component
      pure (m.marksOf tag chosen component lists)) := by
  unfold getDof
  rw [hmode]
  cases tag <;> cases chosen <;> cases component <;> rfl

/-- What a selection has to pass. It marks the degrees of freedom of its nodes that belong to the
component. -/
theorem getDof_eq_ok [Scalar α] {tag : Option TagId} {mode : String}
    {component : Datum α} {marks : List Bool} : m.getDof tag mode component = .ok marks ↔
    m.frozen = true ∧ ∃ chosen, DofMode.ofName? mode = some chosen ∧
      checkCapacity (α := α) 1 m.dofs = .ok () ∧ ∃ lists, m.NodeLists tag chosen lists ∧
        lists.forM m.checkDofs = .ok () ∧
        (component = .null ∨ ∃ c, m.component component = .ok c) ∧
        m.marksOf tag chosen component lists = marks := by
  have hunit (P : Unit → Prop) : (∃ a, P a) ↔ P () := ⟨fun ⟨(), h⟩ => h, fun h => ⟨(), h⟩⟩
  cases hmode : DofMode.ofName? mode with
  | none => simp [getDof, hmode, bind_eq_ok]
  | some chosen =>
    rw [getDof_eq hmode]
    simp only [bind_eq_ok, hunit, checkFrozen_eq_ok, nodeLists_eq_ok, checkComponent_eq_ok, pure,
      Except.pure, Except.ok.injEq, Option.some.injEq, exists_eq_left']

/-- The nodes that a selection of degrees of freedom is made for. -/
def Selects (m : Mesh α) (tag : Option TagId) (mode : String) (ids : List ℤ) : Prop :=
  match tag with
  | some tag => m.getNodeIds (some tag) = .ok ids
  | none => ids = if mode = "all" then m.allNodeIds else m.essentialNodes.flatten

/-- The values of a field at all nodes. -/
def nodalValues [Zero α] (m : Mesh α) (u : List α) (i : ℕ) : List α :=
  m.allNodeIds.map fun k => u.toArray.getD (Element.dofIndex m.dofsPerNode k i).toNat 0

section Marks

variable [Scalar α]

variable {tag : Option TagId} {mode : String} {marks : List Bool}

/-- The degrees of freedom of existing nodes are in range. -/
theorem Built.toNat_dofIndex (hm : m.Built) {k : ℤ} (hone : 1 ≤ k) (hk : k ≤ m.nodes.length) {i : ℕ}
    (hi : i < m.dofsPerNode) :
    ((Element.dofIndex m.dofsPerNode k i).toNat : ℤ) = Element.dofIndex m.dofsPerNode k i ∧
      (Element.dofIndex m.dofsPerNode k i).toNat < m.dofs := by
  obtain ⟨j, rfl⟩ : ∃ j : ℕ, k = j + 1 := ⟨(k - 1).toNat, by omega⟩
  have hindex : Element.dofIndex m.dofsPerNode ((j : ℤ) + 1) i = ((j * m.dofsPerNode + i : ℕ) : ℤ) := by
    simp [Element.dofIndex]
  rw [hindex, Int.toNat_natCast, hm.dofs]
  refine ⟨rfl, ?_⟩
  calc j * m.dofsPerNode + i < j * m.dofsPerNode + m.dofsPerNode := by omega
    _ = (j + 1) * m.dofsPerNode := (Nat.succ_mul _ _).symm
    _ ≤ m.nodes.length * m.dofsPerNode := Nat.mul_le_mul_right _ (by omega)

omit [Scalar α] in
theorem mem_allDofs_dofIndex {nodes : List ℤ} {k : ℤ} {i : ℕ} (hi : i < m.dofsPerNode) :
    Element.dofIndex m.dofsPerNode k i ∈ m.allDofs nodes ↔ k ∈ nodes := by
  simp only [allDofs, List.mem_flatMap, List.mem_map, List.mem_range]
  constructor
  · rintro ⟨k', hk', i', hi', he⟩
    exact (Element.dofIndex_inj hi' hi he).1 ▸ hk'
  · exact fun hk => ⟨k, hk, i, hi, rfl⟩

/-- The remainder of an index is its component. -/
theorem inComponent_dofIndex {k : ℤ} (hk : 1 ≤ k) {i : ℕ} (hi : i < m.dofsPerNode) :
    m.inComponent (.ofComponent component) (Element.dofIndex m.dofsPerNode k i).toNat =
      decide (∀ c ∈ component, i = c) := by
  cases component with
  | none => simp [Datum.ofComponent, inComponent]
  | some c =>
    obtain ⟨j, rfl⟩ : ∃ j : ℕ, k = j + 1 := ⟨(k - 1).toNat, by omega⟩
    have hindex : (Element.dofIndex m.dofsPerNode ((j : ℤ) + 1) i).toNat = i + m.dofsPerNode * j := by
      rw [Element.dofIndex, add_sub_cancel_right, mul_comm]
      omega
    rw [hindex]
    have hsame : (Datum.integer (i : ℤ) : Datum α).same (.integer c) = decide (i = c) := by
      simp only [Datum.same, Datum.sameLeaf, Datum.integer?]
      rw [Bool.eq_iff_iff]
      simp
    simpa [Datum.ofComponent, inComponent, Nat.mod_eq_of_lt hi] using hsame

omit [Scalar α] in
theorem selects_of_nodeLists {chosen : DofMode} {lists : List (List ℤ)}
    (hmode : DofMode.ofName? mode = some chosen) (hlists : m.NodeLists tag chosen lists) :
    (mode == "nonessential") = (chosen == .nonessential) ∧ ∃ ids, m.Selects tag mode ids ∧
      ∀ k, 1 ≤ k → k ≤ (m.nodes.length : ℤ) →
        ((tag.isNone && chosen == .all) || decide (k ∈ lists.flatten)) = decide (k ∈ ids) := by
  have hname : (mode = "essential" ∧ chosen = .essential) ∨
      (mode = "nonessential" ∧ chosen = .nonessential) ∨ (mode = "all" ∧ chosen = .all) := by
    unfold DofMode.ofName? at hmode
    split at hmode <;> cases hmode <;> simp
  cases tag with
  | some t =>
    obtain ⟨ids, hget, rfl⟩ := hlists
    refine ⟨?_, ids, hget, by simp⟩
    rcases hname with ⟨rfl, rfl⟩ | ⟨rfl, rfl⟩ | ⟨rfl, rfl⟩ <;> rfl
  | none =>
    rcases hname with ⟨rfl, rfl⟩ | ⟨rfl, rfl⟩ | ⟨rfl, rfl⟩
    · obtain rfl : lists = m.essentialNodes := hlists
      exact ⟨rfl, _, rfl, fun k _ _ => by simp⟩
    · obtain rfl : lists = m.essentialNodes := hlists
      exact ⟨rfl, _, rfl, fun k _ _ => by simp⟩
    · refine ⟨rfl, _, rfl, fun k hone hk => ?_⟩
      have hmem : k ∈ m.allNodeIds := mem_allNodeIds.mpr ⟨hone, hk⟩
      simp [hmem]

/-- A selection marks the degrees of freedom of its nodes that belong to the component. -/
theorem marks_of_getDof (hm : m.Reachable)
    (h : m.getDof tag mode (.ofComponent component) = .ok marks) :
    ∃ ids, m.Selects tag mode ids ∧ marks.length = m.dofs ∧
      ∀ k i, 1 ≤ k → k ≤ (m.nodes.length : ℤ) → i < m.dofsPerNode →
        marks[(Element.dofIndex m.dofsPerNode k i).toNat]? =
          some ((decide (k ∈ ids) && decide (∀ c ∈ component, i = c)) != (mode == "nonessential")) := by
  obtain ⟨hfrozen, chosen, hmode, -, lists, hlists, -, -, rfl⟩ := getDof_eq_ok.mp h
  have hbuilt := hm.wellFormed.built hfrozen
  obtain ⟨hnonessential, ids, hids, hmem⟩ := selects_of_nodeLists hmode hlists
  refine ⟨ids, hids, by simp [marksOf], fun k i hone hk hi => ?_⟩
  obtain ⟨hcast, hlt⟩ := hbuilt.toNat_dofIndex hone hk hi
  have hmark : decide (Element.dofIndex m.dofsPerNode k i ∈ lists.flatMap m.allDofs) =
      decide (k ∈ lists.flatten) := by
    simp only [List.mem_flatMap, mem_allDofs_dofIndex hi, List.mem_flatten]
  have hplace := getD_markPlaces (Array.replicate m.dofs (tag.isNone && chosen == .all))
    (lists.flatMap m.allDofs) (d := (Element.dofIndex m.dofsPerNode k i).toNat) (by simpa using hlt)
  have hinitial : (Array.replicate m.dofs (tag.isNone && chosen == .all)).getD
      (Element.dofIndex m.dofsPerNode k i).toNat false = (tag.isNone && chosen == .all) := by
    simp [hlt]
  rw [hcast, hmark, hinitial, hmem k hone hk] at hplace
  have hsize : (Element.dofIndex m.dofsPerNode k i).toNat <
      (markPlaces (Array.replicate m.dofs (tag.isNone && chosen == .all))
        (lists.flatMap m.allDofs)).size := by simpa using hlt
  rw [Array.getD_eq_getD_getElem?, Array.getElem?_eq_getElem hsize, Option.getD_some] at hplace
  rw [marksOf, List.getElem?_map, List.getElem?_zipIdx, Array.getElem?_toList,
    Array.getElem?_eq_getElem hsize, hplace, hnonessential, ← inComponent_dofIndex hone hi, Nat.zero_add]
  rfl

end Marks

section Conditions

variable [Scalar α]

theorem eq_of_component {i : ℕ} {c : ℤ} (h : m.component (.integer i) = .ok c) : c = i := by
  unfold Mesh.component at h
  split at h
  · split_ifs at h
    rw [Datum.toInteger, Datum.ofWord] at h
    split_ifs at h
    exact (Except.ok.inj h).symm
  · cases h

/-- A condition prescribes values at the degrees of freedom of its nodes. -/
theorem dofs_of_essentialValues {c : Condition α} {time : Option (Datum α)} {dofs : List ℤ}
    {values : List α} (hc : c.component = .ofComponent component)
    (h : c.essentialValues m time = .ok (dofs, values)) :
    ∃ ids, m.getNodeIds c.tag = .ok ids ∧ dofs = indicesOf m.dofsPerNode component ids := by
  rw [Condition.essentialValues, bind_eq_ok] at h
  obtain ⟨ids, hids, h⟩ := h
  obtain ⟨chosen, hchosen, h⟩ := bind_eq_ok.mp h
  refine ⟨ids, hids, ?_⟩
  split at h
  · cases h
  · obtain ⟨t, -, h⟩ := bind_eq_ok.mp h
    cases h
    rw [hc] at hchosen
    cases component with
    | none =>
      obtain ⟨⟨⟩, -, rfl⟩ := map_eq_ok.mp hchosen
      rw [Condition.components, indicesOf, indices]
      refine List.flatMap_congr fun k _ => ?_
      rw [List.map_map]
      rfl
    | some i =>
      obtain ⟨j, hj, hchosen⟩ := bind_eq_ok.mp hchosen
      obtain ⟨⟨⟩, -, hchosen⟩ := bind_eq_ok.mp hchosen
      cases hchosen
      rw [eq_of_component hj]
      simp [Condition.components, indicesOf, Element.dofIndex, List.map_eq_flatMap]

end Conditions

section Drawings

variable [Scalar α]

/-- A surface has no value where the field is not finite. -/
def shown (v : α) : α := if Scalar.isFinite v then v else Scalar.undefined

/-- Along a line a drawing has the values over the first coordinates of the nodes, on a surface it has
them node by node. -/
def Shows (m : Mesh α) (values : List α) : Drawing α → Prop
  | .curve points => points = inOrder ((m.coords.elim [] fun coords => coords.column 0).zip values)
  | .surface _ drawn => drawn = values.map shown

theorem choice_eq_ok {n i : ℕ} {chosen : Choice} (h : choice n (.integer i : Datum α) = .ok chosen) :
    chosen = ⟨[i], 0⟩ := by
  obtain ⟨k, hk, rfl⟩ := map_eq_ok.mp h
  dsimp only at hk
  split at hk
  · rename_i k' hplace
    cases hk
    obtain ⟨d, hd, hplace⟩ := Option.bind_eq_some_iff.mp hplace
    cases hd
    by_cases hi : i < n
    · rw [position?_natCast hi] at hplace
      cases hplace
      rfl
    · simp [position?, hi] at hplace
  · cases hk

theorem map_singleton_nodalValues (m : Mesh α) (u : List α) (i : ℕ) :
    (List.range m.nodes.length).map (fun k =>
      ([i] : List ℕ).map fun c => u.toArray.getD (k * m.dofsPerNode + c) 0) =
        (m.nodalValues u i).map fun v => [v] := by
  rw [nodalValues, allNodeIds, List.map_map, List.map_map]
  refine List.map_congr_left fun k _ => ?_
  have hindex : Element.dofIndex m.dofsPerNode ((k : ℤ) + 1) i = ((k * m.dofsPerNode + i : ℕ) : ℤ) := by
    simp [Element.dofIndex]
  simp only [Function.comp_apply, hindex, Int.toNat_natCast, List.map_cons, List.map_nil]

theorem mapM_surfaceValue (values : List α) :
    (values.map fun v => [v]).mapM surfaceValue = .ok (values.map shown) := by
  rw [mapM_eq_ok_iff, List.forall₂_map_left_iff, List.forall₂_map_right_iff, List.forall₂_same]
  exact fun v _ => rfl

/-- A drawing of one component takes its values from the degrees of freedom of the nodes. -/
theorem values_of_draw {u : List α} {i : ℕ} {drawing : Drawing α}
    (h : m.draw u (.integer i) = .ok drawing) : m.Shows (m.nodalValues u i) drawing := by
  unfold draw at h
  by_cases hlength : u.length ≠ m.dofs
  · rw [if_pos hlength] at h
    cases h
  by_cases hsize : u.length ≠ m.nodes.length * m.dofsPerNode
  · rw [if_neg hlength, if_pos hsize] at h
    cases h
  rw [if_neg hlength, if_neg hsize] at h
  obtain ⟨chosen, hchosen, h⟩ := bind_eq_ok.mp h
  obtain rfl := choice_eq_ok hchosen
  simp only [map_singleton_nodalValues] at h
  by_cases hline : m.dim = 1
  · rw [if_pos hline] at h
    cases h
    cases hcoords : m.coords <;> simp [Shows, hcoords, Function.comp_def]
  · by_cases hplane : m.dim = 2
    · rw [if_neg hline, if_pos hplane, mapM_surfaceValue] at h
      obtain ⟨t, -, h⟩ := bind_eq_ok.mp h
      cases h
      rfl
    · rw [if_neg hline, if_neg hplane] at h
      cases h

end Drawings

section Components

variable {m : Mesh Float}

theorem component_eq_ok (hword : Scalar.isWord Float m.dofsPerNode = true) {i : ℕ}
    (hi : i < m.dofsPerNode) : m.component (.integer i) = .ok (i : ℤ) := by
  have hzero : Scalar.isWord Float 0 = true := isWord_iff.mpr ⟨by norm_num, by norm_num⟩
  have hi' : Scalar.isWord Float (i : ℤ) = true :=
    isWord_of_le_of_le hzero hword (by omega) (by omega)
  have hinteger : (Datum.integer (i : ℤ) : Datum Float).toInteger = .ok (i : ℤ) := by
    rw [Datum.toInteger, Datum.ofWord, if_pos hi']
  have hbelow : (Datum.integer (i : ℤ) : Datum Float).less? (.integer 0) = some false := by
    simp [Datum.less?, Datum.lessLeaf?, Datum.integer?]
  have hbefore : (Datum.integer (i : ℤ) : Datum Float).less? (.integer m.dofsPerNode) = some true := by
    simp [Datum.less?, Datum.lessLeaf?, Datum.integer?, hi]
  simp only [Mesh.component, hbelow, hbefore, hinteger]
  rfl

theorem allDofs_eq (m : Mesh Float) (ids : List ℤ) : m.allDofs ids = indices m.dofsPerNode ids := rfl

theorem nodeDof_eq_ok (hword : Scalar.isWord Float m.dofsPerNode = true)
    (hcapacity : checkCapacity (α := Float) 8 (max 1 ids.length * m.dofsPerNode) = .ok ())
    (hcomponent : ∀ i ∈ component, i < m.dofsPerNode) :
    m.nodeDof ids (.ofComponent component) =
      .ok (inWords Float (indicesOf m.dofsPerNode component ids)) := by
  have hfactor : m.checkFactor = .ok () := if_pos hword
  cases component with
  | none =>
    have hdofs : m.checkDofs ids = .ok () := bind_eq_ok.mpr ⟨(), hfactor, hcapacity⟩
    rw [Datum.ofComponent, nodeDof, hdofs, Except.map, allDofs_eq, indicesOf]
  | some i =>
    have hnumber := component_eq_ok hword (hcomponent i rfl)
    rw [Datum.ofComponent, nodeDof, hnumber, ok_bind, hfactor, ok_bind, indicesOf]
    · rfl
    · simp

end Components

/-- All that is found out about degrees of freedom by their indices, for all components or for one of
them: those of a list of nodes and of a condition, the marks of a selection, the values of a drawing
and the degrees of freedom of the cells. -/
structure NumbersDofs (m : Mesh Float) : Prop where
  nodeDof : ∀ component ids, (∀ i ∈ component, i < m.dofsPerNode) →
    checkCapacity (α := Float) 8 (max 1 ids.length * m.dofsPerNode) = .ok () →
    m.nodeDof ids (.ofComponent component) = .ok (inWords Float (indicesOf m.dofsPerNode component ids))
  essentialValues : ∀ component (c : Condition Float) time dofs values,
    c.component = .ofComponent component → c.essentialValues m time = .ok (dofs, values) →
    ∃ ids, m.getNodeIds c.tag = .ok ids ∧ dofs = indicesOf m.dofsPerNode component ids
  marks : ∀ tag mode component marks, m.getDof tag mode (.ofComponent component) = .ok marks →
    ∃ ids, m.Selects tag mode ids ∧ marks.length = m.dofs ∧
      ∀ k i, 1 ≤ k → k ≤ (m.nodes.length : ℤ) → i < m.dofsPerNode →
        marks[(Element.dofIndex m.dofsPerNode k i).toNat]? =
          some ((decide (k ∈ ids) && decide (∀ c ∈ component, i = c)) != (mode == "nonessential"))
  values : ∀ u i drawing, m.draw u (.integer (i : ℕ)) = .ok drawing → m.Shows (m.nodalValues u i) drawing
  cells : m.frozen = true → ∀ c ∈ m.cells, c.element.getDof = indices m.dofsPerNode c.element.nodeIds

theorem Reachable.numbersDofs {m : Mesh Float} (hm : m.Reachable)
    (hword : Scalar.isWord Float m.dofsPerNode = true) : m.NumbersDofs where
  nodeDof _ _ hcomponent hcapacity := nodeDof_eq_ok hword hcapacity hcomponent
  essentialValues _ _ _ _ _ hc h := dofs_of_essentialValues hc h
  marks _ _ _ _ h := marks_of_getDof hm h
  values _ _ _ h := values_of_draw h
  cells hfrozen c hc := by
    rw [Element.getDof_eq, ((hm.wellFormed.built hfrozen).isMade_of_mem hc).1.dofsPerNode_eq]
    rfl

end Mesh

/-- The degrees of freedom of an element at the places of a side are those of the side. -/
theorem Element.exists_side {e : Element Float} {s : ℤ} {nodes : List ℕ}
    (h : e.sideNodes s = .ok nodes) :
    ∃ (places : List ℕ) (side : Element Float), e.sideDof s = .ok (places.map Nat.cast) ∧
      e.buildSide s = .ok side ∧ (∀ p ∈ places, p < e.getDof.length) ∧
      side.getDof = places.map fun p => e.getDof.getD p 0 := by
  obtain ⟨f, hf⟩ := ElementData.exists_sideFamily (sideNodes_mem h)
  obtain ⟨side, hside⟩ := exists_buildSide hf h
  obtain ⟨nodes', hnodes, hmem, hdofs⟩ := getDof_side hside
  obtain rfl := Except.ok.inj (h.symm.trans hnodes)
  refine ⟨e.places nodes, side, ?_, hside, fun p hp => ?_, hdofs⟩
  · rw [sideDof_eq h, places, List.map_flatMap]
    simp only [List.map_map, Function.comp_def]
  · rw [length_getDof]
    exact lt_of_mem_places (Family.lt_of_mem_sides hmem).2 hp

/-- Index `(k - 1) * n + i` stands for component `i` of node `k`, one to one, wherever degrees of freedom
are listed, marked or looked up. Lists are computed in words, which changes nothing as long as the
nodes fit. The expansion of a list of nodes gives them back exactly if their products with `n` are
words; it turns the nodes up to `m` in any order into the degrees of freedom up to `m * n`. -/
theorem one_numbering {n : ℕ} (hn : 0 < n) (hword : Scalar.isWord Float n = true) :
    (Function.Bijective fun p : ℤ × Fin n => Element.dofIndex n p.1 p.2) ∧
    (∀ nodes : List ℤ, (∀ p i, i < n →
        (indices n nodes)[p * n + i]? = nodes[p]?.map fun k => Element.dofIndex n k i) ∧
      ((∀ k ∈ nodes, Fits n k) → inWords Float (indices n nodes) = indices n nodes)) ∧
    (∀ nodes : List ℤ, checkCapacity (α := Float) 8 (n * nodes.length) = .ok () →
      ∃ dofs, Dof.transform (α := Float) nodes n = .ok dofs ∧
        inWords Float (dofs.map (· - 1)) = inWords Float (indices n nodes) ∧
        (Dof.inverseTransform (α := Float) dofs n = .ok nodes ↔
          ∀ k ∈ nodes, Scalar.isWord Float (k * n) = true) ∧
        ∀ m : ℕ, nodes.Perm ((List.range m).map fun k : ℕ => (k : ℤ) + 1) →
          dofs.Perm ((List.range (m * n)).map fun k : ℕ => (k : ℤ) + 1)) ∧
    (∀ m : Mesh Float, m.Reachable → m.dofsPerNode = n → m.NumbersDofs) ∧
    (∀ e : Element Float, e.dofsPerNode = n → e.getDof = indices n e.nodeIds ∧
      ∀ s nodes, e.sideNodes s = .ok nodes → ∃ (places : List ℕ) (side : Element Float),
        e.sideDof s = .ok (places.map Nat.cast) ∧ e.buildSide s = .ok side ∧
          (∀ p ∈ places, p < e.getDof.length) ∧ side.getDof = places.map fun p => e.getDof.getD p 0) ∧
    ∀ e : ElementData Float, e.dofsPerNode = .integer n → e.nodeIds.length = e.family.nodeCount →
      checkCapacity (α := Float) 8 (n * e.family.nodeCount) = .ok () →
      e.getDof = .ok (inWords Float (indices n e.nodeIds)) ∧
      ∀ s nodes, e.sideNodes s = .ok nodes →
        ∃ (dofs : List ℤ) (places : List ℕ) (side : ElementData Float), e.getDof = .ok dofs ∧
          e.sideDof s = .ok (places.map Nat.cast) ∧ e.buildSide (.integer s) = .ok side ∧
          (∀ p ∈ places, p < dofs.length) ∧ side.getDof = .ok (places.map fun p => dofs.getD p 0) := by
  refine ⟨bijective_dofIndex hn, fun nodes => ⟨fun p i hi => getElem?_indices nodes p hi,
    inWords_indices_of_fits⟩, fun nodes hcapacity => ?_, fun m hm hmn => hm.numbersDofs (hmn ▸ hword),
    fun e he => ⟨?_, fun s nodes hs => Element.exists_side hs⟩, fun e he hids hcapacity =>
      ⟨ElementData.dofsOf_eq_ok he hword (by rw [hids]; exact hcapacity),
        fun s nodes hs => ElementData.getDof_side he hword hids hcapacity hs⟩⟩
  · have htransform := (transform_eq_ok_iff hword).mpr ⟨hcapacity, rfl⟩
    exact ⟨_, htransform, inWords_map_sub_one n nodes, inverseTransform_transform_iff hn hword htransform,
      fun m hnodes => transform_perm hword hnodes htransform⟩
  · rw [Element.getDof_eq, he]
    rfl

/-- Three nodes with two degrees of freedom each, and a line over two of them. -/
theorem one_numbering_of_three_nodes :
    (0 : ℕ) < 2 ∧ Scalar.isWord Float (2 : ℕ) = true ∧
      (∃ dofs, Dof.transform (α := Float) [3, 1, 2] 2 = .ok dofs ∧
        Dof.inverseTransform (α := Float) dofs 2 = .ok [3, 1, 2] ∧
        dofs.Perm [1, 2, 3, 4, 5, 6]) ∧
      ∃ m : Mesh Float, m.Reachable ∧ m.frozen = true ∧ m.dofsPerNode = 2 ∧ m.NumbersDofs := by
  have htwo : Scalar.isWord Float (2 : ℕ) = true := by decide
  obtain ⟨-, -, htransform, hmesh, -⟩ := one_numbering two_pos htwo
  obtain ⟨dofs, hdofs, -, hinverse, hperm⟩ := htransform [3, 1, 2] rfl
  have hline : (Mesh.ofLists (.integer 2) [[0], [1], [2]] [(.line2, [1, 3])] : Mesh Float).Reachable :=
    Mesh.reachable_ofLists _ (by simp) (by simp [Family.nodeCount])
  exact ⟨two_pos, htwo, ⟨dofs, hdofs, hinverse.mpr (by decide), hperm 3 (by decide)⟩, _,
    hline.step (.freeze _), rfl, rfl, hmesh _ (hline.step (.freeze _)) rfl⟩

/-- A node whose product with the number of its degrees of freedom is no word is not found again. -/
theorem long_node_is_lost :
    Dof.transform (α := Float) [4611686018427387904] 4 = .ok [-3, -2, -1, 0] ∧
      Dof.inverseTransform (α := Float) [-3, -2, -1, 0] 4 = .ok [0] ∧
      ([0] : List ℤ) ≠ [4611686018427387904] :=
  ⟨rfl, rfl, by decide⟩

end WeakForm
