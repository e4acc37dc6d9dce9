import Mathlib
import WeakForm.Proofs.RealScalar
import WeakForm.Proofs.Mesh.Reachable

/-!
# The life of a mesh

A mesh is built by calls in any order, some of which fail. Until it is frozen, only the nodes and the
elements that it has accepted and its present space matter: what a failed attempt to freeze it leaves
behind is found anew by the next one. Once it is frozen, it refuses every further call.
-/

namespace WeakForm

namespace Mesh

/-- A call on a mesh that is being built. The space of a mesh may be replaced at any time. -/
inductive BuildCall (α : Type) where
  | node (coord : Datum α)
  | element (family : String) (nodeIds : Datum α)
  | space (replacement : Datum α)
  | freeze

variable {α : Type} [Scalar α]

namespace BuildCall

/-- The outcome of a call, and the mesh after it. -/
def run (m : Mesh α) : BuildCall α → Except (Error α) Unit × Mesh α
  | node coord =>
    match m.addNodeData coord with
    | .error e => (.error e, m)
    | .ok m' => (.ok (), m')
  | element family nodeIds =>
    match m.addElementData family nodeIds with
    | .error e => (.error e, m)
    | .ok m' => (.ok (), m')
  | space replacement => (.ok (), { m with space := replacement })
  | freeze => m.freeze

/-- The node that a call adds if it succeeds. -/
def node? : BuildCall α → Option (List α)
  | node coord => coord.toReals.toOption.map fun c => c.data.toList
  | _ => none

/-- The element that a call adds if it succeeds. -/
def element? : BuildCall α → Option (Family × List ℤ)
  | element family nodeIds => (Family.ofName? family).bind fun f =>
    nodeIds.toIntegers.toOption.map fun ids => (f, ids)
  | _ => none

/-- Whether a call does more than to replace the space. -/
def Builds : BuildCall α → Prop
  | space _ => False
  | _ => True

end BuildCall

/-- Makes calls one after the other: those that succeed, and the mesh after all of them. -/
def perform (m : Mesh α) : List (BuildCall α) → List (BuildCall α) × Mesh α
  | [] => ([], m)
  | call :: calls =>
    let rest := (call.run m).2.perform calls
    (if (call.run m).1.isOk then call :: rest.1 else rest.1, rest.2)

section Attempts

variable {m m' : Mesh α}

/-- An attempt to freeze a mesh finds out everything it needs. -/
theorem freeze_forgets (m : Mesh α) (dim n : ℕ) (coords : Option (DenseMatrix α)) :
    let m' := { m with dim := dim, dofsPerNode := n, coords := coords }
    m'.freeze.1 = m.freeze.1 ∧ (m.freeze.1 = .ok () → m'.freeze.2 = m.freeze.2) := by
  dsimp only
  unfold freeze
  split_ifs
  · exact ⟨rfl, nofun⟩
  · exact ⟨rfl, nofun⟩
  dsimp only
  cases Space.dofsPerNode m.space (nodeDim m.nodes) with
  | error e => exact ⟨rfl, nofun⟩
  | ok n =>
    dsimp only
    cases buildElements (coordinateMatrix m.nodes) n m.connectivity with
    | error e => exact ⟨rfl, nofun⟩
    | ok elements => exact ⟨rfl, fun _ => rfl⟩

/-- What an attempt that fails leaves behind. -/
theorem freeze_of_failure (h : m.freeze.2.frozen = false) : ∃ dim n coords,
    m.freeze.2 = { m with dim := dim, dofsPerNode := n, coords := coords } := by
  obtain ⟨e, dim, n, coords, hfreeze⟩ | ⟨-, -, -, n, elements, -, -, hfreeze⟩ := m.freeze_cases
  · rw [hfreeze]
    exact ⟨dim, n, coords, rfl⟩
  · rw [hfreeze] at h
    cases h

/-- A mesh that was frozen with success is frozen. -/
theorem frozen_of_freeze (h : m.freeze = (.ok (), m')) : m'.frozen = true := by
  obtain ⟨e, dim, n, coords, hfreeze⟩ | ⟨-, -, -, n, elements, -, -, hfreeze⟩ := m.freeze_cases
  · cases hfreeze.symm.trans h
  · cases hfreeze.symm.trans h
    rfl

theorem frozen_eq_false_of_freeze (h : m.freeze.1 = .ok ()) : m.frozen = false := by
  obtain ⟨e, dim, n, coords, hfreeze⟩ | ⟨hopen, -⟩ := m.freeze_cases
  · rw [hfreeze] at h
    cases h
  · exact hopen

end Attempts

section Frozen

variable {m : Mesh α}

/-- A frozen mesh refuses every call and stays as it is. -/
theorem BuildCall.run_of_frozen (h : m.frozen = true) (call : BuildCall α) (hcall : call.Builds) :
    call.run m = (.error .frozenMesh, m) := by
  cases call with
  | node coord => simp [run, addNodeData, checkOpen, h, bind, Except.bind]
  | element family nodeIds => simp [run, addElementData, checkOpen, h, bind, Except.bind]
  | space replacement => exact hcall.elim
  | freeze => exact freeze_of_frozen h

theorem BuildCall.frozen_run (h : m.frozen = true) (call : BuildCall α) : (call.run m).2.frozen = true := by
  cases call with
  | space replacement => exact h
  | node coord => rw [run_of_frozen h (.node coord) trivial]; exact h
  | element family nodeIds => rw [run_of_frozen h (.element family nodeIds) trivial]; exact h
  | freeze => rw [run_of_frozen h .freeze trivial]; exact h

theorem frozen_perform (h : m.frozen = true) (calls : List (BuildCall α)) :
    (m.perform calls).2.frozen = true := by
  induction calls generalizing m with
  | nil => exact h
  | cons call calls ih => exact ih (call.frozen_run h)

/-- No sequence of calls changes a frozen mesh. -/
theorem perform_of_frozen (h : m.frozen = true) {calls : List (BuildCall α)}
    (hcalls : ∀ call ∈ calls, call.Builds) : m.perform calls = ([], m) := by
  induction calls with
  | nil => rfl
  | cons call calls ih =>
    obtain ⟨hcall, hcalls⟩ := List.forall_mem_cons.mp hcalls
    simp only [perform, call.run_of_frozen h hcall, ih hcalls]
    rfl

end Frozen

section Drafts

variable {m m' : Mesh α} {nodes : List (List α)} {connectivity : List (Family × List ℤ)}

/-- The mesh is as if the given nodes and elements had been given all at once, except for what
attempts to freeze it may have left behind. -/
def IsDraft (m : Mesh α) (nodes : List (List α)) (connectivity : List (Family × List ℤ)) : Prop :=
  ∃ dim n coords, m = { ofLists m.space nodes connectivity with
    dim := dim, dofsPerNode := n, coords := coords }

theorem addNodeData_eq_ok {coord : Datum α} (h : m.addNodeData coord = .ok m') :
    ∃ x, (BuildCall.node coord).node? = some x ∧ m' = { m with nodes := m.nodes ++ [x] } := by
  rw [addNodeData, bind_eq_ok] at h
  obtain ⟨⟨⟩, -, h⟩ := h
  obtain ⟨c, hc, h⟩ := bind_eq_ok.mp h
  obtain ⟨-, -, rfl⟩ := addNode_eq_ok h
  exact ⟨_, by rw [BuildCall.node?, hc]; rfl, rfl⟩

theorem addElementData_eq_ok {family : String} {nodeIds : Datum α}
    (h : m.addElementData family nodeIds = .ok m') :
    ∃ c, (BuildCall.element family nodeIds).element? = some c ∧
      m' = { m with connectivity := m.connectivity ++ [c] } := by
  rw [addElementData, bind_eq_ok] at h
  obtain ⟨⟨⟩, -, h⟩ := h
  split at h
  · cases h
  · rename_i f hf
    obtain ⟨ids, hids, h⟩ := bind_eq_ok.mp h
    obtain ⟨-, -, rfl⟩ := addElement_eq_ok h
    exact ⟨(f, ids), by rw [BuildCall.element?, hf, hids]; rfl, rfl⟩

omit [Scalar α] in
theorem isDraft_empty (space : Datum α) : (Mesh.empty space).IsDraft [] [] := ⟨0, 0, none, rfl⟩

/-- A call that does not freeze a draft adds its node or its element if it succeeds and nothing
otherwise. -/
theorem IsDraft.run (h : m.IsDraft nodes connectivity) {call : BuildCall α}
    (hopen : (call.run m).2.frozen = false) :
    (call.run m).2.IsDraft
      (nodes ++ if (call.run m).1.isOk then call.node?.toList else [])
      (connectivity ++ if (call.run m).1.isOk then call.element?.toList else []) := by
  obtain ⟨dim, n, coords, hm⟩ := h
  cases call with
  | node coord =>
    cases hcall : m.addNodeData coord with
    | error e =>
      simp only [BuildCall.run, hcall]
      exact ⟨dim, n, coords, by simpa [Except.isOk, Except.toBool] using hm⟩
    | ok m' =>
      obtain ⟨x, hx, rfl⟩ := addNodeData_eq_ok hcall
      simp only [BuildCall.run, hcall, hx]
      refine ⟨dim, n, coords, ?_⟩
      rw [hm]
      simp [ofLists, Mesh.empty, Except.isOk, Except.toBool, BuildCall.element?]
  | element family nodeIds =>
    cases hcall : m.addElementData family nodeIds with
    | error e =>
      simp only [BuildCall.run, hcall]
      exact ⟨dim, n, coords, by simpa [Except.isOk, Except.toBool] using hm⟩
    | ok m' =>
      obtain ⟨c, hc, rfl⟩ := addElementData_eq_ok hcall
      simp only [BuildCall.run, hcall, hc]
      refine ⟨dim, n, coords, ?_⟩
      rw [hm]
      simp [ofLists, Mesh.empty, Except.isOk, Except.toBool, BuildCall.node?]
  | space replacement =>
    refine ⟨dim, n, coords, ?_⟩
    rw [hm]
    simp [BuildCall.run, ofLists, Mesh.empty, Except.isOk, Except.toBool, BuildCall.node?, BuildCall.element?]
  | freeze =>
    obtain ⟨dim', n', coords', hfreeze⟩ := freeze_of_failure hopen
    simp only [BuildCall.node?, BuildCall.element?, Option.toList_none, ite_self, List.append_nil]
    refine ⟨dim', n', coords', ?_⟩
    rw [BuildCall.run, hfreeze, hm]
    simp [ofLists, Mesh.empty]

/-- Calls that leave a draft open have added the nodes and elements of those that succeeded. -/
theorem IsDraft.perform (h : m.IsDraft nodes connectivity) {calls : List (BuildCall α)}
    (hopen : (m.perform calls).2.frozen = false) :
    (m.perform calls).2.IsDraft (nodes ++ (m.perform calls).1.filterMap BuildCall.node?)
      (connectivity ++ (m.perform calls).1.filterMap BuildCall.element?) := by
  induction calls generalizing m nodes connectivity with
  | nil => simpa [Mesh.perform] using h
  | cons call calls ih =>
    have hcall : (call.run m).2.frozen = false := by
      by_contra hfrozen
      rw [Mesh.perform, frozen_perform (by simpa using hfrozen)] at hopen
      cases hopen
    have hrest := ih (h.run hcall) hopen
    simp only [Mesh.perform]
    cases hok : (call.run m).1.isOk with
    | false => simpa [hok] using hrest
    | true =>
      cases hnode : call.node? <;> cases helement : call.element? <;>
        simpa [hok, hnode, helement] using hrest

theorem IsDraft.freeze_eq (h : m.IsDraft nodes connectivity) :
    m.freeze.1 = (ofLists m.space nodes connectivity).freeze.1 ∧
      (m.freeze.1 = .ok () → m.freeze.2 = (ofLists m.space nodes connectivity).freeze.2) := by
  obtain ⟨dim, n, coords, hm⟩ := h
  obtain ⟨houtcome, hmesh⟩ := freeze_forgets (ofLists m.space nodes connectivity) dim n coords
  rw [← hm] at houtcome hmesh
  exact ⟨houtcome, fun hok => hmesh (houtcome ▸ hok)⟩

end Drafts

/-- Let two meshes be built by calls some of which fail, and let both have accepted the same nodes in
the same order, the same elements in the same order, and come to the same space. If one of them is then
frozen, so can be the other as long as it is open, and both are the same mesh, that of the accepted
nodes and elements given all at once. From then on it refuses every call and stays as it is. -/
theorem frozen_mesh_of_calls {space space' : Datum α} {calls calls' : List (BuildCall α)} {m : Mesh α}
    (hnodes : ((empty space).perform calls).1.filterMap BuildCall.node? =
      ((empty space').perform calls').1.filterMap BuildCall.node?)
    (helements : ((empty space).perform calls).1.filterMap BuildCall.element? =
      ((empty space').perform calls').1.filterMap BuildCall.element?)
    (hspace : ((empty space).perform calls).2.space = ((empty space').perform calls').2.space)
    (hfreeze : ((empty space).perform calls).2.freeze = (.ok (), m)) :
    (∀ m', ((empty space').perform calls').2.freeze = (.ok (), m') → m' = m) ∧
      (((empty space').perform calls').2.frozen = false →
        ((empty space').perform calls').2.freeze.1 = .ok ()) ∧
      (ofLists ((empty space).perform calls).2.space
        (((empty space).perform calls).1.filterMap BuildCall.node?)
        (((empty space).perform calls).1.filterMap BuildCall.element?)).freeze = (.ok (), m) ∧
      m.frozen = true ∧ (∀ call : BuildCall α, call.Builds → call.run m = (.error .frozenMesh, m)) ∧
      ∀ later : List (BuildCall α), (∀ call ∈ later, call.Builds) → m.perform later = ([], m) := by
  have hfrozen := frozen_of_freeze hfreeze
  have hdraft := (isDraft_empty space).perform (frozen_eq_false_of_freeze (by rw [hfreeze]))
  obtain ⟨houtcome, hmesh⟩ := hdraft.freeze_eq
  rw [List.nil_append, List.nil_append, hfreeze] at houtcome hmesh
  have hmesh := hmesh rfl
  refine ⟨fun m' hfreeze' => ?_, fun hopen' => ?_, Prod.ext houtcome.symm hmesh.symm, hfrozen,
    fun call hcall => call.run_of_frozen hfrozen hcall,
    fun later hlater => perform_of_frozen hfrozen hlater⟩
  · have hdraft' := (isDraft_empty space').perform (frozen_eq_false_of_freeze (by rw [hfreeze']))
    have hmesh' := hdraft'.freeze_eq.2 (by rw [hfreeze'])
    rw [List.nil_append, List.nil_append, ← hnodes, ← helements, ← hspace, hfreeze'] at hmesh'
    exact hmesh'.trans hmesh.symm
  · have houtcome' := ((isDraft_empty space').perform hopen').freeze_eq.1
    rw [List.nil_append, List.nil_append, ← hnodes, ← helements, ← hspace] at houtcome'
    exact houtcome'.trans houtcome.symm

/-- A line whose element is given before its nodes, with three attempts to freeze it in between: without
nodes, without a space and without the second node. -/
theorem frozen_mesh_of_calls_for_line :
    let calls : List (BuildCall ℝ) := [.element "Line2" (.list [.integer 1, .integer 2]), .freeze,
      .node (.list [.real 0]), .freeze, .space (.integer 1), .freeze, .node (.list []),
      .element "Line9" .null, .node (.list [.real 1])]
    let calls' : List (BuildCall ℝ) := [.node (.real 0), .node (.real 1),
      .element "line2" (.list [.integer 1, .integer 2])]
    ∃ m, ((empty .null).perform calls).2.freeze = (.ok (), m) ∧
      ((empty (.integer 1)).perform calls').2.freeze = (.ok (), m) := by
  intro calls calls'
  have hnodes : ((empty .null).perform calls).1.filterMap BuildCall.node? = [[0], [1]] := by cbv
  have helements : ((empty .null).perform calls).1.filterMap BuildCall.element? = [(.line2, [1, 2])] := by cbv
  have hnodes' : ((empty (.integer 1)).perform calls').1.filterMap BuildCall.node? = [[0], [1]] := by cbv
  have helements' : ((empty (.integer 1)).perform calls').1.filterMap BuildCall.element? =
      [(.line2, [1, 2])] := by cbv
  have hspace : ((empty .null).perform calls).2.space = .integer 1 := by cbv
  have hspace' : ((empty (.integer 1)).perform calls').2.space = .integer 1 := by cbv
  have hopen : ((empty .null).perform calls).2.frozen = false := by cbv
  have hopen' : ((empty (.integer 1)).perform calls').2.frozen = false := by cbv
  have hfreeze : ((empty .null).perform calls).2.freeze.1 = .ok () := by
    rw [((isDraft_empty _).perform hopen).freeze_eq.1, List.nil_append, List.nil_append, hnodes, helements,
      hspace]
    rfl
  obtain ⟨hsame, hok, -⟩ := frozen_mesh_of_calls (hnodes.trans hnodes'.symm)
    (helements.trans helements'.symm) (hspace.trans hspace'.symm) (Prod.ext hfreeze rfl)
  have hfreeze' : ((empty (.integer 1)).perform calls').2.freeze =
      (.ok (), ((empty (.integer 1)).perform calls').2.freeze.2) := Prod.ext (hok hopen') rfl
  exact ⟨_, Prod.ext hfreeze rfl, hsame _ hfreeze' ▸ hfreeze'⟩

end Mesh
end WeakForm
