import WeakForm.Element

/-!
# Sides

A side is an element of one dimension less with its own quadrature rule. Its nodes are placed on a
line by their distance from the first one. Sides are traversed counter clockwise, so their tangent
turned to the right points outward; an end point of a segment points away from its centre.
-/

namespace WeakForm

theorem Family.length_of_mem_sides {f g : Family} (hg : f.sideFamily = some g) {s : List Nat}
    (hs : s ∈ f.sides) : s.length = g.nodeCount := by
  cases f <;> simp only [Family.sideFamily, Option.some.injEq, reduceCtorEq] at hg <;>
    subst hg <;> simp only [Family.sides, List.mem_cons, List.not_mem_nil, or_false] at hs <;>
    rcases hs with rfl | rfl | rfl | rfl <;> rfl

namespace Element

variable {α : Type}

theorem sideNodes_mem {e : Element α} {s : Int} {nodes : List Nat}
    (h : e.sideNodes s = .ok nodes) : nodes ∈ e.family.sides := by
  unfold sideNodes at h
  split at h
  · rename_i l hl
    cases h
    obtain ⟨k, -, hk⟩ := Option.bind_eq_some_iff.mp hl
    exact List.mem_of_getElem? hk
  · cases h

theorem sideNodes_length {e : Element α} {s : Int} {nodes : List Nat} {f : Family}
    (hf : e.family.sideFamily = some f) (h : e.sideNodes s = .ok nodes) :
    nodes.length = f.nodeCount :=
  Family.length_of_mem_sides hf (sideNodes_mem h)

variable [Scalar α]

/-- The mean of the rows of a matrix. -/
def center (A : DenseMatrix α) : List α :=
  (List.range A.cols).map fun j => sumTo A.rows (fun i => A.entry i j) / (A.rows : α)

/-- The distances of points from the first of them, as a column; no columns for a single point. -/
def arcLengths (family : Family) (points : DenseMatrix α) : DenseMatrix α :=
  if family.dim = 0 then .zero points.rows 0
  else
    .ofFn points.rows 1 fun i _ =>
      norm ((List.range points.cols).map fun j => points.entry i j - points.entry 0 j)

theorem rows_arcLengths (family : Family) (points : DenseMatrix α) :
    (arcLengths family points).rows = points.rows := by
  unfold arcLengths
  split <;> rfl

/-- Side `s` of an element as an element. -/
def buildSide (e : Element α) (s : Int) : Except (Error α) (Element α) :=
  match hf : e.family.sideFamily with
  | none => .error (.noSides e.family)
  | some f =>
    match hs : e.sideNodes s with
    | .error err => .error err
    | .ok nodes =>
      let points := e.nodes.selectRows nodes
      .ok
        { id := e.id
          family := f
          nodes := arcLengths f points
          nodeIds := nodes.map fun k => e.nodeIds.getD k 0
          dofsPerNode := e.dofsPerNode
          side := some ⟨points, center e.nodes⟩
          rows_nodes := (rows_arcLengths f points).trans (sideNodes_length hf hs)
          length_nodeIds := (List.length_map _).trans (sideNodes_length hf hs) }

/-- The outward unit normal of a side. -/
def normal (e : Element α) (ξ : List α) : Except (Error α) (List α) :=
  match e.side with
  | none => .error .volumeNormal
  | some g =>
    if e.family.dim = 0 then
      let n := List.zipWith (· - ·) (g.nodes.row 0) g.parentCenter
      let length := norm n
      .ok (n.map (· / length))
    else if e.family.dim = 1 ∧ g.nodes.cols = 2 then
      (e.family.localGradient ξ).map fun G =>
        let t := (G.mul g.nodes).row 0
        let length := norm t
        [t.getD 1 0 / length, -(t.getD 0 0) / length]
    else .error (.unsupportedNormal e.family.dim g.nodes.cols)

end Element
end WeakForm
