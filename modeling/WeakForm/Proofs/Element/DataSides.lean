import WeakForm.Element.Data
import WeakForm.Proofs.Outcome
import WeakForm.Proofs.Mesh.Elements
import WeakForm.Proofs.Tensor.Products

/-!
# Sides of elements from data

An element in the strict sense may be taken as one that is given by data. Its sides and their normals are
the same then.
-/

namespace WeakForm

variable {α : Type}

theorem DenseMatrix.ofFn_congr [Zero α] {m n : ℕ} {f g : ℕ → ℕ → α}
    (h : ∀ i < m, ∀ j < n, f i j = g i j) : DenseMatrix.ofFn m n f = .ofFn m n g := by
  refine ext rfl rfl fun i j hi hj => ?_
  rw [rows_ofFn] at hi
  rw [cols_ofFn] at hj
  rw [entry_ofFn f hi hj, entry_ofFn g hi hj, h i hi j hj]

namespace Tensor

theorem ofFn_single (n : ℕ) (f : List ℕ → α) :
    ofFn [n] f = ofArray ((List.range n).map fun j => f [j]).toArray := by
  apply ext
  · simp [ofFn, ofArray]
  · apply Array.ext
    · simp [ofFn, ofArray, volume]
    · intro k _ _
      simp [ofFn, ofArray, volume, unravel]

theorem zipWith_ofArray [Zero α] (f : α → α → α) {xs ys : List α} (h : xs.length = ys.length) :
    zipWith f (ofArray xs.toArray) (ofArray ys.toArray) =
      some (ofArray (List.zipWith f xs ys).toArray) := by
  have hshape : (ofArray xs.toArray).shape = (ofArray ys.toArray).shape := by simp [ofArray, h]
  rw [zipWith, dif_pos hshape]
  refine congrArg some (ext ?_ ?_)
  · simp [ofArray, h]
  · simp [ofArray]

/-- The entries of a matrix with one row. -/
theorem toList_ofMatrix_of_row [Zero α] {A : DenseMatrix α} (h : A.rows = 1) :
    (ofMatrix A).data.toList = A.row 0 := by
  rw [ofMatrix, A.toList_data, h]
  exact List.append_nil _

end Tensor

namespace Element

variable [Scalar α] {e side : Element α} {s : ℤ}

/-- What a side knows of its element. -/
theorem side_of_buildSide (h : e.buildSide s = .ok side) : ∃ places, e.sideNodes s = .ok places ∧
    side.side = some ⟨e.nodes.selectRows places, center e.nodes⟩ ∧
      (e.nodes.selectRows places).rows = side.family.nodeCount := by
  unfold buildSide at h
  split at h
  · cases h
  rename_i f hf
  split at h
  · cases h
  rename_i places hplaces
  cases h
  exact ⟨places, hplaces, rfl, sideNodes_length hf hplaces⟩

end Element

namespace ElementData

open Tensor (ofMatrix ofArray)

theorem slice_ofMatrix [Scalar α] (A : DenseMatrix α) (k : ℕ) :
    slice (ofMatrix A) k = ofArray (A.row k).toArray := by
  refine (Tensor.ofFn_single A.cols _).trans ?_
  congr 2
  exact List.map_congr_left fun j hj => Tensor.get_ofMatrix A k (List.mem_range.mp hj)

theorem slicesAt_ofMatrix [Scalar α] (A : DenseMatrix α) (places : List ℕ) :
    slicesAt (ofMatrix A) places = ofMatrix (A.selectRows places) := by
  refine (Tensor.ofFn_pair places.length A.cols _).trans ?_
  exact congrArg ofMatrix (DenseMatrix.ofFn_congr fun i _ j hj => Tensor.get_ofMatrix A _ hj)

theorem center_ofMatrix [Scalar α] (A : DenseMatrix α) :
    center (ofMatrix A) = ofArray (Element.center A).toArray := by
  change Tensor.ofFn [A.cols]
    (fun is => sumTo A.rows (fun i => (ofMatrix A).get (i :: is)) / (A.rows : α)) = _
  rw [Tensor.ofFn_single]
  congr 2
  refine List.map_congr_left fun j hj => ?_
  have hentry : (fun i => (ofMatrix A).get (i :: [j])) = fun i => A.entry i j :=
    funext fun i => Tensor.get_ofMatrix A i (List.mem_range.mp hj)
  rw [hentry]

theorem arcLengths_ofMatrix [Scalar α] {f : Family} {A : DenseMatrix α} (h : A.rows = f.nodeCount)
    (hpoint : f.dim = 0 → f.nodeCount = 1) :
    arcLengths f (ofMatrix A) = ofMatrix (Element.arcLengths f A) := by
  change (if f.dim = 0 then _ else _) = _
  rw [Element.arcLengths]
  split_ifs with hdim
  · rw [h, hpoint hdim]
  · refine (Tensor.ofFn_pair A.rows 1 _).trans ?_
    refine congrArg ofMatrix (DenseMatrix.ofFn_congr fun i _ j _ => ?_)
    refine congrArg norm (List.map_congr_left fun k hk => ?_)
    have hentry (p : ℕ) : (ofMatrix A).get [p, k] = A.entry p k :=
      Tensor.get_ofMatrix A p (List.mem_range.mp hk)
    exact congrArg₂ (· - ·) (hentry i) (hentry 0)

variable [Scalar α] {e side : Element α} {s : ℤ}

/-- The sides of an element are those of the same element from data. -/
theorem buildSide_ofElement (h : e.buildSide s = .ok side) :
    (ofElement e).buildSide (.integer s) = .ok (ofElement side) := by
  have hfamily := Element.sideFamily_of_buildSide h
  unfold Element.buildSide at h
  split at h
  · cases h
  rename_i f hf
  split at h
  · cases h
  rename_i places hplaces
  cases h
  have hrows : (e.nodes.selectRows places).rows = f.nodeCount := Element.sideNodes_length hf hplaces
  have hpoint : f.dim = 0 → f.nodeCount = 1 := by
    cases f <;> decide
  have hnodes : (ofElement e).sideNodes s = .ok places := hplaces
  unfold buildSide
  split
  · rename_i hnone
    cases hf.symm.trans hnone
  rename_i g hg
  obtain rfl : f = g := Option.some.inj (hf.symm.trans hg)
  rw [Datum.toIndex]
  dsimp only [Datum.integer?]
  rw [ok_bind, hnodes, ok_bind]
  dsimp only [ofElement]
  rw [slicesAt_ofMatrix, center_ofMatrix, arcLengths_ofMatrix hrows hpoint]
  rfl

/-- The normal of a side with a single node, or with two nodes in the plane, is that of the side from
data, at whatever points. -/
theorem normal_ofElement (h : e.buildSide s = .ok side)
    (hf : side.family = .point ∨ side.family = .line2) (ξ : Tensor α) (x : List α) :
    (ofElement side).normal ξ = (side.normal x).map fun n => ofArray n.toArray := by
  obtain ⟨places, -, hside, hrows⟩ := Element.side_of_buildSide h
  have hlength : ((e.nodes.selectRows places).row 0).length = (Element.center e.nodes).length := by
    simp [DenseMatrix.row, DenseMatrix.selectRows, Element.center]
  have hdata : (ofElement side).side =
      some ⟨ofMatrix (e.nodes.selectRows places), ofArray (Element.center e.nodes).toArray⟩ := by
    rw [ofElement, hside]
    rfl
  have hfamily : (ofElement side).family = side.family := rfl
  unfold normal Element.normal
  rw [hdata, hside, hfamily]
  generalize Element.center e.nodes = center at hlength
  generalize e.nodes.selectRows places = P at hlength hrows
  dsimp only
  rcases hf with hf | hf
  · have hpoint : Family.point.dim = 0 := rfl
    rw [hf, if_pos hpoint, if_pos hpoint, slice_ofMatrix, Tensor.zipWith_ofArray _ hlength]
    refine congrArg Except.ok ((Tensor.map_ofArray _ _).trans ?_)
    rw [List.map_toArray]
    rfl
  · have hline : Family.line2.dim ≠ 0 := by decide
    have hcols : (ofMatrix P).shape.getD 1 0 = P.cols := rfl
    rw [hf] at hrows
    rw [hf, if_neg hline, if_neg hline, hcols]
    split_ifs with hplane
    · let T := (DenseMatrix.ofRows 2 Basis.line2Gradient).mul P
      have hproduct : (ofMatrix (.ofRows 2 Basis.line2Gradient)).mul? (ofMatrix P) = some (ofMatrix T) :=
        (Tensor.mul?_ofMatrix _ _).trans (if_pos hrows.symm)
      have hrow : (ofMatrix T).data.toList = T.row 0 := Tensor.toList_ofMatrix_of_row rfl
      have hentries : T.row 0 = [T.entry 0 0, T.entry 0 1] := by
        change (List.range P.cols).map _ = _
        rw [hplane.2]
        rfl
      have hentry (k : ℕ) : (ofMatrix T).data[k]? = (T.row 0)[k]? := by
        rw [← hrow, Array.getElem?_toList]
      have hgradient : Family.line2.localGradientOver ξ =
          .ok (ofMatrix (.ofRows 2 (Basis.line2Gradient (α := α)))) := rfl
      have hgradient' : Family.line2.localGradient x = .ok (.ofRows 2 (Basis.line2Gradient (α := α))) := rfl
      rw [hgradient, ok_bind, hproduct, hgradient']
      simp only [orShapeMismatch, ok_bind, hentry, hrow]
      change _ = Except.ok (ofArray [(T.row 0).getD 1 0 / norm (T.row 0),
        -(T.row 0).getD 0 0 / norm (T.row 0)].toArray)
      rw [hentries]
      rfl
    · rfl

end ElementData
end WeakForm
