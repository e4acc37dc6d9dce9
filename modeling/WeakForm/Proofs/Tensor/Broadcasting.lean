import WeakForm.Proofs.Tensor.Products

/-!
# Arrays that are repeated

A shape fits another one if, read from the last axis, each of its lengths is one or that of the
other, which may have more axes. The common shape of two shapes is the least one that both of them
fit. An array can be read at the indices of every shape that its own one fits, and two arrays are
combined entry by entry there.
-/

namespace WeakForm
namespace Tensor

/-- Lengths that may be repeated to others. Both lists start with the last axis. -/
inductive FitsReversed : List ℕ → List ℕ → Prop
  | nil (t : List ℕ) : FitsReversed [] t
  | cons {m n : ℕ} {s t : List ℕ} (hm : m = n ∨ m = 1) (h : FitsReversed s t) :
      FitsReversed (m :: s) (n :: t)

/-- An array of the first shape may be repeated to the second one. -/
def Fits (s t : List ℕ) : Prop := FitsReversed s.reverse t.reverse

/-- Every index is less than the length of its axis. -/
def InShape (shape indices : List ℕ) : Prop := List.Forall₂ (fun n i => i < n) shape indices

section Shapes

variable {s t u : List ℕ}

namespace FitsReversed

theorem refl (s : List ℕ) : FitsReversed s s := by
  induction s with
  | nil => exact .nil []
  | cons m s ih => exact .cons (.inl rfl) ih

theorem trans (hst : FitsReversed s t) (htu : FitsReversed t u) : FitsReversed s u := by
  induction hst generalizing u with
  | nil t => exact .nil u
  | cons hm _ ih =>
    cases htu with
    | cons hn htu =>
      refine .cons ?_ (ih htu)
      rcases hm with rfl | rfl
      · exact hn
      · exact .inr rfl

theorem antisymm (hst : FitsReversed s t) (hts : FitsReversed t s) : s = t := by
  induction hst with
  | nil t =>
    cases hts
    rfl
  | cons hm _ ih =>
    cases hts with
    | cons hn hts =>
      rw [ih hts]
      congr 1
      omega

theorem length_le (h : FitsReversed s t) : s.length ≤ t.length := by
  induction h with
  | nil t => exact Nat.zero_le _
  | cons _ _ ih => exact Nat.succ_le_succ ih

/-- The common shape is one that both shapes fit. -/
theorem of_broadcastReversed {r : List ℕ} (h : broadcastReversed s t = some r) :
    FitsReversed s r ∧ FitsReversed t r := by
  induction s, t using broadcastReversed.induct generalizing r with
  | case1 t =>
    cases h
    exact ⟨.nil t, refl t⟩
  | case2 s hs =>
    obtain ⟨m, s, rfl⟩ := List.exists_cons_of_ne_nil hs
    cases h
    exact ⟨refl _, .nil _⟩
  | case3 m s n t hmn ih =>
    rw [broadcastReversed, if_pos hmn] at h
    obtain ⟨r, hr, rfl⟩ := Option.map_eq_some_iff.mp h
    exact ⟨.cons (.inl rfl) (ih hr).1, .cons (hmn.imp_left Eq.symm) (ih hr).2⟩
  | case4 s n t hmn ih =>
    rw [broadcastReversed, if_neg hmn, if_pos rfl] at h
    obtain ⟨r, hr, rfl⟩ := Option.map_eq_some_iff.mp h
    exact ⟨.cons (.inr rfl) (ih hr).1, .cons (.inl rfl) (ih hr).2⟩
  | case5 m s n t hmn hm =>
    rw [broadcastReversed, if_neg hmn, if_neg hm] at h
    cases h

/-- Shapes that fit a shape have a common one, and it fits that shape, too. -/
theorem exists_broadcastReversed (hs : FitsReversed s u) (ht : FitsReversed t u) :
    ∃ r, broadcastReversed s t = some r ∧ FitsReversed r u := by
  induction hs generalizing t with
  | nil u => exact ⟨t, rfl, ht⟩
  | @cons m k s u hm hs ih =>
    cases ht with
    | nil => exact ⟨m :: s, rfl, .cons hm hs⟩
    | @cons n _ t _ hn ht =>
      obtain ⟨r, hr, hru⟩ := ih ht
      rw [broadcastReversed]
      by_cases hmn : m = n ∨ n = 1
      · exact ⟨m :: r, by rw [if_pos hmn, hr]; rfl, .cons hm hru⟩
      · have hm1 : m = 1 := by omega
        exact ⟨n :: r, by rw [if_neg hmn, if_pos hm1, hr]; rfl, .cons hn hru⟩

end FitsReversed

namespace Fits

theorem refl (s : List ℕ) : Fits s s := FitsReversed.refl _

theorem trans (hst : Fits s t) (htu : Fits t u) : Fits s u := FitsReversed.trans hst htu

theorem antisymm (hst : Fits s t) (hts : Fits t s) : s = t :=
  List.reverse_injective (FitsReversed.antisymm hst hts)

theorem length_le (h : Fits s t) : s.length ≤ t.length := by
  simpa using FitsReversed.length_le h

theorem of_broadcastShape {r : List ℕ} (h : broadcastShape s t = some r) : Fits s r ∧ Fits t r := by
  obtain ⟨r, hr, rfl⟩ := Option.map_eq_some_iff.mp h
  have hfits := FitsReversed.of_broadcastReversed hr
  unfold Fits
  rwa [List.reverse_reverse]

theorem exists_broadcastShape (hs : Fits s u) (ht : Fits t u) :
    ∃ r, broadcastShape s t = some r ∧ Fits r u := by
  obtain ⟨r, hr, hru⟩ := FitsReversed.exists_broadcastReversed hs ht
  refine ⟨r.reverse, by rw [broadcastShape, hr]; rfl, ?_⟩
  unfold Fits
  rwa [List.reverse_reverse]

end Fits

end Shapes

section Indices

variable {s t u is : List ℕ}

/-- Where an array is read that is repeated. Both lists start with the last axis. -/
def projectReversed (shape indices : List ℕ) : List ℕ :=
  List.zipWith (fun n i => if n = 1 then 0 else i) shape indices

theorem projectReversed_eq_self (h : InShape s is) : projectReversed s is = is := by
  induction h with
  | nil => rfl
  | @cons n i s is hi _ ih =>
    rw [projectReversed, List.zipWith_cons_cons, ← projectReversed, ih]
    congr 1
    split_ifs <;> omega

theorem projectReversed_twice (h : FitsReversed s t) (is : List ℕ) :
    projectReversed s (projectReversed t is) = projectReversed s is := by
  induction h generalizing is with
  | nil t => simp [projectReversed]
  | @cons m n s t hm _ ih =>
    cases is with
    | nil => simp [projectReversed]
    | cons i is =>
      have htail := ih is
      simp only [projectReversed, List.zipWith_cons_cons, List.cons.injEq] at htail ⊢
      refine ⟨?_, htail⟩
      rcases hm with rfl | rfl
      · split_ifs <;> rfl
      · exact (if_pos rfl).trans (if_pos rfl).symm

theorem inShape_projectReversed (h : FitsReversed s t) (his : InShape t is) :
    InShape s (projectReversed s is) := by
  induction h generalizing is with
  | nil t => exact .nil
  | cons hm _ ih =>
    cases his with
    | cons hi his =>
      refine .cons ?_ (ih his)
      dsimp only
      rcases hm with rfl | rfl <;> split_ifs <;> omega

theorem inShape_reverse : InShape s.reverse is.reverse ↔ InShape s is := List.forall₂_reverse_iff

theorem InShape.length_eq (h : InShape s is) : s.length = is.length := List.Forall₂.length_eq h

/-- Leading indices beyond the axes of the array do not matter. -/
theorem project_eq_reverse (h : s.length ≤ is.length) :
    project s is = (projectReversed s.reverse is.reverse).reverse := by
  have hdrop : is.reverse = (is.drop (is.length - s.length)).reverse ++
      (is.take (is.length - s.length)).reverse := by
    rw [← List.reverse_append, List.take_append_drop]
  have hlength : s.reverse.length = (is.drop (is.length - s.length)).reverse.length := by
    simp only [List.length_reverse, List.length_drop]
    omega
  rw [projectReversed, hdrop, ← List.append_nil s.reverse, List.zipWith_append hlength,
    List.zipWith_nil_left, List.append_nil, ← List.reverse_zipWith (by simpa using hlength),
    List.reverse_reverse]
  rfl

theorem project_eq_self (h : InShape s is) : project s is = is := by
  rw [project_eq_reverse h.length_eq.le, projectReversed_eq_self (inShape_reverse.mpr h),
    List.reverse_reverse]

theorem inShape_project (h : Fits s t) (his : InShape t is) : InShape s (project s is) := by
  rw [project_eq_reverse (h.length_le.trans his.length_eq.le), ← inShape_reverse,
    List.reverse_reverse]
  exact inShape_projectReversed h (inShape_reverse.mpr his)

/-- An array that is repeated may be read step by step. -/
theorem project_twice (h : Fits s t) (htu : Fits t u) (his : InShape u is) :
    project s (project t is) = project s is := by
  have ht := htu.length_le.trans his.length_eq.le
  have hlength : (project t is).length = t.length := (inShape_project htu his).length_eq.symm
  rw [project_eq_reverse (h.length_le.trans hlength.ge), project_eq_reverse ht,
    List.reverse_reverse, projectReversed_twice h,
    project_eq_reverse (h.length_le.trans ht)]

theorem ravel_lt (h : InShape s is) : ravel s is < volume s := by
  induction h with
  | nil => exact Nat.one_pos
  | @cons n i s is hi _ ih =>
    calc i * volume s + ravel s is < i * volume s + volume s := Nat.add_lt_add_left ih _
      _ = (i + 1) * volume s := (Nat.succ_mul i (volume s)).symm
      _ ≤ n * volume s := Nat.mul_le_mul_right _ hi

theorem unravel_ravel (h : InShape s is) : unravel s (ravel s is) = is := by
  induction h with
  | nil => rfl
  | @cons n i s is _ his ih =>
    have hlt := ravel_lt his
    have hpos : 0 < volume s := Nat.zero_lt_of_lt hlt
    rw [unravel, ravel, Nat.mul_add_mod_of_lt hlt, ih, mul_comm, Nat.mul_add_div hpos,
      Nat.div_eq_of_lt hlt, add_zero]

/-- The indices of an entry are those of its number. -/
theorem unravel_spec {k : ℕ} (hk : k < volume s) :
    InShape s (unravel s k) ∧ ravel s (unravel s k) = k := by
  induction s generalizing k with
  | nil => exact ⟨.nil, (Nat.lt_one_iff.mp hk).symm⟩
  | cons n s ih =>
    have hpos : 0 < volume s := Nat.pos_of_mul_pos_left (Nat.zero_lt_of_lt hk)
    obtain ⟨hin, hravel⟩ := ih (Nat.mod_lt k hpos)
    refine ⟨.cons (Nat.div_lt_of_lt_mul ?_) hin, ?_⟩
    · rwa [mul_comm]
    · rw [unravel, ravel, hravel, Nat.div_add_mod']

end Indices

section Reading

variable {β γ δ : Type} [Zero β] [Zero γ] {shape is : List ℕ}

/-- The entry at the given indices of an array that is repeated. -/
def entryAt (t : Tensor β) (is : List ℕ) : β := t.get (project t.shape is)

theorem get_ofFn (f : List ℕ → β) (h : InShape shape is) : (ofFn shape f).get is = f is := by
  have hlt : ravel shape is < volume shape := ravel_lt h
  change (Array.ofFn _).getD (ravel shape is) 0 = _
  simp [Array.getD_eq_getD_getElem?, hlt, unravel_ravel h]

theorem entryAt_unravel (t : Tensor β) {k : ℕ} (hk : k < volume t.shape) :
    t.entryAt (unravel t.shape k) = t.data.getD k 0 := by
  obtain ⟨hin, hravel⟩ := unravel_spec hk
  rw [entryAt, project_eq_self hin, get, hravel]

theorem entryAt_ofArray (data : Array β) {i : ℕ} (hi : i < data.size) :
    (ofArray data).entryAt [i] = data.getD i 0 := by
  have hi : i < volume (ofArray data).shape := by simpa [ofArray, volume] using hi
  simpa [ofArray, unravel, volume] using (ofArray data).entryAt_unravel hi

/-- A number is combined with every entry. -/
theorem scalar_zipWith (f : β → γ → δ) (x : β) (t : Tensor γ) :
    zipWith f (scalar x) t = some (t.map (f x)) := by
  by_cases hshape : (scalar x).shape = t.shape
  · rw [zipWith, dif_pos hshape]
    refine congrArg some (ext hshape (Array.ext ?_ fun k hk _ => ?_))
    · simp [scalar, t.size_data, ← hshape, volume]
    · simp [scalar]
  · have hbroadcast : broadcastShape (scalar x).shape t.shape = some t.shape :=
      broadcastShape_nil_left t.shape
    rw [zipWith, dif_neg hshape, hbroadcast, Option.map_some]
    refine congrArg some (ext rfl (Array.ext ?_ fun k hk _ => ?_))
    · simp [ofFn, t.size_data]
    · have hk : k < volume t.shape := by simpa [ofFn] using hk
      have hdata : k < t.data.size := t.size_data ▸ hk
      have hentry : t.get (project t.shape (unravel t.shape k)) = t.data[k] := by
        refine (t.entryAt_unravel hk).trans ?_
        simp [hdata]
      have hscalar (is : List ℕ) : (scalar x).get is = x := rfl
      simp [ofFn, hentry, hscalar]

/-- Every entry is combined with a number. -/
theorem zipWith_scalar (f : β → γ → δ) (t : Tensor β) (y : γ) :
    zipWith f t (scalar y) = some (t.map fun x => f x y) := by
  by_cases hshape : t.shape = (scalar y).shape
  · rw [zipWith, dif_pos hshape]
    refine congrArg some (ext rfl (Array.ext ?_ fun k hk _ => ?_))
    · simp [scalar, t.size_data, hshape, volume]
    · simp [scalar]
  · have hbroadcast : broadcastShape t.shape (scalar y).shape = some t.shape :=
      broadcastShape_nil_right t.shape
    rw [zipWith, dif_neg hshape, hbroadcast, Option.map_some]
    refine congrArg some (ext rfl (Array.ext ?_ fun k hk _ => ?_))
    · simp [ofFn, t.size_data]
    · have hk : k < volume t.shape := by simpa [ofFn] using hk
      have hdata : k < t.data.size := t.size_data ▸ hk
      have hentry : t.get (project t.shape (unravel t.shape k)) = t.data[k] := by
        refine (t.entryAt_unravel hk).trans ?_
        simp [hdata]
      have hscalar (is : List ℕ) : (scalar y).get is = y := rfl
      simp [ofFn, hentry, hscalar]

theorem entryAt_map {f : β → γ} (h0 : f 0 = 0) (t : Tensor β) (is : List ℕ) :
    (t.map f).entryAt is = f (t.entryAt is) := get_map t h0 _

/-- Two arrays whose shapes fit a shape are combined to one whose shape fits it, too, entry by
entry. -/
theorem exists_zipWith (f : β → γ → δ) [Zero δ] {a : Tensor β} {b : Tensor γ}
    (ha : Fits a.shape shape) (hb : Fits b.shape shape) :
    ∃ c, zipWith f a b = some c ∧ Fits a.shape c.shape ∧ Fits b.shape c.shape ∧
      Fits c.shape shape ∧
      ∀ is, InShape shape is → c.entryAt is = f (a.entryAt is) (b.entryAt is) := by
  by_cases hshape : a.shape = b.shape
  · rw [zipWith, dif_pos hshape]
    refine ⟨_, rfl, .refl _, hshape ▸ .refl _, ha, fun is his => ?_⟩
    have hin : InShape a.shape (project a.shape is) := inShape_project ha his
    have hlt := ravel_lt hin
    have hadata : ravel a.shape (project a.shape is) < a.data.size := a.size_data ▸ hlt
    have hbdata : ravel a.shape (project a.shape is) < b.data.size := by
      rw [b.size_data, ← hshape]
      exact hlt
    simp only [entryAt, get, ← hshape, Array.getD_eq_getD_getElem?]
    simp [hadata, hbdata]
  · obtain ⟨r, hr, hru⟩ := ha.exists_broadcastShape hb
    obtain ⟨har, hbr⟩ := Fits.of_broadcastShape hr
    rw [zipWith, dif_neg hshape, hr]
    refine ⟨_, rfl, har, hbr, hru, fun is his => ?_⟩
    rw [entryAt]
    change (ofFn r _).get (project r is) = _
    rw [get_ofFn _ (inShape_project hru his), project_twice har hru his,
      project_twice hbr hru his]
    rfl

/-- The shape of two combined arrays is the least one that both of their shapes fit. -/
theorem fits_of_zipWith {f : β → γ → δ} {a : Tensor β} {b : Tensor γ} {c : Tensor δ}
    (h : zipWith f a b = some c) : Fits a.shape c.shape ∧ Fits b.shape c.shape := by
  unfold zipWith at h
  split_ifs at h with hshape
  · cases h
    exact ⟨.refl _, hshape ▸ .refl _⟩
  · obtain ⟨r, hr, rfl⟩ := Option.map_eq_some_iff.mp h
    exact Fits.of_broadcastShape hr

theorem fits_zipWith [Zero δ] {f : β → γ → δ} {a : Tensor β} {b : Tensor γ} {c : Tensor δ}
    (h : zipWith f a b = some c) (ha : Fits a.shape shape) (hb : Fits b.shape shape) :
    Fits c.shape shape := by
  obtain ⟨d, hd, -, -, hfits, -⟩ := exists_zipWith f ha hb
  exact Option.some.inj (h.symm.trans hd) ▸ hfits

end Reading

section Matrices

variable {β : Type} {s t : Tensor β} {A : DenseMatrix β}

/-- The lengths of an array with at least two axes, from the last axis on. -/
def paddedReversed : List ℕ → List ℕ
  | [] => [1, 1]
  | [n] => [n, 1]
  | m :: n :: shape => m :: n :: shape

theorem reverse_shape_atLeast2 (s : Tensor β) :
    s.atLeast2.shape.reverse = paddedReversed s.shape.reverse := by
  obtain ⟨shape, data, hsize⟩ := s
  match shape with
  | [] => rfl
  | [n] => rfl
  | m :: n :: shape =>
    have hlength : 2 ≤ (m :: n :: shape).reverse.length := by simp
    change (m :: n :: shape).reverse = paddedReversed (m :: n :: shape).reverse
    match (m :: n :: shape).reverse, hlength with
    | k :: l :: rest, _ => rfl

/-- With axes of length one in front a shape still fits what it fitted. -/
theorem fits_atLeast2 (h : Fits s.shape t.shape) : Fits s.atLeast2.shape t.atLeast2.shape := by
  unfold Fits at h ⊢
  rw [reverse_shape_atLeast2, reverse_shape_atLeast2]
  generalize s.shape.reverse = p at h
  generalize t.shape.reverse = q at h
  match p, q, h with
  | [], [], _ => exact .refl _
  | [], [n], _ => exact .cons (.inr rfl) (.refl _)
  | [], n :: k :: q, _ => exact .cons (.inr rfl) (.cons (.inr rfl) (.nil _))
  | [m], [n], .cons hm _ => exact .cons hm (.refl _)
  | [m], n :: k :: q, .cons hm _ => exact .cons hm (.cons (.inr rfl) (.nil _))
  | m :: l :: p, [n], .cons _ h => cases h
  | m :: l :: p, n :: k :: q, h => exact h

/-- An array that is read as a matrix is repeated to its size. -/
theorem entry_of_atLeast2 [Zero β] (h : t.atLeast2.toMatrix? = some A) :
    Fits t.shape [A.rows, A.cols] ∧
      ∀ i < A.rows, ∀ j < A.cols, A.entry i j = t.entryAt [i, j] := by
  obtain ⟨shape, data, hsize⟩ := t
  match shape with
  | [] =>
    cases h
    refine ⟨.nil _, fun i hi j hj => ?_⟩
    obtain rfl : i = 0 := Nat.lt_one_iff.mp hi
    obtain rfl : j = 0 := Nat.lt_one_iff.mp hj
    rfl
  | [n] =>
    cases h
    refine ⟨.cons (.inl rfl) (.nil _), fun i hi j hj => ?_⟩
    obtain rfl : i = 0 := Nat.lt_one_iff.mp hi
    have hj' : j < n := hj
    have hproject : project [n] [0, j] = [j] := by
      change [if n = 1 then 0 else j] = [j]
      congr 1
      split_ifs <;> omega
    rw [entryAt, hproject, DenseMatrix.entry, if_pos hj]
    change data.getD (0 * n + j) 0 = data.getD (j * 1 + 0) 0
    rw [zero_mul, zero_add, mul_one, add_zero]
  | [m, n] =>
    cases h
    refine ⟨.refl _, fun i hi j hj => ?_⟩
    exact (get_project_ofMatrix ⟨m, n, data, _⟩ hi hj).symm
  | l :: m :: n :: shape => cases h

/-- An array is a matrix of a given size if its shape lies between that of such an array and the
size. -/
theorem exists_toMatrix? (hs : s.atLeast2.toMatrix? = some A) (hst : Fits s.shape t.shape)
    (ht : Fits t.shape [A.rows, A.cols]) :
    ∃ B, t.atLeast2.toMatrix? = some B ∧ B.rows = A.rows ∧ B.cols = A.cols := by
  have hsize {u : Tensor β} {B : DenseMatrix β} (hu : u.toMatrix? = some B) :
      u.shape = [B.rows, B.cols] := by
    obtain ⟨shape, data, hdata⟩ := u
    match shape with
    | [m, n] =>
      cases hu
      rfl
  have hbelow : Fits [A.rows, A.cols] t.atLeast2.shape := hsize hs ▸ fits_atLeast2 hst
  have habove : Fits t.atLeast2.shape [A.rows, A.cols] :=
    fits_atLeast2 (t := ofMatrix A) ht
  have hshape := habove.antisymm hbelow
  obtain ⟨B, hB⟩ := exists_ofMatrix (t := t.atLeast2) (by rw [hshape]; rfl)
  rw [hB] at hshape ⊢
  have hshape : [B.rows, B.cols] = [A.rows, A.cols] := hshape
  exact ⟨B, rfl, by simpa using hshape⟩

end Matrices

end Tensor
end WeakForm
