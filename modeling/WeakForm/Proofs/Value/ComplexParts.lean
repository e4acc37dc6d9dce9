import Mathlib.Data.Complex.Basic
import Mathlib.Data.Part
import WeakForm.Proofs.Tensor.Products
import WeakForm.Proofs.Value.RealValues

/-!
# Numbers of any kind as complex ones

Over the reals every number stands for a complex one, and arithmetic on numbers is that of complex
ones, whatever their kinds are. Arrays multiply like arrays of complex numbers as soon as one of
them is of a kind that holds fractions.
-/

namespace WeakForm

/-- The complex number with the given parts. -/
def ComplexPair.toComplex (z : ComplexPair ℝ) : ℂ := ⟨z.re, z.im⟩

theorem ComplexPair.respectsSums_toComplex : RespectsSums ComplexPair.toComplex where
  map_zero := rfl
  map_add _ _ := rfl
  map_mul _ _ := rfl

theorem respectsSums_ofReal : RespectsSums Complex.ofReal where
  map_zero := Complex.ofReal_zero
  map_add := Complex.ofReal_add
  map_mul := Complex.ofReal_mul

namespace Number

/-- The complex number that a number stands for. -/
noncomputable def complexValue (x : Number ℝ) : ℂ := x.toComplex.toComplex

theorem complexValue_integer (n : ℤ) : (integer n : Number ℝ).complexValue = n :=
  Complex.ext rfl rfl

/-- Two numbers are matched as numbers of one kind that stand for the same complex ones. -/
theorem matched_spec (x y : Number ℝ) :
    (∃ m n : ℤ, matched x y = .ok (.integers m n) ∧ x.complexValue = m ∧ y.complexValue = n) ∨
      (∃ r s : ℝ, matched x y = .ok (.reals r s) ∧ x.complexValue = r ∧ y.complexValue = s) ∨
      ∃ z w : ComplexPair ℝ, matched x y = .ok (.complexes z w) ∧ x.complexValue = z.toComplex ∧
        y.complexValue = w.toComplex := by
  have hwhole (n : ℤ) : (integer n : Number ℝ).complexValue = ((n : ℝ) : ℂ) := rfl
  have hreal (r : ℝ) : (real r : Number ℝ).complexValue = r := rfl
  cases x <;> cases y
  all_goals first
    | exact .inl ⟨_, _, rfl, complexValue_integer _, complexValue_integer _⟩
    | exact .inr (.inl ⟨_, _, rfl, hwhole _, hreal _⟩)
    | exact .inr (.inl ⟨_, _, rfl, hreal _, hwhole _⟩)
    | exact .inr (.inl ⟨_, _, rfl, hreal _, hreal _⟩)
    | exact .inr (.inr ⟨_, _, rfl, rfl, rfl⟩)

theorem exists_add (x y : Number ℝ) :
    ∃ z, x.add y = .ok z ∧ z.complexValue = x.complexValue + y.complexValue := by
  unfold add
  rcases matched_spec x y with ⟨m, n, h, hm, hn⟩ | ⟨r, s, h, hr, hs⟩ | ⟨z, w, h, hz, hw⟩
  · exact ⟨integer (m + n), by rw [h]; rfl, by rw [complexValue_integer, hm, hn, Int.cast_add]⟩
  · exact ⟨real (r + s), by rw [h]; rfl, by rw [hr, hs]; exact Complex.ofReal_add r s⟩
  · exact ⟨complex (z + w), by rw [h]; rfl, by rw [hz, hw]; rfl⟩

theorem exists_mul (x y : Number ℝ) :
    ∃ z, x.mul y = .ok z ∧ z.complexValue = x.complexValue * y.complexValue := by
  unfold mul
  rcases matched_spec x y with ⟨m, n, h, hm, hn⟩ | ⟨r, s, h, hr, hs⟩ | ⟨z, w, h, hz, hw⟩
  · exact ⟨integer (m * n), by rw [h]; rfl, by rw [complexValue_integer, hm, hn, Int.cast_mul]⟩
  · exact ⟨real (r * s), by rw [h]; rfl, by rw [hr, hs]; exact Complex.ofReal_mul r s⟩
  · exact ⟨complex (z * w), by rw [h]; rfl, by rw [hz, hw]; rfl⟩

/-- A number that stands for a real one is its own real part. -/
theorem toReal_eq_ok {x : Number ℝ} {r : ℝ} (h : x.toReal = .ok r) : r = x.complexValue.re := by
  cases x <;> cases h <;> rfl

end Number

namespace Outcome

/-- The complex number that an outcome stands for, if it is no error. -/
noncomputable def complexValue? : Outcome ℝ → Part ℂ
  | .ok x => .some x.complexValue
  | .error _ => .none

theorem complexValue?_combine {f : Number ℝ → Number ℝ → Except (Error ℝ) (Number ℝ)}
    {g : ℂ → ℂ → ℂ}
    (h : ∀ x y, ∃ z, f x y = .ok z ∧ z.complexValue = g x.complexValue y.complexValue)
    (a b : Outcome ℝ) :
    (combine f a b).complexValue? = a.complexValue?.bind fun x => b.complexValue?.map (g x) := by
  cases a with
  | error e => exact (Part.bind_none _).symm
  | ok x =>
    cases b with
    | error e => simp [combine, complexValue?]
    | ok y =>
      obtain ⟨z, hz, hvalue⟩ := h x y
      simp [combine, complexValue?, hz, hvalue]

theorem respectsSums_complexValue? : RespectsSums complexValue? where
  map_zero := congrArg Part.some (Number.complexValue_integer 0 |>.trans Int.cast_zero)
  map_add a b := by
    rw [Part.add_def]
    exact complexValue?_combine Number.exists_add a b
  map_mul a b := complexValue?_combine Number.exists_mul a b

end Outcome

namespace Tensor

theorem map_injective {β γ : Type} {φ : β → γ} (hφ : Function.Injective φ) :
    Function.Injective (map φ) := by
  intro s t h
  have hshape : (s.map φ).shape = (t.map φ).shape := congrArg shape h
  have hdata : (s.map φ).data = (t.map φ).data := congrArg data h
  exact ext hshape ((Array.map_inj_right fun _ _ hxy => hφ hxy).mp hdata)

/-- The entries of a result of which none is an error. -/
theorem collect_eq_ok {β : Type} {t : Tensor (Except (Error ℝ) β)} {s : Tensor β}
    (h : t.collect = .ok s) : t = s.map .ok := by
  unfold collect at h
  obtain ⟨entries, hentries, h⟩ := bind_eq_ok.mp h
  have hs := orShapeMismatch_eq_ok.mp h
  have hall := mapM_eq_ok_iff.mp hentries
  have hdata : t.data.toList = entries.map .ok := by
    rw [← List.forall₂_eq_eq_eq, List.forall₂_map_right_iff]
    exact hall
  unfold reshape? at hs
  split_ifs at hs
  cases hs
  apply ext
  · rfl
  · apply Array.toList_inj.mp
    rw [hdata, data_map, Array.toList_map]
    rfl

end Tensor

namespace NumberKind

/-- Kinds whose numbers may be fractions. -/
def HoldsFractions (k : NumberKind) : Prop := k = .real ∨ k = .complex ∨ k = .mixed

theorem HoldsFractions.wider_left {k : NumberKind} (h : k.HoldsFractions) (l : NumberKind) :
    (k.wider l).HoldsFractions := by
  rcases h with rfl | rfl | rfl <;> cases l <;> simp [wider, rank, HoldsFractions]

end NumberKind

namespace NumberArray

variable {a b c : NumberArray ℝ}

/-- The complex numbers that the entries of an array stand for. -/
noncomputable def complexParts (a : NumberArray ℝ) : Tensor ℂ := a.numbers.map Number.complexValue

theorem complexParts_reals (t : Tensor ℝ) : (reals t).complexParts = t.map Complex.ofReal := by
  simp only [complexParts, numbers, Tensor.map_map]
  rfl

theorem complexParts_complexes (t : Tensor (ComplexPair ℝ)) :
    (complexes t).complexParts = t.map ComplexPair.toComplex := by
  simp only [complexParts, numbers, Tensor.map_map]
  rfl

theorem toComplexes_eq (a : NumberArray ℝ) :
    a.toComplexes.map ComplexPair.toComplex = a.complexParts := by
  cases a with
  | complexes t => exact (complexParts_complexes t).symm
  | _ =>
    simp only [toComplexes, complexParts, Tensor.map_map]
    rfl

theorem realParts_eq (h : a.kind ≠ .complex) (h' : a.kind ≠ .mixed) :
    a.realParts.map Complex.ofReal = a.complexParts := by
  cases a with
  | complexes t => exact absurd rfl h
  | mixed t => exact absurd rfl h'
  | reals t => exact (complexParts_reals t).symm
  | _ =>
    simp only [realParts, complexParts, numbers, Tensor.map_map]
    rfl

theorem respectsSums_some : RespectsSums (Part.some : ℂ → Part ℂ) where
  map_zero := rfl
  map_add x y := (Part.some_add_some x y).symm
  map_mul x y := (Part.some_mul_some x y).symm

/-- Sums and products of arrays are those of the complex numbers they stand for. -/
theorem combine_eq_ok
    {f : {β : Type} → [Zero β] → [Add β] → [Mul β] → Tensor β → Tensor β → Option (Tensor β)}
    (hf : ∀ {β γ : Type} [Zero β] [Add β] [Mul β] [Zero γ] [Add γ] [Mul γ] {φ : β → γ},
      RespectsSums φ → ∀ s t : Tensor β, f (s.map φ) (t.map φ) = (f s t).map (Tensor.map φ))
    (hwide : (a.kind.wider b.kind).HoldsFractions) (h : combine f a b = .ok c) :
    f a.complexParts b.complexParts = some c.complexParts ∧ c.kind.HoldsFractions := by
  unfold combine at h
  rcases hwide with hkind | hkind | hkind
  · rw [hkind] at h
    obtain ⟨t, ht, rfl⟩ := Option.map_eq_some_iff.mp (orShapeMismatch_eq_ok.mp h)
    have ht : f a.realParts b.realParts = some t := ht
    have hreal : (a.kind ≠ .complex ∧ a.kind ≠ .mixed) ∧ b.kind ≠ .complex ∧ b.kind ≠ .mixed := by
      revert hkind
      cases a.kind <;> cases b.kind <;> simp [NumberKind.wider, NumberKind.rank]
    rw [← realParts_eq hreal.1.1 hreal.1.2, ← realParts_eq hreal.2.1 hreal.2.2,
      hf respectsSums_ofReal, ht, complexParts_reals]
    exact ⟨rfl, .inl rfl⟩
  · rw [hkind] at h
    obtain ⟨t, ht, rfl⟩ := Option.map_eq_some_iff.mp (orShapeMismatch_eq_ok.mp h)
    have ht : f a.toComplexes b.toComplexes = some t := ht
    rw [← toComplexes_eq a, ← toComplexes_eq b, hf ComplexPair.respectsSums_toComplex, ht,
      complexParts_complexes]
    exact ⟨rfl, .inr (.inl rfl)⟩
  · rw [hkind] at h
    obtain ⟨t, ht, h⟩ := bind_eq_ok.mp h
    obtain ⟨entries, hentries, h⟩ := bind_eq_ok.mp h
    cases h
    have ht : f a.outcomes b.outcomes = some t := orShapeMismatch_eq_ok.mp ht
    refine ⟨?_, .inr (.inr rfl)⟩
    -- outcomes without errors are complex numbers with a value
    have hvalue (a : NumberArray ℝ) :
        a.outcomes.map Outcome.complexValue? = a.complexParts.map Part.some :=
      (Tensor.map_map _ a.numbers _).trans
        (Tensor.map_map Number.complexValue a.numbers Part.some).symm
    have hsum : t = (mixed entries).outcomes := Tensor.collect_eq_ok hentries
    have houtcomes := hf Outcome.respectsSums_complexValue? a.outcomes b.outcomes
    rw [ht, hsum, hvalue, hvalue, hf respectsSums_some, Option.map_some, hvalue] at houtcomes
    obtain ⟨u, hu, heq⟩ := Option.map_eq_some_iff.mp houtcomes
    rw [hu, Tensor.map_injective Part.some_injective heq]

theorem mul_eq_ok (hwide : (a.kind.wider b.kind).HoldsFractions) (h : a.mul b = .ok c) :
    a.complexParts.mul? b.complexParts = some c.complexParts ∧ c.kind.HoldsFractions :=
  combine_eq_ok (fun hφ s t => Tensor.mul?_map s t hφ) hwide h

theorem times_eq_ok (hwide : (a.kind.wider b.kind).HoldsFractions) (h : a.times b = .ok c) :
    Tensor.zipWith (· * ·) a.complexParts b.complexParts = some c.complexParts ∧
      c.kind.HoldsFractions :=
  combine_eq_ok (fun hφ s t => Tensor.zipWith_map s t hφ.map_zero fun x y => (hφ.map_mul x y).symm)
    hwide h

/-- A number next to an array that holds fractions. -/
theorem ofNumberBeside_eq_ok {kind : NumberKind} (hkind : kind.HoldsFractions) {x : Number ℝ}
    (h : ofNumberBeside kind x = .ok a) : a.complexParts = .scalar x.complexValue := by
  have hscalar (x : Number ℝ) : (mixed (.scalar x)).complexParts = .scalar x.complexValue :=
    Tensor.map_scalar _ _
  cases x with
  | integer n =>
    rcases hkind with rfl | rfl | rfl
    · cases h
      exact (complexParts_reals _).trans (Tensor.map_scalar _ _)
    · cases h
      exact (complexParts_reals _).trans (Tensor.map_scalar _ _)
    · cases h
      exact hscalar _
  | flag b =>
    cases h
    exact (congrArg (Tensor.map _) (Tensor.map_scalar _ _)).trans (Tensor.map_scalar _ _)
  | real x =>
    cases h
    exact (complexParts_reals _).trans (Tensor.map_scalar _ _)
  | complex z =>
    cases h
    exact (complexParts_complexes _).trans (Tensor.map_scalar _ _)

theorem item?_eq_none (h : a.complexParts.item? = none) : a.item? = none := by
  rw [complexParts, Tensor.item?_map] at h
  exact Option.map_eq_none_iff.mp h

/-- The real entries are the real parts of the complex ones. -/
theorem toReals_eq_ok {t : Tensor ℝ} (h : a.toReals = .ok t) :
    t = a.complexParts.map Complex.re := by
  cases a with
  | mixed s =>
    have hs := Tensor.collect_eq_ok h
    have hentry : s.map Number.toReal = (s.map fun x => x.complexValue.re).map .ok := by
      rw [Tensor.map_map]
      refine Tensor.ext rfl (Array.map_congr_left fun x hx => ?_)
      have hmem : x.toReal ∈ (t.map Except.ok).data := hs ▸ Array.mem_map_of_mem hx
      obtain ⟨r, -, hr⟩ := Array.mem_map.mp hmem
      rw [← hr, Number.toReal_eq_ok hr.symm]
      rfl
    rw [hentry] at hs
    rw [← Tensor.map_injective (fun _ _ => Except.ok.inj) hs, complexParts, Tensor.map_map]
    rfl
  | reals s =>
    cases h
    rw [complexParts_reals, Tensor.map_map]
    exact (Tensor.map_id _).symm
  | _ =>
    cases h
    simp only [realParts, complexParts, Tensor.map_map]
    rfl

end NumberArray

namespace Value

variable {v w u : Value ℝ}

/-- The complex numbers that the entries of a value stand for. -/
noncomputable def complexParts (v : Value ℝ) : Tensor ℂ := v.toArray.complexParts

theorem ofArray_of_shape_ne {a : NumberArray ℝ} (h : a.complexParts.shape ≠ []) :
    ofArray a = array a := by
  have hshape : a.shape ≠ [] := by cases a <;> exact h
  unfold ofArray
  exact if_pos hshape

/-- A scalar multiplies the entries of an array, any other value is multiplied like a matrix. -/
theorem mul_eq_ok {a : NumberArray ℝ} (hwide : a.kind.HoldsFractions) (hscalar : a.item? = none)
    (h : (array a).mul w = .ok u) : ∃ c, u = ofArray c ∧ c.kind.HoldsFractions ∧
      ((∃ x, w.scalar? = some x ∧
        Tensor.zipWith (· * ·) a.complexParts (.scalar x.complexValue) = some c.complexParts) ∨
      w.scalar? = none ∧ a.complexParts.mul? w.complexParts = some c.complexParts) := by
  have hnone : (array a).scalar? = none := hscalar
  rw [mul, hnone] at h
  cases hx : w.scalar? with
  | some x =>
    rw [hx] at h
    obtain ⟨b, hb, h⟩ := bind_eq_ok.mp (show NumberArray.ofNumberBeside a.kind x >>= (fun b =>
      (a.times b).map ofArray) = .ok u from h)
    obtain ⟨c, hc, rfl⟩ := map_eq_ok.mp h
    obtain ⟨hproduct, hkind⟩ := NumberArray.times_eq_ok (hwide.wider_left b.kind) hc
    rw [NumberArray.ofNumberBeside_eq_ok hwide hb] at hproduct
    exact ⟨c, rfl, hkind, .inl ⟨x, rfl, hproduct⟩⟩
  | none =>
    rw [hx] at h
    have hmul {b : NumberArray ℝ} (h : (a.mul b).map ofArray = .ok u) : ∃ c, u = ofArray c ∧
        c.kind.HoldsFractions ∧ a.complexParts.mul? b.complexParts = some c.complexParts := by
      obtain ⟨c, hc, rfl⟩ := map_eq_ok.mp h
      obtain ⟨hproduct, hkind⟩ := NumberArray.mul_eq_ok (hwide.wider_left b.kind) hc
      exact ⟨c, rfl, hkind, hproduct⟩
    cases w with
    | plain x => cases hx
    | single b =>
      obtain ⟨c, hu, hkind, hproduct⟩ := hmul h
      exact ⟨c, hu, hkind, .inr ⟨rfl, hproduct⟩⟩
    | array b =>
      obtain ⟨c, hu, hkind, hproduct⟩ := hmul h
      exact ⟨c, hu, hkind, .inr ⟨rfl, hproduct⟩⟩

end Value
end WeakForm
