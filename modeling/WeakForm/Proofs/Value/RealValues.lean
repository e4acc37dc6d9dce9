import WeakForm.Proofs.RealScalar
import WeakForm.Expression.Evaluation
import WeakForm.Proofs.Lists
import WeakForm.Proofs.Value.RealArrays

/-!
# Values of real numbers

A value of real numbers stands for an array of them. What an operation does to values depends on the
arrays they stand for only, so a value may be replaced by another one that stands for the same array.
Truth values are the exception: arrays of them follow rules of their own.
-/

namespace WeakForm
namespace Value

/-- Plain real numbers, truth values among them, and arrays of real numbers. -/
def IsReal : Value ℝ → Prop
  | plain x => x.IsReal
  | single a => a.kind.IsNumeric
  | array a => a.kind.IsNumeric

/-- Real numbers that are no truth values. -/
def IsNumeric : Value ℝ → Prop
  | plain x => x.IsNumeric
  | single a => a.kind.IsNumeric
  | array a => a.kind.IsNumeric

/-- The array of real numbers that a value stands for. -/
noncomputable def tensor (v : Value ℝ) : Tensor ℝ := v.toArray.realParts

variable {v w v' w' : Value ℝ}

theorem IsNumeric.isReal (h : v.IsNumeric) : v.IsReal := by
  cases v with
  | plain x => exact Number.IsNumeric.isReal h
  | single a => exact h
  | array a => exact h

/-- The first value may stand in place of the second one. -/
structure StandsFor (v w : Value ℝ) : Prop where
  left : v.IsReal
  right : w.IsReal
  tensor_eq : v.tensor = w.tensor
  isNumeric : w.IsNumeric → v.IsNumeric

section Scalars

@[simp] theorem isWord_real (n : ℤ) : Scalar.isWord ℝ n = true := by
  simp [Scalar.isWord, Scalar.word]

/-- The array that holds a real number. -/
theorem ofNumber_spec {x : Number ℝ} (hx : x.IsReal) :
    (NumberArray.ofNumber x).kind.IsReal ∧
      (x.IsNumeric → (NumberArray.ofNumber x).kind.IsNumeric) ∧
      (¬ x.IsNumeric → ¬ (NumberArray.ofNumber x).kind.IsNumeric) ∧
      (NumberArray.ofNumber x).realParts = .scalar x.value := by
  cases x with
  | flag b =>
    have hflag : ¬ NumberKind.flag.IsNumeric := by simp [NumberKind.IsNumeric]
    refine ⟨.inl rfl, False.elim, fun _ => hflag, ?_⟩
    simp [NumberArray.ofNumber, NumberArray.realParts, NumberArray.numbers, Tensor.map_scalar,
      Number.value]
  | integer n =>
    rw [NumberArray.ofNumber, if_pos (isWord_real n)]
    refine ⟨.inr (.inl rfl), fun _ => .inl rfl, fun h => absurd trivial h, ?_⟩
    simp [NumberArray.realParts, NumberArray.numbers, Tensor.map_scalar, Number.value]
  | real x => exact ⟨.inr (.inr rfl), fun _ => .inr rfl, fun h => absurd trivial h, rfl⟩
  | complex z => cases hx

/-- The array that holds a real number next to another one. -/
theorem ofNumberBeside_spec {kind : NumberKind} (hkind : kind.IsNumeric) {x : Number ℝ}
    (hx : x.IsReal) :
    ∃ a, NumberArray.ofNumberBeside kind x = .ok a ∧ a.kind.IsReal ∧
      a.realParts = .scalar x.value := by
  cases x with
  | flag b => exact ⟨_, rfl, (ofNumber_spec hx).1, (ofNumber_spec hx).2.2.2⟩
  | integer n =>
    rcases hkind with rfl | rfl
    · refine ⟨.integers (.scalar ⟨n⟩), ?_, .inr (.inl rfl), ?_⟩
      · simp [NumberArray.ofNumberBeside]
      · simp [NumberArray.realParts, NumberArray.numbers, Tensor.map_scalar, Number.value]
    · exact ⟨.reals (.scalar n), rfl, .inr (.inr rfl), rfl⟩
  | real x => exact ⟨_, rfl, .inr (.inr rfl), rfl⟩
  | complex z => cases hx

theorem tensor_plain {x : Number ℝ} (hx : x.IsReal) : (plain x).tensor = .scalar x.value :=
  (ofNumber_spec hx).2.2.2

/-- The number of a value of real numbers with a single entry. -/
theorem scalar?_spec (hv : v.IsReal) :
    v.tensor.item? = v.scalar?.map Number.value ∧ ∀ x ∈ v.scalar?, x.IsReal := by
  cases v with
  | plain x =>
    rw [tensor_plain hv]
    refine ⟨rfl, fun y hy => ?_⟩
    cases hy
    exact hv
  | single a =>
    exact ⟨NumberArray.item?_realParts a (NumberKind.IsNumeric.isReal hv),
      fun x hx => (NumberArray.isNumeric_of_item? hv hx).isReal⟩
  | array a =>
    exact ⟨NumberArray.item?_realParts a (NumberKind.IsNumeric.isReal hv),
      fun x hx => (NumberArray.isNumeric_of_item? hv hx).isReal⟩

theorem StandsFor.scalar? (h : v.StandsFor w) :
    Option.Rel Number.SameReal v.scalar? w.scalar? := by
  obtain ⟨hv, hreal⟩ := scalar?_spec h.left
  obtain ⟨hw, hreal'⟩ := scalar?_spec h.right
  have hvalue : v.scalar?.map Number.value = w.scalar?.map Number.value := by
    rw [← hv, ← hw, h.tensor_eq]
  revert hreal hreal' hvalue
  cases v.scalar? <;> cases w.scalar? <;> intro hreal hreal' hvalue
  · exact .none
  · cases hvalue
  · cases hvalue
  · exact .some ⟨hreal _ rfl, hreal' _ rfl, Option.some.inj hvalue⟩

end Scalars

section Results

/-- The result of an operation stands for the given array, or there is none. -/
def Yields (x : Except (Error ℝ) (Value ℝ)) : Option (Tensor ℝ) → Prop
  | some t => ∃ v, x = .ok v ∧ v.IsNumeric ∧ v.tensor = t
  | none => ∃ e, x = .error e

theorem alike_of_yields {x y : Except (Error ℝ) (Value ℝ)} {t : Option (Tensor ℝ)}
    (hx : Yields x t) (hy : Yields y t) : Alike StandsFor x y := by
  cases t with
  | none =>
    obtain ⟨e, rfl⟩ := hx
    obtain ⟨e', rfl⟩ := hy
    exact .error e e'
  | some t =>
    obtain ⟨v, rfl, hv, hvt⟩ := hx
    obtain ⟨w, rfl, hw, hwt⟩ := hy
    exact .ok ⟨hv.isReal, hw.isReal, hvt.trans hwt.symm, fun _ => hv⟩

theorem yields_plain {x : Except (Error ℝ) (Number ℝ)} {r : ℝ} (h : Number.Yields x r) :
    Yields (x.map plain) (some (.scalar r)) := by
  obtain ⟨c, rfl, hc, rfl⟩ := h
  exact ⟨plain c, rfl, hc, tensor_plain hc.isReal⟩

theorem ofArray_spec {a : NumberArray ℝ} (ha : a.kind.IsNumeric) :
    (ofArray a).IsNumeric ∧ (ofArray a).tensor = a.realParts := by
  unfold ofArray
  split_ifs
  · exact ⟨ha, rfl⟩
  · split
    · simp [NumberArray.kind, NumberKind.IsNumeric] at ha
    · exact ⟨ha, rfl⟩

theorem yields_ofArray {x : Except (Error ℝ) (NumberArray ℝ)} {t : Option (Tensor ℝ)}
    (h : NumberArray.Yields x t) : Yields (x.map ofArray) t := by
  cases t with
  | none =>
    obtain ⟨e, rfl⟩ := h
    exact ⟨e, rfl⟩
  | some t =>
    obtain ⟨a, rfl, ha, rfl⟩ := h
    exact ⟨ofArray a, rfl, ofArray_spec ha⟩

end Results

section Arithmetic

variable {f : NumberArray ℝ → NumberArray ℝ → Except (Error ℝ) (NumberArray ℝ)}
  {F : Tensor ℝ → Tensor ℝ → Option (Tensor ℝ)}
  (hf : ∀ {a b : NumberArray ℝ}, a.kind.IsReal → b.kind.IsReal →
    a.kind.IsNumeric ∨ b.kind.IsNumeric → NumberArray.Yields (f a b) (F a.realParts b.realParts))

include hf in
/-- An operation on arrays, applied to a plain number and an array. -/
theorem yields_plain_array {x : Number ℝ} (hx : x.IsReal) {b : NumberArray ℝ}
    (hb : b.kind.IsNumeric) :
    Yields (NumberArray.ofNumberBeside b.kind x >>= fun a => (f a b).map ofArray)
      (F (plain x).tensor b.realParts) := by
  obtain ⟨a, ha, hkind, hparts⟩ := ofNumberBeside_spec hb hx
  rw [ha, ok_bind, tensor_plain hx, ← hparts]
  exact yields_ofArray (hf hkind hb.isReal (.inr hb))

include hf in
theorem yields_array_plain {a : NumberArray ℝ} (ha : a.kind.IsNumeric) {y : Number ℝ}
    (hy : y.IsReal) :
    Yields (NumberArray.ofNumberBeside a.kind y >>= fun b => (f a b).map ofArray)
      (F a.realParts (plain y).tensor) := by
  obtain ⟨b, hb, hkind, hparts⟩ := ofNumberBeside_spec ha hy
  rw [hb, ok_bind, tensor_plain hy, ← hparts]
  exact yields_ofArray (hf ha.isReal hkind (.inl ha))

include hf in
theorem yields_array_array {a b : NumberArray ℝ} (ha : a.kind.IsNumeric) (hb : b.kind.IsNumeric) :
    Yields ((f a b).map ofArray) (F a.realParts b.realParts) :=
  yields_ofArray (hf ha.isReal hb.isReal (.inl ha))

theorem zipWith_scalar (g : ℝ → ℝ → ℝ) (x y : ℝ) :
    Tensor.zipWith g (.scalar x) (.scalar y) = some (.scalar (g x y)) := by
  simp [Tensor.zipWith, Tensor.scalar]

/-- An operation entry by entry, on plain numbers as such. -/
noncomputable def entrywise (f₀ : Number ℝ → Number ℝ → Except (Error ℝ) (Number ℝ))
    (f : NumberArray ℝ → NumberArray ℝ → Except (Error ℝ) (NumberArray ℝ)) :
    Value ℝ → Value ℝ → Except (Error ℝ) (Value ℝ)
  | plain x, plain y => (f₀ x y).map plain
  | a, b => onArrays f a b

theorem yields_entrywise {g : ℝ → ℝ → ℝ}
    {f₀ : Number ℝ → Number ℝ → Except (Error ℝ) (Number ℝ)}
    (hf₀ : ∀ {x y : Number ℝ}, x.IsReal → y.IsReal → Number.Yields (f₀ x y) (g x.value y.value))
    (hf : ∀ {a b : NumberArray ℝ}, a.kind.IsReal → b.kind.IsReal →
      a.kind.IsNumeric ∨ b.kind.IsNumeric →
      NumberArray.Yields (f a b) (Tensor.zipWith g a.realParts b.realParts))
    (hv : v.IsReal) (hw : w.IsReal) :
    Yields (entrywise f₀ f v w) (Tensor.zipWith g v.tensor w.tensor) := by
  cases v with
  | plain x =>
    cases w with
    | plain y =>
      rw [tensor_plain hv, tensor_plain hw, zipWith_scalar]
      exact yields_plain (hf₀ hv hw)
    | single b => exact yields_plain_array hf hv hw
    | array b => exact yields_plain_array hf hv hw
  | single a =>
    cases w with
    | plain y => exact yields_array_plain hf hv hw
    | single b => exact yields_array_array hf hv hw
    | array b => exact yields_array_array hf hv hw
  | array a =>
    cases w with
    | plain y => exact yields_array_plain hf hv hw
    | single b => exact yields_array_array hf hv hw
    | array b => exact yields_array_array hf hv hw

theorem yields_add (hv : v.IsReal) (hw : w.IsReal) :
    Yields (v.add w) (Tensor.zipWith (· + ·) v.tensor w.tensor) := by
  have h : v.add w = entrywise Number.add NumberArray.add v w := by cases v <;> cases w <;> rfl
  rw [h]
  exact yields_entrywise Number.yields_add NumberArray.yields_add hv hw

theorem yields_sub (hv : v.IsReal) (hw : w.IsReal) :
    Yields (v.sub w) (Tensor.zipWith (· - ·) v.tensor w.tensor) := by
  have h : v.sub w = entrywise Number.sub NumberArray.sub v w := by cases v <;> cases w <;> rfl
  rw [h]
  exact yields_entrywise Number.yields_sub NumberArray.yields_sub hv hw

theorem yields_times (hv : v.IsReal) (hw : w.IsReal) :
    Yields (v.times w) (Tensor.zipWith (· * ·) v.tensor w.tensor) := by
  have h : v.times w = entrywise Number.mul NumberArray.times v w := by cases v <;> cases w <;> rfl
  rw [h]
  exact yields_entrywise Number.yields_mul NumberArray.yields_times hv hw

/-- The product of two values that are no scalars. -/
theorem yields_onArrays_mul (hv : v.IsReal) (hw : w.IsReal) (hscalar : v.scalar? = none) :
    Yields (onArrays NumberArray.mul v w) (v.tensor.mul? w.tensor) := by
  cases v with
  | plain x => cases hscalar
  | single a =>
    cases w with
    | plain y => exact yields_array_plain NumberArray.yields_mul hv hw
    | single b => exact yields_array_array NumberArray.yields_mul hv hw
    | array b => exact yields_array_array NumberArray.yields_mul hv hw
  | array a =>
    cases w with
    | plain y => exact yields_array_plain NumberArray.yields_mul hv hw
    | single b => exact yields_array_array NumberArray.yields_mul hv hw
    | array b => exact yields_array_array NumberArray.yields_mul hv hw

theorem yields_mul (hv : v.IsReal) (hw : w.IsReal) :
    Yields (v.mul w)
      (match v.tensor.item?, w.tensor.item? with
        | some x, _ => Tensor.zipWith (· * ·) (.scalar x) w.tensor
        | none, some y => Tensor.zipWith (· * ·) v.tensor (.scalar y)
        | none, none => v.tensor.mul? w.tensor) := by
  obtain ⟨hitem, hreal⟩ := scalar?_spec hv
  obtain ⟨hitem', hreal'⟩ := scalar?_spec hw
  rw [hitem, hitem', mul]
  cases hx : v.scalar? with
  | some x =>
    have hxreal := hreal x hx
    dsimp only [Option.map_some]
    rw [← tensor_plain hxreal]
    exact yields_times hxreal hw
  | none =>
    cases hy : w.scalar? with
    | some y =>
      have hyreal := hreal' y hy
      dsimp only [Option.map_some, Option.map_none]
      rw [← tensor_plain hyreal]
      exact yields_times hv hyreal
    | none => exact yields_onArrays_mul hv hw hx

theorem yields_div (hv : v.IsReal) (hw : w.IsReal) (hne : ∀ y ∈ w.tensor.item?, y ≠ 0) :
    Yields (v.div w)
      (w.tensor.item?.bind fun y => Tensor.zipWith (· / ·) v.tensor (.scalar y)) := by
  obtain ⟨hitem, hreal⟩ := scalar?_spec hw
  rw [hitem] at hne ⊢
  rw [div]
  cases hy : w.scalar? with
  | none => exact ⟨_, rfl⟩
  | some y =>
    have hyreal := hreal y hy
    have hy0 : y.value ≠ 0 := hne _ (by rw [hy]; rfl)
    -- next to an array the divisor is an array of its own
    have harray {a : NumberArray ℝ} (ha : a.kind.IsNumeric) :
        Yields (NumberArray.ofNumberBeside (a.kind.wider .real) y >>= fun d =>
          (a.quotient d).map ofArray) (Tensor.zipWith (· / ·) a.realParts (.scalar y.value)) := by
      have hkind : (a.kind.wider .real).IsNumeric :=
        (NumberKind.wider_isNumeric_iff ha.isReal (.inr (.inr rfl))).mpr (.inl ha)
      obtain ⟨d, hd, hdkind, hparts⟩ := ofNumberBeside_spec hkind hyreal
      rw [hd, ok_bind, ← hparts]
      exact yields_ofArray (NumberArray.yields_quotient ha.isReal hdkind)
    dsimp only [Option.map_some, Option.bind_some]
    cases v with
    | plain x =>
      rw [tensor_plain hv, zipWith_scalar]
      exact yields_plain (Number.yields_div hv hyreal hy0)
    | single a => exact harray hv
    | array a => exact harray hv

theorem yields_neg (hv : v.IsReal) : Yields v.neg (some (v.tensor.map (- ·))) := by
  cases v with
  | plain x =>
    obtain ⟨hnumeric, hvalue⟩ := Number.value_neg hv
    refine ⟨plain x.neg, rfl, hnumeric, ?_⟩
    rw [tensor_plain hnumeric.isReal, tensor_plain hv, hvalue, Tensor.map_scalar]
  | single a => exact yields_ofArray (NumberArray.yields_neg hv)
  | array a => exact yields_ofArray (NumberArray.yields_neg hv)

theorem toReals_eq (hv : v.IsReal) : v.toReals = .ok v.tensor := by
  have harray {a : NumberArray ℝ} (ha : a.kind.IsNumeric) : a.toReals = .ok a.realParts := by
    cases a with
    | mixed t => simp [NumberArray.kind, NumberKind.IsNumeric] at ha
    | _ => rfl
  cases v with
  | plain x =>
    rw [toReals, Number.toReal_eq hv, tensor_plain hv]
    rfl
  | single a => exact harray hv
  | array a => exact harray hv

end Arithmetic

section Replacement

theorem toArray_kind (hv : v.IsReal) :
    v.toArray.kind.IsReal ∧ (v.toArray.kind.IsNumeric ↔ v.IsNumeric) := by
  cases v with
  | plain x =>
    obtain ⟨hreal, hnumeric, hflag, -⟩ := ofNumber_spec hv
    exact ⟨hreal, fun h => not_imp_not.mp hflag h, hnumeric⟩
  | single a => exact ⟨NumberKind.IsNumeric.isReal hv, Iff.rfl⟩
  | array a => exact ⟨NumberKind.IsNumeric.isReal hv, Iff.rfl⟩

theorem StandsFor.ofArray {a b : NumberArray ℝ} (h : a.SameReals b) :
    (ofArray a).StandsFor (ofArray b) := by
  obtain ⟨ha, hat⟩ := ofArray_spec h.left
  obtain ⟨hb, hbt⟩ := ofArray_spec h.right
  exact ⟨ha.isReal, hb.isReal, by rw [hat, hbt, h.realParts_eq], fun _ => ha⟩

/-- Values that are no scalars hold arrays of the same real numbers. -/
theorem StandsFor.sameReals (h : v.StandsFor w) (hv : v.scalar? = none) (hw : w.scalar? = none) :
    v.toArray.SameReals w.toArray := by
  have hnumeric {u : Value ℝ} (hu : u.IsReal) (hscalar : u.scalar? = none) :
      u.toArray.kind.IsNumeric := by
    cases u with
    | plain x => cases hscalar
    | single a => exact hu
    | array a => exact hu
  exact ⟨hnumeric h.left hv, hnumeric h.right hw, h.tensor_eq⟩

theorem alike_pow (hv : v.StandsFor v') (hw : w.StandsFor w')
    (hreal : ∀ u, v'.pow w' = .ok u → u.IsReal) : Alike StandsFor (v.pow w) (v'.pow w') := by
  have hbase := hv.scalar?
  have hexponent := hw.scalar?
  have harrays := hv.sameReals
  unfold pow at hreal ⊢
  generalize v.scalar? = x at *
  generalize v'.scalar? = x' at *
  generalize w.scalar? = y at *
  generalize w'.scalar? = y' at *
  cases hexponent with
  | none => exact .error _ _
  | some hy =>
    cases hbase with
    | some hx =>
      refine (Number.alike_pow hx hy fun c hc => hreal (plain c) ?_).map ?_
      · dsimp only
        rw [hc]
        rfl
      · rintro c c' ⟨hc, hnumeric⟩
        exact ⟨hc.left, hc.right, by rw [tensor_plain hc.left, tensor_plain hc.right, hc.value_eq],
          fun _ => hnumeric⟩
    | none =>
      refine (Number.alike_wholeExponent hy).bind ?_
      rintro n - - - rfl
      exact (NumberArray.alike_power n (harrays rfl rfl)).map fun _ _ => .ofArray

theorem StandsFor.transpose (h : v.StandsFor w) (hreal : w.transpose.IsReal) :
    v.transpose.StandsFor w.transpose := by
  have hkind : w.toArray.transpose.kind = w.toArray.kind := by cases w.toArray <;> rfl
  have hw : w.toArray.kind.IsNumeric := hkind ▸ hreal
  have hv : v.toArray.kind.IsNumeric :=
    (toArray_kind h.left).2.mpr (h.isNumeric ((toArray_kind h.right).2.mp hw))
  obtain ⟨hvnumeric, hvt⟩ := NumberArray.transpose_isNumeric hv
  obtain ⟨-, hwt⟩ := NumberArray.transpose_isNumeric hw
  exact ⟨hvnumeric, hreal, hvt.trans ((congrArg _ h.tensor_eq).trans hwt.symm), fun _ => hvnumeric⟩

/-- Blocks of real numbers, which are truth values only if all of them are. -/
theorem block_spec {rows : List (List (Value ℝ))} (h : ∀ row ∈ rows, ∀ v ∈ row, v.IsReal) :
    match Tensor.blocks? (rows.map fun row => row.map fun v => v.tensor.atLeast2) with
    | some t => ∃ c, block rows = .ok (array c) ∧ c.realParts = t ∧
        (c.kind.IsNumeric ↔ ∃ row ∈ rows, ∃ v ∈ row, v.IsNumeric)
    | none => ∃ e, block rows = .error e := by
  have hentry {v : Value ℝ} (hv : v.IsReal) := NumberArray.atLeast2_isReal (toArray_kind hv).1
  have hkinds : ∀ row ∈ rows.map fun row => row.map fun v => v.toArray.atLeast2,
      ∀ a ∈ row, a.kind.IsReal := by
    intro row' hrow' a ha
    obtain ⟨row, hrow, rfl⟩ := List.mem_map.mp hrow'
    obtain ⟨v, hv, rfl⟩ := List.mem_map.mp ha
    rw [(hentry (h row hrow v hv)).1]
    exact (toArray_kind (h row hrow v hv)).1
  have hspec := NumberArray.block_spec hkinds
  have hparts : (rows.map fun row => row.map fun v => v.toArray.atLeast2).map
      (fun row => row.map NumberArray.realParts) =
        rows.map fun row => row.map fun v => v.tensor.atLeast2 := by
    rw [List.map_map]
    refine List.map_congr_left fun row hrow => ?_
    rw [Function.comp_apply, List.map_map]
    exact List.map_congr_left fun v hv => (hentry (h row hrow v hv)).2
  have hnumeric : (∃ row ∈ rows.map fun row => row.map fun v => v.toArray.atLeast2,
      ∃ a ∈ row, a.kind.IsNumeric) ↔ ∃ row ∈ rows, ∃ v ∈ row, v.IsNumeric := by
    simp only [List.mem_map, exists_exists_and_eq_and]
    refine exists_congr fun row => and_congr_right fun hrow => ?_
    refine exists_congr fun v => and_congr_right fun hv => ?_
    rw [(hentry (h row hrow v hv)).1]
    exact (toArray_kind (h row hrow v hv)).2
  rw [hparts, hnumeric] at hspec
  unfold block
  cases hblocks : Tensor.blocks? (rows.map fun row => row.map fun v => v.tensor.atLeast2) with
  | none =>
    rw [hblocks] at hspec
    obtain ⟨e, he⟩ := hspec
    exact ⟨e, by rw [he]; rfl⟩
  | some t =>
    rw [hblocks] at hspec
    obtain ⟨c, hc, hspec⟩ := hspec
    exact ⟨c, by rw [hc]; rfl, hspec⟩

theorem alike_block {rows rows' : List (List (Value ℝ))}
    (h : List.Forall₂ (List.Forall₂ StandsFor) rows rows')
    (hreal : ∀ u, block rows' = .ok u → u.IsReal) : Alike StandsFor (block rows) (block rows') := by
  have hleft : ∀ row ∈ rows, ∀ v ∈ row, v.IsReal := by
    intro row hrow v hv
    obtain ⟨row', -, hrows⟩ := exists_mem_of_forall₂ h.flip hrow
    obtain ⟨w, -, hvw⟩ := exists_mem_of_forall₂ hrows.flip hv
    exact hvw.left
  have hright : ∀ row ∈ rows', ∀ v ∈ row, v.IsReal := by
    intro row' hrow' w hw
    obtain ⟨row, -, hrows⟩ := exists_mem_of_forall₂ h hrow'
    obtain ⟨v, -, hvw⟩ := exists_mem_of_forall₂ hrows hw
    exact hvw.right
  have hnumeric : (∃ row ∈ rows', ∃ v ∈ row, v.IsNumeric) → ∃ row ∈ rows, ∃ v ∈ row, v.IsNumeric := by
    rintro ⟨row', hrow', w, hw, hnumeric⟩
    obtain ⟨row, hrow, hrows⟩ := exists_mem_of_forall₂ h hrow'
    obtain ⟨v, hv, hvw⟩ := exists_mem_of_forall₂ hrows hw
    exact ⟨row, hrow, v, hv, hvw.isNumeric hnumeric⟩
  have htensors : (rows.map fun row => row.map fun v => v.tensor.atLeast2) =
      rows'.map fun row => row.map fun v => v.tensor.atLeast2 :=
    map_eq_map_of_forall₂ <| h.imp fun _ _ hrows => map_eq_map_of_forall₂ <| hrows.imp fun _ _ hvw =>
      congrArg Tensor.atLeast2 hvw.tensor_eq
  have hspec := block_spec hleft
  have hspec' := block_spec hright
  rw [htensors] at hspec
  revert hspec hspec'
  cases Tensor.blocks? (rows'.map fun row => row.map fun v => v.tensor.atLeast2) with
  | none =>
    rintro ⟨e, he⟩ ⟨e', he'⟩
    rw [he, he']
    exact .error e e'
  | some t =>
    rintro ⟨c, hc, hct, hckind⟩ ⟨c', hc', hct', hckind'⟩
    have hc'numeric : c'.kind.IsNumeric := hreal _ hc'
    have hcnumeric : c.kind.IsNumeric := hckind.mpr (hnumeric (hckind'.mp hc'numeric))
    rw [hc, hc']
    exact .ok ⟨hcnumeric, hc'numeric, hct.trans hct'.symm, fun _ => hcnumeric⟩

/-- What an operation makes of values that stand for others stands for what it makes of those. -/
theorem alike_apply (op : Operation) (hv : v.StandsFor v') (hw : w.StandsFor w')
    (hne : op = .div → ∀ y ∈ w'.tensor.item?, y ≠ 0)
    (hreal : ∀ u, op.apply v' w' = .ok u → u.IsReal) :
    Alike StandsFor (op.apply v w) (op.apply v' w') := by
  have htarget {f : Value ℝ → Value ℝ → Except (Error ℝ) (Value ℝ)}
      {F : Tensor ℝ → Tensor ℝ → Option (Tensor ℝ)} (h : Yields (f v w) (F v.tensor w.tensor))
      (h' : Yields (f v' w') (F v'.tensor w'.tensor)) : Alike StandsFor (f v w) (f v' w') := by
    rw [← hv.tensor_eq, ← hw.tensor_eq] at h'
    exact alike_of_yields h h'
  cases op with
  | add => exact htarget (yields_add hv.left hw.left) (yields_add hv.right hw.right)
  | sub => exact htarget (yields_sub hv.left hw.left) (yields_sub hv.right hw.right)
  | mul => exact htarget (F := fun s t => match s.item?, t.item? with
        | some x, _ => Tensor.zipWith (· * ·) (.scalar x) t
        | none, some y => Tensor.zipWith (· * ·) s (.scalar y)
        | none, none => s.mul? t) (yields_mul hv.left hw.left) (yields_mul hv.right hw.right)
  | div =>
    exact htarget (F := fun s t => t.item?.bind fun y => Tensor.zipWith (· / ·) s (.scalar y))
      (yields_div hv.left hw.left (hw.tensor_eq ▸ hne rfl))
      (yields_div hv.right hw.right (hne rfl))
  | pow => exact alike_pow hv hw hreal

end Replacement
end Value
end WeakForm
