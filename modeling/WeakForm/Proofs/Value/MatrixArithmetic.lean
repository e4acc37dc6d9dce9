import WeakForm.Proofs.Value.MatrixValues

/-!
# Arithmetic of matrices

Sums, multiples, products, quotients, powers, transposes and blocks of values that hold matrices. A
power with a whole exponent is found by repeated squares, of the inverse if the exponent is negative.
-/

namespace WeakForm

namespace NumberArray

variable {a b : NumberArray ℝ} {m n k : ℕ}

/-- An array of numbers with two axes, whose entries are those of the matrix. -/
structure Stores (a : NumberArray ℝ) (A : Matrix (Fin m) (Fin n) ℝ) : Prop where
  isNumeric : a.kind.IsNumeric
  realParts_eq : a.realParts = .ofMatrix (.stored A)

theorem Stores.mul {A : Matrix (Fin m) (Fin k) ℝ} {B : Matrix (Fin k) (Fin n) ℝ} (ha : a.Stores A)
    (hb : b.Stores B) : ∃ c, a.mul b = .ok c ∧ c.Stores (A * B) := by
  have hmul := yields_mul ha.isNumeric.isReal hb.isNumeric.isReal (.inl ha.isNumeric)
  rw [ha.realParts_eq, hb.realParts_eq, Tensor.mul?_matrices] at hmul
  obtain ⟨c, hc, hnumeric, hparts⟩ := hmul
  exact ⟨c, hc, hnumeric, hparts⟩

section Powers

variable {A P : Matrix (Fin n) (Fin n) ℝ} {product : Option (NumberArray ℝ)} {e : ℕ}

/-- The product so far of the repeated squares; before the first one there is none. -/
def Accumulates : Option (NumberArray ℝ) → Matrix (Fin n) (Fin n) ℝ → Prop
  | none, P => P = 1
  | some p, P => p.Stores P

/-- The repeated squares make up the power. The induction is on the fuel, which is halved at most as
often as the exponent. -/
theorem Stores.squarings (fuel : ℕ) (he : 0 < e) (hfuel : e ≤ fuel) (ha : a.Stores A)
    (hproduct : Accumulates product P) :
    ∃ c, NumberArray.squarings fuel e product a = .ok c ∧ c.Stores (P * A ^ e) := by
  induction fuel generalizing e product P a A with
  | zero => omega
  | succ fuel ih =>
    unfold NumberArray.squarings
    by_cases heven : e % 2 = 0
    · have htwo : ¬ e ≤ 1 := by omega
      obtain ⟨s, hs, hsquare⟩ := ha.mul ha
      obtain ⟨c, hc, hstores⟩ := ih (e := e / 2) (by omega) (by omega) hsquare hproduct
      have hpower : (A * A) ^ (e / 2) = A ^ e := by
        rw [← pow_two, ← pow_mul, Nat.mul_div_cancel' (Nat.dvd_of_mod_eq_zero heven)]
      refine ⟨c, ?_, hpower ▸ hstores⟩
      simp only [if_pos heven, if_neg htwo, pure_bind, hs, ok_bind, hc]
    · -- what is done with the next product does not depend on how that was found
      have hrest {p : NumberArray ℝ} (hp : p.Stores (P * A)) :
          ∃ c, (if e ≤ 1 then pure p
            else a.mul a >>= fun squared =>
              NumberArray.squarings fuel (e / 2) (some p) squared) = .ok c ∧
            c.Stores (P * A ^ e) := by
        by_cases hone : e ≤ 1
        · obtain rfl : e = 1 := by omega
          exact ⟨p, by rw [if_pos hone]; rfl, by rwa [pow_one]⟩
        · obtain ⟨s, hs, hsquare⟩ := ha.mul ha
          have hsome : Accumulates (some p) (P * A) := hp
          obtain ⟨c, hc, hstores⟩ := ih (e := e / 2) (by omega) (by omega) hsquare hsome
          have hpower : P * A * (A * A) ^ (e / 2) = P * A ^ e := by
            rw [mul_assoc, ← pow_two, ← pow_mul, ← pow_succ']
            congr 2
            omega
          exact ⟨c, by rw [if_neg hone, hs, ok_bind, hc], hpower ▸ hstores⟩
      rw [if_neg heven]
      cases product with
      | none =>
        have hone : P = 1 := hproduct
        exact hrest (by rwa [hone, one_mul])
      | some q =>
        obtain ⟨c, hc, hstores⟩ := Stores.mul hproduct ha
        simp only [hc]
        exact hrest hstores

theorem Stores.identities (ha : a.Stores A) :
    ∃ c, a.identities = .ok c ∧ c.Stores (1 : Matrix (Fin n) (Fin n) ℝ) := by
  have hidentities := yields_identities ha.isNumeric
  rw [ha.realParts_eq, Tensor.mapMatrices?_ofMatrix _ _ fun E hE => by cases hE; exact ⟨rfl, rfl⟩,
    Option.map_some, DenseMatrix.identity_eq_stored] at hidentities
  obtain ⟨c, hc, hnumeric, hparts⟩ := hidentities
  exact ⟨c, hc, hnumeric, hparts⟩

theorem Stores.naturalPower (ha : a.Stores A) (e : ℕ) :
    ∃ c, a.naturalPower e = .ok c ∧ c.Stores (A ^ e) := by
  unfold NumberArray.naturalPower
  split_ifs with hzero hthree
  · rw [hzero, pow_zero]
    exact ha.identities
  · obtain ⟨s, hs, hsquare⟩ := ha.mul ha
    obtain ⟨c, hc, hcube⟩ := hsquare.mul ha
    refine ⟨c, by rw [hs, ok_bind, hc], ?_⟩
    rwa [hthree, pow_succ, pow_two]
  · have hnone : Accumulates none (1 : Matrix (Fin n) (Fin n) ℝ) := rfl
    have h := ha.squarings e (Nat.pos_of_ne_zero hzero) le_rfl hnone
    rwa [one_mul] at h

theorem Stores.inverse (ha : a.Stores A) (hA : IsUnit A.det) :
    ∃ c, a.inverse = .ok c ∧ c.Stores A⁻¹ := by
  have hfound := DenseMatrix.inverse?_stored hA
  have hinverse := yields_inverse ha.isNumeric
  rw [ha.realParts_eq, Tensor.mapMatrices?_ofMatrix _ _ fun E hE => by
    rw [hfound] at hE; cases hE; exact ⟨rfl, rfl⟩, hfound, Option.map_some] at hinverse
  obtain ⟨c, hc, hnumeric, hparts⟩ := hinverse
  exact ⟨c, hc, hnumeric, hparts⟩

/-- Whole powers of a square matrix, which has an inverse if the exponent is negative. -/
theorem Stores.power (ha : a.Stores A) {p : ℤ} (hA : p < 0 → IsUnit A.det) :
    ∃ c, a.power p = .ok c ∧ c.Stores (A ^ p) := by
  have hshape : Tensor.lastTwo? a.shape = some ([], n, n) := by
    rw [← shape_realParts, ha.realParts_eq]
    rfl
  have hmixed : a.kind ≠ .mixed := by
    rcases ha.isNumeric with h | h <;> simp [h]
  unfold NumberArray.power
  rw [hshape]
  simp only [ne_eq, not_true_eq_false, if_false, and_false]
  obtain ⟨e, rfl | rfl⟩ := p.eq_nat_or_neg
  · rw [if_pos (Int.natCast_nonneg e), Int.toNat_natCast, zpow_natCast]
    exact ha.naturalPower e
  · rcases Nat.eq_zero_or_pos e with rfl | he
    · have h := ha.naturalPower 0
      simpa using h
    · obtain ⟨b, hb, hinverse⟩ := ha.inverse (hA (by omega))
      rw [if_neg (by omega), hb, neg_neg, Int.toNat_natCast, Matrix.zpow_neg_natCast,
        ← Matrix.inv_pow']
      exact hinverse.naturalPower e

end Powers

end NumberArray

namespace Value

variable {v w : Value ℝ} {m n k : ℕ} {x y : ℝ} {M : SizedMatrix}

/-- The computation succeeds with a value that holds the matrix. -/
def Gives (result : Except (Error ℝ) (Value ℝ)) (M : SizedMatrix) : Prop :=
  ∃ v, result = .ok v ∧ v.Holds M

theorem gives_of_yields {result : Except (Error ℝ) (Value ℝ)} {t : Option (Tensor ℝ)}
    (h : Yields result t) (ht : ∃ c, t = some c ∧ c.Holds M) : Gives result M := by
  obtain ⟨c, rfl, hc⟩ := ht
  obtain ⟨v, hv, hnumeric, rfl⟩ := h
  exact ⟨v, hv, hnumeric, hc⟩

namespace Holds

theorem isReal (hv : v.Holds M) : v.IsReal := hv.isNumeric.isReal

section Sums

variable {A B : Matrix (Fin m) (Fin n) ℝ}

theorem add (hv : v.Holds ⟨m, n, A⟩) (hw : w.Holds ⟨m, n, B⟩) : Gives (v.add w) ⟨m, n, A + B⟩ :=
  gives_of_yields (yields_add hv.isReal hw.isReal) (hv.tensor_holds.zipWith _ hw.tensor_holds)

theorem sub (hv : v.Holds ⟨m, n, A⟩) (hw : w.Holds ⟨m, n, B⟩) : Gives (v.sub w) ⟨m, n, A - B⟩ :=
  gives_of_yields (yields_sub hv.isReal hw.isReal) (hv.tensor_holds.zipWith _ hw.tensor_holds)

theorem neg (hv : v.Holds ⟨m, n, A⟩) : Gives v.neg ⟨m, n, -A⟩ :=
  gives_of_yields (yields_neg hv.isReal) ⟨_, rfl, hv.tensor_holds.map _⟩

theorem transpose (hv : v.Holds ⟨m, n, A⟩) : v.transpose.Holds ⟨n, m, A.transpose⟩ := by
  obtain ⟨hnumeric, hparts⟩ :=
    NumberArray.transpose_isNumeric ((toArray_kind hv.isReal).2.mpr hv.isNumeric)
  refine ⟨hnumeric, ?_⟩
  change (v.toArray.transpose.realParts).Holds _
  rw [hparts]
  exact hv.tensor_holds.transpose

theorem div (hv : v.Holds ⟨m, n, A⟩) (hw : w.Holds (.scalar y)) (hy : y ≠ 0) :
    Gives (v.div w) ⟨m, n, y⁻¹ • A⟩ := by
  have hitem := hw.tensor_holds.item?_eq
  have hyields := yields_div hv.isReal hw.isReal (fun z hz => by
    rw [hitem] at hz
    exact Option.some.inj hz ▸ hy)
  rw [hitem] at hyields
  refine gives_of_yields hyields ⟨_, Tensor.zipWith_scalar _ _ y, ?_⟩
  have hquotient : A.map (fun x => x / y) = y⁻¹ • A := by
    ext i j
    simp [div_eq_inv_mul]
  exact hquotient ▸ hv.tensor_holds.map _

end Sums

section Products

theorem smul {A : Matrix (Fin m) (Fin n) ℝ} (hv : v.Holds (.scalar x)) (hw : w.Holds ⟨m, n, A⟩) :
    Gives (v.mul w) ⟨m, n, x • A⟩ := by
  have hyields := yields_mul hv.isReal hw.isReal
  rw [hv.tensor_holds.item?_eq] at hyields
  exact gives_of_yields hyields ⟨_, Tensor.scalar_zipWith _ x _, hw.tensor_holds.map _⟩

/-- The number may stand on the right. A left factor with one entry is a number, too, and comes
first. -/
theorem mul_scalar {A : Matrix (Fin m) (Fin n) ℝ} (hv : v.Holds ⟨m, n, A⟩) (hw : w.Holds (.scalar y)) :
    Gives (v.mul w) ⟨m, n, y • A⟩ := by
  cases hx : v.tensor.item? with
  | some x =>
    have hscalar := hv.tensor_holds.eq_scalar hx
    have hproduct := smul (hscalar ▸ hv) hw
    have hcomm : (⟨1, 1, x • .of fun _ _ => y⟩ : SizedMatrix) = ⟨1, 1, y • .of fun _ _ => x⟩ :=
      congrArg (SizedMatrix.mk 1 1) (Matrix.ext fun _ _ => mul_comm x y)
    cases hscalar
    exact hcomm ▸ hproduct
  | none =>
    have hyields := yields_mul hv.isReal hw.isReal
    rw [hx, hw.tensor_holds.item?_eq] at hyields
    refine gives_of_yields hyields ⟨_, Tensor.zipWith_scalar _ _ y, ?_⟩
    have hscaled : A.map (fun x => x * y) = y • A := by
      ext i j
      exact mul_comm _ _
    exact hscaled ▸ hv.tensor_holds.map _

/-- Where matrices can be multiplied, a factor with one entry may be taken for a number. -/
theorem mul {A : Matrix (Fin m) (Fin k) ℝ} {B : Matrix (Fin k) (Fin n) ℝ} (hv : v.Holds ⟨m, k, A⟩)
    (hw : w.Holds ⟨k, n, B⟩) : Gives (v.mul w) ⟨m, n, A * B⟩ := by
  cases hx : v.tensor.item? with
  | some x =>
    have hscalar := hv.tensor_holds.eq_scalar hx
    cases hscalar
    have hproduct : (.of fun _ _ => x : Matrix (Fin 1) (Fin 1) ℝ) * B = x • B := by
      ext i j
      rw [Matrix.mul_apply, Fin.sum_univ_one, Subsingleton.elim i 0]
      rfl
    exact hproduct ▸ smul hv hw
  | none =>
    cases hy : w.tensor.item? with
    | some y =>
      have hscalar := hw.tensor_holds.eq_scalar hy
      cases hscalar
      have hproduct : A * (.of fun _ _ => y : Matrix (Fin 1) (Fin 1) ℝ) = y • A := by
        ext i j
        rw [Matrix.mul_apply, Fin.sum_univ_one, Subsingleton.elim j 0]
        exact mul_comm _ _
      exact hproduct ▸ mul_scalar hv hw
    | none =>
      have hyields := yields_mul hv.isReal hw.isReal
      rw [hx, hy] at hyields
      refine gives_of_yields hyields ⟨_, ?_, .matrix (A * B)⟩
      rw [hv.tensor_holds.eq_ofMatrix hx, hw.tensor_holds.eq_ofMatrix hy]
      exact Tensor.mul?_matrices A B

end Products

section Powers

theorem exists_scalar? (hv : v.Holds (.scalar x)) : ∃ a, v.scalar? = some a ∧ a.IsReal ∧ a.value = x := by
  obtain ⟨hitem, hreal⟩ := scalar?_spec hv.isReal
  rw [hv.tensor_holds.item?_eq] at hitem
  obtain ⟨a, ha, hvalue⟩ := Option.map_eq_some_iff.mp hitem.symm
  exact ⟨a, ha, hreal a ha, hvalue⟩

/-- A power of a number is that of the reals, where this is real. -/
theorem pow_scalar (hv : v.Holds (.scalar x)) (hw : w.Holds (.scalar y)) (hzero : x = 0 → 0 ≤ y)
    (hneg : x < 0 → ∃ p : ℤ, (p : ℝ) = y) : Gives (v.pow w) (.scalar (x ^ y)) := by
  obtain ⟨a, ha, hareal, rfl⟩ := hv.exists_scalar?
  obtain ⟨b, hb, hbreal, rfl⟩ := hw.exists_scalar?
  have hpower : Number.realPower? a.value b.value = some (a.value ^ b.value) := by
    refine if_neg ?_
    rintro (⟨hx, hy⟩ | ⟨hx, hy⟩)
    · exact absurd (hzero hx) (not_le.mpr hy)
    · obtain ⟨p, hp⟩ := hneg hx
      exact hy (by rw [← hp, Int.floor_intCast])
  have hspec := Number.pow_spec hareal hbreal
  rw [hpower] at hspec
  have hpow : v.pow w = (Number.pow a b).map plain := by simp only [pow, ha, hb]
  rw [hpow]
  exact gives_of_yields (yields_plain hspec) ⟨_, rfl, .scalar _⟩

/-- A whole power of a square matrix, which has an inverse if the exponent is negative. -/
theorem zpow {A : Matrix (Fin n) (Fin n) ℝ} {p : ℤ} (hv : v.Holds ⟨n, n, A⟩)
    (hw : w.Holds (.scalar p)) (hA : p < 0 → IsUnit A.det) : Gives (v.pow w) ⟨n, n, A ^ p⟩ := by
  cases hx : v.tensor.item? with
  | some x =>
    have hscalar := hv.tensor_holds.eq_scalar hx
    cases hscalar
    have hne (hp : p < 0) : x ≠ 0 := by
      have hunit := hA hp
      rw [Matrix.det_fin_one] at hunit
      exact hunit.ne_zero
    have hpower := pow_scalar hv hw (fun hx => ?_) fun _ => ⟨p, rfl⟩
    · rw [SizedMatrix.single_zpow hne]
      rwa [Real.rpow_intCast] at hpower
    · exact_mod_cast not_lt.mp fun hp => hne hp hx
  | none =>
    obtain ⟨b, hb, hbreal, hvalue⟩ := hw.exists_scalar?
    have hnone : v.scalar? = none := by
      have hitem := (scalar?_spec hv.isReal).1
      rw [hx] at hitem
      exact Option.map_eq_none_iff.mp hitem.symm
    have hexponent : b.wholeExponent = .ok p := by
      have hfloor : ⌊b.value⌋ = p := by rw [hvalue, Int.floor_intCast]
      rw [(Number.wholeExponent_eq hbreal).1 (by rw [hfloor, hvalue]), hfloor]
    have hstores : v.toArray.Stores A :=
      ⟨(toArray_kind hv.isReal).2.mpr hv.isNumeric, hv.tensor_holds.eq_ofMatrix hx⟩
    obtain ⟨c, hc, hpower⟩ := hstores.power hA
    have hpow : v.pow w = .ok (ofArray c) := by
      simp only [pow, hb, hnone, hexponent, ok_bind, hc]
      rfl
    obtain ⟨hnumeric, htensor⟩ := ofArray_spec hpower.isNumeric
    refine ⟨_, hpow, hnumeric, ?_⟩
    rw [htensor, hpower.realParts_eq]
    exact .matrix _

end Powers

end Holds

/-- Blocks that fit together are put together to the matrix that they make up. -/
theorem gives_block {rows : List (List (Value ℝ))} {blocks : List (List SizedMatrix)}
    (h : List.Forall₂ (List.Forall₂ Holds) rows blocks) (hM : SizedMatrix.IsBlock blocks M) :
    Gives (block rows) M := by
  have hentry {row : List (Value ℝ)} {Ms : List SizedMatrix} (hrow : List.Forall₂ Holds row Ms) :
      row.map (fun v => v.tensor.atLeast2) = Ms.map Tensor.ofSized := by
    induction hrow with
    | nil => rfl
    | cons hv _ ih => rw [List.map_cons, List.map_cons, ih, hv.tensor_holds.atLeast2]; rfl
  have htensors : (rows.map fun row => row.map fun v => v.tensor.atLeast2) =
      blocks.map fun row => row.map Tensor.ofSized := by
    clear hM
    induction h with
    | nil => rfl
    | cons hrow _ ih => rw [List.map_cons, List.map_cons, ih, hentry hrow]
  have hnumeric : ∀ row ∈ rows, ∀ v ∈ row, v.IsNumeric := by
    intro row hrow v hv
    obtain ⟨Ms, -, hMs⟩ := exists_mem_of_forall₂ h.flip hrow
    obtain ⟨N, -, hN⟩ := exists_mem_of_forall₂ hMs.flip hv
    exact hN.isNumeric
  have hspec := block_spec fun row hrow v hv => (hnumeric row hrow v hv).isReal
  rw [htensors, Tensor.blocks?_ofSized hM] at hspec
  obtain ⟨c, hc, hparts, hkind⟩ := hspec
  obtain ⟨Ms, hMs, N, hN⟩ := hM.exists_mem
  obtain ⟨row, hrow, hvalues⟩ := exists_mem_of_forall₂ h hMs
  obtain ⟨v, hv, -⟩ := exists_mem_of_forall₂ hvalues hN
  have hholds : c.realParts.Holds M := by
    rw [hparts]
    exact .matrix M.entries
  exact ⟨_, hc, hkind.mpr ⟨row, hrow, v, hv, hnumeric row hrow v hv⟩, hholds⟩

end Value
end WeakForm
