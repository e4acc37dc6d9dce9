import WeakForm.Proofs.Tensor.Maps
import WeakForm.Proofs.Value.RealNumbers
import WeakForm.Value.Power

/-!
# Arrays of real numbers

Over the reals whole numbers do not wrap around, so an array of whole or real numbers may be replaced
by the array of those numbers as reals: sums, products, quotients, blocks and powers of both are the
same. Truth values count as numbers as long as something else than truth values is combined with
them.
-/

namespace WeakForm

theorem orShapeMismatch_eq_ok {β : Type} {x : Option β} {b : β} :
    (orShapeMismatch x : Except (Error ℝ) β) = .ok b ↔ x = some b := by
  cases x <;> simp [orShapeMismatch]

/-- The real number of a whole one in an array. -/
def Whole.cast (n : Whole ℝ) : ℝ := n.value

/-- The number of a truth value in an array. -/
noncomputable def Truth.cast (b : Truth) : ℝ := Number.integerOfFlag b.holds

theorem Truth.cast_zero : Truth.cast 0 = 0 := Int.cast_zero

theorem Whole.respectsSums_cast : RespectsSums Whole.cast where
  map_zero := Int.cast_zero
  map_add a b := Int.cast_add a.value b.value
  map_mul a b := Int.cast_mul a.value b.value

namespace NumberKind

/-- Kinds whose numbers are real. -/
def IsReal (k : NumberKind) : Prop := k = .flag ∨ k = .integer ∨ k = .real

/-- Kinds whose numbers are real and no truth values. -/
def IsNumeric (k : NumberKind) : Prop := k = .integer ∨ k = .real

theorem IsNumeric.isReal {k : NumberKind} (h : k.IsNumeric) : k.IsReal := .inr h

theorem wider_isReal {k l : NumberKind} (hk : k.IsReal) (hl : l.IsReal) :
    (k.wider l).IsReal ∧ k.rank ≤ (k.wider l).rank ∧ l.rank ≤ (k.wider l).rank := by
  rcases hk with rfl | rfl | rfl <;> rcases hl with rfl | rfl | rfl <;> simp [wider, rank, IsReal]

theorem wider_isNumeric_iff {k l : NumberKind} (hk : k.IsReal) (hl : l.IsReal) :
    (k.wider l).IsNumeric ↔ k.IsNumeric ∨ l.IsNumeric := by
  rcases hk with rfl | rfl | rfl <;> rcases hl with rfl | rfl | rfl <;>
    simp [wider, rank, IsNumeric]

theorem IsReal.eq_flag_of_rank_le {k : NumberKind} (h : k.IsReal) (hle : k.rank ≤ flag.rank) :
    k = .flag := by
  rcases h with rfl | rfl | rfl <;> simp [rank] at hle ⊢

theorem IsReal.eq_integer_of_rank_le {k : NumberKind} (h : k.IsReal)
    (hle : k.rank ≤ integer.rank) : k = .flag ∨ k = .integer := by
  rcases h with rfl | rfl | rfl <;> simp [rank] at hle ⊢

end NumberKind

namespace NumberArray

variable {a b : NumberArray ℝ}

/-- The entries of an array of truth values as reals. -/
theorem realParts_of_truths (ha : a.kind = .flag) : a.realParts = a.toTruths.map Truth.cast := by
  cases a <;> simp only [kind, reduceCtorEq] at ha
  simp only [realParts, toTruths, numbers, Tensor.map_map]
  rfl

/-- The entries of an array of truth values or whole numbers as reals. -/
theorem realParts_of_wholes (ha : a.kind = .flag ∨ a.kind = .integer) :
    a.realParts = a.toWholes.map Whole.cast := by
  cases a with
  | flags t =>
    simp only [realParts, toWholes, numbers, Tensor.map_map]
    rfl
  | integers t =>
    simp only [realParts, toWholes, numbers, Tensor.map_map]
    rfl
  | naturals t => simp [kind] at ha
  | reals t => simp [kind] at ha
  | complexes t => simp [kind] at ha
  | mixed t => simp [kind] at ha

/-- The only entry of an array as a real number. -/
theorem item?_realParts (a : NumberArray ℝ) (ha : a.kind.IsReal) :
    a.realParts.item? = a.item?.map Number.value := by
  have hnumbers : a.realParts = a.numbers.map Number.value := by
    cases a with
    | reals t =>
      simp only [realParts, numbers, Tensor.map_map]
      exact (Tensor.map_id t).symm
    | _ => rfl
  rw [hnumbers, Tensor.item?_map]
  rfl

/-- The only entry of an array is a number of its kind. -/
theorem isNumeric_of_item? (ha : a.kind.IsNumeric) {x : Number ℝ} (hx : a.item? = some x) :
    x.IsNumeric := by
  unfold item? at hx
  cases a with
  | integers t =>
    rw [numbers, Tensor.item?_map] at hx
    obtain ⟨n, -, rfl⟩ := Option.map_eq_some_iff.mp hx
    exact trivial
  | reals t =>
    rw [numbers, Tensor.item?_map] at hx
    obtain ⟨n, -, rfl⟩ := Option.map_eq_some_iff.mp hx
    exact trivial
  | flags t => simp [kind, NumberKind.IsNumeric] at ha
  | naturals t => simp [kind, NumberKind.IsNumeric] at ha
  | complexes t => simp [kind, NumberKind.IsNumeric] at ha
  | mixed t => simp [kind, NumberKind.IsNumeric] at ha

/-- The result of an operation is the given array of real numbers, or nothing. -/
def Yields (x : Except (Error ℝ) (NumberArray ℝ)) : Option (Tensor ℝ) → Prop
  | some t => ∃ c, x = .ok c ∧ c.kind.IsNumeric ∧ c.realParts = t
  | none => ∃ e, x = .error e

theorem yields_integers (t : Option (Tensor (Whole ℝ))) :
    Yields (orShapeMismatch (t.map integers)) (t.map (Tensor.map Whole.cast)) := by
  cases t with
  | none => exact ⟨_, rfl⟩
  | some t => exact ⟨integers t, rfl, .inl rfl, realParts_of_wholes (.inr rfl)⟩

theorem yields_reals (t : Option (Tensor ℝ)) : Yields (orShapeMismatch (t.map reals)) t := by
  cases t with
  | none => exact ⟨_, rfl⟩
  | some t => exact ⟨reals t, rfl, .inr rfl, rfl⟩

/-- Where two kinds meet in the whole numbers, both are truth values or whole numbers. -/
theorem wholes_of_wider {k l : NumberKind} (hk : k.IsReal) (hl : l.IsReal)
    (h : k.wider l = .integer) : (k = .flag ∨ k = .integer) ∧ (l = .flag ∨ l = .integer) := by
  rcases hk with rfl | rfl | rfl <;> rcases hl with rfl | rfl | rfl <;>
    simp [NumberKind.wider, NumberKind.rank] at h ⊢

/-- Sums and products of arrays are those of the arrays of real numbers. -/
theorem yields_combine
    {f : {β : Type} → [Zero β] → [Add β] → [Mul β] → Tensor β → Tensor β → Option (Tensor β)}
    (hf : ∀ s t : Tensor (Whole ℝ),
      f (s.map Whole.cast) (t.map Whole.cast) = (f s t).map (Tensor.map Whole.cast))
    (ha : a.kind.IsReal) (hb : b.kind.IsReal) (hab : a.kind.IsNumeric ∨ b.kind.IsNumeric) :
    Yields (combine f a b) (f a.realParts b.realParts) := by
  unfold combine
  rcases (NumberKind.wider_isNumeric_iff ha hb).mpr hab with h | h
  · obtain ⟨hka, hkb⟩ := wholes_of_wider ha hb h
    rw [h, realParts_of_wholes hka, realParts_of_wholes hkb, hf]
    exact yields_integers _
  · rw [h]
    exact yields_reals _

theorem yields_add (ha : a.kind.IsReal) (hb : b.kind.IsReal)
    (hab : a.kind.IsNumeric ∨ b.kind.IsNumeric) :
    Yields (add a b) (Tensor.zipWith (· + ·) a.realParts b.realParts) :=
  yields_combine (fun s t => Tensor.zipWith_map s t Whole.respectsSums_cast.map_zero
    fun x y => (Whole.respectsSums_cast.map_add x y).symm) ha hb hab

theorem yields_times (ha : a.kind.IsReal) (hb : b.kind.IsReal)
    (hab : a.kind.IsNumeric ∨ b.kind.IsNumeric) :
    Yields (times a b) (Tensor.zipWith (· * ·) a.realParts b.realParts) :=
  yields_combine (fun s t => Tensor.zipWith_map s t Whole.respectsSums_cast.map_zero
    fun x y => (Whole.respectsSums_cast.map_mul x y).symm) ha hb hab

theorem yields_mul (ha : a.kind.IsReal) (hb : b.kind.IsReal)
    (hab : a.kind.IsNumeric ∨ b.kind.IsNumeric) :
    Yields (mul a b) (a.realParts.mul? b.realParts) :=
  yields_combine (fun s t => Tensor.mul?_map s t Whole.respectsSums_cast) ha hb hab

theorem yields_sub (ha : a.kind.IsReal) (hb : b.kind.IsReal)
    (hab : a.kind.IsNumeric ∨ b.kind.IsNumeric) :
    Yields (sub a b) (Tensor.zipWith (· - ·) a.realParts b.realParts) := by
  unfold sub
  rcases (NumberKind.wider_isNumeric_iff ha hb).mpr hab with h | h
  · obtain ⟨hka, hkb⟩ := wholes_of_wider ha hb h
    have hcast (x y : Whole ℝ) : x.cast - y.cast = (x - y).cast := (Int.cast_sub x.value y.value).symm
    rw [h, realParts_of_wholes hka, realParts_of_wholes hkb,
      Tensor.zipWith_map _ _ Whole.respectsSums_cast.map_zero hcast]
    exact yields_integers _
  · rw [h]
    exact yields_reals _

theorem yields_quotient (ha : a.kind.IsReal) (hb : b.kind.IsReal) :
    Yields (quotient a b) (Tensor.zipWith (· / ·) a.realParts b.realParts) := by
  unfold quotient
  rcases (NumberKind.wider_isReal ha hb).1 with h | h | h
  all_goals
    rw [h]
    exact yields_reals _

theorem yields_neg (ha : a.kind.IsNumeric) : Yields a.neg (some (a.realParts.map (- ·))) := by
  rcases ha with ha | ha
  · cases a <;> simp only [kind, reduceCtorEq] at ha
    rename_i t
    refine ⟨integers (t.map (- ·)), rfl, .inl rfl, ?_⟩
    rw [realParts_of_wholes (.inr rfl), realParts_of_wholes (.inr rfl)]
    simp only [toWholes, Tensor.map_map]
    congr 1
    funext n
    exact Int.cast_neg n.value
  · cases a <;> simp only [kind, reduceCtorEq] at ha
    exact ⟨_, rfl, .inr rfl, rfl⟩

theorem transpose_isNumeric (ha : a.kind.IsNumeric) :
    a.transpose.kind.IsNumeric ∧ a.transpose.realParts = a.realParts.transpose := by
  rcases ha with ha | ha
  · cases a <;> simp only [kind, reduceCtorEq] at ha
    rename_i t
    refine ⟨.inl rfl, ?_⟩
    rw [realParts_of_wholes (.inr rfl), realParts_of_wholes (.inr rfl),
      Tensor.transpose_map _ Whole.respectsSums_cast.map_zero]
    rfl
  · cases a <;> simp only [kind, reduceCtorEq] at ha
    exact ⟨.inr rfl, rfl⟩

theorem atLeast2_isReal (ha : a.kind.IsReal) :
    a.atLeast2.kind = a.kind ∧ a.atLeast2.realParts = a.realParts.atLeast2 := by
  cases a with
  | flags t =>
    refine ⟨rfl, ?_⟩
    simp only [atLeast2, rearrange, realParts, numbers, Tensor.atLeast2_map]
  | integers t =>
    refine ⟨rfl, ?_⟩
    simp only [atLeast2, rearrange, realParts, numbers, Tensor.atLeast2_map]
  | reals t => exact ⟨rfl, rfl⟩
  | naturals t => simp [kind, NumberKind.IsReal] at ha
  | complexes t => simp [kind, NumberKind.IsReal] at ha
  | mixed t => simp [kind, NumberKind.IsReal] at ha

section Blocks

/-- The common kind of real kinds is real and as wide as each of them. -/
theorem foldl_wider {kinds : List NumberKind} (hkinds : ∀ l ∈ kinds, l.IsReal) {k : NumberKind}
    (hk : k.IsReal) : (kinds.foldl NumberKind.wider k).IsReal ∧
      k.rank ≤ (kinds.foldl NumberKind.wider k).rank ∧
      ∀ l ∈ kinds, l.rank ≤ (kinds.foldl NumberKind.wider k).rank := by
  induction kinds generalizing k with
  | nil => exact ⟨hk, le_rfl, by simp⟩
  | cons l kinds ih =>
    obtain ⟨hl, hkinds⟩ := List.forall_mem_cons.mp hkinds
    obtain ⟨hreal, hleft, hright⟩ := NumberKind.wider_isReal hk hl
    obtain ⟨hfold, hle, hall⟩ := ih hkinds hreal
    exact ⟨hfold, hleft.trans hle, List.forall_mem_cons.mpr ⟨hright.trans hle, hall⟩⟩

/-- Kinds have truth values in common only if they all are truth values. -/
theorem foldl_wider_isNumeric {kinds : List NumberKind} (hkinds : ∀ l ∈ kinds, l.IsReal)
    {k : NumberKind} (hk : k.IsReal) :
    (kinds.foldl NumberKind.wider k).IsNumeric ↔ k.IsNumeric ∨ ∃ l ∈ kinds, l.IsNumeric := by
  induction kinds generalizing k with
  | nil => simp
  | cons l kinds ih =>
    obtain ⟨hl, hkinds⟩ := List.forall_mem_cons.mp hkinds
    rw [List.foldl_cons, ih hkinds (NumberKind.wider_isReal hk hl).1,
      NumberKind.wider_isNumeric_iff hk hl, List.exists_mem_cons_iff, or_assoc]

theorem commonKind_isReal {arrays : List (NumberArray ℝ)} (h : ∀ a ∈ arrays, a.kind.IsReal) :
    (commonKind arrays).IsReal ∧ (∀ a ∈ arrays, a.kind.rank ≤ (commonKind arrays).rank) ∧
      ((commonKind arrays).IsNumeric ↔ ∃ a ∈ arrays, a.kind.IsNumeric) := by
  have hkinds : ∀ l ∈ arrays.map kind, l.IsReal := by simpa using h
  obtain ⟨hreal, -, hall⟩ := foldl_wider hkinds (.inl rfl)
  have hnumeric := foldl_wider_isNumeric hkinds (.inl rfl)
  have hflag : ¬ NumberKind.flag.IsNumeric := by simp [NumberKind.IsNumeric]
  exact ⟨hreal, fun a ha => hall _ (List.mem_map_of_mem ha), by
    simpa [commonKind, hflag] using hnumeric⟩

/-- An array keeps its entries in a wider kind. -/
theorem castTo_eq (ha : a.kind.IsReal) {k : NumberKind} (hk : k.IsReal)
    (hle : a.kind.rank ≤ k.rank) : (a.castTo k).kind = k ∧ (a.castTo k).realParts = a.realParts := by
  rcases hk with rfl | rfl | rfl
  · have hflag : a.kind = .flag := by
      rcases ha with ha | ha | ha <;> rw [ha] at hle ⊢ <;> simp [NumberKind.rank] at hle
    cases a <;> simp only [kind, reduceCtorEq] at hflag
    exact ⟨rfl, rfl⟩
  · have hwhole : a.kind = .flag ∨ a.kind = .integer := by
      rcases ha with ha | ha | ha <;> rw [ha] at hle ⊢ <;> simp [NumberKind.rank] at hle ⊢
    exact ⟨rfl, by rw [realParts_of_wholes hwhole]; exact realParts_of_wholes (.inr rfl)⟩
  · exact ⟨rfl, rfl⟩

theorem unified_eq {row : List (NumberArray ℝ)} (h : ∀ a ∈ row, a.kind.IsReal) :
    (∀ a ∈ unified row, a.kind = commonKind row) ∧
      (unified row).map realParts = row.map realParts := by
  obtain ⟨hreal, hle, -⟩ := commonKind_isReal h
  constructor
  · intro b hb
    obtain ⟨a, ha, rfl⟩ := List.mem_map.mp hb
    exact (castTo_eq (h a ha) hreal (hle a ha)).1
  · rw [unified, List.map_map]
    exact List.map_congr_left fun a ha => (castTo_eq (h a ha) hreal (hle a ha)).2

variable {rows : List (List (NumberArray ℝ))}

theorem unified_isReal (h : ∀ row ∈ rows, ∀ a ∈ row, a.kind.IsReal) :
    ∀ row ∈ rows.map unified, ∀ a ∈ row, a.kind.IsReal := by
  intro row' hrow' a ha
  obtain ⟨row, hrow, rfl⟩ := List.mem_map.mp hrow'
  rw [(unified_eq (h row hrow)).1 a ha]
  exact (commonKind_isReal (h row hrow)).1

/-- Unified rows are of truth values only if all of their arrays are. -/
theorem exists_unified_isNumeric (h : ∀ row ∈ rows, ∀ a ∈ row, a.kind.IsReal) :
    (∃ a ∈ (rows.map unified).flatten, a.kind.IsNumeric) ↔
      ∃ row ∈ rows, ∃ a ∈ row, a.kind.IsNumeric := by
  constructor
  · rintro ⟨a, ha, hnumeric⟩
    obtain ⟨row', hrow', ha⟩ := List.mem_flatten.mp ha
    obtain ⟨row, hrow, rfl⟩ := List.mem_map.mp hrow'
    rw [(unified_eq (h row hrow)).1 a ha] at hnumeric
    exact ⟨row, hrow, (commonKind_isReal (h row hrow)).2.2.mp hnumeric⟩
  · rintro ⟨row, hrow, a, ha, hnumeric⟩
    have hmem : a.castTo (commonKind row) ∈ unified row := List.mem_map_of_mem ha
    refine ⟨_, List.mem_flatten.mpr ⟨_, List.mem_map_of_mem hrow, hmem⟩, ?_⟩
    rw [(unified_eq (h row hrow)).1 _ hmem]
    exact (commonKind_isReal (h row hrow)).2.2.mpr ⟨a, ha, hnumeric⟩

/-- Blocks of entries that are all mapped alike. -/
theorem blocks?_of_map {β : Type} [Zero β] {φ : β → ℝ} (h0 : φ 0 = 0)
    {f : NumberArray ℝ → Tensor β} (h : ∀ row ∈ rows, ∀ a ∈ row, a.realParts = (f a).map φ) :
    Tensor.blocks? (rows.map fun row => row.map realParts) =
      (Tensor.blocks? (rows.map fun row => row.map f)).map (Tensor.map φ) := by
  rw [← Tensor.blocks?_map h0, List.map_map]
  congr 1
  refine List.map_congr_left fun row hrow => ?_
  rw [Function.comp_apply, List.map_map]
  exact List.map_congr_left (h row hrow)

/-- Blocks of arrays of real numbers, which are truth values only if all of them are. -/
theorem block_spec (h : ∀ row ∈ rows, ∀ a ∈ row, a.kind.IsReal) :
    match Tensor.blocks? (rows.map fun row => row.map realParts) with
    | some t => ∃ c, block rows = .ok c ∧ c.realParts = t ∧
        (c.kind.IsNumeric ↔ ∃ row ∈ rows, ∃ a ∈ row, a.kind.IsNumeric)
    | none => ∃ e, block rows = .error e := by
  have hunified := unified_isReal h
  have hparts : (rows.map unified).map (fun row => row.map realParts) =
      rows.map fun row => row.map realParts := by
    rw [List.map_map]
    exact List.map_congr_left fun row hrow => (unified_eq (h row hrow)).2
  have hall : ∀ a ∈ (rows.map unified).flatten, a.kind.IsReal := by
    intro a ha
    obtain ⟨row, hrow, ha⟩ := List.mem_flatten.mp ha
    exact hunified row hrow a ha
  obtain ⟨hreal, hle, hnumeric⟩ := commonKind_isReal hall
  rw [exists_unified_isNumeric h] at hnumeric
  have hrank (row) (hrow : row ∈ rows.map unified) (a) (ha : a ∈ row) :=
    hle a (List.mem_flatten.mpr ⟨row, hrow, ha⟩)
  unfold block
  dsimp only
  rw [← hparts, ← hnumeric]
  rcases hreal with hk | hk | hk <;> rw [hk] at hrank ⊢
  · rw [blocks?_of_map Truth.cast_zero (f := toTruths) fun row hrow a ha =>
      realParts_of_truths ((hunified row hrow a ha).eq_flag_of_rank_le (hrank row hrow a ha))]
    cases Tensor.blocks? ((rows.map unified).map fun row => row.map toTruths) with
    | none => exact ⟨_, rfl⟩
    | some t => exact ⟨flags t, rfl, realParts_of_truths rfl, Iff.rfl⟩
  · rw [blocks?_of_map Whole.respectsSums_cast.map_zero (f := toWholes) fun row hrow a ha =>
      realParts_of_wholes ((hunified row hrow a ha).eq_integer_of_rank_le (hrank row hrow a ha))]
    cases Tensor.blocks? ((rows.map unified).map fun row => row.map toWholes) with
    | none => exact ⟨_, rfl⟩
    | some t => exact ⟨integers t, rfl, realParts_of_wholes (.inr rfl), Iff.rfl⟩
  · cases Tensor.blocks? ((rows.map unified).map fun row => row.map realParts) with
    | none => exact ⟨_, rfl⟩
    | some t => exact ⟨reals t, rfl, rfl, Iff.rfl⟩

end Blocks

end NumberArray
end WeakForm

/-!
## Powers of arrays of real numbers

The powers of a matrix of whole or real numbers depend on the real numbers that its entries stand
for, not on the kind in which they are held.
-/

namespace WeakForm
namespace NumberArray

variable {a b : NumberArray ℝ}

/-- Arrays of the same real numbers, none of them truth values. -/
structure SameReals (a b : NumberArray ℝ) : Prop where
  left : a.kind.IsNumeric
  right : b.kind.IsNumeric
  realParts_eq : a.realParts = b.realParts

theorem alike_of_yields {x y : Except (Error ℝ) (NumberArray ℝ)} {t : Option (Tensor ℝ)}
    (hx : Yields x t) (hy : Yields y t) : Alike SameReals x y := by
  cases t with
  | none =>
    obtain ⟨e, rfl⟩ := hx
    obtain ⟨e', rfl⟩ := hy
    exact .error e e'
  | some t =>
    obtain ⟨a, rfl, ha, hat⟩ := hx
    obtain ⟨b, rfl, hb, hbt⟩ := hy
    exact .ok ⟨ha, hb, hat.trans hbt.symm⟩

theorem alike_mul {a' b' : NumberArray ℝ} (ha : SameReals a a') (hb : SameReals b b') :
    Alike SameReals (a.mul b) (a'.mul b') := by
  have hright := yields_mul ha.right.isReal hb.right.isReal (.inl ha.right)
  rw [← ha.realParts_eq, ← hb.realParts_eq] at hright
  exact alike_of_yields (yields_mul ha.left.isReal hb.left.isReal (.inl ha.left)) hright

/-- The shape of an array is that of its real numbers. -/
theorem shape_realParts (a : NumberArray ℝ) : a.realParts.shape = a.shape := by
  cases a <;> rfl

theorem yields_identities (ha : a.kind.IsNumeric) :
    Yields a.identities (a.realParts.mapMatrices? fun A => some (.identity A.rows)) := by
  unfold identities
  rcases ha with ha | ha <;> cases a <;> simp only [kind, reduceCtorEq] at ha
  · rename_i t
    have hidentity (A : DenseMatrix (Whole ℝ)) :
        some (DenseMatrix.identity (A.map Whole.cast).rows) =
          (some (DenseMatrix.identity A.rows)).map (DenseMatrix.map Whole.cast) := by
      rw [Option.map_some, DenseMatrix.identity_map Whole.respectsSums_cast.map_zero Int.cast_one]
      rfl
    rw [realParts_of_wholes (.inr rfl),
      Tensor.mapMatrices?_map Whole.respectsSums_cast.map_zero _ hidentity]
    exact yields_integers _
  · exact yields_reals _

theorem yields_inverse (ha : a.kind.IsNumeric) :
    Yields a.inverse (a.realParts.mapMatrices? DenseMatrix.inverse?) := by
  unfold inverse
  rcases ha with ha | ha <;> cases a <;> simp only [kind, reduceCtorEq] at ha
  all_goals
    rename_i t
    dsimp only
    generalize Tensor.mapMatrices? (DenseMatrix.inverse? (α := ℝ)) _ = inverted
    cases inverted with
    | none => exact ⟨_, rfl⟩
    | some t => exact ⟨reals t, rfl, .inr rfl, rfl⟩

theorem alike_squarings (fuel n : ℕ) {p q : Option (NumberArray ℝ)} (hpq : Option.Rel SameReals p q)
    (hab : SameReals a b) : Alike SameReals (squarings fuel n p a) (squarings fuel n q b) := by
  induction fuel generalizing n p q a b with
  | zero =>
    cases hpq with
    | some h => exact .ok h
    | none => exact .ok hab
  | succ fuel ih =>
    -- what is done with the next product does not depend on how that was found
    have hrest {p' q' : Option (NumberArray ℝ)} (hpq' : Option.Rel SameReals p' q') :
        Alike SameReals
          (if n ≤ 1 then pure (p'.getD a)
            else a.mul a >>= fun squared => squarings fuel (n / 2) p' squared)
          (if n ≤ 1 then pure (q'.getD b)
            else b.mul b >>= fun squared => squarings fuel (n / 2) q' squared) := by
      split_ifs
      · cases hpq' with
        | some h => exact .ok h
        | none => exact .ok hab
      · exact (alike_mul hab hab).bind fun _ _ _ _ hsquared => ih _ hpq' hsquared
    simp only [squarings]
    by_cases heven : n % 2 = 0
    · rw [if_pos heven, if_pos heven]
      exact hrest hpq
    · rw [if_neg heven, if_neg heven]
      cases hpq with
      | some h =>
        have hproduct := (alike_mul h hab).map (S := Option.Rel SameReals) fun _ _ => .some
        exact hproduct.bind fun _ _ _ _ hpq' => hrest hpq'
      | none => exact hrest (.some hab)

theorem alike_naturalPower (n : ℕ) (hab : SameReals a b) :
    Alike SameReals (a.naturalPower n) (b.naturalPower n) := by
  unfold naturalPower
  split_ifs
  · refine alike_of_yields (yields_identities hab.left) ?_
    rw [hab.realParts_eq]
    exact yields_identities hab.right
  · exact (alike_mul hab hab).bind fun _ _ _ _ hsquared => alike_mul hsquared hab
  · exact alike_squarings n n .none hab

/-- Matrices of the same real numbers have the same powers. -/
theorem alike_power (n : ℤ) (hab : SameReals a b) :
    Alike SameReals (a.power n) (b.power n) := by
  have hmixed {c : NumberArray ℝ} (hc : c.kind.IsNumeric) : c.kind ≠ .mixed := by
    rcases hc with hc | hc <;> simp [hc]
  unfold power
  rw [← shape_realParts a, hab.realParts_eq, shape_realParts b]
  split
  · exact .error _ _
  · rw [if_neg (c := a.kind = _ ∧ _) fun h => hmixed hab.left h.1,
      if_neg (c := b.kind = _ ∧ _) fun h => hmixed hab.right h.1]
    split_ifs
    · exact .error _ _
    · exact alike_naturalPower _ hab
    · have hright := yields_inverse hab.right
      rw [← hab.realParts_eq] at hright
      have hinverse := alike_of_yields (yields_inverse hab.left) hright
      revert hinverse
      generalize a.inverse = x, b.inverse = y
      rintro (h | ⟨e, e'⟩)
      · exact alike_naturalPower _ h
      · exact .error e e'

end NumberArray
end WeakForm
