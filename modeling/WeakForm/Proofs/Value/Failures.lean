import WeakForm.Expression.Evaluation
import WeakForm.Proofs.Outcome
import WeakForm.Proofs.Tensor.Maps

/-!
# Failures of values

Arithmetic may fail for many reasons, but never because a name has no meaning. The entries of a
mixed array are outcomes of their own; those that are no lookup failures are closed under sums and
products, and so are the arrays of them.
-/

namespace WeakForm

variable {α β γ : Type}

/-- Whether a name had no meaning. -/
def Error.isLookup : Error α → Bool
  | .unboundName _ | .undefinedNames _ _ => true
  | _ => false

/-- A result that is not missing because a name had no meaning. -/
def LookedUp (x : Except (Error α) β) : Prop := ∀ e, x = .error e → e.isLookup = false

namespace LookedUp

theorem ok (b : β) : LookedUp (.ok b : Except (Error α) β) := by
  rintro e ⟨⟩

theorem error {e : Error α} (h : e.isLookup = false) :
    LookedUp (.error e : Except (Error α) β) := by
  rintro e' ⟨⟩
  exact h

theorem bind {x : Except (Error α) β} {f : β → Except (Error α) γ} (hx : LookedUp x)
    (hf : ∀ b, LookedUp (f b)) : LookedUp (x >>= f) := by
  cases x with
  | error e => exact error (hx e rfl)
  | ok b => exact hf b

theorem map {x : Except (Error α) β} (hx : LookedUp x) (f : β → γ) : LookedUp (x.map f) := by
  cases x with
  | error e => exact error (hx e rfl)
  | ok b => exact ok (f b)

theorem ite {p : Prop} [Decidable p] {x y : Except (Error α) β} (hx : LookedUp x)
    (hy : LookedUp y) : LookedUp (if p then x else y) := by
  split_ifs
  · exact hx
  · exact hy

theorem mapM {f : β → Except (Error α) γ} {xs : List β} (h : ∀ x ∈ xs, LookedUp (f x)) :
    LookedUp (xs.mapM f) := by
  induction xs with
  | nil => exact ok []
  | cons x xs ih =>
    rw [List.mapM_cons]
    obtain ⟨hx, hxs⟩ := List.forall_mem_cons.mp h
    exact hx.bind fun y => (ih hxs).bind fun ys => ok (y :: ys)

theorem orShapeMismatch (x : Option β) :
    LookedUp (WeakForm.orShapeMismatch x : Except (Error α) β) := by
  cases x with
  | none => exact error rfl
  | some b => exact ok b

end LookedUp

variable [Scalar α]

namespace Number

theorem lookedUp_realOfInteger (n : ℤ) : LookedUp (realOfInteger n : Except (Error α) α) :=
  .ite (.ok _) (.error rfl)

theorem lookedUp_matched (a b : Number α) : LookedUp (matched a b) := by
  unfold matched
  split
  all_goals first
    | exact .ok _
    | exact (lookedUp_realOfInteger _).map _
    | exact .error rfl

theorem lookedUp_add (a b : Number α) : LookedUp (add a b) := (lookedUp_matched a b).map _

theorem lookedUp_sub (a b : Number α) : LookedUp (sub a b) := (lookedUp_matched a b).map _

theorem lookedUp_mul (a b : Number α) : LookedUp (mul a b) := (lookedUp_matched a b).map _

theorem lookedUp_complexInRange (z : ComplexPair α) : LookedUp (complexInRange z) :=
  .ite (.error rfl) (.ok _)

theorem lookedUp_div (a b : Number α) : LookedUp (div a b) := by
  unfold div
  split
  · rename_i e h
    exact .error (lookedUp_matched a b e h)
  · exact .ite (.error rfl) (.ite (.ok _) (.error rfl))
  · exact .ite (.error rfl) (.ok _)
  · exact .ite (.error rfl) (.ok _)

theorem lookedUp_complexPower (z w : ComplexPair α) : LookedUp (complexPower z w) := by
  unfold complexPower
  split
  · exact .ite (lookedUp_complexInRange _) (.ite (.error rfl) (lookedUp_complexInRange _))
  · exact .ite (.ite (.error rfl) (.ok _)) (.ite (.error rfl) (lookedUp_complexInRange _))

theorem lookedUp_realPower (x y : α) : LookedUp (realPower x y) :=
  .ite (.ok _) <| .ite (.error rfl) <| .ite (lookedUp_complexPower _ _) <|
    .ite (.error rfl) (.ok _)

theorem lookedUp_pow (a b : Number α) : LookedUp (pow a b) := by
  unfold pow
  split
  · rename_i e h
    exact .error (lookedUp_matched a b e h)
  · refine .ite (.ok _) ?_
    split
    · exact lookedUp_realPower _ _
    · rename_i h
      exact .error (lookedUp_realOfInteger _ _ h)
    · rename_i h _
      exact .error (lookedUp_realOfInteger _ _ h)
  · exact lookedUp_realPower _ _
  · exact lookedUp_complexPower _ _

theorem lookedUp_wholeExponent (a : Number α) : LookedUp a.wholeExponent := by
  unfold wholeExponent
  split
  · exact .ok _
  · split
    · exact .ite (.ok _) (.error rfl)
    · exact .ite (.error rfl) (.error rfl)
  · exact .error rfl

end Number

/-- An outcome that is no lookup failure. -/
def Outcome.IsSound {α : Type} (x : Outcome α) : Prop :=
  ∀ e : Error α, x = Except.error e → e.isLookup = false

/-- Outcomes that are no lookup failures. -/
abbrev SoundOutcome (α : Type) : Type := { x : Outcome α // x.IsSound }

namespace SoundOutcome

omit [Scalar α] in
theorem combine_lookedUp {f : Number α → Number α → Except (Error α) (Number α)}
    (hf : ∀ x y, LookedUp (f x y)) : ∀ {a b : Outcome α}, a.IsSound →
      b.IsSound → (Outcome.combine f a b).IsSound
  | .ok x, .ok y, _, _ => hf x y
  | .ok _, .error _, _, hb => hb
  | .error _, _, ha, _ => ha

/-- An operation whose own failures are no lookup failures. -/
def combine (f : Number α → Number α → Except (Error α) (Number α))
    (hf : ∀ x y, LookedUp (f x y)) (a b : SoundOutcome α) : SoundOutcome α :=
  ⟨Outcome.combine f a.1 b.1, combine_lookedUp hf a.2 b.2⟩

instance : Zero (SoundOutcome α) := ⟨0, LookedUp.ok (0 : Number α)⟩

instance : Add (SoundOutcome α) := ⟨combine Number.add Number.lookedUp_add⟩

instance : Sub (SoundOutcome α) := ⟨combine Number.sub Number.lookedUp_sub⟩

instance : Mul (SoundOutcome α) := ⟨combine Number.mul Number.lookedUp_mul⟩

instance : Div (SoundOutcome α) := ⟨combine Number.div Number.lookedUp_div⟩

theorem respectsSums : RespectsSums (Subtype.val : SoundOutcome α → Outcome α) :=
  ⟨rfl, fun _ _ => rfl, fun _ _ => rfl⟩

end SoundOutcome

namespace NumberArray

/-- The entries of an array as outcomes that are no failures. -/
def soundOutcomes (a : NumberArray α) : Tensor (SoundOutcome α) :=
  a.numbers.map fun x => ⟨.ok x, LookedUp.ok x⟩

omit [Scalar α] in
theorem outcomes_eq (a : NumberArray α) : a.outcomes = a.soundOutcomes.map Subtype.val := by
  rw [soundOutcomes, Tensor.map_map]
  rfl

omit [Scalar α] in
theorem lookedUp_ofOutcomes {t : Option (Tensor (Outcome α))} {s : Option (Tensor (SoundOutcome α))}
    (h : t = s.map (Tensor.map Subtype.val)) : LookedUp (ofOutcomes t) := by
  subst h
  cases s with
  | none => exact .error rfl
  | some s =>
    have hentries : LookedUp ((s.map Subtype.val).data.toList.mapM id :
        Except (Error α) (List (Number α))) := by
      refine .mapM fun x hx => ?_
      rw [Tensor.data_map, Array.toList_map] at hx
      obtain ⟨y, -, rfl⟩ := List.mem_map.mp hx
      exact y.2
    exact (hentries.bind fun _ => .orShapeMismatch _).bind fun _ => .ok _

theorem lookedUp_combine
    {f : {β : Type} → [Zero β] → [Add β] → [Mul β] → Tensor β → Tensor β → Option (Tensor β)}
    (hf : ∀ s t : Tensor (SoundOutcome α),
      f (s.map Subtype.val) (t.map Subtype.val) = (f s t).map (Tensor.map Subtype.val))
    (a b : NumberArray α) : LookedUp (combine f a b) := by
  unfold combine
  split
  · exact .orShapeMismatch _
  · exact .orShapeMismatch _
  · exact .orShapeMismatch _
  · exact .orShapeMismatch _
  · exact .orShapeMismatch _
  · refine lookedUp_ofOutcomes (s := f a.soundOutcomes b.soundOutcomes) ?_
    rw [outcomes_eq, outcomes_eq]
    exact hf _ _

theorem lookedUp_add (a b : NumberArray α) : LookedUp (add a b) :=
  lookedUp_combine (fun s t => Tensor.zipWith_map s t rfl fun _ _ => rfl) a b

theorem lookedUp_times (a b : NumberArray α) : LookedUp (times a b) :=
  lookedUp_combine (fun s t => Tensor.zipWith_map s t rfl fun _ _ => rfl) a b

theorem lookedUp_mul (a b : NumberArray α) : LookedUp (mul a b) :=
  lookedUp_combine (fun s t => Tensor.mul?_map s t SoundOutcome.respectsSums) a b

theorem lookedUp_sub (a b : NumberArray α) : LookedUp (sub a b) := by
  unfold sub
  split
  · exact .error rfl
  · exact .orShapeMismatch _
  · exact .orShapeMismatch _
  · exact .orShapeMismatch _
  · exact .orShapeMismatch _
  · refine lookedUp_ofOutcomes (s := Tensor.zipWith (· - ·) a.soundOutcomes b.soundOutcomes) ?_
    rw [outcomes_eq, outcomes_eq]
    exact Tensor.zipWith_map _ _ rfl fun _ _ => rfl

theorem lookedUp_quotient (a b : NumberArray α) : LookedUp (quotient a b) := by
  unfold quotient
  split
  · exact .orShapeMismatch _
  · refine lookedUp_ofOutcomes (s := Tensor.zipWith (· / ·) a.soundOutcomes b.soundOutcomes) ?_
    rw [outcomes_eq, outcomes_eq]
    exact Tensor.zipWith_map _ _ rfl fun _ _ => rfl
  · exact .orShapeMismatch _

theorem lookedUp_neg (a : NumberArray α) : LookedUp a.neg := by
  cases a
  · exact .error rfl
  all_goals exact .ok _

theorem lookedUp_squarings (fuel n : ℕ) (product : Option (NumberArray α))
    (square : NumberArray α) : LookedUp (squarings fuel n product square) := by
  induction fuel generalizing n product square with
  | zero => exact .ok _
  | succ fuel ih =>
    unfold squarings
    -- what comes after the next product is known
    have hrest (next : Option (NumberArray α)) :
        LookedUp (if n ≤ 1 then pure (next.getD square) else do
          let squared ← square.mul square
          squarings fuel (n / 2) next squared) :=
      .ite (.ok _) ((lookedUp_mul _ _).bind fun squared => ih _ _ _)
    refine .ite (hrest product) ?_
    cases product with
    | none => exact hrest (some square)
    | some p => exact ((lookedUp_mul p square).map some).bind hrest

theorem lookedUp_naturalPower (a : NumberArray α) (n : ℕ) : LookedUp (a.naturalPower n) :=
  .ite (.orShapeMismatch _) <|
    .ite ((lookedUp_mul a a).bind fun _ => lookedUp_mul _ _) (lookedUp_squarings _ _ _ _)

theorem lookedUp_inverse (a : NumberArray α) : LookedUp a.inverse := by
  unfold inverse
  dsimp only
  split
  · exact .error rfl
  · exact .ok _
  · exact .error rfl

theorem lookedUp_power (a : NumberArray α) (n : ℤ) : LookedUp (a.power n) := by
  unfold power
  split
  · exact .error rfl
  · refine .ite (.error rfl) (.ite (.error rfl) (.ite (lookedUp_naturalPower _ _) ?_))
    split
    · rename_i e h
      exact .error (lookedUp_inverse a e h)
    · exact lookedUp_naturalPower _ _

theorem lookedUp_ofNumberBeside (kind : NumberKind) (x : Number α) :
    LookedUp (ofNumberBeside kind x) := by
  unfold ofNumberBeside
  split
  · split
    · exact .ite (.ok _) (.error rfl)
    · exact .ite (.ok _) (.error rfl)
    · exact .ite (.ok _) (.error rfl)
    · exact (Number.lookedUp_realOfInteger _).map _
    · exact (Number.lookedUp_realOfInteger _).map _
    · exact .ok _
  · exact .ok _

end NumberArray

namespace Value

theorem lookedUp_onArrays {f : NumberArray α → NumberArray α → Except (Error α) (NumberArray α)}
    (hf : ∀ a b, LookedUp (f a b)) (a b : Value α) : LookedUp (onArrays f a b) := by
  unfold onArrays
  split
  · exact (NumberArray.lookedUp_ofNumberBeside _ _).bind fun _ => (hf _ _).map _
  · exact (NumberArray.lookedUp_ofNumberBeside _ _).bind fun _ => (hf _ _).map _
  · exact (hf _ _).map _

theorem lookedUp_times (a b : Value α) : LookedUp (times a b) := by
  unfold times
  split
  · exact (Number.lookedUp_mul _ _).map _
  · exact lookedUp_onArrays NumberArray.lookedUp_times _ _

theorem lookedUp_apply (op : Operation) (a b : Value α) : LookedUp (op.apply a b) := by
  cases op
  · change LookedUp (add a b)
    unfold add
    split
    · exact (Number.lookedUp_add _ _).map _
    · exact lookedUp_onArrays NumberArray.lookedUp_add _ _
  · change LookedUp (sub a b)
    unfold sub
    split
    · exact (Number.lookedUp_sub _ _).map _
    · exact lookedUp_onArrays NumberArray.lookedUp_sub _ _
  · change LookedUp (mul a b)
    unfold mul
    split
    · exact lookedUp_times _ _
    · split
      · exact lookedUp_times _ _
      · exact lookedUp_onArrays NumberArray.lookedUp_mul _ _
  · change LookedUp (div a b)
    unfold div
    split
    · exact .error rfl
    · split
      · exact (Number.lookedUp_div _ _).map _
      · exact (NumberArray.lookedUp_ofNumberBeside _ _).bind fun _ =>
          (NumberArray.lookedUp_quotient _ _).map _
  · change LookedUp (pow a b)
    unfold pow
    split
    · exact .error rfl
    · split
      · exact (Number.lookedUp_pow _ _).map _
      · exact (Number.lookedUp_wholeExponent _).bind fun _ =>
          (NumberArray.lookedUp_power _ _).map _

theorem lookedUp_neg (a : Value α) : LookedUp a.neg := by
  cases a with
  | plain x => exact .ok _
  | single a => exact (NumberArray.lookedUp_neg a).map _
  | array a => exact (NumberArray.lookedUp_neg a).map _

theorem lookedUp_block (rows : List (List (Value α))) : LookedUp (block rows) := by
  have hblock (rows : List (List (NumberArray α))) : LookedUp (NumberArray.block rows) :=
    .orShapeMismatch _
  exact (hblock _).map _

end Value
end WeakForm
