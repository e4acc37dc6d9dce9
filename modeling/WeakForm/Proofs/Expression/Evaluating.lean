import WeakForm.Proofs.Expression.Trees
import WeakForm.Proofs.Value.Failures
import WeakForm.Proofs.Value.RealValues

/-!
# Evaluating

The value of an expression is that of its names put together. It does not look at any other names,
and where names are replaced by expressions it is the value with those of the expressions. Nothing
but a name fails for want of a meaning.
-/

namespace WeakForm

theorem mapM_congr_left {ε β γ : Type} {f g : β → Except ε γ} {xs : List β}
    (h : ∀ x ∈ xs, f x = g x) : xs.mapM f = xs.mapM g := by
  induction xs with
  | nil => rfl
  | cons x xs ih =>
    obtain ⟨hx, hxs⟩ := List.forall_mem_cons.mp h
    rw [List.mapM_cons, List.mapM_cons, hx, ih hxs]

theorem mapM_map_left {ε β γ δ : Type} (f : γ → Except ε δ) (k : β → γ) (xs : List β) :
    (xs.map k).mapM f = xs.mapM fun x => f (k x) := by
  induction xs with
  | nil => rfl
  | cons x xs ih => rw [List.map_cons, List.mapM_cons, List.mapM_cons, ih]

namespace Expr

variable {α : Type} [Scalar α] {resolve resolve' : String → Except (Error α) (Value α)}

theorem evalRow_eq (row : List Expr) : evalRow resolve row = row.mapM (eval resolve) := by
  induction row with
  | nil => rfl
  | cons e row ih =>
    rw [evalRow, ih, List.mapM_cons]

theorem evalRows_eq (rows : List (List Expr)) :
    evalRows resolve rows = rows.mapM fun row => row.mapM (eval resolve) := by
  induction rows with
  | nil => rfl
  | cons row rows ih => rw [evalRows, ih, evalRow_eq, List.mapM_cons]

theorem eval_array (rows : List (List Expr)) :
    eval resolve (array rows) =
      (rows.mapM fun row => row.mapM (eval resolve)) >>= Value.block := by
  rw [eval, evalRows_eq]

/-- Evaluation looks at the names of the expression only. -/
theorem eval_congr {e : Expr} (h : ∀ name ∈ e.names, resolve name = resolve' name) :
    e.eval resolve = e.eval resolve' := by
  induction e with
  | number d => rw [eval, eval]
  | symbol name =>
    rw [eval, eval]
    exact h name (by simp [names])
  | array rows ih =>
    rw [eval_array, eval_array]
    congr 1
    refine mapM_congr_left fun row hrow => mapM_congr_left fun e he => ih row hrow e he ?_
    intro name hname
    refine h name ?_
    rw [names, rowsNames_eq]
    exact List.mem_flatMap_of_mem hrow (List.mem_flatMap_of_mem he hname)
  | sign s e ih => rw [eval, eval, ih h]
  | binary op a b iha ihb =>
    rw [names] at h
    rw [eval, eval, iha fun name hname => h name (List.mem_append_left _ hname),
      ihb fun name hname => h name (List.mem_append_right _ hname)]
  | transpose e ih => rw [eval, eval, ih h]

/-- The value of an expression in which names were replaced. -/
theorem eval_substitute (meaning : String → Option Expr) (e : Expr) :
    (e.substitute meaning).eval resolve =
      e.eval fun name => ((meaning name).map (eval resolve)).getD (resolve name) := by
  induction e with
  | number d => rw [substitute, eval, eval]
  | symbol name =>
    rw [substitute, eval]
    cases meaning name with
    | none => rw [Option.getD_none, eval, Option.map_none, Option.getD_none]
    | some t => rfl
  | array rows ih =>
    rw [substitute, substituteRows_eq, eval_array, eval_array, mapM_map_left]
    congr 1
    refine mapM_congr_left fun row hrow => ?_
    rw [mapM_map_left]
    exact mapM_congr_left (ih row hrow)
  | sign s e ih => rw [substitute, eval, eval, ih]
  | binary op a b iha ihb => rw [substitute, eval, eval, iha, ihb]
  | transpose e ih => rw [substitute, eval, eval, ih]

/-- An expression fails for want of a meaning only where one of its names does. -/
theorem lookedUp_eval {e : Expr} (h : ∀ name ∈ e.names, LookedUp (resolve name)) :
    LookedUp (e.eval resolve) := by
  induction e with
  | number d =>
    rw [eval]
    exact .ok _
  | symbol name =>
    rw [eval]
    exact h name (by simp [names])
  | array rows ih =>
    rw [eval_array]
    refine .bind (.mapM fun row hrow => .mapM fun e he => ih row hrow e he ?_) Value.lookedUp_block
    intro name hname
    refine h name ?_
    rw [names, rowsNames_eq]
    exact List.mem_flatMap_of_mem hrow (List.mem_flatMap_of_mem he hname)
  | sign s e ih =>
    rw [eval]
    refine (ih h).bind fun v => ?_
    cases s
    · exact .ok v
    · exact Value.lookedUp_neg v
  | binary op a b iha ihb =>
    rw [names] at h
    rw [eval]
    have ha := iha fun name hname => h name (List.mem_append_left _ hname)
    have hb := ihb fun name hname => h name (List.mem_append_right _ hname)
    exact ha.bind fun x => hb.bind fun y => Value.lookedUp_apply op x y
  | transpose e ih =>
    rw [eval]
    exact (ih h).bind fun v => .ok _

end Expr
end WeakForm

/-!
## Evaluating in the reals

An expression runs in the reals if all of its parts have real values and nothing is divided by zero.
Then names may be given values that merely stand for the same real numbers: the value of the
expression stands for the same ones.
-/

namespace WeakForm
namespace Expr

/-- The expressions that an expression is made of, itself among them. -/
inductive IsPartOf : Expr → Expr → Prop
  | refl (e : Expr) : IsPartOf e e
  | entry {p e : Expr} {row : List Expr} {rows : List (List Expr)} (hrow : row ∈ rows) (he : e ∈ row)
      (h : IsPartOf p e) : IsPartOf p (.array rows)
  | sign {p e : Expr} (s : Sign) (h : IsPartOf p e) : IsPartOf p (.sign s e)
  | left {p a : Expr} (op : Operation) (b : Expr) (h : IsPartOf p a) : IsPartOf p (.binary op a b)
  | right {p b : Expr} (op : Operation) (a : Expr) (h : IsPartOf p b) : IsPartOf p (.binary op a b)
  | transpose {p e : Expr} (h : IsPartOf p e) : IsPartOf p (.transpose e)

/-- The names of a part are names of the expression. -/
theorem IsPartOf.names_subset {p e : Expr} (h : IsPartOf p e) : p.names ⊆ e.names := by
  induction h with
  | refl => exact List.Subset.refl _
  | entry hrow he _ ih =>
    intro name hname
    rw [names, rowsNames_eq]
    exact List.mem_flatMap_of_mem hrow (List.mem_flatMap_of_mem he (ih hname))
  | sign s _ ih => exact ih
  | left op b _ ih => exact fun name hname => List.mem_append_left _ (ih hname)
  | right op a _ ih => exact fun name hname => List.mem_append_right _ (ih hname)
  | transpose _ ih => exact ih

variable {resolve resolve' : String → Except (Error ℝ) (Value ℝ)} {e : Expr}

/-- All values on the way are real, and no divisor is zero. -/
structure RunsInReals (resolve : String → Except (Error ℝ) (Value ℝ)) (e : Expr) : Prop where
  isReal : ∀ p, IsPartOf p e → ∀ v, p.eval resolve = .ok v → v.IsReal
  divisor_ne : ∀ a b, IsPartOf (binary .div a b) e → ∀ w, b.eval resolve = .ok w →
    ∀ y ∈ w.scalar?, y.value ≠ 0

namespace RunsInReals

theorem part (h : RunsInReals resolve e) {p : Expr} (hp : ∀ {q}, IsPartOf q p → IsPartOf q e) :
    RunsInReals resolve p :=
  ⟨fun q hq => h.isReal q (hp hq), fun a b hq => h.divisor_ne a b (hp hq)⟩

theorem congr (h : RunsInReals resolve e) (hnames : ∀ name ∈ e.names, resolve name = resolve' name) :
    RunsInReals resolve' e := by
  have heval {p : Expr} (hp : IsPartOf p e) : p.eval resolve = p.eval resolve' :=
    eval_congr fun name hname => hnames name (hp.names_subset hname)
  constructor
  · intro p hp v hv
    exact h.isReal p hp v (heval hp ▸ hv)
  · intro a b hp w hw
    have hb : b.names ⊆ e.names := fun name hname =>
      hp.names_subset (List.mem_append_right _ hname)
    rw [← eval_congr fun name hname => hnames name (hb hname)] at hw
    exact h.divisor_ne a b hp w hw

end RunsInReals

/-- Names may be replaced by expressions whose values are stood for by those of the names. -/
theorem alike_eval {meaning : String → Option Expr}
    (hruns : RunsInReals resolve' (e.substitute meaning))
    (hnames : ∀ name ∈ e.names, RunsInReals resolve' ((symbol name).substitute meaning) →
      Alike Value.StandsFor (resolve name) (((symbol name).substitute meaning).eval resolve')) :
    Alike Value.StandsFor (e.eval resolve) ((e.substitute meaning).eval resolve') := by
  have hreal := hruns.isReal _ (.refl _)
  induction e with
  | number d =>
    rw [substitute, eval, eval]
    exact .ok ⟨trivial, trivial, rfl, id⟩
  | symbol name =>
    rw [eval]
    exact hnames name (by simp [names]) hruns
  | array rows ih =>
    rw [substitute, substituteRows_eq] at hruns hreal ⊢
    rw [eval_array] at hreal
    rw [eval_array, eval_array]
    have hentry (row) (hrow : row ∈ rows) (e) (he : e ∈ row) :
        Alike Value.StandsFor (e.eval resolve) ((e.substitute meaning).eval resolve') := by
      have hpart : RunsInReals resolve' (e.substitute meaning) :=
        hruns.part (.entry (List.mem_map_of_mem hrow) (List.mem_map_of_mem he))
      refine ih row hrow e he hpart (fun name hname => hnames name ?_) (hpart.isReal _ (.refl _))
      rw [names, rowsNames_eq]
      exact List.mem_flatMap_of_mem hrow (List.mem_flatMap_of_mem he hname)
    have hrows : Alike (List.Forall₂ (List.Forall₂ Value.StandsFor))
        (rows.mapM fun row => row.mapM (eval resolve))
        ((rows.map fun row => row.map (substitute meaning)).mapM fun row =>
          row.mapM (eval resolve')) := by
      refine .mapM (List.forall₂_map_right_iff.mpr (List.forall₂_same.mpr fun row hrow => ?_))
      exact .mapM (List.forall₂_map_right_iff.mpr (List.forall₂_same.mpr (hentry row hrow)))
    refine hrows.bind fun vs ws _ hws hvws => Value.alike_block hvws fun u hu => hreal u ?_
    rw [hws]
    exact hu
  | sign s e ih =>
    rw [substitute] at hruns hreal ⊢
    have hpart := hruns.part (.sign s)
    rw [eval, eval]
    refine (ih hpart hnames (hpart.isReal _ (.refl _))).bind fun v w _ _ hvw => ?_
    cases s with
    | minus =>
      have hright := Value.yields_neg hvw.right
      rw [← hvw.tensor_eq] at hright
      exact Value.alike_of_yields (Value.yields_neg hvw.left) hright
    | plus => exact .ok hvw
  | binary op a b iha ihb =>
    rw [substitute] at hruns hreal ⊢
    have hleft := hruns.part (.left op _)
    have hright := hruns.part (.right op _)
    rw [names] at hnames
    rw [eval] at hreal
    rw [eval, eval]
    refine (iha hleft (fun name hname => hnames name (List.mem_append_left _ hname))
      (hleft.isReal _ (.refl _))).bind fun v v' _ hv' hv => ?_
    refine (ihb hright (fun name hname => hnames name (List.mem_append_right _ hname))
      (hright.isReal _ (.refl _))).bind fun w w' _ hw' hw => ?_
    rw [hv', ok_bind, hw', ok_bind] at hreal
    refine Value.alike_apply op hv hw ?_ hreal
    rintro rfl y hy
    rw [(Value.scalar?_spec hw.right).1, Option.mem_def, Option.map_eq_some_iff] at hy
    obtain ⟨number, hnumber, rfl⟩ := hy
    exact hruns.divisor_ne _ _ (.refl _) w' hw' number hnumber
  | transpose e ih =>
    rw [substitute] at hruns hreal ⊢
    have hpart := hruns.part .transpose
    rw [eval] at hreal
    rw [eval, eval]
    refine (ih hpart hnames (hpart.isReal _ (.refl _))).bind fun v w _ hw hvw => ?_
    rw [hw, ok_bind] at hreal
    exact .ok (hvw.transpose (hreal _ rfl))

end Expr
end WeakForm
