import WeakForm.Integration
import WeakForm.Proofs.Mesh.Elements

/-!
# Kernels on copies of elements

A copy of an element lies in the same place, but it and its nodes have other numbers. What a kernel
from a source says about a point depends on the place only, so its integrals over an element and over
a copy are the same.
-/

namespace WeakForm
namespace Element

variable {α : Type} {f : ℤ → ℤ} {e e' : Element α}

/-- The element `e'` is `e` with other numbers, those of its nodes being given by `f`. -/
structure IsCopy (e' : Element α) (f : ℤ → ℤ) (e : Element α) : Prop where
  family_eq : e'.family = e.family
  nodes_eq : e'.nodes = e.nodes
  dofsPerNode_eq : e'.dofsPerNode = e.dofsPerNode
  side_eq : e'.side = e.side
  nodeIds_eq : e'.nodeIds = e.nodeIds.map f

theorem isCopy_renumbered (e : Element α) (id : ℤ) : (e.renumbered id).IsCopy (fun k => k) e :=
  ⟨rfl, rfl, rfl, rfl, (List.map_id' _).symm⟩

namespace IsCopy

theorem dofs_eq (h : e'.IsCopy f e) : e'.dofs = e.dofs := by
  rw [dofs, dofs, h.family_eq, h.dofsPerNode_eq]

theorem sideNodes_eq (h : e'.IsCopy f e) (s : ℤ) : e'.sideNodes s = e.sideNodes s := by
  rw [sideNodes, sideNodes, h.family_eq]

theorem map_getD (h : e'.IsCopy f e) {nodes : List ℕ} (hnodes : nodes ∈ e.family.sides) :
    (nodes.map fun k => e'.nodeIds.getD k 0) = (nodes.map fun k => e.nodeIds.getD k 0).map f := by
  rw [List.map_map, h.nodeIds_eq]
  refine List.map_congr_left fun k hk => ?_
  have hlt : k < e.nodeIds.length := by
    rw [e.length_nodeIds]
    exact (Family.lt_of_mem_sides hnodes).2 k hk
  simp [hlt]

variable [Scalar α]

/-- The sides of a copy are copies of the sides. -/
theorem buildSide (h : e'.IsCopy f e) {s : ℤ} {side : Element α} (hside : e.buildSide s = .ok side) :
    ∃ side', e'.buildSide s = .ok side' ∧ side'.IsCopy f side := by
  have hids {nodes : List ℕ} (hnodes : nodes ∈ e.family.sides) := h.map_getD hnodes
  obtain ⟨id, family, points, ids, n, true, hrows, hlength⟩ := e
  obtain ⟨id', family', points', ids', n', true', hrows', hlength'⟩ := e'
  obtain ⟨rfl, rfl, rfl, rfl, -⟩ := h
  unfold Element.buildSide at hside ⊢
  split at hside
  · cases hside
  rename_i g hg
  split at hside
  · cases hside
  rename_i nodes hnodes
  cases hside
  split
  · rename_i hnone
    cases hg.symm.trans hnone
  rename_i g' hg'
  obtain rfl := Option.some.inj (hg.symm.trans hg')
  split
  · rename_i herror
    cases hnodes.symm.trans herror
  rename_i nodes' hnodes'
  obtain rfl := Except.ok.inj (hnodes.symm.trans hnodes')
  exact ⟨_, rfl, rfl, rfl, rfl, rfl, hids (sideNodes_mem hnodes)⟩

end IsCopy
end Element

namespace Kernel

variable {α : Type} [Scalar α] {f : ℤ → ℤ} {e e' : Element α} {k : Kernel α}

section Integrals

theorem toOption_bind {ε β γ : Type} (x : Except ε β) (f : β → Except ε γ) :
    (x >>= f).toOption = x.toOption.bind fun b => (f b).toOption := by
  cases x <;> rfl

theorem eq_ok_of_toOption {ε β : Type} {x y : Except ε β} (h : x.toOption = y.toOption) {b : β}
    (hy : y = .ok b) : x = .ok b :=
  toOption_eq_some.mp (h.trans (toOption_eq_some.mpr hy))

theorem toOption_sumTerms {t t' : QuadraturePoint α → Except (Error α) (Tensor α)}
    {points : List (QuadraturePoint α)} (h : ∀ q ∈ points, (t' q).toOption = (t q).toOption)
    (total : Tensor α) :
    (sumTerms t' total points).toOption = (sumTerms t total points).toOption := by
  induction points generalizing total with
  | nil => rfl
  | cons q points ih =>
    obtain ⟨hq, h⟩ := List.forall_mem_cons.mp h
    simp only [sumTerms, toOption_bind, hq, ih h]

/-- Elements of one family whose terms are the same at all points have the same integral. -/
theorem toOption_integrate (hfamily : e'.family = e.family)
    (hterm : ∀ points, rule e = some points → ∀ q ∈ points, (k.term e' q).toOption = (k.term e q).toOption)
    (hwhole : (rule e : Option (List (QuadraturePoint α))) = none →
      (k.integrand (.regular e' none)).toOption = (k.integrand (.regular e none)).toOption) :
    (k.integrate e').toOption = (k.integrate e).toOption := by
  have hrule : (rule e' : Option (List (QuadraturePoint α))) = rule e := congrArg familyRule hfamily
  unfold integrate
  rw [hrule]
  cases hpoints : rule e with
  | none => exact hwhole hpoints
  | some points =>
    cases points with
    | nil => rfl
    | cons q points =>
      obtain ⟨hq, hterm⟩ := List.forall_mem_cons.mp (hterm _ hpoints)
      simp only [sumOverRule, toOption_bind, hq, toOption_sumTerms hterm]

/-- A kernel whose values at all points of an element are those at the points of a copy. -/
def Agrees (k : Kernel α) (e e' : Element α) : Prop :=
  ∀ ξ, (k.integrand (.regular e' ξ)).toOption = (k.integrand (.regular e ξ)).toOption

/-- An element that is degenerate is named by its number, so only the values are the same. -/
theorem Agrees.term (hk : k.Agrees e e') (h : e'.IsCopy f e) (q : QuadraturePoint α) :
    (k.term e' q).toOption = (k.term e q).toOption := by
  have hjacobian : e'.jacobian q.position = e.jacobian q.position := by
    rw [Element.jacobian, Element.jacobian, h.family_eq, h.nodes_eq]
  have hd : (e'.detJ q.position).toOption = (e.detJ q.position).toOption := by
    simp only [Element.detJ, toOption_bind, hjacobian]
    refine congrArg (Option.bind _) (funext fun J => ?_)
    split <;> rfl
  simp only [Kernel.term, toOption_bind, hd, hk (some q.position)]

theorem Agrees.integrate (hk : k.Agrees e e') (h : e'.IsCopy f e) :
    (k.integrate e').toOption = (k.integrate e).toOption :=
  toOption_integrate h.family_eq (fun _ _ q _ => hk.term h q) fun _ => hk none

theorem Agrees.localMatrix (hk : k.Agrees e e') (h : e'.IsCopy f e) :
    (k.localMatrix e').toOption = (k.localMatrix e).toOption := by
  simp only [Kernel.localMatrix, toOption_bind, hk.integrate h, h.dofs_eq]

theorem Agrees.localVector (hk : k.Agrees e e') (h : e'.IsCopy f e) :
    (k.localVector e').toOption = (k.localVector e).toOption := by
  simp only [Kernel.localVector, toOption_bind, hk.integrate h, h.dofs_eq]

end Integrals

section Sources

/-- Kernels that are made from their sources. A weak form may refer to kernels made before. -/
inductive FromSource : Kernel α → Prop
  | ofSource (name : String) (source : Source α) (D : Definitions α) (k : Kernel α)
      (hD : ∀ d ∈ D, ∀ l, d.2 = .kernel l → FromSource l) (hk : ofSource name source D = .ok k) :
      FromSource k

theorem siteSymbol_copy (h : e'.IsCopy f e) (ξ : Option (List α)) (name : String) :
    siteSymbol (.regular e' ξ) name = siteSymbol (.regular e ξ) name := by
  obtain ⟨id, family, points, ids, n, true, hrows, hlength⟩ := e
  obtain ⟨id', family', points', ids', n', true', hrows', hlength'⟩ := e'
  obtain ⟨rfl, rfl, rfl, rfl, -⟩ := h
  cases ξ <;> rfl

theorem shape_copy (h : e'.IsCopy f e) (ξ : Option (List α)) :
    (Site.regular e' ξ).shape = (Site.regular e ξ).shape := by
  obtain ⟨id, family, points, ids, n, true, hrows, hlength⟩ := e
  obtain ⟨id', family', points', ids', n', true', hrows', hlength'⟩ := e'
  obtain ⟨rfl, rfl, rfl, rfl, -⟩ := h
  rfl

/-- A kernel from a source has the same values on a copy of an element. -/
theorem FromSource.integrand_eq (hk : k.FromSource) (h : e'.IsCopy f e) (ξ : Option (List α)) :
    k.integrand (.regular e' ξ) = k.integrand (.regular e ξ) := by
  induction hk with
  | ofSource name source D k hD hk ih =>
    cases source with
    | form text =>
      obtain ⟨s, -, hk⟩ := bind_eq_ok.mp hk
      obtain ⟨tree, -, hk⟩ := bind_eq_ok.mp hk
      obtain ⟨bound, hbound, hk⟩ := bind_eq_ok.mp hk
      cases hk
      have hresolve : resolve bound (.regular e' ξ) = resolve bound (.regular e ξ) := by
        funext name
        unfold resolve
        split_ifs
        · exact siteSymbol_copy h ξ name
        · cases hlookup : bound.lookup name with
          | none => rfl
          | some d =>
            cases d with
            | constant v => rfl
            | unnamed => rfl
            | kernel l =>
              have hmem : (name, Definition.kernel l) ∈ D := by
                unfold bind at hbound
                dsimp only at hbound
                split_ifs at hbound
                cases hbound
                exact List.mem_of_mem_filter (mem_of_lookup_eq_some hlookup)
              exact congrArg (Except.map Value.ofTensor) (ih _ hmem l rfl)
      simp only [hresolve]
    | mass =>
      cases hk
      simp only [mass, shape_copy h]
    | load value =>
      cases hk
      simp only [load, shape_copy h]
    | uniform value =>
      cases hk
      rfl

theorem FromSource.agrees (hk : k.FromSource) (h : e'.IsCopy f e) : k.Agrees e e' :=
  fun ξ => congrArg Except.toOption (hk.integrand_eq h ξ)

end Sources

end Kernel
end WeakForm
