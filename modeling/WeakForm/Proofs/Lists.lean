import Mathlib.Data.List.Forall2
import Mathlib.Tactic
import WeakForm.Assignment

/-!
# Lists

Lists of pairs that are looked up by their keys, lists that are related item by item or part by part,
the largest item of a list, and arrays into which a list of values is written place by place.
-/

namespace WeakForm

section Lookups

variable {κ β γ : Type} [BEq κ]

theorem mem_assign {key : κ} {value : β} {entries : List (κ × β)}
    {e : κ × β} (h : e ∈ assign key value entries) : e.2 = value ∨ e ∈ entries := by
  induction entries with
  | nil =>
    rw [assign, List.mem_singleton] at h
    exact .inl (congrArg Prod.snd h)
  | cons first rest ih =>
    obtain ⟨k, old⟩ := first
    rw [assign] at h
    split at h
    · rcases List.mem_cons.mp h with rfl | h
      · exact .inl rfl
      · exact .inr (List.mem_cons_of_mem _ h)
    · rcases List.mem_cons.mp h with rfl | h
      · exact .inr List.mem_cons_self
      · exact (ih h).imp_right (List.mem_cons_of_mem _)

/-- A key that is new comes last, and the others keep their places. -/
theorem map_fst_assign [LawfulBEq κ] (key : κ) (value : β) (entries : List (κ × β)) :
    (assign key value entries).map Prod.fst =
      if (entries.lookup key).isSome then entries.map Prod.fst else entries.map Prod.fst ++ [key] := by
  induction entries with
  | nil => rfl
  | cons e entries ih =>
    obtain ⟨k, old⟩ := e
    by_cases hk : k = key
    · simp [assign, hk]
    · have hne : (key == k) = false := by simpa using Ne.symm hk
      rw [assign, if_neg (by simpa using hk), List.lookup_cons, hne, List.map_cons, ih]
      dsimp only
      split_ifs <;> rfl

theorem nodup_map_fst_assign [LawfulBEq κ] {entries : List (κ × β)}
    (h : (entries.map Prod.fst).Nodup) (key : κ) (value : β) :
    ((assign key value entries).map Prod.fst).Nodup := by
  rw [map_fst_assign]
  split_ifs with hkey
  · exact h
  · refine List.Nodup.append h (List.nodup_singleton key) ?_
    rw [List.disjoint_singleton]
    intro hmem
    obtain ⟨e, he, rfl⟩ := List.mem_map.mp hmem
    exact hkey (List.lookup_isSome_iff.mpr ⟨e, he, beq_self_eq_true _⟩)

theorem mem_of_lookup_eq_some [LawfulBEq κ] {key : κ} {value : β}
    {entries : List (κ × β)} (h : entries.lookup key = some value) : (key, value) ∈ entries := by
  obtain ⟨before, after, hsplit, -⟩ := List.lookup_eq_some_iff.mp h
  simp [hsplit]

/-- A key keeps the value that it is given again. -/
theorem assign_of_lookup_eq_some [LawfulBEq κ] {key : κ} {value : β}
    {entries : List (κ × β)} (h : entries.lookup key = some value) : assign key value entries = entries := by
  induction entries with
  | nil => cases h
  | cons e entries ih =>
    obtain ⟨k, old⟩ := e
    rw [List.lookup_cons] at h
    by_cases hk : k = key
    · subst hk
      rw [beq_self_eq_true] at h
      cases h
      simp [assign]
    · rw [beq_false_of_ne (Ne.symm hk)] at h
      rw [assign, if_neg (by simpa using hk), ih h]

/-- Where no key occurs twice, every entry is found. -/
theorem lookup_eq_some_iff_mem [LawfulBEq κ] {entries : List (κ × β)}
    (h : (entries.map Prod.fst).Nodup) {key : κ} {value : β} :
    entries.lookup key = some value ↔ (key, value) ∈ entries := by
  refine ⟨mem_of_lookup_eq_some, fun hmem => ?_⟩
  induction entries with
  | nil => cases hmem
  | cons e entries ih =>
    obtain ⟨hnew, h⟩ := List.nodup_cons.mp h
    rw [List.lookup_cons]
    rcases List.mem_cons.mp hmem with rfl | hmem
    · simp
    · have hne : key ≠ e.1 := fun heq => hnew (heq ▸ List.mem_map_of_mem hmem)
      rw [beq_false_of_ne hne]
      exact ih h hmem

theorem lookup_map_value (f : β → γ) (entries : List (κ × β)) (key : κ) :
    (entries.map fun e => (e.1, f e.2)).lookup key = (entries.lookup key).map f := by
  induction entries with
  | nil => rfl
  | cons e entries ih =>
    rw [List.map_cons, List.lookup_cons, List.lookup_cons, ih]
    cases key == e.1 <;> rfl

theorem lookup_unassign [LawfulBEq κ] (key name : κ) (entries : List (κ × β)) :
    (unassign key entries).lookup name = if name == key then none else entries.lookup name := by
  induction entries with
  | nil => simp [unassign]
  | cons e entries ih =>
    obtain ⟨k, value⟩ := e
    rw [unassign] at ih ⊢
    by_cases hk : k = key
    · subst hk
      by_cases hname : name = k
      · simpa [hname] using ih
      · simpa [hname, List.lookup_cons, beq_false_of_ne hname] using ih
    · by_cases hname : name = k
      · subst hname
        simp [hk]
      · simpa [hk, List.lookup_cons, beq_false_of_ne hname] using ih

end Lookups

section Relations

variable {α β γ : Type} {R : α → β → Prop}

theorem exists_mem_of_forall₂ {xs : List α} {ys : List β} (h : List.Forall₂ R xs ys) {y : β}
    (hy : y ∈ ys) : ∃ x ∈ xs, R x y := by
  induction h with
  | nil => cases hy
  | cons hxy _ ih =>
    rcases List.mem_cons.mp hy with rfl | hy
    · exact ⟨_, by simp, hxy⟩
    · obtain ⟨x, hx, hxy⟩ := ih hy
      exact ⟨x, List.mem_cons_of_mem _ hx, hxy⟩

theorem map_eq_map_of_forall₂ {xs : List α} {ys : List β} {f : α → γ} {g : β → γ}
    (h : List.Forall₂ (fun x y => f x = g y) xs ys) : xs.map f = ys.map g := by
  rw [← List.forall₂_eq_eq_eq, List.forall₂_map_left_iff, List.forall₂_map_right_iff]
  exact h

/-- A step over a list that may have no result has one exactly if it does for every item. -/
theorem mapM_eq_some_iff {f : α → Option β} {xs : List α} {ys : List β} :
    xs.mapM f = some ys ↔ List.Forall₂ (fun x y => f x = some y) xs ys := by
  induction xs generalizing ys with
  | nil => simp [eq_comm]
  | cons x xs ih =>
    rw [List.mapM_cons, List.forall₂_cons_left_iff]
    simp only [Option.bind_eq_bind, Option.bind_eq_some_iff, ih, Option.pure_def, Option.some.injEq]
    constructor
    · rintro ⟨y, hy, ys', hys', rfl⟩
      exact ⟨y, ys', hy, hys', rfl⟩
    · rintro ⟨y, ys', hy, hys', rfl⟩
      exact ⟨y, hy, ys', hys', rfl⟩

/-- Lists whose parts have the same lengths are combined part by part. -/
theorem zipWith_flatMap {ι : Type} (f : α → β → γ) (g : ι → List α) (h : ι → List β) (items : List ι)
    (hlen : ∀ x ∈ items, (g x).length = (h x).length) :
    List.zipWith f (items.flatMap g) (items.flatMap h) =
      items.flatMap fun x => List.zipWith f (g x) (h x) := by
  induction items with
  | nil => rfl
  | cons x items ih =>
    obtain ⟨hx, hlen⟩ := List.forall_mem_cons.mp hlen
    rw [List.flatMap_cons, List.flatMap_cons, List.flatMap_cons, List.zipWith_append hx, ih hlen]

/-- A part is found again behind all items of the parts before it. -/
theorem getElem?_flatMap_of_lt {f : α → List β} {items : List α} {k i : ℕ} {x : α}
    (hx : items[k]? = some x) (hi : i < (f x).length) :
    (items.flatMap f)[((items.take k).map fun y => (f y).length).sum + i]? = (f x)[i]? := by
  induction items generalizing k with
  | nil => simp at hx
  | cons y items ih =>
    rw [List.flatMap_cons]
    cases k with
    | zero =>
      obtain rfl : y = x := Option.some.inj hx
      rw [List.take_zero, List.map_nil, List.sum_nil, Nat.zero_add, List.getElem?_append_left hi]
    | succ k =>
      rw [List.take_succ_cons, List.map_cons, List.sum_cons, Nat.add_assoc,
        List.getElem?_append_right (Nat.le_add_right _ _), Nat.add_sub_cancel_left]
      exact ih hx

/-- Parts of one length `n` are found again at multiples of `n`. -/
theorem getElem?_flatMap_of_length {f : α → List β} {n : ℕ}
    (hf : ∀ x, (f x).length = n) (items : List α) {k i : ℕ} (hi : i < n) :
    (items.flatMap f)[k * n + i]? = items[k]?.bind fun x => (f x)[i]? := by
  induction items generalizing k with
  | nil => simp
  | cons x items ih =>
    rw [List.flatMap_cons]
    cases k with
    | zero =>
      rw [Nat.zero_mul, Nat.zero_add, List.getElem?_append_left (by rw [hf]; exact hi)]
      rfl
    | succ k =>
      have hk : (k + 1) * n + i = n + (k * n + i) := by rw [Nat.succ_mul]; omega
      rw [hk, ← hf x, List.getElem?_append_right (Nat.le_add_right _ _), Nat.add_sub_cancel_left,
        hf x, ih]
      rfl

end Relations

theorem le_foldl_max (ns : List ℕ) (start : ℕ) :
    start ≤ ns.foldl max start ∧ ∀ n ∈ ns, n ≤ ns.foldl max start := by
  induction ns generalizing start with
  | nil => simp
  | cons n ns ih =>
    obtain ⟨hstart, hall⟩ := ih (max start n)
    rw [List.foldl_cons]
    refine ⟨(le_max_left _ _).trans hstart, List.forall_mem_cons.mpr ⟨?_, hall⟩⟩
    exact (le_max_right _ _).trans hstart

theorem foldl_max_le {ns : List ℕ} {start bound : ℕ} (hstart : start ≤ bound)
    (h : ∀ n ∈ ns, n ≤ bound) : ns.foldl max start ≤ bound := by
  induction ns generalizing start with
  | nil => exact hstart
  | cons n ns ih =>
    obtain ⟨hn, h⟩ := List.forall_mem_cons.mp h
    exact ih (max_le hstart hn) h

section Writes

variable {β : Type}

/-- Writes values at places, one after the other. -/
def writeEach (u : Array β) (writes : List (ℕ × β)) : Array β :=
  writes.foldl (fun u w => u.setIfInBounds w.1 w.2) u

@[simp] theorem size_writeEach (u : Array β) (writes : List (ℕ × β)) :
    (writeEach u writes).size = u.size := by
  induction writes generalizing u with
  | nil => rfl
  | cons w writes ih => exact (ih _).trans Array.size_setIfInBounds

theorem getD_setIfInBounds (u : Array β) (i d : ℕ) (x z : β) (hd : d < u.size) :
    (u.setIfInBounds i x).getD d z = if d = i then x else u.getD d z := by
  by_cases h : i = d
  · subst h
    simp [hd]
  · simp [Array.getD_eq_getD_getElem?, h, Ne.symm h]

/-- The last value written at a place stays. -/
theorem getD_writeEach (u : Array β) (writes : List (ℕ × β)) {d : ℕ} (z : β) (hd : d < u.size) :
    (writeEach u writes).getD d z = (writes.reverse.lookup d).getD (u.getD d z) := by
  induction writes generalizing u with
  | nil => rfl
  | cons w writes ih =>
    obtain ⟨i, x⟩ := w
    have hcons : writeEach u ((i, x) :: writes) = writeEach (u.setIfInBounds i x) writes := rfl
    have hsize : d < (u.setIfInBounds i x).size := by simpa using hd
    rw [hcons, ih _ hsize, getD_setIfInBounds u _ _ _ _ hd, List.reverse_cons, List.lookup_append]
    cases writes.reverse.lookup d with
    | some y => rfl
    | none => by_cases h : d = i <;> simp [h, List.lookup_cons, beq_false_of_ne]

/-- Nothing changes at a place where nothing is written. -/
theorem getD_writeEach_of_notMem (u : Array β) {writes : List (ℕ × β)} {d : ℕ} (z : β)
    (h : d ∉ writes.map Prod.fst) : (writeEach u writes).getD d z = u.getD d z := by
  induction writes generalizing u with
  | nil => rfl
  | cons w writes ih =>
    rw [List.map_cons, List.mem_cons, not_or] at h
    have hcons : writeEach u (w :: writes) = writeEach (u.setIfInBounds w.1 w.2) writes := rfl
    rw [hcons, ih _ h.2]
    simp [Array.getD_eq_getD_getElem?, Ne.symm h.1]

/-- At places that are all different every value stays. -/
theorem getD_writeEach_zip (u : Array β) {places : List ℕ} {values : List β} (hnodup : places.Nodup)
    (hlen : values.length = places.length) {k : ℕ} (hk : k < places.length)
    (hsize : places[k] < u.size) (z : β) :
    (writeEach u (places.zip values)).getD places[k] z = values[k] := by
  induction places generalizing u values k with
  | nil => simp at hk
  | cons i places ih =>
    obtain ⟨x, values, rfl⟩ := List.exists_cons_of_length_eq_add_one hlen
    obtain ⟨hi, hnodup⟩ := List.nodup_cons.mp hnodup
    have hcons : writeEach u ((i :: places).zip (x :: values)) =
        writeEach (u.setIfInBounds i x) (places.zip values) := rfl
    have hlen : values.length = places.length := by simpa using hlen
    rw [hcons]
    cases k with
    | zero =>
      have hnot : i ∉ (places.zip values).map Prod.fst := by
        rwa [List.map_fst_zip hlen.ge]
      have hi : i < u.size := hsize
      rw [List.getElem_cons_zero, List.getElem_cons_zero, getD_writeEach_of_notMem _ _ hnot,
        getD_setIfInBounds _ _ _ _ _ hi, if_pos rfl]
    | succ k =>
      have hk : k < places.length := by simpa using hk
      rw [List.getElem_cons_succ, List.getElem_cons_succ]
      exact ih _ hnodup hlen hk (by simpa using hsize)

end Writes

end WeakForm
