import WeakForm.Expression.Grammar
import WeakForm.Proofs.Outcome

/-!
# Readings

What the readers do, apart from the proofs that reading ends: a reading is a result with the unread
tokens, or a fault. There is one equation for each way in which a reader may go on.
-/

namespace WeakForm
namespace Parser

/-- The result and the unread tokens of a reader, or its fault. -/
def reading {β : Type} {n : ℕ} (r : Except Fault (Parsed β n)) :
    Except Fault (β × List Token) :=
  r.map fun p => (p.value, p.rest)

theorem isMark_iff {text : String} {t : Token} : isMark text t = true ↔ t.Marks text := by
  simp [isMark, Token.Marks]

theorem Marks.eq {t : Token} {a b : String} (ha : t.Marks a) (hb : t.Marks b) : a = b :=
  ha.2.symm.trans hb.2

theorem isMark_eq_false {t : Token} {a b : String} (ha : t.Marks a) (hab : a ≠ b) :
    isMark b t = false := by
  rw [← Bool.not_eq_true, isMark_iff]
  exact fun hb => hab (Marks.eq ha hb)

section Marks

variable {t : Token}

theorem signOf?_eq_some {s : Sign} : signOf? t = some s ↔ t.MarksSign s := by
  unfold signOf?
  constructor
  · intro h
    split_ifs at h with hm hp
    · cases h
      exact isMark_iff.mp hm
    · cases h
      exact isMark_iff.mp hp
  · intro h
    cases s with
    | plus =>
      have hplus : t.Marks "+" := h
      simp [isMark_eq_false hplus (show "+" ≠ "-" by decide), isMark_iff.mpr hplus]
    | minus =>
      have hminus : t.Marks "-" := h
      simp [isMark_iff.mpr hminus]

theorem additive?_eq_some {op : Operation} :
    additive? t = some op ↔ (op = .add ∨ op = .sub) ∧ t.MarksOperation op := by
  unfold additive?
  constructor
  · intro h
    split_ifs at h with hp hm
    · cases h
      exact ⟨.inl rfl, isMark_iff.mp hp⟩
    · cases h
      exact ⟨.inr rfl, isMark_iff.mp hm⟩
  · rintro ⟨rfl | rfl, h⟩
    · have hplus : t.Marks "+" := h
      simp [isMark_iff.mpr hplus]
    · have hminus : t.Marks "-" := h
      simp [isMark_eq_false hminus (show "-" ≠ "+" by decide), isMark_iff.mpr hminus]

theorem multiplicative?_eq_some {op : Operation} :
    multiplicative? t = some op ↔ (op = .mul ∨ op = .div) ∧ t.MarksOperation op := by
  unfold multiplicative?
  constructor
  · intro h
    split_ifs at h with hp hm
    · cases h
      exact ⟨.inl rfl, isMark_iff.mp hp⟩
    · cases h
      exact ⟨.inr rfl, isMark_iff.mp hm⟩
  · rintro ⟨rfl | rfl, h⟩
    · have htimes : t.Marks "*" := h
      simp [isMark_iff.mpr htimes]
    · have hover : t.Marks "/" := h
      simp [isMark_eq_false hover (show "/" ≠ "*" by decide), isMark_iff.mpr hover]

end Marks

variable (stop : ℕ)

section Sums

theorem reading_sum (ts : List Token) :
    reading (sum stop ts) =
      reading (product stop ts) >>= fun r => reading (sumTail stop r.1 r.2) := by
  rw [sum]
  cases product stop ts with
  | error f => rfl
  | ok p =>
    change reading _ = reading (sumTail stop p.value p.rest)
    cases h : sumTail stop p.value p.rest <;> simp only [h] <;> rfl

theorem reading_sumTail_nil (a : Expr) : reading (sumTail stop a []) = .ok (a, []) := by
  rw [sumTail]
  rfl

theorem reading_sumTail_none (a : Expr) {t : Token} (ht : additive? t = none) (rest : List Token) :
    reading (sumTail stop a (t :: rest)) = .ok (a, t :: rest) := by
  rw [sumTail]
  simp only [ht]
  rfl

theorem reading_sumTail_some (a : Expr) {t : Token} {op : Operation} (ht : additive? t = some op)
    (rest : List Token) :
    reading (sumTail stop a (t :: rest)) = reading (product stop rest) >>= fun r =>
      reading (sumTail stop (.binary op a r.1) r.2) := by
  rw [sumTail]
  simp only [ht]
  cases product stop rest with
  | error f => rfl
  | ok p =>
    change reading _ = reading (sumTail stop (.binary op a p.value) p.rest)
    cases h : sumTail stop (.binary op a p.value) p.rest <;> simp only [h] <;> rfl

end Sums

section Products

theorem reading_product (ts : List Token) :
    reading (product stop ts) =
      reading (unary stop ts) >>= fun r => reading (productTail stop r.1 r.2) := by
  rw [product]
  cases unary stop ts with
  | error f => rfl
  | ok p =>
    change reading _ = reading (productTail stop p.value p.rest)
    cases h : productTail stop p.value p.rest <;> simp only [h] <;> rfl

theorem reading_productTail_nil (a : Expr) : reading (productTail stop a []) = .ok (a, []) := by
  rw [productTail]
  rfl

theorem reading_productTail_none (a : Expr) {t : Token} (ht : multiplicative? t = none)
    (rest : List Token) : reading (productTail stop a (t :: rest)) = .ok (a, t :: rest) := by
  rw [productTail]
  simp only [ht]
  rfl

theorem reading_productTail_some (a : Expr) {t : Token} {op : Operation}
    (ht : multiplicative? t = some op) (rest : List Token) :
    reading (productTail stop a (t :: rest)) = reading (unary stop rest) >>= fun r =>
      reading (productTail stop (.binary op a r.1) r.2) := by
  rw [productTail]
  simp only [ht]
  cases unary stop rest with
  | error f => rfl
  | ok p =>
    change reading _ = reading (productTail stop (.binary op a p.value) p.rest)
    cases h : productTail stop (.binary op a p.value) p.rest <;> simp only [h] <;> rfl

end Products

section Signs

theorem reading_unary_some {t : Token} {s : Sign} (ht : signOf? t = some s) (rest : List Token) :
    reading (unary stop (t :: rest)) =
      (reading (unary stop rest)).map fun r => (.sign s r.1, r.2) := by
  rw [unary]
  simp only [ht]
  cases unary stop rest <;> rfl

theorem reading_unary_none {t : Token} (ht : signOf? t = none) (rest : List Token) :
    unary stop (t :: rest) = power stop (t :: rest) := by
  rw [unary]
  simp only [ht]

theorem reading_exponent_some {t : Token} {s : Sign} (ht : signOf? t = some s)
    (rest : List Token) :
    reading (exponent stop (t :: rest)) =
      (reading (exponent stop rest)).map fun r => (.sign s r.1, r.2) := by
  rw [exponent]
  simp only [ht]
  cases exponent stop rest <;> rfl

theorem reading_exponent_none {t : Token} (ht : signOf? t = none) (rest : List Token) :
    exponent stop (t :: rest) = postfixed stop (t :: rest) := by
  rw [exponent]
  simp only [ht]

end Signs

section Powers

theorem reading_power (ts : List Token) :
    reading (power stop ts) =
      reading (postfixed stop ts) >>= fun r => reading (powerTail stop r.1 r.2) := by
  rw [power]
  cases postfixed stop ts with
  | error f => rfl
  | ok p =>
    change reading _ = reading (powerTail stop p.value p.rest)
    cases h : powerTail stop p.value p.rest <;> simp only [h] <;> rfl

theorem reading_powerTail_nil (a : Expr) : reading (powerTail stop a []) = .ok (a, []) := by
  rw [powerTail]
  rfl

theorem reading_powerTail_other (a : Expr) {t : Token} (ht : isMark "^" t = false)
    (rest : List Token) : reading (powerTail stop a (t :: rest)) = .ok (a, t :: rest) := by
  rw [powerTail]
  simp only [ht, Bool.false_eq_true, if_false]
  rfl

theorem reading_powerTail_mark (a : Expr) {t : Token} (ht : t.Marks "^") (rest : List Token) :
    reading (powerTail stop a (t :: rest)) = reading (exponent stop rest) >>= fun r =>
      reading (powerTail stop (.binary .pow a r.1) r.2) := by
  rw [powerTail]
  simp only [isMark_iff.mpr ht, if_true]
  cases exponent stop rest with
  | error f => rfl
  | ok p =>
    change reading _ = reading (powerTail stop (.binary .pow a p.value) p.rest)
    cases h : powerTail stop (.binary .pow a p.value) p.rest <;> simp only [h] <;> rfl

/-- An operand with its transpose marks. -/
def transposed (r : Expr × List Token) : Expr × List Token :=
  ((transposes r.1 r.2).value, (transposes r.1 r.2).rest)

theorem transposed_nil (e : Expr) : transposed (e, []) = (e, []) := rfl

theorem transposed_other (e : Expr) {t : Token} (ht : isMark "'" t = false) (rest : List Token) :
    transposed (e, t :: rest) = (e, t :: rest) := by
  simp only [transposed, transposes, ht, Bool.false_eq_true, if_false]

theorem transposed_mark (e : Expr) {t : Token} (ht : t.Marks "'") (rest : List Token) :
    transposed (e, t :: rest) = transposed (.transpose e, rest) := by
  simp only [transposed, transposes, isMark_iff.mpr ht, if_true]
  rfl

theorem reading_postfixed (ts : List Token) :
    reading (postfixed stop ts) = (reading (primary stop ts)).map transposed := by
  rw [postfixed]
  cases primary stop ts <;> rfl

end Powers

section Operands

/-- A result that has to be followed by a mark. -/
def closed {β : Type} (text : String) (r : β × List Token) : Except Fault (β × List Token) :=
  match r.2 with
  | [] => .error (.token (.mark text) (current stop []))
  | t :: rest =>
    if isMark text t then .ok (r.1, rest) else .error (.token (.mark text) t)

theorem reading_primary_number {t : Token} (ht : t.kind = .number) (rest : List Token) :
    reading (primary stop (t :: rest)) = .ok (.number (numberValue t.text), rest) := by
  rw [primary.eq_def]
  simp only [ht]
  rfl

theorem reading_primary_name {t : Token} (ht : t.kind = .name) (rest : List Token) :
    reading (primary stop (t :: rest)) = .ok (.symbol t.text, rest) := by
  rw [primary.eq_def]
  simp only [ht]
  rfl

theorem reading_primary_parentheses {t : Token} (ht : t.Marks "(") (rest : List Token) :
    reading (primary stop (t :: rest)) = reading (sum stop rest) >>= closed stop ")" := by
  rw [primary.eq_def]
  simp only [ht.1, isMark_iff.mpr ht, if_true]
  cases sum stop rest with
  | error f => rfl
  | ok p =>
    obtain ⟨a, rest', h⟩ := p
    cases rest' with
    | nil => rfl
    | cons u rest' =>
      simp only [reading, Except.map, ok_bind, closed]
      split_ifs <;> rfl

/-- What becomes of the rows of an array. -/
def rectangular (r : List (List Expr) × List Token) : Except Fault (Expr × List Token) :=
  if r.1.all fun row => row.length == (r.1.headD []).length then .ok (.array r.1, r.2)
  else .error .unequalRows

theorem reading_primary_array {t u : Token} (ht : t.Marks "[") (hu : isMark "]" u = false)
    (rest : List Token) :
    reading (primary stop (t :: u :: rest)) =
      reading (entries stop [] [] (u :: rest)) >>= rectangular := by
  rw [primary.eq_def]
  simp only [ht.1, isMark_eq_false ht (show "[" ≠ "(" by decide), isMark_iff.mpr ht, hu, if_true,
    Bool.false_eq_true, if_false]
  cases entries stop [] [] (u :: rest) with
  | error f => rfl
  | ok p =>
    simp only [reading, Except.map, ok_bind, rectangular]
    split_ifs <;> rfl

theorem reading_primary_nil :
    reading (primary stop []) = .error (.token .operand (current stop [])) := by
  rw [primary.eq_def]
  rfl

theorem reading_primary_cut {t : Token} (ht : t.Marks "[") :
    reading (primary stop [t]) = .error (.token .operand (current stop [])) := by
  rw [primary.eq_def]
  simp only [ht.1, isMark_eq_false ht (show "[" ≠ "(" by decide), isMark_iff.mpr ht, if_true,
    Bool.false_eq_true, if_false]
  rfl

theorem reading_primary_empty {t u : Token} (ht : t.Marks "[") (hu : u.Marks "]")
    (rest : List Token) :
    reading (primary stop (t :: u :: rest)) =
      .error (.token .arrayEntry (current stop rest)) := by
  rw [primary.eq_def]
  simp only [ht.1, isMark_eq_false ht (show "[" ≠ "(" by decide), isMark_iff.mpr ht,
    isMark_iff.mpr hu, if_true, Bool.false_eq_true, if_false]
  rfl

theorem reading_primary_other {t : Token} (hnumber : t.kind ≠ .number) (hname : t.kind ≠ .name)
    (hopen : isMark "(" t = false) (harray : isMark "[" t = false) (rest : List Token) :
    reading (primary stop (t :: rest)) = .error (.token .operand t) := by
  rw [primary.eq_def]
  simp only [hopen, harray, Bool.false_eq_true, if_false]
  rfl

theorem reading_entries (done : List (List Expr)) (row : List Expr) (ts : List Token) :
    reading (entries stop done row ts) = reading (sum stop ts) >>= fun r =>
      match r.2 with
      | [] => .error (.token (.mark "]") (current stop []))
      | t :: rest =>
        if isMark "," t then reading (entries stop done (row ++ [r.1]) rest)
        else if isMark ";" t then reading (entries stop (done ++ [row ++ [r.1]]) [] rest)
        else if isMark "]" t then .ok (done ++ [row ++ [r.1]], rest)
        else .error (.token (.mark "]") t) := by
  rw [entries]
  cases sum stop ts with
  | error f => rfl
  | ok p =>
    obtain ⟨a, rest, h⟩ := p
    cases rest with
    | nil => rfl
    | cons t rest =>
      simp only [reading, Except.map, ok_bind]
      split_ifs
      · cases entries stop done (row ++ [a]) rest <;> rfl
      · cases entries stop (done ++ [row ++ [a]]) [] rest <;> rfl
      · rfl
      · rfl

end Operands

end Parser
end WeakForm
