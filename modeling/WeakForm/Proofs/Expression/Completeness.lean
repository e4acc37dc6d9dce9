import WeakForm.Proofs.Expression.Soundness

/-!
# Readers accept the grammar

Whatever derives an expression is read as that expression, if what follows cannot continue it. How
much may follow depends on the category: after an operand anything, after a sum no operator but
those of sums. Together with soundness, a text is an expression exactly if the grammar says so, and
it stands for one tree only.
-/

namespace WeakForm

section Starts

/-- Tokens that an operand starts with. -/
def Token.StartsOperand (t : Token) : Prop :=
  t.kind = .number ∨ t.kind = .name ∨ t.Marks "(" ∨ t.Marks "["

/-- Tokens that an expression of a category starts with. -/
def Category.Starts : Category → Token → Prop
  | .primary, t | .postfixed, t | .power, t => t.StartsOperand
  | .exponent, t | .unary, t | .product, t | .sum, t => t.StartsOperand ∨ ∃ s, t.MarksSign s

theorem Derives.starts {c : Category} {ts : List Token} {e : Expr} (h : Derives c ts e) :
    ∃ t us, ts = t :: us ∧ c.Starts t := by
  induction h with
  | number ht => exact ⟨_, [], rfl, .inl ht⟩
  | name ht => exact ⟨_, [], rfl, .inr (.inl ht)⟩
  | parentheses ht => exact ⟨_, _, rfl, .inr (.inr (.inl ht))⟩
  | array width ht => exact ⟨_, _, rfl, .inr (.inr (.inr ht))⟩
  | operand _ ih => exact ih
  | base _ ih => exact ih
  | summand _ ih => exact ih
  | factor _ ih => exact ih
  | plainExponent _ ih =>
    obtain ⟨t, us, rfl, ht⟩ := ih
    exact ⟨t, us, rfl, .inl ht⟩
  | unsigned _ ih =>
    obtain ⟨t, us, rfl, ht⟩ := ih
    exact ⟨t, us, rfl, .inl ht⟩
  | signedExponent ht => exact ⟨_, _, rfl, .inr ⟨_, ht⟩⟩
  | signed ht => exact ⟨_, _, rfl, .inr ⟨_, ht⟩⟩
  | transpose _ _ ih =>
    obtain ⟨t, us, rfl, ht⟩ := ih
    exact ⟨t, _, rfl, ht⟩
  | power _ _ _ ih =>
    obtain ⟨t, us, rfl, ht⟩ := ih
    exact ⟨t, _, rfl, ht⟩
  | product _ _ _ _ ih =>
    obtain ⟨t, us, rfl, ht⟩ := ih
    exact ⟨t, _, rfl, ht⟩
  | sum _ _ _ _ ih =>
    obtain ⟨t, us, rfl, ht⟩ := ih
    exact ⟨t, _, rfl, ht⟩

end Starts

namespace Parser

section Marks

variable {t : Token}

theorem not_marks_of_startsOperand (h : t.StartsOperand) {text : String} (hopen : text ≠ "(")
    (harray : text ≠ "[") : ¬ t.Marks text := by
  intro ht
  rcases h with h | h | h | h
  · cases h.symm.trans ht.1
  · cases h.symm.trans ht.1
  · exact hopen (Marks.eq ht h)
  · exact harray (Marks.eq ht h)

theorem signOf?_of_startsOperand (h : t.StartsOperand) : signOf? t = none := by
  cases hs : signOf? t with
  | none => rfl
  | some s =>
    have hmark := signOf?_eq_some.mp hs
    cases s
    · exact absurd hmark (not_marks_of_startsOperand h (by decide) (by decide))
    · exact absurd hmark (not_marks_of_startsOperand h (by decide) (by decide))

theorem isMark_of_starts (h : Category.sum.Starts t) : isMark "]" t = false := by
  rw [← Bool.not_eq_true, isMark_iff]
  rcases h with h | ⟨s, hs⟩
  · exact not_marks_of_startsOperand h (by decide) (by decide)
  · intro ht
    cases s
    · exact absurd (Marks.eq hs ht) (by decide)
    · exact absurd (Marks.eq hs ht) (by decide)

end Marks

section Stops

/-- The first of the tokens is none of the given marks. -/
def Stops (texts : List String) (rest : List Token) : Prop :=
  ∀ t us, rest = t :: us → ∀ text ∈ texts, ¬ t.Marks text

variable {texts : List String} {rest : List Token}

theorem stops_nil : Stops texts [] := by
  intro t us h
  cases h

theorem stops_cons {t : Token} {text : String} (ht : t.Marks text) (h : text ∉ texts)
    (us : List Token) : Stops texts (t :: us) := by
  intro t' us' heq other hother hmark
  cases heq
  exact h (Marks.eq ht hmark ▸ hother)

theorem Stops.mono {texts' : List String} (h : Stops texts rest)
    (hsub : ∀ text ∈ texts', text ∈ texts) : Stops texts' rest :=
  fun t us heq text htext => h t us heq text (hsub text htext)

variable (stop : ℕ) (e : Expr)

theorem sumTail_of_stops (h : Stops ["+", "-"] rest) :
    reading (sumTail stop e rest) = .ok (e, rest) := by
  cases rest with
  | nil => exact reading_sumTail_nil stop e
  | cons t us =>
    refine reading_sumTail_none stop e ?_ us
    cases hop : additive? t with
    | none => rfl
    | some op =>
      obtain ⟨rfl | rfl, hmark⟩ := additive?_eq_some.mp hop
      · exact absurd hmark (h t us rfl "+" (by simp))
      · exact absurd hmark (h t us rfl "-" (by simp))

theorem productTail_of_stops (h : Stops ["*", "/"] rest) :
    reading (productTail stop e rest) = .ok (e, rest) := by
  cases rest with
  | nil => exact reading_productTail_nil stop e
  | cons t us =>
    refine reading_productTail_none stop e ?_ us
    cases hop : multiplicative? t with
    | none => rfl
    | some op =>
      obtain ⟨rfl | rfl, hmark⟩ := multiplicative?_eq_some.mp hop
      · exact absurd hmark (h t us rfl "*" (by simp))
      · exact absurd hmark (h t us rfl "/" (by simp))

theorem powerTail_of_stops (h : Stops ["^"] rest) :
    reading (powerTail stop e rest) = .ok (e, rest) := by
  cases rest with
  | nil => exact reading_powerTail_nil stop e
  | cons t us =>
    refine reading_powerTail_other stop e ?_ us
    rw [← Bool.not_eq_true, isMark_iff]
    exact h t us rfl "^" (by simp)

theorem transposed_of_stops (h : Stops ["'"] rest) : transposed (e, rest) = (e, rest) := by
  cases rest with
  | nil => exact transposed_nil e
  | cons t us =>
    refine transposed_other e ?_ us
    rw [← Bool.not_eq_true, isMark_iff]
    exact h t us rfl "'" (by simp)

end Stops

/-- The tokens are read as the expression, whatever follows that cannot continue it. -/
def Complete (stop : ℕ) : Category → List Token → Expr → Prop
  | .primary, ts, e => ∀ rest, reading (primary stop (ts ++ rest)) = .ok (e, rest)
  | .postfixed, ts, e => ∀ rest, reading (postfixed stop (ts ++ rest)) = .ok (transposed (e, rest))
  | .exponent, ts, e => ∀ rest, Stops ["'"] rest →
      reading (exponent stop (ts ++ rest)) = .ok (e, rest)
  | .power, ts, e => ∀ rest, Stops ["'"] rest →
      reading (power stop (ts ++ rest)) = reading (powerTail stop e rest)
  | .unary, ts, e => ∀ rest, Stops ["^", "'"] rest →
      reading (unary stop (ts ++ rest)) = .ok (e, rest)
  | .product, ts, e => ∀ rest, Stops ["^", "'"] rest →
      reading (product stop (ts ++ rest)) = reading (productTail stop e rest)
  | .sum, ts, e => ∀ rest, Stops ["*", "/", "^", "'"] rest →
      reading (sum stop (ts ++ rest)) = reading (sumTail stop e rest)

variable {stop : ℕ}

section Arrays

/-- A sum ends before a closing or separating mark. -/
theorem sum_before_mark {ts : List Token} {e : Expr} (h : Complete stop .sum ts e) {t : Token}
    {text : String} (ht : t.Marks text) (htext : text ∈ [",", ";", "]", ")"]) (rest : List Token) :
    reading (sum stop (ts ++ t :: rest)) = .ok (e, t :: rest) := by
  have hstops (texts : List String) (hdisjoint : ∀ s ∈ [",", ";", "]", ")"], s ∉ texts) :
      Stops texts (t :: rest) := stops_cons ht (hdisjoint text htext) rest
  rw [h _ (hstops _ (by decide)), sumTail_of_stops stop e (hstops _ (by decide))]

variable {cells : List (List Token × Expr)} {us : List Token} {t : Token}

/-- The entries of a row are read one by one, up to the mark behind them. -/
theorem entries_row (hjoin : JoinedBy "," (cells.map Prod.fst) us)
    (hcells : ∀ c ∈ cells, Complete stop .sum c.1 c.2) (done : List (List Expr)) (row : List Expr)
    (rest : List Token) :
    (t.Marks ";" → reading (entries stop done row (us ++ t :: rest)) =
      reading (entries stop (done ++ [row ++ cells.map Prod.snd]) [] rest)) ∧
    (t.Marks "]" → reading (entries stop done row (us ++ t :: rest)) =
      .ok (done ++ [row ++ cells.map Prod.snd], rest)) := by
  generalize hparts : cells.map Prod.fst = parts at hjoin
  induction hjoin generalizing cells row with
  | one ts =>
    obtain ⟨⟨ts', e⟩, rfl, rfl⟩ := List.map_eq_singleton_iff.mp hparts
    have he := hcells _ (List.mem_singleton.mpr rfl)
    constructor
    · intro ht
      rw [reading_entries, sum_before_mark he ht (by decide), ok_bind]
      simp [isMark_eq_false ht (show ";" ≠ "," by decide), isMark_iff.mpr ht]
    · intro ht
      rw [reading_entries, sum_before_mark he ht (by decide), ok_bind]
      simp [isMark_eq_false ht (show "]" ≠ "," by decide),
        isMark_eq_false ht (show "]" ≠ ";" by decide), isMark_iff.mpr ht]
  | @cons ts u parts rest' hu _ ih =>
    obtain ⟨⟨ts', e⟩, cells, rfl, rfl, hrest⟩ := List.map_eq_cons_iff.mp hparts
    obtain ⟨he, hcells⟩ := List.forall_mem_cons.mp hcells
    have hstep : reading (entries stop done row ((ts' ++ u :: rest') ++ t :: rest)) =
        reading (entries stop done (row ++ [e]) (rest' ++ t :: rest)) := by
      rw [List.append_assoc, List.cons_append, reading_entries,
        sum_before_mark he hu (by decide), ok_bind]
      simp [isMark_iff.mpr hu]
    have hrow : row ++ ((ts', e) :: cells).map Prod.snd = row ++ [e] ++ cells.map Prod.snd := by
      simp
    rw [hrow]
    change (_ → reading (entries stop done row ((ts' ++ u :: rest') ++ t :: rest)) = _) ∧
      (_ → reading (entries stop done row ((ts' ++ u :: rest') ++ t :: rest)) = _)
    rw [hstep]
    exact ih hcells (row ++ [e]) hrest

/-- The rows of an array are read one by one, up to the closing bracket. -/
theorem entries_rows {rows : List (List Token × List (List Token × Expr))}
    (hjoin : JoinedBy ";" (rows.map Prod.fst) us)
    (hrows : ∀ r ∈ rows, JoinedBy "," (r.2.map Prod.fst) r.1)
    (hcells : ∀ r ∈ rows, ∀ c ∈ r.2, Complete stop .sum c.1 c.2) (ht : t.Marks "]")
    (done : List (List Expr)) (rest : List Token) :
    reading (entries stop done [] (us ++ t :: rest)) =
      .ok (done ++ rows.map (fun r => r.2.map Prod.snd), rest) := by
  generalize hparts : rows.map Prod.fst = parts at hjoin
  induction hjoin generalizing rows done with
  | one ts =>
    obtain ⟨⟨ts', cells⟩, rfl, rfl⟩ := List.map_eq_singleton_iff.mp hparts
    have hrow := hrows _ (List.mem_singleton.mpr rfl)
    exact (entries_row hrow (hcells _ (List.mem_singleton.mpr rfl)) done [] rest).2 ht
  | @cons ts u parts rest' hu _ ih =>
    obtain ⟨⟨ts', cells⟩, rows, rfl, rfl, hrest⟩ := List.map_eq_cons_iff.mp hparts
    obtain ⟨hrow, hrows⟩ := List.forall_mem_cons.mp hrows
    obtain ⟨hcell, hcells⟩ := List.forall_mem_cons.mp hcells
    have hstep := (entries_row hrow hcell done [] (rest' ++ t :: rest)).1 hu
    rw [List.append_assoc, List.cons_append]
    refine hstep.trans ?_
    rw [ih hrows hcells _ hrest]
    simp

end Arrays

theorem rectangular_of_width {value : List (List Expr)} {width : ℕ} {rest : List Token}
    (h : ∀ row ∈ value, row.length = width) :
    rectangular (value, rest) = .ok (.array value, rest) := by
  refine if_pos (List.all_eq_true.mpr fun row hmem => ?_)
  cases value with
  | nil => cases hmem
  | cons first others =>
    rw [List.headD_cons, h row hmem, h first List.mem_cons_self, beq_self_eq_true]

/-- An array literal is read as the array of its rows. -/
theorem complete_array {t u : Token} {ts : List Token}
    {rows : List (List Token × List (List Token × Expr))} {width : ℕ} (ht : t.Marks "[")
    (hjoin : JoinedBy ";" (rows.map Prod.fst) ts)
    (hrow : ∀ row ∈ rows, JoinedBy "," (row.2.map Prod.fst) row.1)
    (hwidth : ∀ row ∈ rows, row.2.length = width)
    (hcells : ∀ row ∈ rows, ∀ c ∈ row.2, Complete stop .sum c.1 c.2)
    (hstart : ∃ v vs, ts = v :: vs ∧ Category.sum.Starts v) (hu : u.Marks "]") :
    Complete stop .primary (t :: (ts ++ [u]))
      (.array (rows.map fun row => row.2.map Prod.snd)) := by
  intro rest
  obtain ⟨v, vs, rfl, hv⟩ := hstart
  have hread : reading (entries stop [] [] (v :: (vs ++ u :: rest))) =
      .ok (rows.map (fun row => row.2.map Prod.snd), rest) := by
    simpa using entries_rows hjoin hrow hcells hu [] rest
  have hlist : (t :: (v :: vs ++ [u])) ++ rest = t :: v :: (vs ++ u :: rest) := by simp
  have hlen : ∀ row ∈ rows.map (fun row => row.2.map Prod.snd), row.length = width := by
    intro row hmem
    obtain ⟨r, hr, rfl⟩ := List.mem_map.mp hmem
    rw [List.length_map, hwidth r hr]
  rw [hlist, reading_primary_array stop ht (isMark_of_starts hv), hread, ok_bind,
    rectangular_of_width hlen]

/-- The first row of an array starts with its first entry. -/
theorem starts_of_rows {ts : List Token} {rows : List (List Token × List (List Token × Expr))}
    (hjoin : JoinedBy ";" (rows.map Prod.fst) ts)
    (hrow : ∀ row ∈ rows, JoinedBy "," (row.2.map Prod.fst) row.1)
    (h : ∀ row ∈ rows, ∀ c ∈ row.2, Derives .sum c.1 c.2) :
    ∃ v vs, ts = v :: vs ∧ Category.sum.Starts v := by
  have hhead {mark : String} {parts : List (List Token)} {us : List Token}
      (hj : JoinedBy mark parts us)
      (hparts : ∀ part ∈ parts, ∃ v vs, part = v :: vs ∧ Category.sum.Starts v) :
      ∃ v vs, us = v :: vs ∧ Category.sum.Starts v := by
    cases hj with
    | one => exact hparts us (List.mem_singleton.mpr rfl)
    | cons _ _ =>
      obtain ⟨v, vs, rfl, hv⟩ := hparts _ List.mem_cons_self
      exact ⟨v, _, rfl, hv⟩
  apply hhead hjoin
  intro part hpart
  obtain ⟨row, hmem, rfl⟩ := List.mem_map.mp hpart
  apply hhead (hrow row hmem)
  intro cell hcell
  obtain ⟨c, hc, rfl⟩ := List.mem_map.mp hcell
  exact (h row hmem c hc).starts

/-- The readers accept whatever the grammar derives. -/
theorem complete_of_derives {c : Category} {ts : List Token} {e : Expr} (h : Derives c ts e) :
    Complete stop c ts e := by
  induction h with
  | number ht => exact fun rest => reading_primary_number stop ht rest
  | name ht => exact fun rest => reading_primary_name stop ht rest
  | parentheses ht _ hu ih =>
    intro rest
    rw [List.cons_append, List.append_assoc, List.singleton_append,
      reading_primary_parentheses stop ht, sum_before_mark ih hu (by decide), ok_bind]
    simp [closed, isMark_iff.mpr hu]
  | array width ht hjoin hrow hwidth h hu ih =>
    exact complete_array ht hjoin hrow hwidth ih (starts_of_rows hjoin hrow h) hu
  | operand _ ih =>
    intro rest
    rw [reading_postfixed, ih rest]
    rfl
  | transpose _ ht ih =>
    intro rest
    rw [List.append_assoc, List.singleton_append, ih, transposed_mark _ ht]
  | plainExponent h ih =>
    intro rest hrest
    obtain ⟨t, us, rfl, ht⟩ := h.starts
    have hread := ih rest
    rw [transposed_of_stops _ hrest] at hread
    rwa [List.cons_append, reading_exponent_none stop (signOf?_of_startsOperand ht)]
  | signedExponent ht _ ih =>
    intro rest hrest
    rw [List.cons_append, reading_exponent_some stop (signOf?_eq_some.mpr ht), ih rest hrest]
    rfl
  | base _ ih =>
    intro rest hrest
    rw [reading_power, ih rest, transposed_of_stops _ hrest, ok_bind]
  | power _ ht _ iha ihb =>
    intro rest hrest
    have hcaret : Token.Marks _ "^" := ht
    rw [List.append_assoc, List.cons_append, iha _ (stops_cons hcaret (by decide) _),
      reading_powerTail_mark stop _ hcaret, ihb rest hrest, ok_bind]
  | unsigned h ih =>
    intro rest hrest
    obtain ⟨t, us, rfl, ht⟩ := h.starts
    have hread := ih rest (hrest.mono (by simp))
    rw [powerTail_of_stops stop _ (hrest.mono (by simp))] at hread
    rwa [List.cons_append, reading_unary_none stop (signOf?_of_startsOperand ht)]
  | signed ht _ ih =>
    intro rest hrest
    rw [List.cons_append, reading_unary_some stop (signOf?_eq_some.mpr ht), ih rest hrest]
    rfl
  | factor _ ih =>
    intro rest hrest
    rw [reading_product, ih rest hrest, ok_bind]
  | @product ts us t op a b hop _ ht _ iha ihb =>
    intro rest hrest
    have hmark : Stops ["^", "'"] (t :: (us ++ rest)) := by
      rcases hop with rfl | rfl
      · exact stops_cons (show t.Marks "*" from ht) (by decide) _
      · exact stops_cons (show t.Marks "/" from ht) (by decide) _
    rw [List.append_assoc, List.cons_append, iha _ hmark,
      reading_productTail_some stop a (multiplicative?_eq_some.mpr ⟨hop, ht⟩), ihb rest hrest,
      ok_bind]
  | summand _ ih =>
    intro rest hrest
    rw [reading_sum, ih rest (hrest.mono (by simp)),
      productTail_of_stops stop _ (hrest.mono (by simp)), ok_bind]
  | @sum ts us t op a b hop _ ht _ iha ihb =>
    intro rest hrest
    have hmark : Stops ["*", "/", "^", "'"] (t :: (us ++ rest)) := by
      rcases hop with rfl | rfl
      · exact stops_cons (show t.Marks "+" from ht) (by decide) _
      · exact stops_cons (show t.Marks "-" from ht) (by decide) _
    rw [List.append_assoc, List.cons_append, iha _ hmark,
      reading_sumTail_some stop a (additive?_eq_some.mpr ⟨hop, ht⟩),
      ihb rest (hrest.mono (by simp)), productTail_of_stops stop _ (hrest.mono (by simp)), ok_bind]

end Parser

open WeakForm.Parser

namespace Expr

/-- A reader succeeds with a result and unread tokens exactly if its reading is these. -/
theorem reading_eq_ok {β : Type} {n : ℕ} {r : Except Fault (Parsed β n)} {b : β}
    {rest : List Token} :
    reading r = .ok (b, rest) ↔ ∃ h, r = .ok ⟨b, rest, h⟩ := by
  cases r with
  | error f => simp [reading, Except.map]
  | ok p =>
    obtain ⟨b', rest', h'⟩ := p
    simp only [reading, Except.map, Except.ok.injEq, Prod.mk.injEq, Parsed.mk.injEq]
    constructor
    · rintro ⟨rfl, rfl⟩
      exact ⟨h', rfl, rfl⟩
    · rintro ⟨-, rfl, rfl⟩
      exact ⟨rfl, rfl⟩

variable {text : String} {tokens : List Token}

theorem tokenize_eq_ok :
    tokenize text = .ok (tokens ++ [finish text.length]) ↔
      Token.scan 0 text.toList = .ok tokens := by
  unfold tokenize
  cases Token.scan 0 text.toList with
  | error err => simp
  | ok found =>
    simp only [Except.ok.injEq]
    exact List.append_left_inj _

theorem parse_of_scan (h : Token.scan 0 text.toList = .ok tokens) (hne : tokens ≠ []) :
    parse text = match sum text.length tokens with
      | .error (.token e found) => .error (.token e found text)
      | .error .unequalRows => .error (.unequalRows text)
      | .ok ⟨e, [], _⟩ => .ok e
      | .ok ⟨_, t :: _, _⟩ => .error (.token .finish t text) := by
  unfold parse
  rw [h]
  cases tokens with
  | nil => exact absurd rfl hne
  | cons t ts => rfl

/-- The tokens of a text read as one sum are its tree. -/
theorem parse_eq_ok_of_scan (h : Token.scan 0 text.toList = .ok tokens) {e : Expr} :
    parse text = .ok e ↔ Derives .sum tokens e := by
  constructor
  · intro hp
    have hne : tokens ≠ [] := by
      rintro rfl
      unfold parse at hp
      rw [h] at hp
      cases hp
    rw [parse_of_scan h hne] at hp
    have hsound : Sound text.length tokens _ _ := sum_sound tokens
    split at hp
    · cases hp
    · cases hp
    · rename_i e' hlt hsum
      cases hp
      rw [reading_eq_ok.mpr ⟨hlt, hsum⟩] at hsound
      obtain ⟨us, hus, hd⟩ := hsound
      rw [List.append_nil] at hus
      rwa [hus]
    · cases hp
  · intro hd
    have hread : reading (sum text.length (tokens ++ [])) = _ :=
      complete_of_derives hd [] stops_nil
    rw [List.append_nil, reading_sumTail_nil] at hread
    obtain ⟨hlt, hsum⟩ := reading_eq_ok.mp hread
    rw [parse_of_scan h hd.ne_nil, hsum]

/-- A text has a tree exactly if its tokens derive it as a sum. Otherwise the text has no tokens, or
the fault is that of an array with unequal rows, or it names one of the tokens, the end of the text
being the last of them. That no reader gets past the end needs no proof: what is left to read is the
rest of the list of tokens, and the end stands for the empty one. -/
theorem parse_spec (text : String) :
    (∀ e, parse text = .ok e ↔ ∃ tokens, tokenize text = .ok (tokens ++ [finish text.length]) ∧
      Derives .sum tokens e) ∧
    ∀ err, parse text = .error err →
      tokenize text = .error err ∨
      ∃ tokens, tokenize text = .ok tokens ∧
        (err = .empty ∧ tokens = [finish text.length] ∨ err = .unequalRows text ∨
          ∃ expectation, ∃ found ∈ tokens, err = .token expectation found text) := by
  constructor
  · intro e
    constructor
    · intro hp
      cases hscan : Token.scan 0 text.toList with
      | error err =>
        unfold parse at hp
        rw [hscan] at hp
        cases hp
      | ok tokens => exact ⟨tokens, tokenize_eq_ok.mpr hscan, (parse_eq_ok_of_scan hscan).mp hp⟩
    · rintro ⟨tokens, htokens, hd⟩
      exact (parse_eq_ok_of_scan (tokenize_eq_ok.mp htokens)).mpr hd
  · intro err hp
    cases hscan : Token.scan 0 text.toList with
    | error bad =>
      left
      unfold parse at hp
      rw [hscan] at hp
      unfold tokenize
      rw [hscan]
      exact congrArg Except.error (Except.error.inj hp)
    | ok tokens =>
      right
      refine ⟨_, tokenize_eq_ok.mpr hscan, ?_⟩
      by_cases hne : tokens = []
      · left
        subst hne
        unfold parse at hp
        rw [hscan] at hp
        exact ⟨(Except.error.inj hp).symm, rfl⟩
      right
      rw [parse_of_scan hscan hne] at hp
      have hsound : Sound text.length tokens _ _ := sum_sound tokens
      split at hp
      · rename_i x found hsum
        right
        have hread : reading (sum text.length tokens) = .error (.token x found) := by
          rw [hsum]
          rfl
        rw [hread] at hsound
        exact ⟨x, found, hsound, (Except.error.inj hp).symm⟩
      · exact .inl (Except.error.inj hp).symm
      · cases hp
      · rename_i e t rest hlt hsum
        right
        rw [reading_eq_ok.mpr ⟨hlt, hsum⟩] at hsound
        obtain ⟨us, hus, -⟩ := hsound
        have hmem : t ∈ tokens := by
          rw [hus]
          simp
        exact ⟨.finish, t, List.mem_append_left _ hmem, (Except.error.inj hp).symm⟩

end Expr
end WeakForm
