import WeakForm.Proofs.Expression.Derivations

/-!
# References

A text refers to a name when the name is one of the pieces between separators, and an expression has
it when it is one of its tokens. The two agree on every text that is an expression: between
separators there is always one word, because no two words touch, and the pieces of a numeral never
look like a name.
-/

namespace WeakForm
namespace Names

variable {p : Char → Bool} {c : Char} {w run cs rest : List Char}

section Pieces

theorem pieces_of_dropWhile_eq_nil (h : cs.dropWhile (fun c => !p c) = []) :
    pieces p cs = [cs] := by
  rw [pieces]
  split
  · rfl
  · rename_i hcons
    rw [h] at hcons
    cases hcons

theorem pieces_of_dropWhile_eq_cons (h : cs.dropWhile (fun c => !p c) = c :: rest) :
    pieces p cs = cs.takeWhile (fun c => !p c) :: pieces p (rest.dropWhile p) := by
  rw [pieces]
  split
  · rename_i hnil
    rw [h] at hnil
    cases hnil
  · rename_i hcons
    rw [h] at hcons
    cases hcons
    rfl

/-- A run of other characters up to a separator or the end is a piece. -/
theorem mem_pieces_run (hrun : ∀ c ∈ run, p c = false) (hrest : ∀ c ∈ rest.head?, p c = true)
    (hw : w ≠ []) : w ∈ pieces p (run ++ rest) ↔ w = run ∨ w ∈ pieces p rest := by
  have hrun' : ∀ c ∈ run, (!p c) = true := fun c hc => by simp [hrun c hc]
  cases rest with
  | nil =>
    have hall : (run ++ []).dropWhile (fun c => !p c) = [] := by
      rw [List.dropWhile_append_of_pos hrun', List.dropWhile_nil]
    rw [pieces_of_dropWhile_eq_nil hall, pieces_of_dropWhile_eq_nil List.dropWhile_nil]
    simp [hw]
  | cons c rest =>
    have hc : p c = true := hrest c rfl
    have hdrop : (run ++ c :: rest).dropWhile (fun c => !p c) = c :: rest := by
      rw [List.dropWhile_append_of_pos hrun']
      simp [hc]
    have htake : (run ++ c :: rest).takeWhile (fun c => !p c) = run :=
      Token.takeWhile_append_of_head hrun' fun d hd => by simp [hrest d hd]
    have hhead : (c :: rest).dropWhile (fun c => !p c) = c :: rest := by simp [hc]
    rw [pieces_of_dropWhile_eq_cons hdrop, htake, pieces_of_dropWhile_eq_cons hhead]
    simp [hw, hc]

/-- A separator at the front separates nothing. -/
theorem mem_pieces_cons (hc : p c = true) (hw : w ≠ []) :
    w ∈ pieces p (c :: cs) ↔ w ∈ pieces p cs := by
  have hhead : (c :: cs).dropWhile (fun c => !p c) = c :: cs := by simp [hc]
  have hfront : w ∈ pieces p (c :: cs) ↔ w ∈ pieces p (cs.dropWhile p) := by
    rw [pieces_of_dropWhile_eq_cons hhead]
    simp [hw, hc]
  rw [hfront]
  cases cs with
  | nil => rfl
  | cons d cs =>
    by_cases hd : p d = true
    · have hhead' : (d :: cs).dropWhile (fun c => !p c) = d :: cs := by simp [hd]
      rw [pieces_of_dropWhile_eq_cons hhead']
      simp [hw, hd]
    · simp [hd]

theorem mem_pieces_separators (hrun : ∀ c ∈ run, p c = true) (hw : w ≠ []) :
    w ∈ pieces p (run ++ cs) ↔ w ∈ pieces p cs := by
  induction run with
  | nil => rfl
  | cons c run ih =>
    obtain ⟨hc, hrun⟩ := List.forall_mem_cons.mp hrun
    rw [List.cons_append, mem_pieces_cons hc hw, ih hrun]

end Pieces

section Valid

variable {name : String}

/-- A valid name starts like a name. -/
theorem exists_of_isValid (h : isValid name = true) :
    ∃ c rest, name.toList = c :: rest ∧ Token.isNameStart c = true := by
  unfold isValid at h
  split at h
  · rename_i c rest hchars
    rw [Bool.and_eq_true] at h
    exact ⟨c, rest, hchars, h.1⟩
  · cases h

/-- A valid name does not start with a digit or a point. -/
theorem toList_ne_of_isValid (h : isValid name = true) {c : Char} {rest : List Char}
    (hc : Text.isDigit c = true ∨ c = '.') : name.toList ≠ c :: rest := by
  obtain ⟨d, rest', hchars, hd⟩ := exists_of_isValid h
  rw [hchars]
  rintro heq
  cases heq
  rcases hc with hc | rfl
  · exact absurd hc (by simp [Token.isDigit_of_isNameStart hd])
  · exact absurd hd (by decide)

theorem toList_ne_nil_of_isValid (h : isValid name = true) : name.toList ≠ [] := by
  obtain ⟨c, rest, hchars, -⟩ := exists_of_isValid h
  simp [hchars]

theorem isSeparator_of_mem_mantissa {m : List Char} (hm : Token.IsMantissa m) :
    ∀ c ∈ m, isSeparator c = false := by
  cases hm with
  | whole hd => exact fun c hc => Token.isSeparator_of_isDigit (hd c hc)
  | point hd he =>
    intro c hc
    rcases List.mem_append.mp hc with hc | hc
    · exact Token.isSeparator_of_isDigit (hd c hc)
    rcases List.mem_cons.mp hc with rfl | hc
    · exact Token.isSeparator_point
    · exact Token.isSeparator_of_isDigit (he c hc)

/-- Neither the front of a numeral nor the digits of its exponent are a name. -/
theorem mem_pieces_numeral (h : isValid name = true) {numeral : List Char}
    (hp : Token.IsNumeral numeral) (hrest : Token.Separated rest) :
    name.toList ∈ pieces isSeparator (numeral ++ rest) ↔ name.toList ∈ pieces isSeparator rest := by
  have hw := toList_ne_nil_of_isValid h
  have hfront {m tail : List Char} (hm : Token.IsMantissa m) : name.toList ≠ m ++ tail := by
    obtain ⟨c, m', rfl, hc⟩ := Lexeme.isMantissa_head hm
    exact toList_ne_of_isValid h hc
  obtain ⟨m, x, rfl, hm, hx⟩ := hp
  have hmantissa := isSeparator_of_mem_mantissa hm
  cases hx with
  | absent =>
    rw [mem_pieces_run (by simpa using hmantissa) hrest hw]
    exact or_iff_right (hfront hm)
  | @present c sign ds hc hs hd hne =>
    have hmark : isSeparator c = false := by
      rcases hc with rfl | rfl <;> decide
    have hdigits : ∀ d ∈ ds, isSeparator d = false :=
      fun d hds => Token.isSeparator_of_isDigit (hd d hds)
    -- a sign separates the front of the numeral from its last digits
    have hsigned {s : Char} (hs : isSeparator s = true) :
        name.toList ∈ pieces isSeparator ((m ++ [c]) ++ s :: (ds ++ rest)) ↔
          name.toList ∈ pieces isSeparator rest := by
      have hrun : ∀ d ∈ m ++ [c], isSeparator d = false :=
        List.forall_mem_append.mpr ⟨hmantissa, by simpa using hmark⟩
      have hne : name.toList ≠ ds := by
        have hfront : name.toList ≠ ds ++ [] := hfront (.whole hd hne)
        simpa using hfront
      rw [mem_pieces_run hrun (Token.separated_cons hs _) hw, mem_pieces_cons hs hw,
        mem_pieces_run hdigits hrest hw]
      simp [hfront hm, hne]
    rcases hs with rfl | rfl | rfl
    · have hrun : ∀ d ∈ m ++ c :: ds, isSeparator d = false :=
        List.forall_mem_append.mpr ⟨hmantissa, List.forall_mem_cons.mpr ⟨hmark, hdigits⟩⟩
      rw [List.nil_append, mem_pieces_run hrun hrest hw]
      exact or_iff_right (hfront hm)
    · simpa using hsigned (s := '+') (by decide)
    · simpa using hsigned (s := '-') (by decide)

end Valid

section Texts

variable {name : String} {ls : List Lexeme}

/-- A name is a piece of a text that consists of well-spaced pieces if it is one of those. -/
theorem mem_pieces_textOf (h : isValid name = true) (hls : Lexeme.WellSpaced ls) :
    name.toList ∈ pieces isSeparator (Lexeme.textOf ls) ↔ (some .name, name.toList) ∈ ls := by
  have hw := toList_ne_nil_of_isValid h
  induction ls with
  | nil =>
    rw [Lexeme.textOf, List.flatMap_nil, pieces_of_dropWhile_eq_nil rfl]
    simp [hw]
  | cons l ls ih =>
    have hword := hls.mayPrecede.1
    rw [Lexeme.textOf, List.flatMap_cons, ← Lexeme.textOf, List.mem_cons, (ih hls.tail).symm]
    cases hls.head with
    | number hp =>
      rw [mem_pieces_numeral h hp (hword (.inl rfl))]
      simp
    | @name c p hc hp =>
      have hrun : ∀ d ∈ c :: p, isSeparator d = false :=
        List.forall_mem_cons.mpr ⟨Token.isSeparator_of_isNamePart (Token.isNamePart_of_isNameStart hc),
          fun d hd => Token.isSeparator_of_isNamePart (hp d hd)⟩
      rw [mem_pieces_run hrun (hword (.inr rfl)) hw]
      simp
    | mark hc =>
      rw [List.singleton_append, mem_pieces_cons (Token.isSeparator_of_isMark hc) hw]
      simp
    | blank _ hp =>
      rw [mem_pieces_separators (fun c hc => Token.isSeparator_of_isBlank (hp c hc)) hw]
      simp

/-- The names among the tokens of pieces are those among the pieces. -/
theorem mem_nameTexts_tokens {position : ℕ} :
    name ∈ nameTexts (Lexeme.tokens position ls) ↔ (some .name, name.toList) ∈ ls := by
  induction ls generalizing position with
  | nil => simp [Lexeme.tokens, nameTexts]
  | cons l ls ih =>
    obtain ⟨kind, p⟩ := l
    have htext : name = String.ofList p ↔ name.toList = p := by
      rw [← String.toList_inj, String.toList_ofList]
    cases kind with
    | none =>
      rw [Lexeme.tokens, ih]
      simp
    | some kind =>
      rw [Lexeme.tokens, ← List.singleton_append, nameTexts_append, List.mem_append, ih]
      cases kind <;> simp [nameTexts, htext]

end Texts

end Names

namespace Expr

theorem mem_symbols {e : Expr} {name : String} : name ∈ e.symbols ↔ name ∈ e.names := by
  rw [symbols, sortedNames, List.mem_mergeSort, List.mem_eraseDups]

/-- A text that is an expression refers to the names of that expression. -/
theorem references_iff_mem_symbols {text name : String} {e : Expr} (h : parse text = .ok e)
    (hname : Names.isValid name = true) :
    Names.references text name = true ↔ name ∈ e.symbols := by
  obtain ⟨ls, hls, htext, hd⟩ := exists_lexemes_of_parse h
  rw [mem_symbols, hd.names_eq, Names.mem_nameTexts_tokens, ← Names.mem_pieces_textOf hname hls,
    htext, Names.references, List.contains_iff_mem]

end Expr
end WeakForm
