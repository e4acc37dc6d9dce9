import Mathlib
import WeakForm.Expression.Names

/-!
# Numerals

The characters of a text fall into classes that have no character in common: digits, the starts of
names, marks and white space. Therefore a numeral is cut from a text as a whole wherever a separator
or the end of the text comes next.
-/

namespace WeakForm
namespace Token

open Text (isDigit isBlank)
open Names (isSeparator)

section Classes

variable {c : Char}

/-- Where digits are among the code points, apart from gaps that white space falls into. -/
theorem digit_bounds (h : isDigit c = true) :
    48 ≤ c.toNat ∧ c.toNat ≤ 57 ∨ 1632 ≤ c.toNat ∧ c.toNat < 5760 ∨
      5760 < c.toNat ∧ c.toNat < 8192 ∨ 12288 < c.toNat := by
  have hzeros : ∀ z ∈ Text.digitZeros, z = 48 ∨ 1632 ≤ z ∧ z + 9 < 5760 ∨
      5760 < z ∧ z + 9 < 8192 ∨ 12288 < z := by decide
  unfold isDigit Text.digitValue? at h
  rw [Option.isSome_map] at h
  obtain ⟨z, hz⟩ := Option.isSome_iff_exists.mp h
  have hmem := hzeros z (List.mem_of_find?_eq_some hz)
  have hrange := List.find?_some hz
  simp only [Bool.and_eq_true, decide_eq_true_eq] at hrange
  omega

theorem nameStart_bounds (h : isNameStart c = true) :
    65 ≤ c.toNat ∧ c.toNat ≤ 90 ∨ 97 ≤ c.toNat ∧ c.toNat ≤ 122 ∨ c.toNat = 95 := by
  simp only [isNameStart, Char.isAlpha, Char.isUpper, Char.isLower, Bool.or_eq_true,
    Bool.and_eq_true, decide_eq_true_eq, beq_iff_eq, UInt32.le_iff_toNat_le, ge_iff_le] at h
  change (65 ≤ c.toNat ∧ c.toNat ≤ 90 ∨ 97 ≤ c.toNat ∧ c.toNat ≤ 122) ∨ c = '_' at h
  rcases h with (h | h) | rfl
  · exact .inl h
  · exact .inr (.inl h)
  · exact .inr (.inr rfl)

theorem namePart_bounds (h : isNamePart c = true) :
    48 ≤ c.toNat ∧ c.toNat ≤ 57 ∨ 65 ≤ c.toNat ∧ c.toNat ≤ 90 ∨
      97 ≤ c.toNat ∧ c.toNat ≤ 122 ∨ c.toNat = 95 := by
  have hsplit : isNameStart c = true ∨ c.isDigit = true := by
    simp only [isNamePart, Char.isAlphanum, Bool.or_eq_true] at h
    simp only [isNameStart, Bool.or_eq_true]
    tauto
  rcases hsplit with hstart | hdigit
  · exact .inr (nameStart_bounds hstart)
  · simp only [Char.isDigit, Bool.and_eq_true, decide_eq_true_eq, UInt32.le_iff_toNat_le,
      ge_iff_le] at hdigit
    exact .inl hdigit

theorem mark_bounds (h : isMark c = true) :
    39 ≤ c.toNat ∧ c.toNat ≤ 45 ∨ c.toNat = 47 ∨ c.toNat = 59 ∨ c.toNat = 91 ∨ c.toNat = 93 ∨
      c.toNat = 94 := by
  have hmem : c ∈ marks := List.contains_iff_mem.mp h
  simp only [marks, List.mem_cons, List.not_mem_nil, or_false] at hmem
  rcases hmem with rfl | rfl | rfl | rfl | rfl | rfl | rfl | rfl | rfl | rfl | rfl | rfl <;> decide

theorem blank_bounds (h : isBlank c = true) :
    c.toNat ≤ 32 ∨ c.toNat = 133 ∨ c.toNat = 160 ∨ c.toNat = 5760 ∨
      8192 ≤ c.toNat ∧ c.toNat ≤ 12288 := by
  simp only [isBlank, Bool.or_eq_true, Bool.and_eq_true, decide_eq_true_eq, beq_iff_eq] at h
  omega

theorem isNamePart_of_isNameStart (h : isNameStart c = true) : isNamePart c = true := by
  simp only [isNameStart, Bool.or_eq_true] at h
  simp only [isNamePart, Char.isAlphanum, Bool.or_eq_true]
  tauto

theorem isDigit_of_isNameStart (h : isNameStart c = true) : isDigit c = false := by
  rw [← Bool.not_eq_true]
  intro hd
  have hstart := nameStart_bounds h
  have hdigit := digit_bounds hd
  omega

theorem separator_bounds (h : isSeparator c = true) :
    c.toNat ≤ 45 ∨ c.toNat = 47 ∨ c.toNat = 59 ∨ c.toNat = 91 ∨ c.toNat = 93 ∨ c.toNat = 94 ∨
      c.toNat = 133 ∨ c.toNat = 160 ∨ c.toNat = 5760 ∨ 8192 ≤ c.toNat ∧ c.toNat ≤ 12288 := by
  rcases Bool.or_eq_true _ _ ▸ h with hb | hm
  · have := blank_bounds hb
    omega
  · have := mark_bounds hm
    omega

theorem isDigit_of_isSeparator (h : isSeparator c = true) : isDigit c = false := by
  rw [← Bool.not_eq_true]
  intro hd
  have hsep := separator_bounds h
  have hdigit := digit_bounds hd
  omega

theorem isNamePart_of_isSeparator (h : isSeparator c = true) : isNamePart c = false := by
  rw [← Bool.not_eq_true]
  intro hn
  have hsep := separator_bounds h
  have hname := namePart_bounds hn
  omega

theorem isNameStart_of_isSeparator (h : isSeparator c = true) : isNameStart c = false := by
  rw [← Bool.not_eq_true]
  intro hn
  exact absurd (isNamePart_of_isNameStart hn) (by simp [isNamePart_of_isSeparator h])

theorem isMark_of_isBlank (h : isBlank c = true) : isMark c = false := by
  rw [← Bool.not_eq_true]
  intro hm
  have hblank := blank_bounds h
  have hmark := mark_bounds hm
  omega

theorem isSeparator_of_isMark (h : isMark c = true) : isSeparator c = true := by
  simp [isSeparator, h]

theorem isSeparator_of_isBlank (h : isBlank c = true) : isSeparator c = true := by
  simp [isSeparator, h]

theorem isSeparator_point : isSeparator '.' = false := by decide

/-- Names may be separated by what no name contains. -/
theorem isSeparator_of_isNamePart (h : isNamePart c = true) : isSeparator c = false := by
  rw [← Bool.not_eq_true]
  intro hs
  exact absurd (isNamePart_of_isSeparator hs) (by simp [h])

theorem isSeparator_of_isDigit (h : isDigit c = true) : isSeparator c = false := by
  rw [← Bool.not_eq_true]
  intro hs
  exact absurd (isDigit_of_isSeparator hs) (by simp [h])

end Classes

/-- A separator comes next, or nothing. -/
def Separated (rest : List Char) : Prop := ∀ c ∈ rest.head?, isSeparator c = true

theorem separated_nil : Separated [] := by
  intro c hc
  cases hc

theorem separated_cons {c : Char} (h : isSeparator c = true) (rest : List Char) :
    Separated (c :: rest) := by
  intro c' hc
  cases hc
  exact h

section Prefixes

variable {p : Char → Bool} {cs rest : List Char}

theorem takeWhile_append_of_head (h : ∀ c ∈ cs, p c = true) (hrest : ∀ c ∈ rest.head?, p c = false) :
    (cs ++ rest).takeWhile p = cs := by
  rw [List.takeWhile_append_of_pos h]
  cases rest with
  | nil => simp
  | cons c rest => simp [hrest c rfl]

/-- The characters that `p` holds of at the front of a text, and the rest of the text. -/
theorem exists_takeWhile (p : Char → Bool) (cs : List Char) :
    ∃ front rest, cs = front ++ rest ∧ cs.takeWhile p = front ∧ (∀ c ∈ front, p c = true) ∧
      ∀ c ∈ rest.head?, p c = false := by
  refine ⟨cs.takeWhile p, cs.dropWhile p, List.takeWhile_append_dropWhile.symm, rfl, ?_, ?_⟩
  · exact List.all_eq_true.mp List.all_takeWhile
  · intro c hc
    have hnot := List.head?_dropWhile_not p cs
    rw [hc] at hnot
    simpa using hnot

end Prefixes

section Shapes

def AllDigits (cs : List Char) : Prop := ∀ c ∈ cs, isDigit c = true

/-- Digits with at most one point among them. -/
inductive IsMantissa : List Char → Prop
  | whole {ds : List Char} (hd : AllDigits ds) (hne : ds ≠ []) : IsMantissa ds
  | point {ds es : List Char} (hd : AllDigits ds) (he : AllDigits es) (hne : ds ≠ [] ∨ es ≠ []) :
      IsMantissa (ds ++ '.' :: es)

/-- A mark with digits that may have a sign, or nothing. -/
inductive IsExponent : List Char → Prop
  | absent : IsExponent []
  | present {c : Char} {sign ds : List Char} (hc : c = 'e' ∨ c = 'E')
      (hs : sign = [] ∨ sign = ['+'] ∨ sign = ['-']) (hd : AllDigits ds) (hne : ds ≠ []) :
      IsExponent (c :: (sign ++ ds))

def IsNumeral (p : List Char) : Prop := ∃ m x, p = m ++ x ∧ IsMantissa m ∧ IsExponent x

variable {m x p cs rest : List Char}

theorem mantissaLexeme_append (hm : IsMantissa m)
    (hrest : ∀ c ∈ rest.head?, isDigit c = false ∧ c ≠ '.') : mantissaLexeme (m ++ rest) = m := by
  cases hm with
  | whole hd hne =>
    have hwhole := takeWhile_append_of_head hd fun c hc => (hrest c hc).1
    have hpoint : (rest.take 1).filter (· == '.') = [] := by
      cases rest with
      | nil => rfl
      | cons c rest => simp [(hrest c rfl).2]
    simp [mantissaLexeme, hwhole, hpoint, hne]
  | @point ds es hd he hne =>
    have hdot : isDigit '.' = false := by decide
    have hwhole : (ds ++ '.' :: (es ++ rest)).takeWhile isDigit = ds := by
      refine takeWhile_append_of_head hd fun c hc => ?_
      cases hc
      exact hdot
    have hplaces := takeWhile_append_of_head he fun c hc => (hrest c hc).1
    have hdrop : (ds ++ '.' :: (es ++ rest)).drop (ds.length + 1) = es ++ rest := by
      rw [List.drop_append]
      simp
    rw [List.append_assoc, List.cons_append]
    simp only [mantissaLexeme, hwhole, List.drop_left, List.take_succ_cons, List.take_zero]
    simp only [List.filter_cons, beq_self_eq_true, if_true, List.filter_nil, List.length_singleton,
      hdrop, hplaces]
    by_cases hds : ds = []
    · simp [hds, hne.resolve_left (fun h => h hds)]
    · simp [hds]

theorem exists_of_mantissaLexeme (h : mantissaLexeme cs = m) (hne : m ≠ []) :
    IsMantissa m ∧ ∃ rest, cs = m ++ rest := by
  obtain ⟨ds, tail, rfl, hwhole, hd, -⟩ := exists_takeWhile isDigit cs
  simp only [mantissaLexeme, hwhole, List.drop_left] at h
  have hplain (h : (if ds.isEmpty then [] else ds) = m) : IsMantissa m ∧ ∃ rest, ds ++ tail = m ++ rest := by
    split_ifs at h with hds
    · exact absurd h.symm hne
    · subst h
      exact ⟨.whole hd hne, tail, rfl⟩
  match tail with
  | [] => exact hplain (by simpa using h)
  | c :: tail =>
    by_cases hc : c = '.'
    · subst hc
      obtain ⟨es, rest, rfl, hplaces, he, -⟩ := exists_takeWhile isDigit tail
      have hdrop : (ds ++ '.' :: (es ++ rest)).drop (ds.length + 1) = es ++ rest := by
        rw [List.drop_append]
        simp
      simp only [List.take_succ_cons, List.take_zero, List.filter_cons, beq_self_eq_true, if_true,
        List.filter_nil, List.length_singleton, hdrop, hplaces] at h
      have hshape : m = ds ++ '.' :: es ∧ (ds ≠ [] ∨ es ≠ []) := by
        by_cases hds : ds = []
        · by_cases hes : es = []
          · simp [hds, hes] at h
            exact absurd h hne
          · simp [hds, hes] at h
            simp [hds, hes, ← h]
        · simp [hds] at h
          simp [hds, ← h]
      obtain ⟨rfl, hne'⟩ := hshape
      exact ⟨.point hd he hne', rest, by simp⟩
    · exact hplain (by simpa [hc] using h)

/-- The sign of an exponent is cut from the front of its digits. -/
theorem sign_append {sign ds : List Char} (hs : sign = [] ∨ sign = ['+'] ∨ sign = ['-']) (hd : AllDigits ds)
    (hne : ds ≠ []) (rest : List Char) :
    ((sign ++ ds ++ rest).take 1).filter (fun s => s == '+' || s == '-') = sign := by
  rcases hs with rfl | rfl | rfl
  · cases ds with
    | nil => exact absurd rfl hne
    | cons d ds =>
      have hplus : d ≠ '+' := by
        rintro rfl
        exact absurd (hd '+' (by simp)) (by decide)
      have hminus : d ≠ '-' := by
        rintro rfl
        exact absurd (hd '-' (by simp)) (by decide)
      simp [hplus, hminus]
  · rfl
  · rfl

theorem exponentLexeme_append (hx : IsExponent x) (hrest : Separated rest) :
    exponentLexeme (x ++ rest) = x := by
  cases hx with
  | absent =>
    cases rest with
    | nil => rfl
    | cons c rest =>
      have hname := isNamePart_of_isSeparator (hrest c rfl)
      have hc : c ≠ 'e' ∧ c ≠ 'E' := by
        constructor
        · rintro rfl
          exact absurd hname (by decide)
        · rintro rfl
          exact absurd hname (by decide)
      simp [exponentLexeme, hc.1, hc.2]
  | @present c sign ds hc hs hd hne =>
    have hdigits := takeWhile_append_of_head hd fun c hc => isDigit_of_isSeparator (hrest c hc)
    have hmark : (c == 'e' || c == 'E') = true := by
      rcases hc with rfl | rfl <;> rfl
    simp only [List.cons_append, exponentLexeme, hmark, if_true, sign_append hs hd hne rest]
    rw [List.append_assoc, List.drop_left, hdigits]
    simp [hne]

theorem exists_of_exponentLexeme (h : exponentLexeme cs = x) :
    IsExponent x ∧ ∃ rest, cs = x ++ rest := by
  cases cs with
  | nil =>
    subst h
    exact ⟨.absent, [], rfl⟩
  | cons c tail =>
    simp only [exponentLexeme] at h
    split_ifs at h with hc hds
    · subst h
      exact ⟨.absent, c :: tail, rfl⟩
    · have hsign : ∃ sign rest, tail = sign ++ rest ∧
          (tail.take 1).filter (fun s => s == '+' || s == '-') = sign ∧
          (sign = [] ∨ sign = ['+'] ∨ sign = ['-']) := by
        cases tail with
        | nil => exact ⟨[], [], rfl, rfl, .inl rfl⟩
        | cons s tail =>
          by_cases hplus : s = '+'
          · exact ⟨['+'], tail, by rw [hplus]; rfl, by simp [hplus], .inr (.inl rfl)⟩
          by_cases hminus : s = '-'
          · exact ⟨['-'], tail, by rw [hminus]; rfl, by simp [hminus], .inr (.inr rfl)⟩
          exact ⟨[], s :: tail, rfl, by simp [hplus, hminus], .inl rfl⟩
      obtain ⟨sign, rest, rfl, hfilter, hs⟩ := hsign
      obtain ⟨ds, rest, rfl, hdigits, hd, -⟩ := exists_takeWhile isDigit rest
      simp only [hfilter, List.drop_left, hdigits] at h hds
      subst h
      have hmark : c = 'e' ∨ c = 'E' := by simpa using hc
      exact ⟨.present hmark hs hd (by simpa using hds), rest, by simp⟩
    · subst h
      exact ⟨.absent, c :: tail, rfl⟩

theorem IsMantissa.ne_nil (hm : IsMantissa m) : m ≠ [] := by
  cases hm with
  | whole _ hne => exact hne
  | point => simp

/-- A numeral is cut as a whole before a separator. -/
theorem numberLexeme_append (hp : IsNumeral p) (hrest : Separated rest) :
    numberLexeme (p ++ rest) = p := by
  obtain ⟨m, x, rfl, hm, hx⟩ := hp
  have hhead : ∀ c ∈ (x ++ rest).head?, isDigit c = false ∧ c ≠ '.' := by
    intro c hc
    cases hx with
    | absent =>
      have hsep := hrest c hc
      exact ⟨isDigit_of_isSeparator hsep, fun h => absurd hsep (by rw [h]; decide)⟩
    | present hmark =>
      cases hc
      rcases hmark with rfl | rfl <;> decide
  have hmantissa := mantissaLexeme_append hm hhead
  rw [List.append_assoc]
  simp only [numberLexeme, hmantissa, List.drop_left, exponentLexeme_append hx hrest]
  simp [hm.ne_nil]

theorem exists_of_numberLexeme (h : numberLexeme cs = p) (hne : p ≠ []) :
    IsNumeral p ∧ ∃ rest, cs = p ++ rest := by
  generalize hm : mantissaLexeme cs = m at h
  simp only [numberLexeme, hm] at h
  split_ifs at h with hempty
  · exact absurd h.symm hne
  · obtain ⟨hmantissa, rest, rfl⟩ := exists_of_mantissaLexeme hm (by simpa using hempty)
    rw [List.drop_left] at h
    generalize hx : exponentLexeme rest = x at h
    obtain ⟨hexponent, rest', rfl⟩ := exists_of_exponentLexeme hx
    subst h
    exact ⟨⟨m, x, rfl, hmantissa, hexponent⟩, rest', by simp⟩

end Shapes

end Token
end WeakForm
