import WeakForm.Expression.Parser
import WeakForm.Proofs.Expression.Lexemes

/-!
# Numerals read freely

The numerals of expressions are among the freer ones that settings may take. There they have the value
that they have as tokens.
-/

namespace WeakForm
namespace Token

open Text (isDigit isBlank digitsValue groupedDigits)

variable {ds es m x p rest : List Char}

/-- Digits without underscores are taken as a whole. -/
theorem groupedDigits_append (hd : AllDigits ds) (hrest : ∀ c ∈ rest.head?, isDigit c = false ∧ c ≠ '_') :
    groupedDigits (ds ++ rest) = (ds, rest) := by
  induction ds with
  | nil =>
    rw [List.nil_append]
    fun_cases groupedDigits rest <;> simp_all
  | cons d ds ih =>
    obtain ⟨hdigit, hd⟩ := List.forall_mem_cons.mp hd
    have hnext : ∀ c tail, ds ++ rest = '_' :: c :: tail → False := by
      intro c tail hsplit
      cases ds with
      | nil =>
        rw [List.nil_append] at hsplit
        exact (hrest '_' (by rw [hsplit]; rfl)).2 rfl
      | cons e ds =>
        obtain ⟨rfl, -⟩ := List.cons.inj hsplit
        exact absurd (hd '_' (by simp)) (by decide)
    rw [List.cons_append, groupedDigits, if_pos hdigit, ih hd]
    exact hnext

/-- A sign is taken off the front of digits. -/
theorem takeSign_append {sign : List Char} (hs : sign = [] ∨ sign = ['+'] ∨ sign = ['-']) (hd : AllDigits ds)
    (hne : ds ≠ []) : Text.takeSign (sign ++ ds) = ((sign ++ ds).head? == some '-', ds) := by
  rcases hs with rfl | rfl | rfl
  · obtain ⟨d, ds, rfl⟩ := List.exists_cons_of_ne_nil hne
    have hplus : d ≠ '+' := by
      rintro rfl
      exact absurd (hd '+' (by simp)) (by decide)
    have hminus : d ≠ '-' := by
      rintro rfl
      exact absurd (hd '-' (by simp)) (by decide)
    rw [List.nil_append, Text.takeSign]
    · simp [hminus]
    · simp [hminus]
    · simp [hplus]
  · rfl
  · rfl

/-- The exponent at the end of a numeral is read as the parser reads it. -/
theorem readExponent_eq (hx : IsExponent x) : Text.readExponent x =
    some (if (x.drop 1).head? == some '-' then -(digitsValue ((x.drop 1).filter isDigit) : ℤ)
      else digitsValue ((x.drop 1).filter isDigit)) := by
  cases hx with
  | absent => rfl
  | @present c sign ds hc hs hd hne =>
    have hmark : (c == 'e' || c == 'E') = true := by
      rcases hc with rfl | rfl <;> rfl
    have hdigits : (sign ++ ds).filter isDigit = ds := by
      have hall : ds.filter isDigit = ds := List.filter_eq_self.mpr hd
      rcases hs with rfl | rfl | rfl
      · exact hall
      · rw [List.filter_append, hall]
        rfl
      · rw [List.filter_append, hall]
        rfl
    have hgrouped := @groupedDigits_append ds [] hd (by simp)
    rw [List.append_nil] at hgrouped
    simp only [Text.readExponent, hmark, if_true, takeSign_append hs hd hne, hgrouped, List.drop_succ_cons,
      List.drop_zero, hdigits]

/-- The digits of a mantissa before its point and behind it. -/
theorem readUnsigned_append (hm : IsMantissa m) (hx : ∀ c ∈ x.head?, c = 'e' ∨ c = 'E') :
    Text.readUnsigned (m ++ x) = (Text.readExponent x).map fun e =>
      Decimal.ofDigits (m.takeWhile (· != '.')) ((m.drop (m.takeWhile (· != '.')).length).drop 1) e := by
  have hpoint {ds : List Char} (hd : AllDigits ds) : ∀ c ∈ ds, (c != '.') = true := by
    intro c hc
    rw [bne_iff_ne]
    rintro rfl
    exact absurd (hd '.' hc) (by decide)
  have hend : ∀ c ∈ x.head?, isDigit c = false ∧ c ≠ '_' := by
    intro c hc
    rcases hx c hc with rfl | rfl <;> decide
  cases hm with
  | whole hd hne =>
    have hwhole := @takeWhile_append_of_head _ m [] (hpoint hd) (by simp)
    rw [List.append_nil] at hwhole
    simp only [hwhole, Text.readUnsigned, groupedDigits_append hd hend, List.drop_length, List.drop_nil]
    cases x with
    | nil => simp [hne]
    | cons c x => rcases hx c rfl with rfl | rfl <;> simp [hne]
  | @point ds es hd he hne =>
    have hwhole : (ds ++ '.' :: es).takeWhile (· != '.') = ds :=
      takeWhile_append_of_head (hpoint hd) (by simp)
    have hdot : ∀ c ∈ ('.' :: (es ++ x)).head?, isDigit c = false ∧ c ≠ '_' := by
      intro c hc
      cases hc
      decide
    rw [hwhole, List.append_assoc, List.cons_append, Text.readUnsigned, groupedDigits_append hd hdot]
    simp only [groupedDigits_append he hend, List.drop_left, List.drop_succ_cons, List.drop_zero]
    rw [if_neg]
    rw [Bool.and_eq_true, List.isEmpty_iff, List.isEmpty_iff, not_and_or]
    exact hne

/-- The value of a numeral as a token. -/
theorem numberValue_append {text : String} (htext : text.toList = m ++ x) (hm : IsMantissa m)
    (hx : ∀ c ∈ x.head?, c = 'e' ∨ c = 'E') : Parser.numberValue text =
      Decimal.ofDigits (m.takeWhile (· != '.')) ((m.drop (m.takeWhile (· != '.')).length).drop 1)
        (if (x.drop 1).head? == some '-' then -(digitsValue ((x.drop 1).filter isDigit) : ℤ)
          else digitsValue ((x.drop 1).filter isDigit)) := by
  have hmark {c : Char} (h : isDigit c = true ∨ c = '.') : (c != 'e' && c != 'E') = true := by
    rw [Bool.and_eq_true, bne_iff_ne, bne_iff_ne]
    constructor
    · rintro rfl
      exact absurd h (by decide)
    · rintro rfl
      exact absurd h (by decide)
  have hchars : ∀ c ∈ m, (c != 'e' && c != 'E') = true := by
    cases hm with
    | whole hd => exact fun c hc => hmark (.inl (hd c hc))
    | point hd he =>
      refine List.forall_mem_append.mpr ⟨fun c hc => hmark (.inl (hd c hc)), ?_⟩
      exact List.forall_mem_cons.mpr ⟨hmark (.inr rfl), fun c hc => hmark (.inl (he c hc))⟩
  have hmantissa : (m ++ x).takeWhile (fun c => c != 'e' && c != 'E') = m := by
    refine takeWhile_append_of_head hchars fun c hc => ?_
    rcases hx c hc with rfl | rfl <;> rfl
  have hexponent : (m ++ x).drop (m.length + 1) = x.drop 1 := by
    rw [List.drop_length_add_append]
  simp only [Parser.numberValue, htext, hmantissa, hexponent]

/-- Digits and points have no letter case. -/
theorem toLower_eq_self {c : Char} (h : isDigit c = true ∨ c = '.') : c.toLower = c := by
  rcases h with h | rfl
  · have hbounds := digit_bounds h
    unfold Char.toLower
    split_ifs with hupper
    · exfalso
      simp only [ge_iff_le, UInt32.le_iff_toNat_le] at hupper
      change 65 ≤ c.toNat ∧ c.toNat ≤ 90 at hupper
      omega
    · rfl
  · decide

/-- A numeral of an expression may be given freely, too, and has the same value. -/
theorem readNumeral_eq {text : String} (h : IsNumeral text.toList) :
    Text.readNumeral text = some (.finite false (Parser.numberValue text)) := by
  obtain ⟨c, p, hp, hc⟩ := Lexeme.isNumeral_head h
  have hstrip : Text.strip text.toList = text.toList := by
    have hdrop {cs : List Char} (hcs : ∀ d ∈ cs, isBlank d = false) : cs.dropWhile Text.isMargin = cs := by
      cases cs with
      | nil => rfl
      | cons d cs => simp [Text.isMargin, hcs d (by simp)]
    have hblank := Lexeme.isBlank_of_mem_numeral h
    rw [Text.strip, hdrop hblank, hdrop fun d hd => hblank d (List.mem_reverse.mp hd), List.reverse_reverse]
  have hsign : Text.takeSign text.toList = (false, text.toList) := by
    rw [hp, Text.takeSign]
    · intro rest hsplit
      obtain ⟨rfl, -⟩ := List.cons.inj hsplit
      exact absurd hc (by decide)
    · intro rest hsplit
      obtain ⟨rfl, -⟩ := List.cons.inj hsplit
      exact absurd hc (by decide)
  -- the words for other numbers start with letters
  have hword {word : String} {d : Char} (hstart : word.toList.head? = some d)
      (hd : ¬ (isDigit d = true ∨ d = '.')) :
      (String.ofList (text.toList.map Char.toLower) == word) = false := by
    rw [beq_eq_false_iff_ne]
    rintro rfl
    rw [hp, String.toList_ofList, List.map_cons, toLower_eq_self hc] at hstart
    exact hd (Option.some.inj hstart ▸ hc)
  obtain ⟨m, x, htext, hm, hx⟩ := h
  have hmark : ∀ c ∈ x.head?, c = 'e' ∨ c = 'E' := by
    cases hx with
    | absent => simp
    | present hc => simpa using hc
  rw [numberValue_append htext hm hmark]
  simp only [Text.readNumeral, hstrip, hsign]
  rw [hword (d := 'n') rfl (by decide), hword (d := 'i') rfl (by decide), hword (d := 'i') rfl (by decide),
    htext, readUnsigned_append hm hmark, readExponent_eq hx]
  rfl

end Token
end WeakForm
