import Xv6.GrepModel

/-!
# The language of a pattern

A pattern is read as a list of items, with an anchor at either end. The matcher decides whether some part
of the text is in the product of the languages of the items.
-/

namespace Xv6.Grep

/-- A character of a pattern, with or without a star behind it. -/
structure Item where
  char : UInt8
  starred : Bool

structure Pattern where
  atStart : Bool
  items : List Item
  atEnd : Bool

/-- The items of a pattern behind the `^`, and whether it ends with `$`. -/
def readItems : List UInt8 → List Item × Bool
  | [] => ([], false)
  | [c] => if c = ch '$' then ([], true) else ([⟨c, false⟩], false)
  | c :: c' :: re =>
    if c' = ch '*' then (⟨c, true⟩ :: (readItems re).1, (readItems re).2)
    else (⟨c, false⟩ :: (readItems (c' :: re)).1, (readItems (c' :: re)).2)

def readPattern : List UInt8 → Pattern
  | [] => ⟨false, [], false⟩
  | c :: re =>
    if c = ch '^' then ⟨true, (readItems re).1, (readItems re).2⟩
    else ⟨false, (readItems (c :: re)).1, (readItems (c :: re)).2⟩

/-- The strings of one character for which `c` stands. -/
def charLanguage (c : UInt8) : Language UInt8 := {w | ∃ t, w = [t] ∧ (c = ch '.' ∨ c = t)}

def Item.language (i : Item) : Language UInt8 :=
  if i.starred then KStar.kstar (charLanguage i.char) else charLanguage i.char

def itemsLanguage (items : List Item) : Language UInt8 := (items.map Item.language).prod

/-- A beginning of the text is in the language, all of it if the match must reach the end. -/
def Begins (L : Language UInt8) (atEnd : Bool) (text : List UInt8) : Prop :=
  ∃ w v, text = w ++ v ∧ w ∈ L ∧ (atEnd = true → v = [])

variable {L L' : Language UInt8} {atEnd : Bool} {c t : UInt8} {re text : List UInt8}

theorem begins_add : Begins (L + L') atEnd text ↔ Begins L atEnd text ∨ Begins L' atEnd text := by
  constructor
  · rintro ⟨w, v, htext, hw | hw, hv⟩
    · exact .inl ⟨w, v, htext, hw, hv⟩
    · exact .inr ⟨w, v, htext, hw, hv⟩
  · rintro (⟨w, v, htext, hw, hv⟩ | ⟨w, v, htext, hw, hv⟩)
    · exact ⟨w, v, htext, .inl hw, hv⟩
    · exact ⟨w, v, htext, .inr hw, hv⟩

theorem begins_one : Begins 1 atEnd text ↔ (atEnd = true → text = []) := by
  constructor
  · rintro ⟨w, v, rfl, hw, hv⟩
    rw [Language.mem_one] at hw
    subst hw
    exact hv
  · exact fun h => ⟨[], text, rfl, Language.nil_mem_one, h⟩

theorem begins_char_nil : ¬ Begins (charLanguage c * L) atEnd [] := by
  rintro ⟨w, v, htext, hw, -⟩
  obtain ⟨a, ⟨t, rfl, -⟩, b, -, rfl⟩ := Language.mem_mul.1 hw
  cases htext

theorem begins_char_cons : Begins (charLanguage c * L) atEnd (t :: text) ↔
    (c = ch '.' ∨ c = t) ∧ Begins L atEnd text := by
  constructor
  · rintro ⟨w, v, htext, hw, hv⟩
    obtain ⟨a, ⟨t', rfl, ht'⟩, b, hb, rfl⟩ := Language.mem_mul.1 hw
    cases htext
    exact ⟨ht', b, v, rfl, hb, hv⟩
  · rintro ⟨ht, w, v, rfl, hw, hv⟩
    exact ⟨t :: w, v, rfl, Language.mem_mul.2 ⟨[t], ⟨t, rfl, ht⟩, w, hw, rfl⟩, hv⟩

theorem star_mul (l : Language UInt8) : KStar.kstar l * L = L + l * (KStar.kstar l * L) := by
  conv_lhs => rw [← Language.one_add_self_mul_kstar_eq_kstar, add_mul, one_mul, mul_assoc]

theorem matchstar_iff (hre : ∀ text, matchhere re text = true ↔ Begins L atEnd text) (c : UInt8)
    (text : List UInt8) :
    matchstar c re text = true ↔ Begins (KStar.kstar (charLanguage c) * L) atEnd text := by
  rw [star_mul, begins_add, ← hre]
  induction text with
  | nil =>
    rw [matchstar]
    simp [begins_char_nil]
  | cons t text ih =>
    rw [matchstar, begins_char_cons, star_mul, begins_add, ← hre]
    by_cases hhere : matchhere re (t :: text) = true
    · simp [hhere]
    · by_cases hc : c = ch '.' ∨ c = t
      · have hstep : t = c ∨ c = ch '.' := hc.symm.imp_left Eq.symm
        simp [hhere, hc, hstep, ih]
      · have hstep : ¬ (t = c ∨ c = ch '.') := fun h => hc (h.symm.imp_right Eq.symm)
        simp [hhere, hc, hstep]

theorem matchhere_char (c : UInt8) (re : List UInt8) (hc : re = [] → c ≠ ch '$')
    (hstar : re.head? ≠ some (ch '*'))
    (hre : ∀ text, matchhere re text = true ↔ Begins L atEnd text) (text : List UInt8) :
    matchhere (c :: re) text = true ↔ Begins (charLanguage c * L) atEnd text := by
  have hnil : matchhere (c :: re) [] = false := by
    cases re with
    | nil =>
      rw [matchhere.eq_def]
      exact if_neg (hc rfl)
    | cons c' re =>
      rw [matchhere.eq_def]
      exact if_neg fun h => hstar (congrArg some h)
  have hcons : ∀ t text, matchhere (c :: re) (t :: text) =
      if c = ch '.' ∨ c = t then matchhere re text else false := by
    intro t text
    cases re with
    | nil =>
      rw [matchhere.eq_def]
      exact if_neg (hc rfl)
    | cons c' re =>
      rw [matchhere.eq_def]
      exact if_neg fun h => hstar (congrArg some h)
  cases text with
  | nil => simp [hnil, begins_char_nil]
  | cons t text =>
    rw [hcons, begins_char_cons, ← hre]
    by_cases hct : c = ch '.' ∨ c = t
    · simp [hct]
    · simp [hct]

theorem matchhere_iff (re text : List UInt8) :
    matchhere re text = true ↔ Begins (itemsLanguage (readItems re).1) (readItems re).2 text := by
  -- along the items: one or two characters of the pattern at a time
  induction re using readItems.induct generalizing text with
  | case1 =>
    rw [matchhere]
    exact (iff_true_left rfl).2 (begins_one.2 Bool.noConfusion)
  | case2 =>
    rw [matchhere.eq_def]
    dsimp only
    rw [readItems, if_pos rfl, if_pos rfl, List.isEmpty_iff]
    exact ⟨fun h => begins_one.2 fun _ => h, fun h => begins_one.1 h rfl⟩
  | case3 c hc =>
    rw [readItems, if_neg hc, itemsLanguage, List.map_cons, List.prod_cons]
    refine matchhere_char c [] (fun _ => hc) (by simp) (fun text => ?_) text
    rw [matchhere]
    exact iff_of_true rfl (begins_one.2 (by simp))
  | case4 c re ih =>
    rw [matchhere.eq_def]
    dsimp only
    rw [readItems, if_pos rfl, if_pos rfl]
    exact matchstar_iff ih c text
  | case5 c c' re hstar ih =>
    rw [readItems, if_neg hstar]
    exact matchhere_char c (c' :: re) (by simp) (fun h => hstar (Option.some.inj h)) ih text

theorem matchfrom_iff (re text : List UInt8) : matchfrom re text = true ↔
    ∃ u rest, text = u ++ rest ∧ Begins (itemsLanguage (readItems re).1) (readItems re).2 rest := by
  induction text with
  | nil =>
    rw [matchfrom, matchhere_iff]
    constructor
    · exact fun h => ⟨[], [], rfl, h⟩
    · rintro ⟨u, rest, htext, h⟩
      obtain ⟨rfl, rfl⟩ := List.append_eq_nil_iff.1 htext.symm
      exact h
  | cons t text ih =>
    have hstep : matchfrom re (t :: text) = true ↔ matchhere re (t :: text) = true ∨ matchfrom re text = true := by
      rw [matchfrom]
      split_ifs with h
      · simp [h]
      · simp [h]
    rw [hstep, matchhere_iff, ih]
    constructor
    · rintro (h | ⟨u, rest, rfl, h⟩)
      · exact ⟨[], t :: text, rfl, h⟩
      · exact ⟨t :: u, rest, rfl, h⟩
    · rintro ⟨u, rest, htext, h⟩
      cases u with
      | nil =>
        obtain rfl : t :: text = rest := htext
        exact .inl h
      | cons t' u =>
        obtain ⟨rfl, rfl⟩ := List.cons.inj htext
        exact .inr ⟨u, rest, rfl, h⟩

/-- The matcher decides whether a part of the text is in the language of the pattern: a beginning with `^`,
an end with `$`. -/
theorem match_iff_language (re text : List UInt8) : «match» re text = true ↔
    ∃ u w v, text = u ++ w ++ v ∧ w ∈ itemsLanguage (readPattern re).items ∧
      ((readPattern re).atStart = true → u = []) ∧ ((readPattern re).atEnd = true → v = []) := by
  have hfloat : ∀ re : List UInt8, matchfrom re text = true ↔ ∃ u w v, text = u ++ w ++ v ∧
      w ∈ itemsLanguage (readItems re).1 ∧ (false = true → u = []) ∧ ((readItems re).2 = true → v = []) := by
    intro re
    rw [matchfrom_iff]
    constructor
    · rintro ⟨u, rest, rfl, w, v, rfl, hw, hv⟩
      exact ⟨u, w, v, (List.append_assoc u w v).symm, hw, nofun, hv⟩
    · rintro ⟨u, w, v, rfl, hw, -, hv⟩
      exact ⟨u, w ++ v, List.append_assoc u w v, w, v, rfl, hw, hv⟩
  cases re with
  | nil => exact hfloat []
  | cons c re =>
    rw [«match», readPattern]
    by_cases hc : c = ch '^'
    · rw [if_pos hc, if_pos hc, matchhere_iff]
      constructor
      · rintro ⟨w, v, htext, hw, hv⟩
        exact ⟨[], w, v, htext, hw, fun _ => rfl, hv⟩
      · rintro ⟨u, w, v, htext, hw, hu, hv⟩
        rw [hu rfl] at htext
        exact ⟨w, v, htext, hw, hv⟩
    · rw [if_neg hc, if_neg hc]
      exact hfloat (c :: re)

end Xv6.Grep
