import HtmlMinifier.Number.Binary64

/-!
# Numbers as they are printed

The digits of a whole number are grouped from the first one on, each looking at
how many come after it. What comes of it is told from the end, as one writes it
by hand: three digits, a comma, and the number of thousands written the same way
(`grouped_eq_inThousands`). Without the commas the number is read back.

Of the other numbers, those with decimal places, it is only asked which
characters they are written in.
-/

namespace HtmlMinifier

namespace Decimal

/-! ## Thousands -/

theorem digits_of_ten_le {n : Nat} (h : 10 ≤ n) :
    digits n = digits (n / 10) ++ [Nat.digitChar (n % 10)] :=
  Nat.toDigits_of_base_le (by decide) h

theorem digits_of_thousand_le {n : Nat} (h : 1000 ≤ n) :
    digits n = digits (n / 1000) ++
      [Nat.digitChar (n / 100 % 10), Nat.digitChar (n / 10 % 10), Nat.digitChar (n % 10)] := by
  have htens : n / 10 / 10 = n / 100 := Nat.div_div_eq_div_mul n 10 10
  have hhundreds : n / 100 / 10 = n / 1000 := Nat.div_div_eq_div_mul n 100 10
  rw [digits_of_ten_le (by omega), digits_of_ten_le (n := n / 10) (by omega), htens,
    digits_of_ten_le (n := n / 100) (by omega), hhundreds]
  simp only [List.append_assoc, List.cons_append, List.nil_append]

/-- The number in its digits, three by three from the end, with commas between. -/
def inThousands (n : Nat) : Text :=
  if n < 1000 then digits n
  else inThousands (n / 1000) ++
    [',', Nat.digitChar (n / 100 % 10), Nat.digitChar (n / 10 % 10), Nat.digitChar (n % 10)]

theorem groupThrees_of_length_le {ds : Text} (h : ds.length ≤ 3) : groupThrees ds = ds := by
  fun_induction groupThrees ds with
  | case1 => rfl
  | case2 d => rfl
  | case3 d e ds hlen ih =>
      simp only [List.length_cons] at h hlen
      omega
  | case4 d e ds hlen ih => rw [ih (Nat.le_of_succ_le h)]

theorem groupThrees_append {ds g : Text} (hds : ds ≠ []) (hg : g.length = 3) :
    groupThrees (ds ++ g) = groupThrees ds ++ ',' :: g := by
  fun_induction groupThrees ds with
  | case1 => exact absurd rfl hds
  | case2 d =>
      obtain ⟨a, t, rfl⟩ := List.exists_cons_of_length_eq_add_one hg
      rw [List.singleton_append, groupThrees, if_pos (by rw [hg]),
        groupThrees_of_length_le (Nat.le_of_eq hg)]
      rfl
  | case3 d e ds hlen ih =>
      have hmore : (e :: (ds ++ g)).length % 3 = 0 := by
        rw [← List.cons_append, List.length_append, hg]
        omega
      rw [List.cons_append, List.cons_append, groupThrees, if_pos hmore]
      exact congrArg (d :: ',' :: ·) (ih (List.cons_ne_nil e ds))
  | case4 d e ds hlen ih =>
      have hmore : ¬ (e :: (ds ++ g)).length % 3 = 0 := by
        rw [← List.cons_append, List.length_append, hg]
        omega
      rw [List.cons_append, List.cons_append, groupThrees, if_neg hmore]
      exact congrArg (d :: ·) (ih (List.cons_ne_nil e ds))

theorem grouped_eq_inThousands (n : Nat) : grouped n = inThousands n := by
  fun_induction inThousands n with
  | case1 n h =>
      exact groupThrees_of_length_le
        ((Nat.length_toDigits_le_iff (by decide) (by decide)).2 h)
  | case2 n h ih =>
      have hdigits : digits (n / 1000) ≠ [] := Nat.toDigits_ne_nil
      rw [grouped, digits_of_thousand_le (Nat.le_of_not_lt h), groupThrees_append hdigits rfl,
        ← ih]
      rfl

example : grouped 1234567 = "1,234,567".toList := by decide +kernel

theorem ofDigits_ungrouped_grouped (n : Nat) : ofDigits (ungrouped (grouped n)) = n := by
  rw [ungrouped_grouped, ofDigits_digits]

/-! ## Characters -/

variable {c : Char}

theorem mem_groupThrees {ds : Text} (h : c ∈ groupThrees ds) : c = ',' ∨ c ∈ ds := by
  fun_induction groupThrees ds with
  | case1 => cases h
  | case2 d => exact Or.inr h
  | case3 d e ds hlen ih => grind
  | case4 d e ds hlen ih => grind

theorem not_mem_digits (hdigit : c.isDigit = false) (n : Nat) : c ∉ digits n := fun h => by
  rw [Nat.isDigit_of_mem_toDigits (by decide) (by decide) h] at hdigit
  cases hdigit

theorem not_mem_grouped (hdigit : c.isDigit = false) (hc : c ≠ ',') (n : Nat) : c ∉ grouped n :=
  fun h => (mem_groupThrees h).elim hc (not_mem_digits hdigit n)

theorem not_mem_fixed (hdigit : c.isDigit = false) (hc : c ≠ '.') (places num den : Nat) :
    c ∉ fixed places num den := by
  have hzero : c ≠ '0' := fun h => by rw [h] at hdigit; cases hdigit
  simp [fixed, pointed, not_mem_digits hdigit, hc, hzero]

end Decimal

theorem not_mem_fixedFloat {c : Char} (hdigit : c.isDigit = false)
    (hc : c ∉ ['-', '.', 'N', 'a', 'i', 'n', 'f']) (places : Nat) (x : Float) :
    c ∉ (fixedFloat places x).toList := by
  simp only [List.mem_cons, List.not_mem_nil, or_false, not_or] at hc
  obtain ⟨hsign, hpoint, hN, ha, hi, hn, hf⟩ := hc
  rw [fixedFloat]
  split
  · next y _ =>
    rw [String.toList_ofList, Binary64.fixed]
    have hfixed := Decimal.not_mem_fixed hdigit hpoint places y.toQuotient.1 y.toQuotient.2
    cases y.negative
    · simpa using hfixed
    · simpa [hsign] using hfixed
  · split
    · simp [hN, ha]
    · split
      · simp [hsign, hi, hn, hf]
      · simp [hi, hn, hf]

end HtmlMinifier
