import HtmlMinifier.Text.Blank

/-!
# Looking for a word

The rules look for fixed words: a comment marker, a closing tag. Tags are compared with case
folded away, markers are compared as they are, so a word carries the key under which the
characters of a text are read before they are compared.

Main statements: `heads_iff` says when a text starts with a word, `find?_eq_some_iff` that the
place found is one and that there is none before it, and `cut?_eq_some_iff` says the same of the
three parts that the text falls into there.
-/

namespace HtmlMinifier

/-- Folds case: capital letters of ASCII become small ones, and so does the long s, the one letter
beyond ASCII whose simple case folding is a letter of an element name that matters here. -/
def foldCase (c : Char) : Char := if c = 'ſ' then 's' else c.toLower

/-- A word to look for: its letters, and the key under which a text's characters are compared
with them. -/
structure Word where
  letters : Text
  key : Char → Char

namespace Word

/-- A word that is looked for exactly as it is written. -/
def exact (letters : Text) : Word := ⟨letters, id⟩

/-- A word, written in small letters, that is looked for in capital and small letters alike. -/
def caseless (letters : Text) : Word := ⟨letters, foldCase⟩

/-- Whether the characters at the head of a text are these letters under `key`. -/
def headsWith (key : Char → Char) : (letters s : Text) → Bool
  | [], _ => true
  | _ :: _, [] => false
  | l :: letters, c :: s => key c == l && headsWith key letters s

/-- Whether the text starts with the word. -/
def heads (w : Word) (s : Text) : Bool := headsWith w.key w.letters s

/-- Looks for the word with `n` characters of the text already passed. -/
def findFrom (w : Word) (n : Nat) : Text → Option Nat
  | [] => if w.heads [] then some n else none
  | c :: s => if w.heads (c :: s) then some n else w.findFrom (n + 1) s

/-- How many characters stand before the first place of the word. -/
def find? (w : Word) (s : Text) : Option Nat := w.findFrom 0 s

/-- The text before the first place of the word, the word as the text spells it, and the text
after it. -/
def cut? (w : Word) (s : Text) : Option (Text × Text × Text) :=
  (w.find? s).map fun n =>
    (s.take n, (s.drop n).take w.letters.length, s.drop (n + w.letters.length))

theorem headsWith_iff {key : Char → Char} {letters s : Text} :
    headsWith key letters s = true ↔ ∃ m r, m ++ r = s ∧ m.map key = letters := by
  fun_induction headsWith key letters s with
  | case1 s => exact ⟨fun _ => ⟨[], s, rfl, rfl⟩, fun _ => rfl⟩
  | case2 => simp
  | case3 l letters c s ih =>
    rw [Bool.and_eq_true, beq_iff_eq, ih]
    constructor
    · rintro ⟨rfl, m, r, rfl, rfl⟩
      exact ⟨c :: m, r, rfl, rfl⟩
    · rintro ⟨m, r, hs, hm⟩
      cases m with
      | nil => cases hm
      | cons d m =>
        simp only [List.cons_append, List.cons.injEq] at hs
        simp only [List.map_cons, List.cons.injEq] at hm
        obtain ⟨rfl, rfl⟩ := hs
        exact ⟨hm.1, m, r, rfl, hm.2⟩

/-- A text starts with a word if a head of it spells the word. -/
theorem heads_iff {w : Word} {s : Text} :
    w.heads s = true ↔ ∃ m r, m ++ r = s ∧ m.map w.key = w.letters :=
  headsWith_iff

theorem heads_exact {letters s : Text} : (exact letters).heads s = true ↔ letters <+: s := by
  rw [heads_iff]
  simp only [exact, List.map_id_fun, id_eq]
  exact ⟨fun ⟨_, r, hs, hm⟩ => ⟨r, hm ▸ hs⟩, fun ⟨r, hs⟩ => ⟨_, r, hs, rfl⟩⟩

/-- The spelling at the head of a text that starts with the word. -/
theorem map_take_of_heads {w : Word} {s : Text} (h : w.heads s = true) :
    (s.take w.letters.length).map w.key = w.letters := by
  obtain ⟨m, r, rfl, hm⟩ := heads_iff.1 h
  have : w.letters.length = m.length := by simp [← hm]
  simpa [this] using hm

theorem findFrom_eq_some_iff {w : Word} {k n : Nat} {s : Text} :
    w.findFrom k s = some n ↔
      ∃ i, n = k + i ∧ i ≤ s.length ∧ w.heads (s.drop i) = true ∧
        ∀ j < i, w.heads (s.drop j) = false := by
  fun_induction findFrom w k s with
  | case1 k h =>
    constructor
    · intro e
      exact ⟨0, by simpa using e.symm, Nat.le_refl 0, h, fun j hj => absurd hj (by omega)⟩
    · rintro ⟨i, rfl, hi, -, -⟩
      simp [Nat.le_zero.1 hi]
  | case2 k h =>
    constructor
    · intro e; cases e
    · rintro ⟨i, -, -, hh, -⟩
      simp [h] at hh
  | case3 k c s h =>
    constructor
    · intro e
      exact ⟨0, by simpa using e.symm, Nat.zero_le _, h, fun j hj => absurd hj (by omega)⟩
    · rintro ⟨i, rfl, -, -, hlt⟩
      cases i with
      | zero => rfl
      | succ i => exact absurd (hlt 0 (by omega)) (by simp [h])
  | case4 k c s h ih =>
    rw [ih]
    constructor
    · rintro ⟨i, rfl, hi, hh, hlt⟩
      refine ⟨i + 1, by omega, by simpa using hi, hh, ?_⟩
      intro j hj
      cases j with
      | zero => simpa using h
      | succ j => exact hlt j (by omega)
    · rintro ⟨i, rfl, hi, hh, hlt⟩
      cases i with
      | zero => exact absurd hh h
      | succ i =>
        exact ⟨i, by omega, by simpa using hi, hh, fun j hj => hlt (j + 1) (by omega)⟩

/-- What is found is the first place of the word. -/
theorem find?_eq_some_iff {w : Word} {n : Nat} {s : Text} :
    w.find? s = some n ↔
      n ≤ s.length ∧ w.heads (s.drop n) = true ∧ ∀ j < n, w.heads (s.drop j) = false := by
  rw [find?, findFrom_eq_some_iff]
  simp

/-- Nothing is found when the text has no place of the word. -/
theorem find?_eq_none_iff {w : Word} {s : Text} :
    w.find? s = none ↔ ∀ n ≤ s.length, w.heads (s.drop n) = false := by
  constructor
  · intro h n
    induction n using Nat.strongRecOn with
    | ind n ih =>
      intro hn
      cases hh : w.heads (s.drop n) with
      | false => rfl
      | true =>
        have := find?_eq_some_iff.2 ⟨hn, hh, fun j hj => ih j hj (by omega)⟩
        rw [h] at this
        cases this
  · intro h
    cases hf : w.find? s with
    | none => rfl
    | some n =>
      obtain ⟨hn, hh, -⟩ := find?_eq_some_iff.1 hf
      rw [h n hn] at hh
      cases hh

/-- A word that a text does not have, no end of the text has. -/
theorem find?_eq_none_of_suffix {w : Word} {s t : Text} (h : w.find? s = none) (ht : t <:+ s) :
    w.find? t = none := by
  obtain ⟨u, rfl⟩ := ht
  rw [find?_eq_none_iff] at h ⊢
  intro n hn
  have := h (u.length + n) (by simp; omega)
  rwa [← List.drop_drop, List.drop_left] at this

theorem cut?_eq_none_iff {w : Word} {s : Text} : w.cut? s = none ↔ w.find? s = none := by
  rw [cut?, Option.map_eq_none_iff]

/-- A cut divides the text around the first place of the word. -/
theorem cut?_eq_some_iff {w : Word} {s a m r : Text} :
    w.cut? s = some (a, m, r) ↔
      a ++ m ++ r = s ∧ m.map w.key = w.letters ∧ ∀ j < a.length, w.heads (s.drop j) = false := by
  constructor
  · intro h
    obtain ⟨n, hn, e⟩ := Option.map_eq_some_iff.1 h
    obtain ⟨hle, hh, hlt⟩ := find?_eq_some_iff.1 hn
    simp only [Prod.mk.injEq] at e
    obtain ⟨rfl, rfl, rfl⟩ := e
    refine ⟨?_, map_take_of_heads hh, ?_⟩
    · rw [← List.drop_drop, List.append_assoc, List.take_append_drop, List.take_append_drop]
    · intro j hj
      exact hlt j (by simp at hj; omega)
  · rintro ⟨rfl, hm, hlt⟩
    have hlen : w.letters.length = m.length := by simp [← hm]
    have hn : w.find? (a ++ m ++ r) = some a.length := by
      refine find?_eq_some_iff.2 ⟨by simp, ?_, hlt⟩
      rw [heads_iff]
      exact ⟨m, r, by simp, hm⟩
    rw [cut?, hn]
    simp [hlen, List.append_assoc]

/-- The three parts of a cut make up the text. -/
theorem append_of_cut? {w : Word} {s a m r : Text} (h : w.cut? s = some (a, m, r)) :
    a ++ m ++ r = s :=
  (cut?_eq_some_iff.1 h).1

end Word

end HtmlMinifier
