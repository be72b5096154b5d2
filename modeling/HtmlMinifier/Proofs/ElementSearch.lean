import HtmlMinifier.Markup.Element
import HtmlMinifier.Proofs.GapRule
import HtmlMinifier.Proofs.WordSearch

/-!
# Searching for elements

All that a search for an element looks for begins with `<`, and no tag has a
second one before its end. So a text can be judged from one `<` to the next:
what stands before the first is copied, what stands between two is copied if
the first of them opens nothing, and an element is met at its opening tag with
all its content, as long as its closing tag is not in there too.

The same remark says when a word is missing from a text that is put together:
a word that begins with `<` and has no second one is nowhere in `u ++ '<' :: v`
if it is neither in `u` nor in what comes after.
-/

namespace HtmlMinifier

section Infix

variable {c : Char} {l u v : Text}

theorem prefix_of_prefix_append (hc : c ∉ l) (h : l <+: u ++ c :: v) :
    l <+: u := by
  induction l generalizing u with
  | nil => exact List.nil_prefix
  | cons d l ih =>
      obtain ⟨hd, hl⟩ := List.ne_and_not_mem_of_not_mem_cons hc
      cases u with
      | nil => exact absurd (List.cons_prefix_cons.1 h).1.symm hd
      | cons a u =>
          obtain ⟨rfl, h'⟩ := List.cons_prefix_cons.1 h
          exact List.cons_prefix_cons.2 ⟨rfl, ih hl h'⟩

/-- A word does not reach over the character it begins with. -/
theorem prefix_of_prefix_append_cons (hc : c ∉ l) (hu : u ≠ [])
    (h : c :: l <+: u ++ c :: v) : c :: l <+: u := by
  cases u with
  | nil => exact absurd rfl hu
  | cons a u =>
      obtain ⟨rfl, h'⟩ := List.cons_prefix_cons.1 h
      exact List.cons_prefix_cons.2 ⟨rfl, prefix_of_prefix_append hc h'⟩

theorem not_infix_append_cons (hc : c ∉ l) (hu : ¬ c :: l <:+: u)
    (hv : ¬ c :: l <:+: c :: v) : ¬ c :: l <:+: u ++ c :: v := by
  induction u with
  | nil => exact hv
  | cons d u ih =>
      rw [List.infix_cons_iff, not_or] at hu
      rw [List.cons_append, List.infix_cons_iff, not_or]
      refine ⟨fun h => hu.1 ?_, ih hu.2⟩
      exact prefix_of_prefix_append_cons hc (List.cons_ne_nil d u) h

/-- A word does not reach over a character that it does not have. -/
theorem not_infix_append_cons_of_not_mem (hc : c ∉ l) (hu : ¬ l <:+: u)
    (hv : ¬ l <:+: v) : ¬ l <:+: u ++ c :: v := by
  induction u with
  | nil =>
      rw [List.nil_append, List.infix_cons_iff, not_or]
      exact ⟨fun h => hu (prefix_of_prefix_append hc h).isInfix, hv⟩
  | cons d u ih =>
      rw [List.cons_append, List.infix_cons_iff, not_or]
      refine ⟨fun h => hu ?_, ih fun h => hu (List.infix_cons h)⟩
      exact (prefix_of_prefix_append (u := d :: u) hc h).isInfix

theorem not_infix_of_not_mem (h : c ∉ u) : ¬ c :: l <:+: u :=
  fun hi => h (hi.subset List.mem_cons_self)

theorem not_infix_append_of_not_mem (hc : c ∉ u) (hv : ¬ c :: l <:+: v) :
    ¬ c :: l <:+: u ++ v := by
  induction u with
  | nil => exact hv
  | cons d u ih =>
      obtain ⟨hd, hu⟩ := List.ne_and_not_mem_of_not_mem_cons hc
      rw [List.cons_append, List.infix_cons_iff, not_or]
      exact ⟨fun h => hd (List.cons_prefix_cons.1 h).1, ih hu⟩

/-- A word is not completed by a text without its last character. -/
theorem not_infix_append_of_last_not_mem (hc : c ∉ v) (hu : ¬ l ++ [c] <:+: u) :
    ¬ l ++ [c] <:+: u ++ v := by
  rw [← List.reverse_infix, List.reverse_concat] at hu ⊢
  rw [List.reverse_append]
  exact not_infix_append_of_not_mem (fun h => hc (List.mem_reverse.1 h)) hu

theorem not_infix_cons_append (hc : c ∉ u) (hp : ¬ l <+: u ++ v)
    (hv : ¬ c :: l <:+: v) : ¬ c :: l <:+: c :: (u ++ v) := by
  rw [List.infix_cons_iff, not_or, List.cons_prefix_cons]
  exact ⟨fun h => hp h.2, not_infix_append_of_not_mem hc hv⟩

end Infix

/-! ## Folding case

No character but `<` is folded to `<`, and no blank to a letter, so what is
true of a tag in small letters is true of it in any letters. -/

/-- A capital letter is folded to a small one. -/
theorem toLower_cases (c : Char) :
    c.toLower = c ∨ 65 ≤ c.toNat ∧ c.toNat ≤ 90 ∧
      c.toLower.toNat = c.toNat + 32 := by
  by_cases hup : c.val ≥ 'A'.val ∧ c.val ≤ 'Z'.val
  · obtain ⟨p, hp⟩ : ∃ p, c.toLower = ⟨c.val + 32, p⟩ := ⟨_, dif_pos hup⟩
    have hge := UInt32.le_iff_toNat_le.1 hup.1
    have hle := UInt32.le_iff_toNat_le.1 hup.2
    simp only [Char.toNat_val] at hge hle
    refine .inr ⟨hge, hle, ?_⟩
    rw [hp]
    show (c.val + 32).toNat = c.toNat + 32
    rw [UInt32.toNat_add, Char.toNat_val]
    refine Nat.mod_eq_of_lt ?_
    have : 'Z'.toNat = 90 := rfl
    show c.toNat + 32 < 2 ^ 32
    omega
  · exact .inl (dif_neg hup)

/-- Nothing else is folded to a character that comes before the small letters. -/
theorem eq_of_foldCase_eq {c d : Char} (hd : d.toNat < 97) (h : foldCase c = d) :
    c = d := by
  rw [foldCase] at h
  split at h
  · rw [← h] at hd
    exact absurd hd (by decide)
  · rcases toLower_cases c with hc | ⟨hge, -, hc⟩
    · rw [← hc, h]
    · rw [h] at hc
      omega

theorem foldCase_eq_lt_iff {c : Char} : foldCase c = '<' ↔ c = '<' := by
  constructor
  · exact eq_of_foldCase_eq (by decide)
  · rintro rfl
    decide

theorem isBlank_of_ascii {c : Char} (h : 0x20 < c.toNat)
    (h' : c.toNat < 0x80) : isBlank c = false := by
  rw [isBlank]
  simp only [Bool.or_eq_false_iff, Bool.and_eq_false_iff, decide_eq_false_iff_not,
    beq_eq_false_iff_ne]
  omega

theorem isBlank_foldCase (c : Char) : isBlank (foldCase c) = isBlank c := by
  rw [foldCase]
  split
  · next h => rw [h]; decide
  · rcases toLower_cases c with hc | ⟨hge, hle, hc⟩
    · rw [hc]
    · rw [isBlank_of_ascii (by omega) (by omega),
        isBlank_of_ascii (by omega) (by omega)]

theorem not_mem_map_foldCase {s : Text} (h : '<' ∉ s) :
    '<' ∉ s.map foldCase := by
  intro hm
  obtain ⟨c, hc, hf⟩ := List.mem_map.1 hm
  rw [foldCase_eq_lt_iff.1 hf] at hc
  exact h hc

namespace Element

open Text

variable {e : Element} {f : Text → Text}

/-! ## Treating the content of elements

In what follows an element is written as `m ++ (A ++ '>' :: (B ++ (k ++ s)))`:
its name, its attributes, its content, its closing tag, and what comes next. -/

theorem lineBlind_pattern (e : Element) : e.pattern.LineBlind :=
  Pattern.lineBlind_enclosure

theorem read?_eq_none {b : Bool} {s : Text} (h : e.tagStart.heads s = false) :
    e.pattern.read? b s = none := by
  refine Pattern.read?_enclosure_eq_none ?_
  simp only [opener]
  rw [h]
  rfl

theorem mapContent_nil : e.mapContent f [] = [] := rfl

theorem mapContent_of_absent {s : Text}
    (h : ¬ '<' :: e.name <:+: s.map foldCase) : e.mapContent f s = s :=
  Pattern.replaceWith_of_none fun _ _ ht =>
    read?_eq_none (Word.heads_of_absent h ht)

theorem mapContent_plain {b : Bool} {c : Char} {s : Text}
    (h : e.pattern.read? b (c :: s) = none) :
    e.mapContent f (c :: s) = c :: e.mapContent f s :=
  e.lineBlind_pattern.replaceWith_cons ((e.lineBlind_pattern true b _).trans h)

theorem mapContent_hit {b : Bool} {o : Occurrence} {r : Text}
    (h : e.pattern.read? b (o.text ++ r) = some o) :
    e.mapContent f (o.text ++ r) = e.wrap (f o.inner) ++ e.mapContent f r :=
  e.lineBlind_pattern.replaceWith_hit rfl rfl ((e.lineBlind_pattern true b _).trans h)

theorem mapContent_cons {c : Char} {s : Text}
    (h : e.tagStart.heads (c :: s) = false) :
    e.mapContent f (c :: s) = c :: e.mapContent f s :=
  mapContent_plain (b := true) (read?_eq_none h)

theorem mapContent_append {u s : Text} (h : '<' ∉ u) :
    e.mapContent f (u ++ s) = u ++ e.mapContent f s := by
  refine e.lineBlind_pattern.replaceWith_append (fun c hc s => read?_eq_none ?_) s
  cases hh : e.tagStart.heads (c :: s) with
  | false => rfl
  | true =>
      have hp := Word.heads_iff_prefix_map.1 hh
      have hlt : foldCase c = '<' := (List.cons_prefix_cons.1 hp).1.symm
      exact absurd (foldCase_eq_lt_iff.1 hlt) (ne_of_mem_of_not_mem hc h)

/-- A `<` that opens nothing is copied with all that stands before the next. -/
theorem mapContent_tag_append {u s : Text} (hu : '<' ∉ u)
    (h : ¬ e.name <+: (u ++ s).map foldCase) :
    e.mapContent f ('<' :: (u ++ s)) = '<' :: (u ++ e.mapContent f s) := by
  rw [mapContent_cons, mapContent_append hu]
  cases hh : e.tagStart.heads ('<' :: (u ++ s)) with
  | false => rfl
  | true =>
      have hp := Word.heads_iff_prefix_map.1 hh
      exact absurd (List.cons_prefix_cons.1 hp).2 h

theorem map_foldCase_name (e : Element) : e.name.map foldCase = e.name := by
  cases e <;> decide

theorem map_foldCase_closingTag (e : Element) :
    e.closingTag.map foldCase = e.closingTag := by
  cases e <;> decide

theorem lt_not_mem_of_folds {n : Text} (h : n.map foldCase = e.name) :
    '<' ∉ n := by
  intro hm
  have hf := List.mem_map_of_mem (f := foldCase) hm
  rw [h, foldCase_eq_lt_iff.2 rfl] at hf
  revert hf
  cases e <;> decide

theorem not_mem_of_map_foldCase {m : Text}
    (hm : m.map foldCase = '<' :: e.name) : '>' ∉ m := by
  intro h
  have hmem := List.mem_map_of_mem (f := foldCase) h
  rw [hm] at hmem
  revert hmem
  cases e <;> decide

theorem closingTag_absent {u : Text} (h : ¬ '<' :: '/' :: e.name <:+: u) :
    ¬ e.closingTag <:+: u :=
  fun hi => h ((List.prefix_append _ ['>']).isInfix.trans hi)

/-- The closing tag after a content without one is the first. -/
theorem cut?_closingTag {B k r : Text} (hB : ¬ e.closingTag <:+: B.map foldCase)
    (hk : k.map foldCase = e.closingTag) :
    (Word.caseless e.closingTag).cut? (B ++ (k ++ r)) = some (B, k, r) := by
  refine Word.cut?_eq_some_iff.2 ⟨by rw [List.append_assoc], hk, ?_⟩
  intro j hj
  cases hh : (Word.caseless e.closingTag).heads
      ((B ++ (k ++ r)).drop j) with
  | false => rfl
  | true =>
      have hp := Word.heads_iff_prefix_map.1 hh
      rw [List.drop_append_of_le_length (Nat.le_of_lt hj), List.map_append,
        List.map_append] at hp
      simp only [Word.caseless, hk] at hp
      have htag : '<' ∉ '/' :: e.name ++ ['>'] := by cases e <;> decide
      have hin := prefix_of_prefix_append_cons htag (by simpa using hj) hp
      rw [List.map_drop] at hin
      exact absurd (hin.isInfix.trans (List.drop_suffix j _).isInfix) hB

theorem closingTag_absent_of_cut? {s B k r : Text}
    (h : (Word.caseless e.closingTag).cut? s = some (B, k, r)) :
    ¬ e.closingTag <:+: B.map foldCase := by
  obtain ⟨hs, -, hfirst⟩ := Word.cut?_eq_some_iff.1 h
  rintro ⟨p, q, hpq⟩
  have hlen := congrArg List.length hpq
  have hpos : 0 < e.closingTag.length := List.length_pos_iff.2 (List.cons_ne_nil _ _)
  simp only [List.length_append, List.length_map] at hlen
  have hhead : (Word.caseless e.closingTag).heads (s.drop p.length) = true := by
    refine Word.heads_iff_prefix_map.2 ?_
    rw [← hs, List.append_assoc, List.map_drop, List.map_append]
    simp only [Word.caseless]
    rw [← hpq, List.append_assoc, List.append_assoc, List.drop_left]
    exact List.prefix_append _ _
  rw [hfirst p.length (by omega)] at hhead
  cases hhead

theorem read?_element {b : Bool} {m A B k r : Text}
    (hm : m.map foldCase = '<' :: e.name) (hA : '>' ∉ A)
    (hB : ¬ e.closingTag <:+: B.map foldCase)
    (hk : k.map foldCase = e.closingTag) :
    e.pattern.read? b (m ++ (A ++ '>' :: (B ++ (k ++ r)))) =
      some ⟨m ++ A ++ ['>'], B, k⟩ := by
  refine Pattern.read?_enclosure_eq_some_iff.2
    ⟨B ++ (k ++ r), r, ?_, cut?_closingTag hB hk⟩
  simp only [opener]
  rw [if_pos (Word.heads_iff.2 ⟨m, _, rfl, hm⟩), afterTag?_eq_some_iff]
  refine ⟨m ++ A, ?_, rfl, by simp⟩
  rw [List.mem_append, not_or]
  exact ⟨not_mem_of_map_foldCase hm, hA⟩

/-- What is read is always written like that. -/
theorem exists_of_read? {b : Bool} {s : Text} {o : Occurrence}
    (h : e.pattern.read? b s = some o) :
    ∃ m A r, s = m ++ (A ++ '>' :: (o.inner ++ (o.closing ++ r))) ∧
      o.opening = m ++ (A ++ ['>']) ∧ m.map foldCase = '<' :: e.name ∧ '>' ∉ A ∧
      ¬ e.closingTag <:+: o.inner.map foldCase ∧
      o.closing.map foldCase = e.closingTag := by
  obtain ⟨t, r, ht, hr⟩ := Pattern.read?_enclosure_eq_some_iff.1 h
  obtain ⟨hcut, hclose, -⟩ := Word.cut?_eq_some_iff.1 hr
  simp only [opener] at ht
  split at ht
  · next hh =>
      obtain ⟨m, q, rfl, hm⟩ := Word.heads_iff.1 hh
      obtain ⟨u, hu, hopen, hs⟩ := afterTag?_eq_some_iff.1 ht
      -- The name ends before the first `>`.
      have hpre : m <+: u ++ '>' :: t := by
        rw [List.append_cons, ← hopen, hs]
        exact List.prefix_append m q
      obtain ⟨A, rfl⟩ := prefix_of_prefix_append (not_mem_of_map_foldCase hm) hpre
      rw [List.mem_append, not_or] at hu
      refine ⟨m, A, r, ?_, by rw [hopen, List.append_assoc], hm, hu.2,
        closingTag_absent_of_cut? hr, hclose⟩
      rw [← hs, hopen, ← hcut]
      simp
  · cases ht

theorem mapContent_element {m A B k r : Text}
    (hm : m.map foldCase = '<' :: e.name) (hA : '>' ∉ A)
    (hB : ¬ e.closingTag <:+: B.map foldCase)
    (hk : k.map foldCase = e.closingTag) :
    e.mapContent f (m ++ (A ++ '>' :: (B ++ (k ++ r)))) =
      e.wrap (f B) ++ e.mapContent f r :=
  e.lineBlind_pattern.replaceWith_hit (t := m ++ A ++ ['>'] ++ B ++ k)
    (by simp) rfl (read?_element hm hA hB hk)

/-- An element in small letters that is a document of its own. -/
theorem mapContent_alone {A B : Text} (hA : '>' ∉ A)
    (hB : ¬ e.closingTag <:+: B.map foldCase) :
    e.mapContent f ('<' :: (e.name ++ (A ++ ['>']) ++ (B ++ e.closingTag))) =
      e.wrap (f B) := by
  have hname : List.map foldCase ('<' :: e.name) = '<' :: e.name := by
    cases e <;> decide
  have h := mapContent_element (f := f) (r := []) hname hA hB e.map_foldCase_closingTag
  rw [mapContent_nil, List.append_nil (e.wrap (f B))] at h
  rw [← h]
  simp

theorem mapContent_document {A B : Text} (hA : '>' ∉ A)
    (hB : ¬ '<' :: '/' :: e.name <:+: B.map foldCase) :
    e.mapContent f ('<' :: (e.name ++ (A ++ ['>']) ++ (B ++ e.closingTag))) =
      e.wrap (f B) :=
  mapContent_alone hA (closingTag_absent hB)

/-! ## Gaps in elements -/

theorem unbroken_openingTag (e : Element) : Unbroken e.openingTag := by
  cases e <;> simp [Unbroken, openingTag, name, isBlank]

theorem unbroken_closingTag (e : Element) : Unbroken e.closingTag := by
  cases e <;> simp [Unbroken, closingTag, name, isBlank]

theorem unbroken_of_map_foldCase {m l : Text} (hm : m.map foldCase = l)
    (hl : Unbroken l) : Unbroken m := by
  intro c hc
  rw [← isBlank_foldCase]
  exact hl _ (by rw [← hm]; exact List.mem_map_of_mem hc)

/-- The gaps of an element are those in its opening tag after the name and
those of its content; its closing tag stays as it is written. -/
theorem mapGaps_element {g : GapRule} {left right : Option Char}
    (hg : ∀ l r, g l [] r = []) {m A B k s : Text}
    (hm : m.map foldCase = '<' :: e.name)
    (hk : k.map foldCase = e.closingTag) :
    mapGaps g left right (m ++ (A ++ '>' :: (B ++ (k ++ s)))) =
      m ++ (mapGaps g m.getLast? (some '>') A ++ '>' ::
        (mapGaps g (some '>') (some '<') B ++ (k ++
          mapGaps g k.getLast? right s))) := by
  have hname : Unbroken ('<' :: e.name) := by
    cases e <;> simp [Unbroken, name, isBlank]
  have hmne : m ≠ [] := by
    rintro rfl
    cases hm
  cases k with
  | nil => cases hk
  | cons c k =>
      obtain ⟨hc, -⟩ := List.cons.inj hk
      obtain rfl := foldCase_eq_lt_iff.1 hc
      have hblank := unbroken_of_map_foldCase hk e.unbroken_closingTag
      have hcut : mapGaps g (some '>') right (B ++ '<' :: (k ++ s)) =
          mapGaps g (some '>') (some '<') B ++
            '<' :: mapGaps g (some '<') right (k ++ s) :=
        mapGaps_append_cons (by decide) B
      have hlast : mapGaps g (some '>') right ('<' :: k ++ s) =
          '<' :: k ++ mapGaps g ('<' :: k).getLast? right s :=
        mapGaps_append_of_unbroken hg (List.cons_ne_nil '<' k) hblank s
      rw [List.cons_append, mapGaps_cons (by decide), hg, List.nil_append]
        at hlast
      rw [mapGaps_append_of_unbroken hg hmne
          (unbroken_of_map_foldCase hm hname),
        mapGaps_append_cons (by decide), List.cons_append, hcut, hlast]

theorem mapGaps_alone {g : GapRule} {left right : Option Char}
    (hg : ∀ l r, g l [] r = []) {A : Text} (hA : Unbroken A) (B : Text) :
    mapGaps g left right ('<' :: (e.name ++ (A ++ ['>']) ++ (B ++ e.closingTag))) =
      '<' :: (e.name ++ (A ++ ['>']) ++
        (mapGaps g (some '>') (some '<') B ++ e.closingTag)) := by
  have hname : List.map foldCase ('<' :: e.name) = '<' :: e.name := by
    cases e <;> decide
  have hattributes : ∀ {l r}, mapGaps g l r A = A := by
    intro l r
    by_cases hne : A = []
    · rw [hne, mapGaps_nil, hg]
    · have hword : mapGaps g l r (A ++ []) = _ := mapGaps_append_of_unbroken hg hne hA []
      rwa [List.append_nil, mapGaps_nil, hg, List.append_nil] at hword
  have h : mapGaps g left right ('<' :: e.name ++
      (A ++ '>' :: (B ++ (e.closingTag ++ [])))) = _ :=
    mapGaps_element hg hname e.map_foldCase_closingTag
  simp only [mapGaps_nil, hg, hattributes, List.append_nil] at h
  simpa using h

theorem mapGaps_wrap {g : GapRule} {left right : Option Char}
    (hg : ∀ l r, g l [] r = []) (t : Text) :
    mapGaps g left right (e.wrap t) =
      e.wrap (mapGaps g (some '>') (some '<') t) := by
  have h : mapGaps g left right
      ('<' :: (e.name ++ ([] ++ ['>']) ++ (t ++ e.closingTag))) = _ :=
    mapGaps_alone hg (fun _ hc => absurd hc List.not_mem_nil) t
  simpa [wrap, openingTag] using h

end Element

end HtmlMinifier
