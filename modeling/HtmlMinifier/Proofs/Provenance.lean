import HtmlMinifier.Document
import HtmlMinifier.Proofs.CommentScan
import HtmlMinifier.Proofs.ElementSearch
import Mathlib.Data.List.Forall2

/-!
# Where the characters of a document come from

Minifying writes nothing of its own. Every character that comes out stems from
one that went in, in the same order: it is that character, or the space that
stands for a blank, or the small letter of a tag name for any letter that folds
to it. `DrawnFrom` says so of two texts, and two things a reader wants to know
are read off it: what is drawn from a text has no more bytes, and all it shows
besides blanks is shown there in the same order.

The relation composes along a pipeline and holds of a text put together from
parts if it holds of the parts, so a pass that replaces occurrences has it as
soon as every replacement is drawn from the occurrence. That is one small fact
for each pattern. Only the tags that an element is wrapped in anew need a second
look: their letters are those of the tags it had, folded.
-/

namespace HtmlMinifier

/-- The character `a` may stand where the text had `b`. -/
inductive StemsFrom : (a b : Char) → Prop
  | same (c : Char) : StemsFrom c c
  | space {b : Char} (hb : isBlank b = true) : StemsFrom ' ' b
  | folded (b : Char) : StemsFrom (foldCase b) b

theorem utf8Size_of_toNat_lt {c : Char} (h : c.toNat < 0x80) : c.utf8Size = 1 :=
  Char.utf8Size_eq_one_iff.2 (UInt32.le_iff_toNat_le.2 (Nat.le_of_lt_succ h))

theorem foldCase_foldCase (c : Char) : foldCase (foldCase c) = foldCase c := by
  by_cases hs : c = 'ſ'
  · rw [hs]; decide
  · have hlow : foldCase c = c.toLower := if_neg hs
    rcases toLower_cases c with h | ⟨hge, hle, h⟩
    · rw [hlow, h, hlow, h]
    · rw [hlow, foldCase, if_neg]
      · rcases toLower_cases c.toLower with h' | ⟨-, hle', -⟩
        · exact h'
        · omega
      · intro hlong
        rw [hlong] at h
        have : 'ſ'.toNat = 383 := rfl
        omega

theorem utf8Size_foldCase_le (c : Char) : (foldCase c).utf8Size ≤ c.utf8Size := by
  have hpos := c.utf8Size_pos
  by_cases hs : c = 'ſ'
  · rw [hs]; decide
  · rw [foldCase, if_neg hs]
    rcases toLower_cases c with h | ⟨-, hle, h⟩
    · rw [h]
    · rw [utf8Size_of_toNat_lt (by omega)]
      exact hpos

namespace StemsFrom

variable {a b c : Char}

theorem isBlank_eq (h : StemsFrom a b) : isBlank a = isBlank b := by
  cases h with
  | same => rfl
  | space hb => rw [hb]; decide
  | folded => exact isBlank_foldCase b

theorem utf8Size_le (h : StemsFrom a b) : a.utf8Size ≤ b.utf8Size := by
  cases h with
  | same => exact Nat.le_refl _
  | space => exact b.utf8Size_pos
  | folded => exact utf8Size_foldCase_le b

/-- A character that is not blank is the one it stems from up to case. -/
theorem foldCase_eq (h : StemsFrom a b) (ha : isBlank a = false) :
    foldCase a = foldCase b := by
  cases h with
  | same => rfl
  | space => cases ha
  | folded => exact foldCase_foldCase b

theorem trans (h : StemsFrom a b) (h' : StemsFrom b c) : StemsFrom a c := by
  cases h with
  | same => exact h'
  | space hb => exact .space (h'.isBlank_eq ▸ hb)
  | folded =>
      cases h' with
      | same => exact .folded b
      | space hc => exact .space hc
      | folded => rw [foldCase_foldCase]; exact .folded c

end StemsFrom

instance : Std.Refl StemsFrom := ⟨.same⟩

instance : IsTrans Char StemsFrom := ⟨fun _ _ _ h h' => h.trans h'⟩

namespace Text

/-! ## Texts drawn from texts -/

/-- Each character of `s` stems from one of `t`, in the same order. -/
def DrawnFrom (s t : Text) : Prop := List.SublistForall₂ StemsFrom s t

/-- What a text shows besides blanks, whatever the case of its letters. -/
def ink (s : Text) : Text := (s.filter fun c => !isBlank c).map foldCase

namespace DrawnFrom

variable {s t u v : Text}

theorem of_sublist (h : s.Sublist t) : DrawnFrom s t := h.sublistForall₂

theorem refl (s : Text) : DrawnFrom s s := of_sublist (List.Sublist.refl s)

theorem nil (t : Text) : DrawnFrom [] t := List.SublistForall₂.nil

theorem trans (h : DrawnFrom s t) (h' : DrawnFrom t u) : DrawnFrom s u :=
  List.SublistForall₂.is_trans.trans s t u h h'

theorem append (h : DrawnFrom s t) (h' : DrawnFrom u v) :
    DrawnFrom (s ++ u) (t ++ v) := by
  obtain ⟨k, hk, hkt⟩ := List.sublistForall₂_iff.1 h
  obtain ⟨m, hm, hmv⟩ := List.sublistForall₂_iff.1 h'
  exact List.sublistForall₂_iff.2 ⟨k ++ m, List.rel_append hk hm, hkt.append hmv⟩

theorem map_foldCase (s : Text) : DrawnFrom (s.map foldCase) s := by
  refine List.sublistForall₂_iff.2 ⟨s, ?_, List.Sublist.refl s⟩
  rw [List.forall₂_map_left_iff, List.forall₂_same]
  exact fun c _ => .folded c

theorem byteSize_le (h : DrawnFrom s t) : byteSize s ≤ byteSize t := by
  induction h with
  | nil => exact Nat.zero_le _
  | cons hc _ ih =>
      rw [byteSize_cons, byteSize_cons]
      exact Nat.add_le_add hc.utf8Size_le ih
  | cons_right _ ih =>
      rw [byteSize_cons]
      exact Nat.le_trans ih (Nat.le_add_left _ _)

theorem ink_sublist (h : DrawnFrom s t) : (ink s).Sublist (ink t) := by
  induction h with
  | nil => exact List.nil_sublist _
  | @cons a b s t hc _ ih =>
      rw [ink, ink, List.filter_cons, List.filter_cons, hc.isBlank_eq]
      split
      · next hb =>
          have ha : isBlank a = false := by simpa [hc.isBlank_eq] using hb
          rw [List.map_cons, List.map_cons, hc.foldCase_eq ha]
          exact ih.cons_cons _
      · exact ih
  | @cons_right b s t _ ih =>
      rw [ink, ink, List.filter_cons]
      split
      · exact ih.cons _
      · exact ih

end DrawnFrom

end Text

namespace Pattern

open Text

/-! ## Replacing occurrences -/

variable {p : Pattern} {f : Occurrence → Text}

theorem drawnFrom_replaceFrom
    (h : ∀ b s o, p.read? b s = some o → DrawnFrom (f o) o.text) (b : Bool)
    (s : Text) : DrawnFrom (p.replaceFrom f b s) s := by
  induction b, s using p.search_induction with
  | nil b => exact .refl []
  | plain b c s hread ih =>
      rw [replaceFrom_plain hread]
      exact (DrawnFrom.refl [c]).append ih
  | hit b o r hread ih =>
      rw [replaceFrom_hit hread]
      exact (h _ _ _ hread).append ih

theorem drawnFrom_replaceWith
    (h : ∀ b s o, p.read? b s = some o → DrawnFrom (f o) o.text) (s : Text) :
    DrawnFrom (p.replaceWith f s) s :=
  drawnFrom_replaceFrom h true s

theorem drawnFrom_delete (s : Text) : DrawnFrom (p.delete s) s :=
  drawnFrom_replaceWith (fun _ _ o _ => .nil o.text) s

/-- A gap is filled with what is drawn from its blanks. -/
theorem drawnFrom_replace_gap (left right : Option Char) {least : Nat}
    {h₀ : 0 < least ∨ left.isSome ∨ right.isSome} {fill : Text}
    (h : ∀ R, AllBlank R → least ≤ R.length → DrawnFrom fill R) (s : Text) :
    DrawnFrom ((gap left right least h₀).replace
      (left.toList ++ fill ++ right.toList) s) s := by
  refine drawnFrom_replaceWith (fun b s o ho => ?_) s
  obtain ⟨t, r, -, hlen, -, rfl⟩ := readGap?_eq_some_iff.1 ho
  have hfill := h _ (allBlank_leadingBlanks t) hlen
  exact ((DrawnFrom.refl left.toList).append hfill).append (.refl right.toList)

theorem drawnFrom_empty_gap (left right : Option Char) {least : Nat}
    {h₀ : 0 < least ∨ left.isSome ∨ right.isSome} (s : Text) :
    DrawnFrom ((gap left right least h₀).replace
      (left.toList ++ right.toList) s) s := by
  rw [← List.append_nil left.toList]
  exact drawnFrom_replace_gap left right (fun R _ _ => .nil R) s

/-- A gap that is not empty becomes a space. -/
theorem drawnFrom_space_gap {least : Nat} (hpos : 0 < least) (s : Text) :
    DrawnFrom ((gap none none least (.inl hpos)).replace [' '] s) s := by
  have hfill : ∀ R, AllBlank R → least ≤ R.length → DrawnFrom [' '] R := by
    intro R hR hlen
    cases R with
    | nil => exact absurd hlen (Nat.not_le_of_lt hpos)
    | cons c R => exact .cons (.space (allBlank_cons.1 hR).1) .nil
  exact drawnFrom_replace_gap none none hfill s

end Pattern

namespace Text

theorem drawnFrom_flattenBlanks (s : Text) : DrawnFrom s.flattenBlanks s :=
  Pattern.drawnFrom_space_gap Nat.one_pos s

theorem drawnFrom_squeezeLineFeeds (s : Text) :
    DrawnFrom s.squeezeLineFeeds s := by
  refine Pattern.drawnFrom_replaceWith (fun b s o ho => .of_sublist ?_) s
  simp only [Pattern.lineFeeds] at ho
  split at ho
  · next hlen =>
      obtain rfl := Option.some.inj ho
      have hrun := List.all_takeWhile (p := (· == '\n')) (l := s)
      cases hs : s.takeWhile (· == '\n') with
      | nil => rw [hs] at hlen; cases hlen
      | cons c run =>
          rw [hs, List.all_cons, Bool.and_eq_true, beq_iff_eq] at hrun
          rw [hrun.1]
          simp [Occurrence.text]
  · cases ho

theorem drawnFrom_trim (s : Text) : DrawnFrom s.trim s := by
  obtain ⟨l, r, hs, -, -⟩ := s.exists_blanks_trim
  have hsub : s.trim.Sublist (l ++ (s.trim ++ r)) :=
    (List.sublist_append_left _ r).trans (List.sublist_append_right l _)
  rw [← List.append_assoc, hs] at hsub
  exact .of_sublist hsub

end Text

open Text

/-! ## Style sheets and scripts -/

namespace Stylesheet

theorem drawnFrom_deleteSemicolonBreaks (s : Text) :
    DrawnFrom (deleteSemicolonBreaks s) s := by
  refine Pattern.drawnFrom_replaceWith (fun b s o ho => .of_sublist ?_) s
  simp only [semicolonBreak] at ho
  split at ho
  · cases ho
  · split at ho
    · split at ho
      · cases ho
      · obtain rfl := Option.some.inj ho
        simp [Occurrence.text]
    · cases ho

theorem drawnFrom_dropLastSemicolons (s : Text) :
    DrawnFrom (dropLastSemicolons s) s := by
  refine Pattern.drawnFrom_replaceWith (fun b s o ho => .of_sublist ?_) s
  simp only [lastSemicolon] at ho
  split at ho
  · split at ho
    · obtain rfl := Option.some.inj ho
      simp [Occurrence.text]
    · cases ho
  · cases ho

theorem drawnFrom_tightenMarks (s : Text) : DrawnFrom (tightenMarks s) s := by
  refine Pattern.drawnFrom_replaceWith (fun _ _ o _ => .of_sublist ?_) s
  simp [Occurrence.text]

theorem drawnFrom_structured (s : Text) : DrawnFrom (structured s) s := by
  refine (drawnFrom_trim _).trans ?_
  refine (Pattern.drawnFrom_empty_gap (some ':') none _).trans ?_
  refine (Pattern.drawnFrom_empty_gap none (some '}') _).trans ?_
  refine (Pattern.drawnFrom_empty_gap (some '{') none _).trans ?_
  refine (drawnFrom_deleteSemicolonBreaks _).trans ?_
  refine (Pattern.drawnFrom_empty_gap (some '\n') none _).trans ?_
  refine (Pattern.drawnFrom_space_gap Nat.two_pos _).trans ?_
  exact Pattern.drawnFrom_delete s

theorem drawnFrom_aggressive (s : Text) : DrawnFrom (aggressive s) s := by
  refine (drawnFrom_trim _).trans ?_
  refine (drawnFrom_tightenMarks _).trans ?_
  refine (drawnFrom_dropLastSemicolons _).trans ?_
  refine (drawnFrom_flattenBlanks _).trans ?_
  exact Pattern.drawnFrom_delete s

end Stylesheet

namespace Script

theorem drawnFrom_structured (s : Text) : DrawnFrom (structured s) s := by
  refine (drawnFrom_trim _).trans ?_
  refine (drawnFrom_squeezeLineFeeds _).trans ?_
  refine (Pattern.drawnFrom_delete _).trans ?_
  exact Pattern.drawnFrom_delete s

theorem drawnFrom_deleteLineComments (s : Text) :
    DrawnFrom (deleteLineComments s) s :=
  Pattern.drawnFrom_delete s

theorem drawnFrom_aggressive (s : Text) : DrawnFrom (aggressive s) s := by
  refine (drawnFrom_trim _).trans ?_
  refine (Pattern.drawnFrom_empty_gap (some ';') (some '}') _).trans ?_
  refine (drawnFrom_flattenBlanks _).trans ?_
  refine (Pattern.drawnFrom_delete _).trans ?_
  exact drawnFrom_deleteLineComments s

end Script

/-! ## Elements -/

namespace Element

variable {e : Element} {f : Text → Text}

/-- The tags of an element that is met spell its name in some letters. -/
theorem exists_tags_of_read? {b : Bool} {s : Text} {o : Occurrence}
    (h : e.pattern.read? b s = some o) :
    ∃ m A, o.opening = m ++ (A ++ ['>']) ∧ m.map foldCase = '<' :: e.name ∧
      o.closing.map foldCase = e.closingTag := by
  obtain ⟨m, A, -, -, hopen, hm, -, -, hclose⟩ := exists_of_read? h
  exact ⟨m, A, hopen, hm, hclose⟩

theorem drawnFrom_mapContent (hf : ∀ s, DrawnFrom (f s) s) (s : Text) :
    DrawnFrom (e.mapContent f s) s := by
  refine Pattern.drawnFrom_replaceWith (fun b s o ho => ?_) s
  obtain ⟨m, A, hopen, hm, hclose⟩ := exists_tags_of_read? ho
  have hopening : DrawnFrom e.openingTag o.opening := by
    rw [hopen, openingTag, ← hm]
    exact (DrawnFrom.map_foldCase m).append
      (.of_sublist (List.sublist_append_right A ['>']))
  have hclosing : DrawnFrom e.closingTag o.closing := by
    rw [← hclose]
    exact .map_foldCase o.closing
  exact (hopening.append (hf o.inner)).append hclosing

end Element

/-! ## Documents -/

namespace Document

theorem drawnFrom_closeTagGaps (s : Text) : DrawnFrom (closeTagGaps s) s :=
  Pattern.drawnFrom_empty_gap (some '>') (some '<') s

/-- The passes after the comment scan. -/
theorem drawnFrom_structured_strip (s : Text) :
    DrawnFrom (structured s) (Comment.strip s) := by
  rw [structured, Comment.deleteUnconditional_eq_strip]
  refine (drawnFrom_trim _).trans ?_
  refine (drawnFrom_squeezeLineFeeds _).trans ?_
  refine (Pattern.drawnFrom_delete _).trans ?_
  refine (drawnFrom_closeTagGaps _).trans ?_
  refine (Element.drawnFrom_mapContent Script.drawnFrom_structured _).trans ?_
  exact Element.drawnFrom_mapContent Stylesheet.drawnFrom_structured _

theorem drawnFrom_structured (s : Text) : DrawnFrom (structured s) s :=
  (drawnFrom_structured_strip s).trans (Pattern.drawnFrom_delete s)

theorem drawnFrom_aggressive (s : Text) : DrawnFrom (aggressive s) s := by
  rw [aggressive]
  refine (Element.drawnFrom_mapContent Script.drawnFrom_aggressive _).trans ?_
  refine (Element.drawnFrom_mapContent Stylesheet.drawnFrom_aggressive _).trans ?_
  refine (drawnFrom_trim _).trans ?_
  refine (drawnFrom_closeTagGaps _).trans ?_
  refine (drawnFrom_flattenBlanks _).trans ?_
  refine (Element.drawnFrom_mapContent Script.drawnFrom_deleteLineComments _).trans ?_
  exact Pattern.drawnFrom_delete s

theorem dropMark_sublist (s : Text) : (dropMark s).Sublist s := by
  cases s with
  | nil => exact List.Sublist.refl []
  | cons c s =>
      rw [dropMark]
      split
      · exact List.sublist_cons_self c s
      · exact List.Sublist.refl _

theorem drawnFrom_minify_dropMark (p : Profile) (s : Text) :
    DrawnFrom (minify p s) (dropMark s) := by
  cases p with
  | structured => exact drawnFrom_structured (dropMark s)
  | aggressive => exact drawnFrom_aggressive (dropMark s)

/-- A byte order mark takes three bytes. -/
theorem byteSize_dropMark (s : Text) :
    byteSize (dropMark s) + (if s.head? = some byteOrderMark then 3 else 0) =
      byteSize s := by
  cases s with
  | nil => rfl
  | cons c s =>
      rw [dropMark, List.head?_cons]
      by_cases h : c = byteOrderMark
      · subst h
        rw [if_pos rfl, if_pos rfl, byteSize_cons, Nat.add_comm]
        rfl
      · rw [if_neg h, if_neg (by simpa using h), Nat.add_zero]

theorem byteSize_minify_le (p : Profile) (s : Text) :
    byteSize (minify p s) + (if s.head? = some byteOrderMark then 3 else 0) ≤
      byteSize s := by
  rw [← byteSize_dropMark s]
  exact Nat.add_le_add_right (drawnFrom_minify_dropMark p s).byteSize_le _

/-- A document shows nothing after minifying that it did not show before, and
nothing in another order. -/
theorem ink_minify_sublist (p : Profile) (s : Text) :
    (ink (minify p s)).Sublist (ink s) :=
  ((drawnFrom_minify_dropMark p s).trans (.of_sublist (dropMark_sublist s))).ink_sublist

end Document

end HtmlMinifier
