import HtmlMinifier.Proofs.LineComments

/-!
# Elements that are found again

Once the content of its elements is treated, a document is searched for them a
second time. The second search starts from nothing: all it has is raw text, in
which every tag was written anew and half a tag may be left on either side. It
meets the same elements nevertheless, in the same places, if the treatment puts
no closing tag into a content that had none (`segments_mapContent`).

Nothing stops short: an element is closed by its own tag, since there is none
before it in the content, and none that begins there and ends in the tag. And
nothing comes about between elements: what does not open an element there
either is no start of a tag, and then it is none before a rewritten element
either, as that begins with `<`, or it is a start without an end, and then no
element comes after it that could have been rewritten.
-/

namespace HtmlMinifier

/-- Where an opener starts and nothing is read, it is known that nothing is read
after it. -/
theorem Pattern.exhausted_of_read?_enclosure {opener : Opener} {closer : Word} {b : Bool}
    {s : Text} (hs : opener.starts s = true)
    (h : (enclosure opener closer).read? b s = none) :
    (enclosure opener closer).exhausted s = true := by
  simp only [enclosure, unclosed, hs, Bool.true_and] at h ⊢
  split
  · rfl
  · next a t ht =>
      rw [ht] at h
      cases hcut : closer.cut? t with
      | none => rw [Word.cut?_eq_none_iff.1 hcut]; rfl
      | some cut => simp [hcut] at h

namespace Element

variable {e : Element} {f g : Text → Text} {b : Bool} {c : Char} {s w : Text}

/-- A content without the closing tag is treated without one coming about. -/
def Confines (e : Element) (f : Text → Text) : Prop :=
  ∀ B : Text, ¬ e.closingTag <:+: B.map foldCase → ¬ e.closingTag <:+: (f B).map foldCase

/-- The element with bare tags. -/
def bare (e : Element) (content : Text) : Occurrence :=
  ⟨e.openingTag, content, e.closingTag⟩

theorem text_bare (e : Element) (content : Text) :
    (e.bare content).text = e.wrap content := rfl

/-- What becomes of a part of the document: an element is written with bare tags
around its treated content, and what is between elements stays. -/
def treated (e : Element) (f : Text → Text) : Segment → Segment
  | .plain c => .plain c
  | .hit o => .hit (e.bare (f o.inner))

/-! ## Between elements -/

/-- Up to the first tag a treated document is the document. -/
theorem prefix_of_prefix_mapContent (hw : '<' ∉ w)
    (h : w <+: (e.mapContent f s).map foldCase) : w <+: s.map foldCase := by
  induction w generalizing s with
  | nil => exact List.nil_prefix
  | cons l w ih =>
      obtain ⟨hl, hw'⟩ := List.ne_and_not_mem_of_not_mem_cons hw
      cases s with
      | nil => exact h
      | cons c s =>
          cases hread : e.pattern.read? true (c :: s) with
          | none =>
              rw [mapContent_plain hread] at h
              obtain ⟨hc, h⟩ := List.cons_prefix_cons.1 h
              exact List.cons_prefix_cons.2 ⟨hc, ih hw' h⟩
          | some o =>
              obtain ⟨r, hr⟩ := e.pattern.text_prefix hread
              rw [← hr] at hread h
              rw [mapContent_hit hread] at h
              exact absurd (List.cons_prefix_cons.1 h).1 (Ne.symm hl)

theorem heads_of_heads_mapContent (h : e.tagStart.heads (c :: e.mapContent f s) = true) :
    e.tagStart.heads (c :: s) = true := by
  rw [Word.heads_iff_prefix_map] at h ⊢
  obtain ⟨hc, hname⟩ := List.cons_prefix_cons.1 h
  refine List.cons_prefix_cons.2 ⟨hc, prefix_of_prefix_mapContent ?_ hname⟩
  exact lt_not_mem_of_folds e.map_foldCase_name

/-- A character at which no element starts is not made the start of one by what is
treated after it. -/
theorem read?_cons_mapContent (h : e.pattern.read? b (c :: s) = none) :
    e.pattern.read? b (c :: e.mapContent f s) = none := by
  cases hh : e.tagStart.heads (c :: e.mapContent f s) with
  | false => exact read?_eq_none hh
  | true =>
      -- The tag has no end, or the element has none, so nothing was treated.
      have hexhausted : e.pattern.exhausted (c :: s) = true :=
        Pattern.exhausted_of_read?_enclosure (heads_of_heads_mapContent hh) h
      have hsame : e.mapContent f s = s := Pattern.replaceWith_of_none fun _ _ ht =>
        e.pattern.read?_of_exhausted hexhausted (ht.trans (List.suffix_cons c s))
      rw [hsame]
      exact h

/-! ## The second search -/

theorem read?_bare {B r : Text} (h : ¬ e.closingTag <:+: B.map foldCase) :
    e.pattern.read? b ((e.bare B).text ++ r) = some (e.bare B) := by
  have hname : List.map foldCase ('<' :: e.name) = '<' :: e.name := by
    cases e <;> decide
  have hread := read?_element (b := b) (A := []) (r := r) hname List.not_mem_nil h
    e.map_foldCase_closingTag
  rw [text_bare]
  simpa [wrap, bare, openingTag] using hread

/-- A treated document is divided as the document is, each element with its content
treated, and all that is between elements as it was. -/
theorem segments_mapContent (hf : e.Confines f) (b : Bool) (s : Text) :
    e.pattern.segments b (e.mapContent f s) =
      (e.pattern.segments b s).map (e.treated f) := by
  induction b, s using e.pattern.search_induction with
  | nil b => rfl
  | plain b c s h ih =>
      rw [mapContent_plain h, Pattern.segments_plain (read?_cons_mapContent h),
        Pattern.segments_plain h, ih]
      rfl
  | hit b o r h ih =>
      obtain ⟨-, -, -, -, -, -, -, hB, -⟩ := exists_of_read? h
      rw [mapContent_hit h, ← text_bare, Pattern.segments_hit (read?_bare (hf _ hB)),
        Pattern.segments_hit h, List.map_cons, ← ih,
        e.lineBlind_pattern.segments_eq _ (lineStartAfter b o.text)]
      rfl

/-- Treating the content twice is one treatment. -/
theorem mapContent_mapContent (hf : e.Confines f) (s : Text) :
    e.mapContent g (e.mapContent f s) = e.mapContent (fun B => g (f B)) s := by
  rw [mapContent, Pattern.replaceWith, segments_mapContent hf, List.flatMap_map]
  refine congrArg (List.flatMap · _) (funext fun x => ?_)
  cases x <;> rfl

end Element

namespace Script

theorem confines_deleteLineComments (e : Element) : e.Confines deleteLineComments := by
  intro B hB hin
  obtain ⟨k, hk, htag⟩ := List.infix_map_iff.1 hin
  have hline : '\n' ∉ k := by
    intro hm
    have hfold := List.mem_map_of_mem (f := foldCase) hm
    rw [← htag] at hfold
    revert hfold
    cases e <;> decide
  refine not_infix_deleteLineComments hline (fun hkB => hB ?_) hk
  rw [htag]
  exact hkB.map foldCase

/-- Deleting block comments can make a closing tag. -/
example : ¬ Element.script.Confines deleteBlockComments :=
  fun h => h "</scr/**/ipt>".toList (by decide +kernel) (by decide +kernel)

theorem deleteLineComments_deleteLineComments (s : Text) :
    deleteLineComments (deleteLineComments s) = deleteLineComments s :=
  deleteLineComments_of_absent (slashes_not_infix_deleteLineComments s)

/-- Deleting the line comments of its scripts leaves a document with the same
scripts between the same texts, in their order, each with its own line comments
deleted and no other left. So doing it again changes nothing. -/
theorem segments_mapContent_deleteLineComments (d : Text) :
    Element.script.pattern.segments true (Element.script.mapContent deleteLineComments d) =
        (Element.script.pattern.segments true d).map
          (Element.script.treated deleteLineComments) ∧
      (∀ o, .hit o ∈ Element.script.pattern.segments true
          (Element.script.mapContent deleteLineComments d) → ¬ ['/', '/'] <:+: o.inner) ∧
      Element.script.mapContent deleteLineComments
          (Element.script.mapContent deleteLineComments d) =
        Element.script.mapContent deleteLineComments d := by
  have hconfines := confines_deleteLineComments .script
  refine ⟨Element.segments_mapContent hconfines true d, ?_, ?_⟩
  · intro o ho
    rw [Element.segments_mapContent hconfines] at ho
    obtain ⟨x, -, hx⟩ := List.mem_map.1 ho
    cases x with
    | plain c => cases hx
    | hit q =>
        obtain rfl := Segment.hit.inj hx
        exact slashes_not_infix_deleteLineComments q.inner
  · rw [Element.mapContent_mapContent hconfines,
      funext deleteLineComments_deleteLineComments]

end Script

end HtmlMinifier
