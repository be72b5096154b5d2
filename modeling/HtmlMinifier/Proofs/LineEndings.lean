import HtmlMinifier.Proofs.AggressiveContent

/-!
# Line endings

A document may end its lines with a line feed or with a carriage return before
it, and the aggressive profile makes the same of both. Almost nothing has to be
said about that: the other ending only changes what gaps are made of, so comments
and elements are at the same places, and flattening takes the difference away.

One pass runs before that and asks for line feeds. A line comment takes the
carriage return at the end of its line along, so the scripts that are left are
not the same but for line endings. They still have the same gaps, which is all
that is asked (`flattenBlanks_deleteLineComments_crlf`).
-/

namespace HtmlMinifier

namespace Text

/-- The text with a carriage return before every line feed. -/
def crlf (s : Text) : Text := s.flatMap fun c => if c = '\n' then ['\r', '\n'] else [c]

theorem crlf_append (s t : Text) : crlf (s ++ t) = crlf s ++ crlf t :=
  List.flatMap_append

theorem crlf_newline (s : Text) : crlf ('\n' :: s) = '\r' :: '\n' :: crlf s := rfl

theorem crlf_cons_of_ne {c : Char} (h : c ≠ '\n') (s : Text) :
    crlf (c :: s) = c :: crlf s := by
  rw [crlf, List.flatMap_cons, if_neg h]
  rfl

theorem crlf_of_not_mem {k : Text} (h : '\n' ∉ k) : crlf k = k := by
  induction k with
  | nil => rfl
  | cons c k ih =>
      obtain ⟨hc, hk⟩ := List.ne_and_not_mem_of_not_mem_cons h
      rw [crlf_cons_of_ne hc.symm, ih hk]

theorem keepsWords_crlf : KeepsWords crlf where
  nil := rfl
  ne_nil {R} _ hne := by
    cases R with
    | nil => exact absurd rfl hne
    | cons c R =>
        rw [← List.singleton_append, crlf_append]
        by_cases h : c = '\n'
        · rw [h]
          exact List.cons_ne_nil _ _
        · rw [crlf_cons_of_ne h]
          exact List.cons_ne_nil _ _
  allBlank {R} hR := by
    induction R with
    | nil => exact allBlank_nil
    | cons c R ih =>
        obtain ⟨hc, hR⟩ := allBlank_cons.1 hR
        by_cases h : c = '\n'
        · rw [h, crlf_newline]
          exact allBlank_cons.2 ⟨by decide, allBlank_cons.2 ⟨by decide, ih hR⟩⟩
        · rw [crlf_cons_of_ne h]
          exact allBlank_cons.2 ⟨hc, ih hR⟩
  append_cons hc := by
    rw [crlf_append, crlf_cons_of_ne (newline_ne hc)]

theorem flattenBlanks_append_congr {u u' v v' : Text}
    (hu : u.flattenBlanks = u'.flattenBlanks)
    (hv : v.flattenBlanks = v'.flattenBlanks) :
    flattenBlanks (u ++ v) = flattenBlanks (u' ++ v') := by
  rw [flattenBlanks_append, hu, hv, ← flattenBlanks_append]

end Text

open Text

/-! ## Searching for comments and elements -/

theorem Pattern.delete_enclosure_crlf {l k : Text} {hl : l ≠ []} (hk : k ≠ [])
    (hlu : Unbroken l) (hku : Unbroken k) (s : Text) :
    (enclosure (.word l hl) (.exact k)).delete s.crlf =
      ((enclosure (.word l hl) (.exact k)).delete s).crlf := by
  induction true, s using (enclosure (.word l hl) (.exact k)).search_induction with
  | nil => rfl
  | plain b c s hread ih =>
      rw [delete, replace, lineBlind_enclosure.replaceWith_cons hread]
      by_cases hc : c = '\n'
      · subst hc
        exact (delete_enclosure_blanks (R := ['\r', '\n']) hlu
          (by decide)).trans (congrArg ('\r' :: '\n' :: ·) ih)
      · have hnone := read?_enclosure_word_of_keepsWords keepsWords_crlf hk hlu hku hread
        rw [crlf_cons_of_ne hc] at hnone
        rw [crlf_cons_of_ne hc, crlf_cons_of_ne hc,
          lineBlind_enclosure.replaceWith_cons hnone]
        exact congrArg (c :: ·) ih
  | hit b o r hread ih =>
      obtain ⟨B, q, ho, hs, habsent⟩ := (read?_enclosure_word_eq_some_iff hk).1 hread
      have hq : o.text ++ r = o.text ++ q := by
        rw [hs, Occurrence.text, ho]
        simp
      obtain rfl := List.append_cancel_left hq
      rw [hs, keepsWords_crlf.word_append hlu, keepsWords_crlf.append_word hk hku,
        delete_enclosure_hit hk habsent, delete_enclosure_hit hk, ih]
      rwa [keepsWords_crlf.infix_append_dropLast hk hku]

theorem Element.flattenBlanks_mapContent_crlf {e : Element} {f : Text → Text}
    (hf : ∀ B, (f (crlf B)).flattenBlanks = (f B).flattenBlanks) (s : Text) :
    (e.mapContent f s.crlf).flattenBlanks = (e.mapContent f s).flattenBlanks := by
  induction true, s using e.pattern.search_induction with
  | nil => rfl
  | plain b c s hread ih =>
      by_cases hc : c = '<'
      · subst hc
        have hnone := read?_of_keepsWords keepsWords_crlf hread
        rw [crlf_cons_of_ne (by decide)] at hnone
        rw [crlf_cons_of_ne (by decide), mapContent_plain hread, mapContent_plain hnone]
        exact flattenBlanks_append_congr (u := ['<']) rfl ih
      · have hlt : '<' ∉ [c] := by simpa using Ne.symm hc
        have hlt' : '<' ∉ crlf [c] := by rwa [keepsWords_crlf.mem_iff (by decide)]
        rw [← List.singleton_append, crlf_append, mapContent_append hlt,
          mapContent_append hlt']
        exact flattenBlanks_append_congr (keepsWords_crlf.flattenBlanks_eq [c]) ih
  | hit b o r hread ih =>
      obtain ⟨m, A, q, hs, hopen, hm, hA, hB, hk⟩ := exists_of_read? hread
      have hq : o.text ++ r = o.text ++ q := by
        rw [hs, Occurrence.text, hopen]
        simp
      obtain rfl := List.append_cancel_left hq
      have hmu := unbroken_of_map_foldCase hm e.unbroken_tagStart
      have hku := unbroken_of_map_foldCase hk e.unbroken_closingTag
      have hkne : o.closing ≠ [] := fun hnil => by rw [hnil] at hk; cases hk
      have htag : e.closingTag ≠ [] := List.cons_ne_nil _ _
      have hA' : '>' ∉ crlf A := by rwa [keepsWords_crlf.mem_iff (by decide)]
      have hB' : ¬ e.closingTag <:+: (crlf o.inner).map foldCase := by
        rwa [keepsWords_crlf.infix_map_foldCase_iff htag e.unbroken_closingTag]
      rw [hs, keepsWords_crlf.word_append hmu, keepsWords_crlf.append_cons (by decide),
        keepsWords_crlf.append_word hkne hku, mapContent_element hm hA hB hk,
        mapContent_element hm hA' hB' hk]
      refine flattenBlanks_append_congr ?_ ih
      refine flattenBlanks_append_congr (flattenBlanks_append_congr rfl ?_) rfl
      exact hf o.inner

/-! ## Line comments -/

theorem Script.flattenBlanks_deleteLineComments_crlf (s : Text) :
    (deleteLineComments s.crlf).flattenBlanks =
      (deleteLineComments s).flattenBlanks := by
  induction s using line_induction with
  | last k hk => rw [crlf_of_not_mem hk]
  | line k s hk ih =>
      have hline : crlf (k ++ '\n' :: s) = k ++ ['\r'] ++ '\n' :: crlf s := by
        rw [crlf_append, crlf_of_not_mem hk, crlf_newline]
        simp
      rw [hline, deleteLineComments_append_newline, deleteLineComments_append_newline]
      by_cases hin : ['/', '/'] <:+: k
      · -- The carriage return goes with the comment.
        rw [deleteLineComments_append_of_comment hin hk (by decide)]
        exact flattenBlanks_append_congr rfl
          (flattenBlanks_append_congr (u := ['\n']) rfl ih)
      · have hbreak : flattenBlanks ['\r', '\n'] = flattenBlanks ['\n'] := by decide
        rw [deleteLineComments_append_cons (by decide) hin,
          deleteLineComments_of_absent hin, List.append_assoc]
        exact flattenBlanks_append_congr rfl (flattenBlanks_append_congr hbreak ih)

/-! ## The profile -/

namespace Document

theorem dropMark_crlf (s : Text) : dropMark s.crlf = (dropMark s).crlf := by
  cases s with
  | nil => rfl
  | cons c s =>
      by_cases hc : c = '\n'
      · subst hc
        rfl
      · rw [crlf_cons_of_ne hc, dropMark, dropMark]
        split
        · rfl
        · rw [crlf_cons_of_ne hc]

theorem deleteAll_crlf (s : Text) :
    Comment.deleteAll s.crlf = (Comment.deleteAll s).crlf :=
  Pattern.delete_enclosure_crlf (by decide) (by simp [Unbroken, isBlank, Comment.opener])
    (by simp [Unbroken, isBlank, Comment.closer]) s

/-- The aggressive profile makes the same of a document, whichever way its lines
end. -/
theorem minify_aggressive_crlf (s : Text) :
    minify .aggressive s.crlf = minify .aggressive s := by
  rw [minify_aggressive_eq, dropMark_crlf, deleteAll_crlf,
    Element.flattenBlanks_mapContent_crlf
      Script.flattenBlanks_deleteLineComments_crlf]
  rfl

end Document

end HtmlMinifier
