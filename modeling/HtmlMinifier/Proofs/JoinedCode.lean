import HtmlMinifier.Proofs.CutComments

/-!
# Code on both sides of a block comment

In a script a block comment keeps the words at its two sides apart, and one of
several lines ends a statement as a line feed does. The structured rules, which
leave the line feeds of a script because statements may end there, put nothing in
its place. If block comments are all that is deleted, what is left is the code run
together (`Piece.structured_source_of_blocks`), and the two characters at a comment
come to stand next to each other, whatever was in it (`structured_around_block`).
-/

namespace HtmlMinifier.Script

open Text

theorem deleteCommentLines_of_not_mem {s : Text} (h : '/' ∉ s) : deleteCommentLines s = s := by
  refine Pattern.replaceWith_of_none fun b t ht => ?_
  refine read?_commentLine_eq_none (R := []) allBlank_nil fun hslashes => h ?_
  have hstart : Text.trimStart t <:+ t := List.dropWhile_suffix _
  exact (hstart.trans ht).subset (hslashes.subset List.mem_cons_self)

namespace Piece

/-- Where there are no line comments, the search for block comments takes all comments
and nothing else. -/
theorem deleteBlockComments_source {ps : List Piece} (h : ∀ r, comment r ∉ ps) :
    deleteBlockComments (source ps) = passages ps := by
  induction ps with
  | nil => rfl
  | cons p later ih =>
      have hlater := ih fun r hr => h r (List.mem_cons_of_mem _ hr)
      rw [source, List.flatMap_cons, passages, List.flatMap_cons, ← source, ← passages]
      cases p with
      | code c =>
          rw [text, bare, deleteBlockComments_append_of_not_mem c.slash_not_mem, hlater]
      | comment r => exact absurd List.mem_cons_self (h r)
      | block b =>
          rw [text, bare, Block.comment, deleteBlockComments_block b.unclosed, hlater,
            List.nil_append]

/-- A script without line comments is laid out as its code would be without any. -/
theorem structured_source_of_blocks {ps : List Piece} (h : ∀ r, comment r ∉ ps) :
    structured (source ps) = Text.trim (passages ps).squeezeLineFeeds := by
  rw [structured, deleteBlockComments_source h,
    deleteCommentLines_of_not_mem (slash_not_mem_passages ps)]

end Piece

/-- Nothing is left between the two characters at a block comment. -/
theorem structured_around_block (c : Block) {x y : Text} {a b : Char}
    (ha : isBlank a = false) (hb : isBlank b = false) (hx : '/' ∉ x ++ [a])
    (hy : '/' ∉ b :: y) :
    structured (x ++ a :: (c.comment ++ b :: y)) =
      x.squeezeLineFeeds.trimStart ++ a :: b :: y.squeezeLineFeeds.trimEnd := by
  let ps : List Piece := [.code ⟨x ++ [a], hx⟩, .block c, .code ⟨b :: y, hy⟩]
  have hpieces : structured (Piece.source ps) = Text.trim (Piece.passages ps).squeezeLineFeeds :=
    Piece.structured_source_of_blocks (by simp [ps])
  have hsource : Piece.source ps = x ++ a :: (c.comment ++ b :: y) := by
    simp [ps, Piece.source, Piece.text]
  have hpassages : Piece.passages ps = x ++ a :: b :: y := by
    simp [ps, Piece.passages, Piece.bare]
  have hsqueeze : Text.squeezeLineFeeds (b :: y) = b :: y.squeezeLineFeeds :=
    squeezeLineFeeds_append_cons (s := []) (newline_ne hb)
  have hend : Text.trimEnd (b :: y.squeezeLineFeeds) = b :: y.squeezeLineFeeds.trimEnd :=
    trimEnd_append_cons (u := []) hb
  rw [hsource, hpassages, squeezeLineFeeds_append_cons (newline_ne ha), hsqueeze] at hpieces
  rw [hpieces, Text.trim, trimEnd_append_cons ha, hend, trimStart_append_nonblank ha]

theorem structured_around_block_lines :
    structured "\nvar/* one\n two */x\n\n+ 1;\n".toList = "varx\n+ 1;".toList :=
  (structured_around_block ⟨" one\n two ".toList, by decide⟩ (x := "\nva".toList)
    (y := "\n\n+ 1;\n".toList) (a := 'r') (b := 'x') (by decide) (by decide) (by decide)
    (by decide)).trans (by decide +kernel)

/-- Two words with a comment between them do not stay two words, and the line break in
it is lost. -/
theorem structured_around_block_not_apart :
    ¬ ∀ (c : Block) (x y : Text) (a b : Char), '/' ∉ x → '/' ∉ y →
      (∀ d ∈ [a, b], d.isAlphanum ∨ d = '_' ∨ d = '$') →
      ∃ u R v, structured (x ++ a :: (c.comment ++ b :: y)) = u ++ a :: (R ++ b :: v) ∧
        (∃ d ∈ R, isBlank d = true) ∧ ('\n' ∈ c.text → '\n' ∈ R) := by
  intro h
  obtain ⟨u, R, v, hout, ⟨d, hd, -⟩, -⟩ :=
    h ⟨['\n'], by decide⟩ [] [] 'f' 'g' (by decide) (by decide) (by simp)
  have hcode : structured "f/*\n*/g".toList = ['f', 'g'] := by decide +kernel
  have hlength := congrArg List.length (hcode.symm.trans hout)
  simp only [List.length_append, List.length_cons, List.length_nil] at hlength
  have hR := List.length_pos_of_mem hd
  omega

end HtmlMinifier.Script
