import HtmlMinifier.FileTree.Path

/-!
# The steps of paths

A path is looked at in three other shapes on the way to a file: with a name
joined to it, made absolute, and cut down to the directories above. Each of them
is a text again that is taken apart again, and nothing is gained or lost on the
way but single dots. The reason is that the pieces between slashes are not empty
and have no slash in them; texts that are put together from such pieces are
taken apart into the same pieces (`piecesOf_intercalate`).

Single dots do not matter for where a path leads, so two paths are compared by
their `moves`, the steps that are left without them. In these terms
`steps_absolute` gives the steps of an absolute path, and `toward_of_mem_ancestors`
says that each directory above a path is passed on the way to it.
-/

namespace HtmlMinifier

namespace PathStep

/-- A step as the piece between two slashes gives it. -/
def Proper (s : PathStep) : Prop := s.piece ≠ [] ∧ '/' ∉ s.piece ∧ ofPiece s.piece = s

instance (s : PathStep) : Decidable s.Proper :=
  inferInstanceAs (Decidable (s.piece ≠ [] ∧ '/' ∉ s.piece ∧ ofPiece s.piece = s))

/-- The steps of some that move: single dots are left out. -/
def moves (steps : List PathStep) : List PathStep := steps.filter (· ≠ .here)

variable {steps steps' : List PathStep}

theorem proper_ofPiece {p : Text} (h : p ≠ []) (hs : '/' ∉ p) : (ofPiece p).Proper := by
  rw [Proper, piece_ofPiece]
  exact ⟨h, hs, rfl⟩

@[simp] theorem moves_here (steps : List PathStep) : moves (.here :: steps) = moves steps := rfl

@[simp] theorem moves_into (name : Text) (steps : List PathStep) :
    moves (.into name :: steps) = .into name :: moves steps := rfl

@[simp] theorem moves_append (steps steps' : List PathStep) :
    moves (steps ++ steps') = moves steps ++ moves steps' := List.filter_append ..

@[simp] theorem moves_moves (steps : List PathStep) : moves (moves steps) = moves steps := by
  rw [moves, moves, List.filter_filter]
  simp

@[simp] theorem moves_map_into (names : List Text) : moves (names.map .into) = names.map .into := by
  induction names with
  | nil => rfl
  | cons name names ih => rw [List.map_cons, moves_into, ih]

theorem moves_prefix (h : steps <+: steps') : moves steps <+: moves steps' := h.filter _

theorem mem_of_mem_moves {s : PathStep} (h : s ∈ moves steps) : s ∈ steps :=
  (List.mem_filter.1 h).1

/-- Pieces are read as the steps they were written for. -/
theorem map_ofPiece_map_piece (h : ∀ s ∈ steps, s.Proper) :
    (steps.map piece).map ofPiece = steps := by
  rw [List.map_map]
  refine (List.map_congr_left fun s hs => ?_).trans steps.map_id
  exact (h s hs).2.2

end PathStep

namespace Path

/-! ## Taking a text apart at its slashes -/

theorem not_mem_of_mem_splitSlashes {s p : Text} (h : p ∈ splitSlashes s) : '/' ∉ p := by
  induction s generalizing p with
  | nil =>
      obtain rfl := List.mem_singleton.1 h
      exact List.not_mem_nil
  | cons c s ih =>
      rw [splitSlashes] at h
      split at h
      · rcases List.mem_cons.1 h with rfl | h
        · exact List.not_mem_nil
        · exact ih h
      · next hc =>
        split at h
        · obtain rfl := List.mem_singleton.1 h
          simpa [eq_comm] using hc
        · next q qs hq =>
          rw [hq] at ih
          rcases List.mem_cons.1 h with rfl | h
          · rintro (hm | hm)
            · exact hc rfl
            · exact ih (List.mem_cons_self ..) ‹_›
          · exact ih (List.mem_cons_of_mem _ h)

theorem mem_piecesOf {s p : Text} (h : p ∈ piecesOf s) : p ≠ [] ∧ '/' ∉ p := by
  obtain ⟨hm, hp⟩ := List.mem_filter.1 h
  exact ⟨of_decide_eq_true hp, not_mem_of_mem_splitSlashes hm⟩

theorem proper_of_mem_steps {p : Path} {s : PathStep} (h : s ∈ p.steps) : s.Proper := by
  obtain ⟨piece, hm, rfl⟩ := List.mem_map.1 h
  obtain ⟨hne, hs⟩ := mem_piecesOf hm
  exact PathStep.proper_ofPiece hne hs

theorem piecesOf_piece {p : Text} (h : p ≠ []) (hs : '/' ∉ p) : piecesOf p = [p] := by
  rw [piecesOf, splitSlashes_of_not_mem hs]
  simp [h]

/-- Pieces put together with slashes between them are taken apart again. -/
theorem piecesOf_intercalate {ps : List Text} (h : ∀ p ∈ ps, p ≠ [] ∧ '/' ∉ p) :
    piecesOf (List.intercalate ['/'] ps) = ps := by
  induction ps with
  | nil => rfl
  | cons p ps ih =>
      obtain ⟨hne, hs⟩ := h p (List.mem_cons_self ..)
      have ih := ih fun q hq => h q (List.mem_cons_of_mem _ hq)
      cases ps with
      | nil => rw [List.intercalate_singleton, piecesOf_piece hne hs]
      | cons q ps =>
          rw [List.intercalate_cons_cons, List.append_assoc, List.singleton_append,
            piecesOf_append_slash, ih, piecesOf_piece hne hs, List.singleton_append]

theorem piecesOf_slash_cons (s : Text) : piecesOf ('/' :: s) = piecesOf s :=
  piecesOf_append_slash [] s

theorem piecesOf_append_ite (s : Text) (b : Bool) :
    piecesOf (s ++ (if b then "/" else "").toList) = piecesOf s := by
  cases b with
  | false => exact congrArg piecesOf (List.append_nil s)
  | true => exact (piecesOf_append_slash s []).trans (List.append_nil _)

theorem map_ofPiece_intercalate {steps : List PathStep} (h : ∀ s ∈ steps, s.Proper) :
    (piecesOf (List.intercalate ['/'] (steps.map PathStep.piece))).map .ofPiece = steps := by
  rw [piecesOf_intercalate, PathStep.map_ofPiece_map_piece h]
  intro p hp
  obtain ⟨s, hs, rfl⟩ := List.mem_map.1 hp
  exact ⟨(h s hs).1, (h s hs).2.1⟩

/-! ## A path along some steps -/

section OfSteps

variable {steps : List PathStep}

theorem toList_ofSteps (b : Bool) (steps : List PathStep) :
    (ofSteps b steps).text.toList =
      (if b then ['/'] else []) ++ List.intercalate ['/'] (steps.map PathStep.piece) := by
  rw [ofSteps, String.toList_append, String.toList_ofList]
  cases b <;> rfl

theorem steps_ofSteps (b : Bool) (h : ∀ s ∈ steps, s.Proper) : (ofSteps b steps).steps = steps := by
  rw [Path.steps, toList_ofSteps]
  cases b with
  | false => exact map_ofPiece_intercalate h
  | true =>
      rw [if_pos rfl, List.singleton_append, piecesOf_slash_cons, map_ofPiece_intercalate h]

theorem startsWithSlash_ofSteps (b : Bool) (hne : steps ≠ []) (h : ∀ s ∈ steps, s.Proper) :
    (ofSteps b steps).startsWithSlash = b := by
  rw [startsWithSlash, toList_ofSteps]
  cases b with
  | true => rfl
  | false =>
      obtain ⟨s, rest, rfl⟩ := List.exists_cons_of_ne_nil hne
      obtain ⟨hp, hs, -⟩ := h s (List.mem_cons_self ..)
      obtain ⟨c, cs, hc⟩ := List.exists_cons_of_ne_nil hp
      have hslash : c ≠ '/' := by
        rintro rfl
        exact hs (hc ▸ List.mem_cons_self ..)
      cases rest with
      | nil => simpa [hc] using hslash
      | cons s' rest => simpa [hc, List.intercalate_cons_cons] using hslash

end OfSteps

/-! ## Joining -/

theorem toList_join (p : Path) (name : String) :
    ∃ between, (between = [] ∨ p.text.toList ≠ []) ∧
      (p.join name).text.toList = p.text.toList ++ between ++ name.toList := by
  rw [join]
  split
  · exact ⟨[], Or.inl rfl, by rw [String.toList_append, List.append_nil]⟩
  · next h =>
    refine ⟨['/'], Or.inr fun hp => h ?_, ?_⟩
    · rw [String.toList_eq_nil_iff] at hp
      simp [hp]
    · rw [String.toList_append, String.toList_append]
      rfl

theorem steps_join (p : Path) (name : String) :
    (p.join name).steps = p.steps ++ (piecesOf name.toList).map .ofPiece := by
  rw [steps, steps, piecesOf_join, List.map_append]

theorem startsWithSlash_join {p : Path} {name : String}
    (h : p.text.toList ≠ [] ∨ name.toList.head? ≠ some '/') :
    (p.join name).startsWithSlash = p.startsWithSlash := by
  obtain ⟨between, hb, ht⟩ := toList_join p name
  rw [startsWithSlash, startsWithSlash, ht]
  cases hp : p.text.toList with
  | cons c s => rfl
  | nil =>
      rw [hp] at hb h
      obtain rfl := hb.resolve_right fun h' => h' rfl
      simpa using h.resolve_left fun h' => h' rfl

theorem endsWithSlash_join {p : Path} {name : String} (h : name.toList ≠ []) :
    (p.join name).endsWithSlash = (name.toList.getLast? == some '/') := by
  obtain ⟨between, -, ht⟩ := toList_join p name
  rw [endsWithSlash, ht, List.getLast?_append, List.getLast?_eq_some_getLast h]
  rfl

/-! ## The absolute path -/

theorem steps_plain (p : Path) :
    (piecesOf (String.ofList (List.intercalate ['/'] ((p.steps.filter (· ≠ .here)).map
      PathStep.piece)) ++ if p.endsWithSlash then "/" else "").toList).map .ofPiece =
      PathStep.moves p.steps := by
  rw [String.toList_append, String.toList_ofList, piecesOf_append_ite]
  exact map_ofPiece_intercalate fun s hs =>
    proper_of_mem_steps (PathStep.mem_of_mem_moves hs)

/-- An absolute path takes the steps of the path, but for single dots, after those of the base if
the path does not start at the root. -/
theorem steps_absolute (base p : Path) :
    (absolute base p).steps =
      (if p.startsWithSlash then [] else base.steps) ++ PathStep.moves p.steps := by
  rw [absolute]
  split
  · rw [steps, String.toList_append]
    exact (congrArg _ (piecesOf_slash_cons _)).trans (steps_plain p)
  · rw [steps_join, steps_plain]

theorem startsWithSlash_absolute {base : Path} (h : base.startsWithSlash = true) (p : Path) :
    (absolute base p).startsWithSlash = true := by
  rw [absolute]
  split
  · rw [startsWithSlash, String.toList_append]
    rfl
  · rw [startsWithSlash_join, h]
    left
    intro hn
    rw [startsWithSlash, hn] at h
    cases h

/-! ## The directories above -/

/-- Whether a path is passed on the way to another: it starts where that one does, and its moves are
among the first of that one. -/
structure Toward (q p : Path) : Prop where
  startsWithSlash_eq : q.startsWithSlash = p.startsWithSlash
  moves_prefix : PathStep.moves q.steps <+: PathStep.moves p.steps

theorem Toward.refl (p : Path) : p.Toward p := ⟨rfl, List.prefix_rfl⟩

/-- Only a single dot at the start may be left among the plain steps. -/
theorem plainSteps_cases (p : Path) : p.plainSteps = PathStep.moves p.steps ∨
    ∃ steps, p.steps = .here :: steps ∧ p.plainSteps = .here :: PathStep.moves steps := by
  rw [plainSteps]
  cases p.steps with
  | nil => exact Or.inl rfl
  | cons s steps =>
      cases s with
      | up => exact Or.inl rfl
      | into name => exact Or.inl rfl
      | here =>
          cases p.startsWithSlash with
          | true => exact Or.inl rfl
          | false => exact Or.inr ⟨steps, rfl, rfl⟩

theorem moves_plainSteps (p : Path) : PathStep.moves p.plainSteps = PathStep.moves p.steps := by
  rcases p.plainSteps_cases with h | ⟨steps, hs, h⟩
  · rw [h, PathStep.moves_moves]
  · rw [h, hs, PathStep.moves_here, PathStep.moves_moves, PathStep.moves_here]

theorem mem_steps_of_mem_plainSteps {p : Path} {s : PathStep} (h : s ∈ p.plainSteps) :
    s ∈ p.steps := by
  rcases p.plainSteps_cases with hp | ⟨steps, hs, hp⟩
  · exact PathStep.mem_of_mem_moves (hp ▸ h)
  · rw [hp] at h
    rw [hs]
    exact (List.mem_cons.1 h).elim (fun e => e ▸ List.mem_cons_self ..)
      fun hm => List.mem_cons_of_mem _ (PathStep.mem_of_mem_moves hm)

theorem mem_shortened {steps reversed : List PathStep} (h : steps ∈ shortened reversed) :
    steps ≠ [] ∧ steps <+: reversed.reverse := by
  induction reversed using shortened.induct with
  | case1 => cases h
  | case2 => cases h
  | case3 s s' ss ih =>
      have hpre : (s' :: ss).reverse <+: (s :: s' :: ss).reverse := by
        rw [List.reverse_cons (a := s)]
        exact List.prefix_append ..
      rw [shortened] at h
      rcases List.mem_cons.1 h with rfl | h
      · exact ⟨by simp, hpre⟩
      · exact ⟨(ih h).1, (ih h).2.trans hpre⟩

theorem steps_of_mem_shortened {p : Path} {steps : List PathStep}
    (h : steps ∈ shortened p.plainSteps.reverse) :
    (ofSteps p.startsWithSlash steps).startsWithSlash = p.startsWithSlash ∧
      (ofSteps p.startsWithSlash steps).steps = steps ∧ steps <+: p.plainSteps := by
  obtain ⟨hne, hpre⟩ := mem_shortened h
  rw [List.reverse_reverse] at hpre
  have hproper : ∀ s ∈ steps, s.Proper := fun s hs =>
    proper_of_mem_steps (mem_steps_of_mem_plainSteps (hpre.subset hs))
  exact ⟨startsWithSlash_ofSteps _ hne hproper, steps_ofSteps _ hproper, hpre⟩

theorem toward_of_mem_ancestors {p q : Path} (h : q ∈ p.ancestors) : q.Toward p := by
  obtain ⟨steps, hm, rfl⟩ := List.mem_map.1 h
  obtain ⟨hslash, hsteps, hpre⟩ := steps_of_mem_shortened hm
  refine ⟨hslash, ?_⟩
  rw [hsteps, ← moves_plainSteps]
  exact PathStep.moves_prefix hpre

end Path

end HtmlMinifier
