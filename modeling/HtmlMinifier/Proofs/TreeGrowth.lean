import HtmlMinifier.FileTree.Storage
import HtmlMinifier.Proofs.TreeWalk

/-!
# What a storage does to its tree

A storage is asked for one small change at a time: a directory in one that
exists, or a file in place of another. `Storage.Keeps` says of a storage what is
relied on here, namely that it holds a tree, makes such a change whole or not at
all, and that nothing else it is asked changes the tree. It may refuse whatever
it wants, for a fault of its own choosing.

Of what is built on these operations, making a directory with all that is
missing above it is the one that may stop halfway. The tree has grown then by
some directories and by nothing else, and each of them is passed on the way to
the one asked for (`Tree.Grows`). This holds because every path that is tried is
the path itself or one above it, and it composes. Reading a text leaves the tree
alone, and writing one is a single change at the place that the path leads to.
-/

namespace HtmlMinifier

namespace Tree

variable {t t' t'' : Tree} {l : Location} {p q : Path}

theorem stepsTo_eq (h : t'.home = t.home) (p : Path) : t'.stepsTo p = t.stepsTo p := by
  rw [stepsTo, stepsTo, h]

theorem place_eq (h : t'.home = t.home) (p : Path) : t'.place p = t.place p := by
  rw [place, place, stepsTo_eq h]

/-! ## Directories on the way -/

/-- Whether a location is passed on the way along a path. -/
def OnWay (t : Tree) (p : Path) (l : Location) : Prop :=
  ∃ steps, steps <+: t.stepsTo p ∧ l = PathStep.destination [] steps

theorem moves_stepsTo (t : Tree) (p : Path) :
    PathStep.moves (t.stepsTo p) =
      (if p.startsWithSlash then [] else t.home.map .into) ++ PathStep.moves p.steps := by
  rw [stepsTo]
  split
  · rfl
  · rw [PathStep.moves_append, PathStep.moves_map_into]

theorem onWay_of_toward (h : q.Toward p) : t.OnWay p (t.place q) := by
  have hpre : PathStep.moves (t.stepsTo q) <+: PathStep.moves (t.stepsTo p) := by
    rw [moves_stepsTo, moves_stepsTo, h.startsWithSlash_eq]
    exact (List.prefix_append_right_inj _).2 h.moves_prefix
  obtain ⟨steps, hs, heq⟩ := List.prefix_filter_iff.1 hpre
  refine ⟨steps, hs, ?_⟩
  rw [place, ← PathStep.destination_moves, heq]
  exact PathStep.destination_moves [] steps

/-- Whether one tree is another with directories added on the way along a path. -/
structure Grows (t : Tree) (p : Path) (t' : Tree) : Prop where
  home_eq : t'.home = t.home
  entry_cases : ∀ l, t'.seen? l = t.seen? l ∨
    t.seen? l = none ∧ t'.seen? l = some .directory ∧ t.OnWay p l

namespace Grows

theorem refl (t : Tree) (p : Path) : t.Grows p t := ⟨rfl, fun _ => Or.inl rfl⟩

/-- What stood somewhere stands there still. -/
theorem seen?_eq_some {e : Entry} (h : t.Grows p t') (he : t.seen? l = some e) :
    t'.seen? l = some e := by
  rcases h.entry_cases l with hl | ⟨hl, -, -⟩
  · rw [hl, he]
  · rw [hl] at he
    cases he

theorem seen?_eq_file_iff {bytes : ByteArray} (h : t.Grows p t') :
    t'.seen? l = some (.file bytes) ↔ t.seen? l = some (.file bytes) := by
  refine ⟨fun he => ?_, h.seen?_eq_some⟩
  rcases h.entry_cases l with hl | ⟨-, hl, -⟩
  · rw [← hl, he]
  · rw [hl] at he
    cases he

theorem trans (h : t.Grows p t') (h' : t'.Grows p t'') : t.Grows p t'' where
  home_eq := h'.home_eq.trans h.home_eq
  entry_cases := by
    intro l
    have hway : t'.OnWay p l → t.OnWay p l := by
      rintro ⟨steps, hs, hl⟩
      exact ⟨steps, stepsTo_eq h.home_eq p ▸ hs, hl⟩
    rcases h.entry_cases l with hl | ⟨hl, hd, hon⟩
    · rcases h'.entry_cases l with hl' | ⟨hl', hd', hon'⟩
      · exact Or.inl (hl'.trans hl)
      · exact Or.inr ⟨hl ▸ hl', hd', hway hon'⟩
    · exact Or.inr ⟨hl, h'.seen?_eq_some hd, hon⟩

theorem of_putAt (hq : q.Toward p) (hnone : t.seen? (t.place q) = none)
    (h : t.PutAt (t.place q) .directory t') : t.Grows p t' where
  home_eq := h.home_eq
  entry_cases := by
    intro l
    by_cases hl : l = t.place q
    · subst hl
      exact Or.inr ⟨hnone, h.entry_self, onWay_of_toward hq⟩
    · exact Or.inl (h.entry_of_ne l hl)

/-- A file that can be read once the directories are made was there before. -/
theorem seen?_place_of_read {bytes : ByteArray} (h : t.Grows p t') (hr : t'.read q = .ok bytes) :
    t.seen? (t.place q) = some (.file bytes) := by
  obtain ⟨-, -, hq⟩ := read_eq_ok_iff.1 hr
  rw [← h.seen?_eq_file_iff, ← place_eq h.home_eq]
  exact hq.entry

end Grows

theorem eq_of_read {bytes bytes' : ByteArray} (h : t.seen? (t.place p) = some (.file bytes))
    (hr : t.read p = .ok bytes') : bytes' = bytes := by
  obtain ⟨-, -, hp⟩ := read_eq_ok_iff.1 hr
  injection hp.entry.symm.trans h with he
  injection he

/-! ## A file put where a path leads -/

theorem PutAt.follows {e : Entry} {steps : List PathStep} (h : t.PutAt l e t')
    (hfol : t.Follows [] steps) : t'.Follows [] steps :=
  hfol.mono fun _ => h.seen?_eq_directory

theorem PutAt.holds {bytes : ByteArray} (h : t.PutAt (t.place p) (.file bytes) t')
    (hfol : t.Follows [] (t.stepsTo p)) : t'.Holds p bytes where
  follows := by
    rw [stepsTo_eq h.home_eq]
    exact h.follows hfol
  entry := by
    rw [place_eq h.home_eq]
    exact h.entry_self

/-! ## Absolute paths -/

theorem startsWithSlash_workingDirectory (t : Tree) :
    t.workingDirectory.startsWithSlash = true := by
  rw [workingDirectory, Path.startsWithSlash, Path.toList_ofSteps]
  rfl

/-- An absolute path takes the moves of the path, from the root. -/
theorem stepsTo_absolute (hhome : ∀ name ∈ t.home, (PathStep.into name).Proper) (p : Path) :
    t.stepsTo (Path.absolute t.workingDirectory p) = PathStep.moves (t.stepsTo p) := by
  have hsteps : t.workingDirectory.steps = t.home.map .into := by
    refine Path.steps_ofSteps true fun s hs => ?_
    obtain ⟨name, hm, rfl⟩ := List.mem_map.1 hs
    exact hhome name hm
  rw [stepsTo, if_pos (Path.startsWithSlash_absolute t.startsWithSlash_workingDirectory p),
    Path.steps_absolute, hsteps, moves_stepsTo]

/-- Writing at the absolute path puts a file where the path leads. Single dots in the path are not
followed then, but could have been: the name at its end is taken from a directory. -/
theorem putAt_of_replace_absolute {steps : List PathStep} {name : Text} {bytes : ByteArray}
    (hhome : ∀ n ∈ t.home, (PathStep.into n).Proper)
    (hlast : t.stepsTo p = steps ++ [.into name])
    (h : t.replace (Path.absolute t.workingDirectory p) bytes = .ok t') :
    t.Follows [] (t.stepsTo p) ∧ t.PutAt (t.place p) (.file bytes) t' := by
  obtain ⟨hfol, hput⟩ := putAt_of_replace h
  rw [stepsTo_absolute hhome] at hfol
  rw [place, stepsTo_absolute hhome, PathStep.destination_moves] at hput
  rw [hlast, PathStep.moves_append] at hfol
  exact ⟨hlast ▸ follows_of_moves hfol, hput⟩

end Tree

namespace Storage

variable {σ : Type} {tree : σ → Tree} {p : Path}

theorem run_bind {α β : Type} (x : StateM σ α) (f : α → StateM σ β) (w : σ) :
    (x >>= f).run w = (f (x.run w).1).run (x.run w).2 := rfl

/-- Whether all that an action does to the tree is to add directories on the way along a path. -/
def OnlyGrows (tree : σ → Tree) (p : Path) {α : Type} (action : StateM σ α) : Prop :=
  ∀ w, (tree w).Grows p (tree (action.run w).2)

theorem OnlyGrows.pure {α : Type} (a : α) : OnlyGrows tree p (pure a : StateM σ α) :=
  fun w => Tree.Grows.refl (tree w) p

theorem OnlyGrows.bind {α β : Type} {x : StateM σ α} {f : α → StateM σ β}
    (hx : OnlyGrows tree p x) (hf : ∀ a, OnlyGrows tree p (f a)) :
    OnlyGrows tree p (x >>= f) := by
  intro w
  rw [run_bind]
  exact (hx w).trans (hf _ _)

variable [Storage (StateM σ)]

/-- Whether a change that was asked for has been made whole, or refused with the tree left as it
was. -/
def Answers (change : Except FileFault Tree) (t : Tree) : Except FileFault Unit → Tree → Prop
  | .ok (), t' => change = .ok t'
  | .error _, t' => t' = t

/-- What is relied on of a storage that holds a tree in each of its states. -/
structure Keeps (tree : σ → Tree) : Prop where
  run_workingDirectory : ∀ w,
    ((workingDirectory : StateM σ Path).run w).1 = (tree w).workingDirectory ∧
      tree ((workingDirectory : StateM σ Path).run w).2 = tree w
  run_isDirectory : ∀ p w, tree ((isDirectory p : StateM σ Bool).run w).2 = tree w
  run_makeDirectory : ∀ p w, Answers ((tree w).makeDirectory p) (tree w)
    ((makeDirectory p : StateM σ (Except FileFault Unit)).run w).1
    (tree ((makeDirectory p : StateM σ (Except FileFault Unit)).run w).2)
  run_read : ∀ p w, tree ((read p : StateM σ (Except FileFault ByteArray)).run w).2 = tree w
  run_read_ok : ∀ p w bytes,
    ((read p : StateM σ (Except FileFault ByteArray)).run w).1 = .ok bytes →
      (tree w).read p = .ok bytes
  run_replace : ∀ p bytes w, Answers ((tree w).replace p bytes) (tree w)
    ((replace p bytes : StateM σ (Except FileFault Unit)).run w).1
    (tree ((replace p bytes : StateM σ (Except FileFault Unit)).run w).2)

theorem answers_change (f : Tree → Except FileFault Tree) (t : Tree) :
    Answers (f t) t ((Tree.change f).run t).1 ((Tree.change f).run t).2 := by
  show Answers (f t) t (Tree.change f t).1 (Tree.change f t).2
  rw [Tree.change]
  cases h : f t with
  | error fault => rfl
  | ok t' => rfl

/-- A tree held as a value keeps itself, and refuses only what is at fault. -/
theorem keeps_id : Keeps (id : Tree → Tree) where
  run_workingDirectory _ := ⟨rfl, rfl⟩
  run_isDirectory _ _ := rfl
  run_makeDirectory p t := answers_change (·.makeDirectory p) t
  run_read _ _ := rfl
  run_read_ok _ _ _ h := h
  run_replace p bytes t := answers_change (·.replace p bytes) t

section Run

variable (hkeeps : Keeps tree)

include hkeeps

/-! ## Making directories -/

theorem onlyGrows_isDirectory (q : Path) :
    OnlyGrows tree p (isDirectory q : StateM σ Bool) := by
  intro w
  rw [hkeeps.run_isDirectory]
  exact Tree.Grows.refl ..

theorem onlyGrows_makeDirectory {q : Path} (hq : q.Toward p) :
    OnlyGrows tree p (makeDirectory q : StateM σ (Except FileFault Unit)) := by
  intro w
  have h := hkeeps.run_makeDirectory q w
  cases hr : ((makeDirectory q : StateM σ (Except FileFault Unit)).run w).1 with
  | error fault =>
      rw [hr] at h
      rw [show tree _ = tree w from h]
      exact Tree.Grows.refl ..
  | ok =>
      rw [hr] at h
      obtain ⟨hnone, hput⟩ := Tree.putAt_of_makeDirectory h
      exact Tree.Grows.of_putAt hq hnone hput

theorem onlyGrows_settle (q : Path) (r : Except FileFault Unit) :
    OnlyGrows tree p (makeChain.settle q r : StateM σ (Except FileFault Unit)) := by
  cases r with
  | ok => exact OnlyGrows.pure _
  | error fault =>
      refine (onlyGrows_isDirectory hkeeps q).bind fun b => ?_
      cases b <;> exact OnlyGrows.pure _

theorem onlyGrows_makeChain {chain : List Path} (h : ∀ q ∈ chain, q.Toward p) :
    OnlyGrows tree p (makeChain chain : StateM σ (Except FileFault Unit)) := by
  induction chain with
  | nil => exact OnlyGrows.pure _
  | cons q above ih =>
      have hq := onlyGrows_makeDirectory hkeeps (h q (List.mem_cons_self ..))
      have ih := ih fun q' hq' => h q' (List.mem_cons_of_mem _ hq')
      rw [makeChain]
      refine hq.bind fun r => ?_
      split
      · exact OnlyGrows.pure _
      · refine ih.bind fun r => ?_
        cases r with
        | error fault => exact OnlyGrows.pure _
        | ok => exact hq.bind fun r => onlyGrows_settle hkeeps q r
      · exact onlyGrows_settle hkeeps q _

/-- Making sure of a directory only adds directories on the way to it, also where it fails. -/
theorem onlyGrows_ensureDirectory (p : Path) :
    OnlyGrows tree p (ensureDirectory p : StateM σ (Except FileFault Unit)) := by
  refine (onlyGrows_isDirectory hkeeps p).bind fun b => ?_
  split
  · exact OnlyGrows.pure _
  · split
    · exact OnlyGrows.pure _
    · refine onlyGrows_makeChain hkeeps fun q hq => ?_
      rcases List.mem_cons.1 hq with rfl | hq
      · exact Path.Toward.refl q
      · exact Path.toward_of_mem_ancestors hq

/-! ## Reading and writing -/

theorem tree_readText (p : Path) (w : σ) :
    tree ((readText p : StateM σ (Except FileFault String)).run w).2 = tree w := by
  rw [readText, run_bind, ← hkeeps.run_read p w]
  split
  · rfl
  · split <;> rfl

theorem read_of_readText {w : σ} {text : String}
    (h : ((readText p : StateM σ (Except FileFault String)).run w).1 = .ok text) :
    (tree w).read p = .ok text.toUTF8 := by
  rw [readText, run_bind] at h
  split at h
  · cases h
  · next bytes hr =>
    split at h
    · cases h
    · next found hf =>
      obtain rfl := Except.ok.inj h
      rw [String.fromUTF8?] at hf
      split at hf
      · obtain rfl := Option.some.inj hf
        exact hkeeps.run_read_ok p w bytes hr
      · cases hf

/-- A text is written whole at the absolute path, or not at all. -/
theorem answers_writeText (p : Path) (text : String) (w : σ) :
    Answers ((tree w).replace (Path.absolute (tree w).workingDirectory p) text.toUTF8) (tree w)
      ((writeText p text : StateM σ (Except FileFault Unit)).run w).1
      (tree ((writeText p text : StateM σ (Except FileFault Unit)).run w).2) := by
  obtain ⟨hdir, htree⟩ := hkeeps.run_workingDirectory w
  rw [writeText, run_bind, run_bind, hdir]
  split
  · exact (hkeeps.run_isDirectory _ _).trans htree
  · have h := hkeeps.run_replace (Path.absolute (tree w).workingDirectory p) text.toUTF8
      ((isDirectory (Path.absolute (tree w).workingDirectory p) : StateM σ Bool).run
        ((workingDirectory : StateM σ Path).run w).2).2
    rw [hkeeps.run_isDirectory, htree] at h
    exact h

end Run

end Storage

end HtmlMinifier
