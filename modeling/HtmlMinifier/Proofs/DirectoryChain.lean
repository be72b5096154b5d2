import HtmlMinifier.Proofs.BlockedPaths

/-!
# Making directories again

Making a directory with all that is missing above it goes up the path until a
directory can be made, and comes down again. If it fails it stops on the way
down, and what was made so far stays; so an attempt that is repeated starts from
another tree and takes another course. It makes nothing, since each directory
that was made is found there, and it fails.

The fault is found in another place, though. The first attempt went down and met
the path that is blocked from above; the second one asks for the whole path
first, and is told what blocks it. These are the same fault, but where a file
stands at the blocked path: that file exists already, and it is no directory to
look into from below (`Tree.Retells`). The first attempt can only have come as
far as that file because the path to it was missing before, and led through two
dots to a place that was there (`up_mem_of_obstructs`).
-/

namespace HtmlMinifier

open PathStep (moves destination)

namespace Path

/-! ## The directories above, one by one -/

theorem here_notMem_tail_plainSteps (p : Path) : PathStep.here ∉ p.plainSteps.tail := by
  have hmoves (steps : List PathStep) : PathStep.here ∉ moves steps := fun h =>
    of_decide_eq_true (List.mem_filter.1 h).2 rfl
  rcases p.plainSteps_cases with h | ⟨steps, -, h⟩
  · rw [h]
    exact fun hm => hmoves _ (List.mem_of_mem_tail hm)
  · rw [h]
    exact hmoves steps

theorem pairwise_shortened {reversed : List PathStep} (h : PathStep.here ∉ reversed.dropLast) :
    (reversed.reverse :: shortened reversed).Pairwise PathStep.Extends := by
  induction reversed using shortened.induct with
  | case1 => exact List.pairwise_singleton ..
  | case2 => exact List.pairwise_singleton ..
  | case3 s s' ss ih =>
      rw [List.dropLast_cons_cons, List.mem_cons, not_or] at h
      rw [shortened]
      refine List.pairwise_cons.2 ⟨fun steps hm => ?_, ih h.2⟩
      have hpre : steps <+: (s' :: ss).reverse := by
        rcases List.mem_cons.1 hm with rfl | hm
        · exact List.prefix_rfl
        · exact (mem_shortened hm).2
      obtain ⟨rest, hrest⟩ := PathStep.moves_prefix hpre
      have hlast : moves [s] = [s] := List.filter_cons_of_pos (decide_eq_true (Ne.symm h.1))
      refine ⟨rest ++ [s], by simp, ?_⟩
      rw [List.reverse_cons, PathStep.moves_append, hlast, ← hrest, List.append_assoc]

/-- Each of the directories above a path is above those that come before. -/
theorem pairwise_above_ancestors (p : Path) :
    (p :: p.ancestors).Pairwise fun q above => above.Above q := by
  have hpair : (p.plainSteps :: shortened p.plainSteps.reverse).Pairwise PathStep.Extends := by
    have hhere : PathStep.here ∉ p.plainSteps.reverse.dropLast := by
      rw [List.dropLast_reverse, List.mem_reverse]
      exact p.here_notMem_tail_plainSteps
    have h := pairwise_shortened hhere
    rwa [List.reverse_reverse] at h
  obtain ⟨hp, hrest⟩ := List.pairwise_cons.1 hpair
  refine List.pairwise_cons.2 ⟨fun q hq => ?_, List.pairwise_map.2 (hrest.imp_of_mem ?_)⟩
  · obtain ⟨steps, hm, rfl⟩ := List.mem_map.1 hq
    obtain ⟨hslash, hsteps, -⟩ := steps_of_mem_shortened hm
    refine ⟨hslash, ?_⟩
    have h := hp steps hm
    rwa [PathStep.Extends, moves_plainSteps, ← hsteps] at h
  · intro steps steps' hm hm' h
    obtain ⟨hslash, hsteps, -⟩ := steps_of_mem_shortened hm
    obtain ⟨hslash', hsteps', -⟩ := steps_of_mem_shortened hm'
    refine ⟨hslash'.trans hslash.symm, ?_⟩
    rwa [hsteps, hsteps']

theorem isEmpty_of_above {p q : Path} (h : q.Above p) : p.text.isEmpty = false := by
  obtain ⟨rest, hne, hrest⟩ := h.extends_steps
  rw [Bool.eq_false_iff]
  intro hempty
  rw [Path.steps, String.isEmpty_iff.1 hempty] at hrest
  exact hne (List.append_eq_nil_iff.1 hrest.symm).2

/-- Some faults show that a path has none of its own. -/
theorem fault?_eq_none {p : Path} {t : Tree} {fault : FileFault} (hne : p.text.isEmpty = false)
    (h : t.makeDirectory p = .error fault) (hinput : fault ≠ .invalidInput)
    (hname : fault ≠ .invalidName) : p.fault? = none := by
  cases hf : p.fault? with
  | none => rfl
  | some own =>
      obtain rfl := Except.error.inj (h.symm.trans (Tree.makeDirectory_of_fault hf))
      rw [fault?, hne] at hf
      split at hf
      · exact absurd (Option.some.inj hf).symm hinput
      · split at hf
        · next hempty => cases hempty
        · split at hf
          · exact absurd (Option.some.inj hf).symm hname
          · cases hf

end Path

namespace Tree

variable {t t' : Tree} {p q : Path} {fault fault' : FileFault} {paths paths' : List Path}
  {bytes : ByteArray} {l : Location} {steps : List PathStep}

/-! ## A directory that may stand already -/

/-- What comes of making a directory where it is no fault if one stands already. -/
def settle (t : Tree) (p : Path) : Except FileFault Unit × Tree :=
  match t.makeDirectory p with
  | .ok t' => (.ok (), t')
  | .error fault => (if t.isDirectory p then .ok () else .error fault, t)

theorem settle_of_isDirectory (h : t.isDirectory p = true) : t.settle p = (.ok (), t) := by
  rw [settle, makeDirectory_of_isDirectory h]
  simp only [h, if_true]

theorem settle_of_error (h : t.makeDirectory p = .error fault) (hd : t.isDirectory p = false) :
    t.settle p = (.error fault, t) := by
  rw [settle, h]
  simp only [hd, Bool.false_eq_true, if_false]

theorem isDirectory_of_settle (h : t.settle p = (.ok (), t')) : t'.isDirectory p = true := by
  rw [settle] at h
  split at h
  · next hmake =>
    cases h
    exact isDirectory_of_makeDirectory hmake
  · next hmake =>
    split at h
    · next hd =>
      cases h
      exact hd
    · cases h

theorem of_settle_eq_error (h : t.settle p = (.error fault, t')) :
    t' = t ∧ t.makeDirectory p = .error fault ∧ t.isDirectory p = false := by
  rw [settle] at h
  split at h
  · cases h
  · next hmake =>
    split at h
    · cases h
    · next hd =>
      cases h
      exact ⟨rfl, hmake, Bool.eq_false_iff.2 hd⟩

/-! ## The fault that is told again -/

/-- Whether one fault is told for another once more: it is the same, or a file that stands at one of
some paths exists already and is no directory. -/
def Retells (t : Tree) (paths : List Path) (fault fault' : FileFault) : Prop :=
  fault' = fault ∨
    fault = .alreadyExists ∧ fault' = .notADirectory ∧ ∃ q ∈ paths, ∃ bytes, t.Holds q bytes

theorem Retells.mono (h : t.Retells paths fault fault') (hsub : ∀ q ∈ paths, q ∈ paths') :
    t.Retells paths' fault fault' := by
  rcases h with h | ⟨hf, hf', q, hq, hfile⟩
  · exact Or.inl h
  · exact Or.inr ⟨hf, hf', q, hsub q hq, hfile⟩

theorem retells_of_makeDirectory (hf : p.fault? = none) (h : t.makeDirectory p = .error fault)
    (hblock : t.enter (t.stepsTo p) = .error fault') : t.Retells [p] fault fault' := by
  rcases fault_cases_of_makeDirectory hf h hblock with h | ⟨hf, hf', hfile⟩
  · exact Or.inl h
  · exact Or.inr ⟨hf, hf', p, List.mem_singleton_self p, hfile⟩

/-! ## Files above a path -/

/-- Whether a file stands at one of the directories above a path. -/
def Obstructs (t : Tree) (p : Path) : Prop := ∃ q ∈ p.ancestors, ∃ bytes, t.Holds q bytes

theorem prefix_destination (l : Location) (hup : PathStep.up ∉ steps) :
    l <+: destination l steps := by
  induction steps generalizing l with
  | nil => exact List.prefix_rfl
  | cons step steps ih =>
      rw [List.mem_cons, not_or] at hup
      refine List.IsPrefix.trans ?_ (ih (step.after l) hup.2)
      cases step with
      | here => exact List.prefix_rfl
      | up => exact absurd rfl hup.1
      | into name => exact List.prefix_append ..

/-- The way to a file that leads down only was there before directories were added. -/
theorem Grows.follows_of_file (h : t.Grows p t') (hup : PathStep.up ∉ steps)
    (hfol : t'.Follows l steps)
    (hfile : t'.seen? (destination l steps) = some (.file bytes)) : t.Follows l steps := by
  induction steps generalizing l with
  | nil => trivial
  | cons step steps ih =>
      have hne : l ≠ destination l (step :: steps) := fun heq => by
        cases (heq ▸ hfol.1).symm.trans hfile
      obtain ⟨n, hn, -⟩ := Option.map_eq_some_iff.1 (h.seen?_eq_file_iff.1 hfile)
      refine ⟨seen?_above hn (prefix_destination l hup) hne, hfol.2.1, ?_⟩
      exact ih (fun hm => hup (List.mem_cons_of_mem _ hm)) hfol.2.2 hfile

theorem Grows.holds (h : t.Grows p t') (hup : PathStep.up ∉ q.steps) (hq : t'.Holds q bytes) :
    t.Holds q bytes := by
  have hsteps : PathStep.up ∉ t'.stepsTo q := by
    rw [stepsTo]
    split
    · exact hup
    · simpa using hup
  have hfol := h.follows_of_file hsteps hq.follows hq.entry
  rw [stepsTo_eq h.home_eq] at hfol
  refine ⟨hfol, ?_⟩
  rw [← place_eq h.home_eq]
  exact h.seen?_eq_file_iff.1 hq.entry

end Tree

namespace Storage

open HtmlMinifier.Tree

variable {t t' : Tree} {p : Path} {above chain : List Path} {fault : FileFault}

/-! ## The chain -/

theorem run_makeDirectory (p : Path) (t : Tree) :
    (makeDirectory p : StateM Tree (Except FileFault Unit)).run t =
      match t.makeDirectory p with
      | .error fault => (.error fault, t)
      | .ok t' => (.ok (), t') := rfl

theorem run_settle_error (p : Path) (fault : FileFault) (t : Tree) :
    (makeChain.settle p (.error fault) : StateM Tree (Except FileFault Unit)).run t =
      (if t.isDirectory p then .ok () else .error fault, t) := by
  rw [makeChain.settle, run_bind]
  show (if t.isDirectory p then _ else _ : StateM Tree (Except FileFault Unit)).run t = _
  split <;> rfl

theorem run_makeDirectory_settle (p : Path) (t : Tree) :
    (makeDirectory p >>= makeChain.settle p : StateM Tree (Except FileFault Unit)).run t =
      t.settle p := by
  rw [run_bind, run_makeDirectory, settle]
  cases t.makeDirectory p with
  | ok t' => rfl
  | error fault => exact run_settle_error p fault t

theorem run_makeChain_of_ne (h : t.makeDirectory p ≠ .error .notFound) :
    (makeChain (p :: above) : StateM Tree _).run t = t.settle p := by
  rw [makeChain, run_bind, run_makeDirectory, settle]
  cases hmake : t.makeDirectory p with
  | ok t' => rfl
  | error fault =>
      simp only
      split
      · next heq => cases heq
      · next heq =>
        obtain rfl := Except.error.inj heq
        exact absurd hmake h
      · next heq =>
        obtain rfl := Except.error.inj heq
        exact run_settle_error p fault t

theorem run_makeChain_of_eq (h : t.makeDirectory p = .error .notFound) :
    (makeChain (p :: above) : StateM Tree _).run t =
      match (makeChain above : StateM Tree _).run t with
      | (.error fault, t') => (.error fault, t')
      | (.ok (), t') => t'.settle p := by
  rw [makeChain, run_bind, run_makeDirectory, h]
  show (makeChain above >>= _ : StateM Tree _).run t = _
  rw [run_bind]
  obtain ⟨r, t'⟩ := (makeChain above : StateM Tree (Except FileFault Unit)).run t
  cases r with
  | error fault => rfl
  | ok => exact run_makeDirectory_settle p t'

/-- Where the directory stands it is found. -/
theorem run_makeChain_of_isDirectory (h : t.isDirectory p = true) :
    (makeChain (p :: above) : StateM Tree _).run t = (.ok (), t) := by
  rw [run_makeChain_of_ne, settle_of_isDirectory h]
  rw [makeDirectory_of_isDirectory h]
  exact nofun

/-- What is blocked and not merely missing is refused at once. -/
theorem run_makeChain_of_error (h : t.makeDirectory p = .error fault)
    (hd : t.isDirectory p = false) (hne : fault ≠ .notFound) :
    (makeChain (p :: above) : StateM Tree _).run t = (.error fault, t) := by
  rw [run_makeChain_of_ne, settle_of_error h hd]
  rw [h]
  exact fun heq => hne (Except.error.inj heq)

theorem isDirectory_of_makeChain
    (h : (makeChain (p :: above) : StateM Tree _).run t = (.ok (), t')) :
    t'.isDirectory p = true := by
  by_cases hmake : t.makeDirectory p = .error .notFound
  · rw [run_makeChain_of_eq hmake] at h
    split at h
    · cases h
    · exact isDirectory_of_settle h
  · rw [run_makeChain_of_ne hmake] at h
    exact isDirectory_of_settle h

theorem makeChain_again_of_ok (h : (makeChain chain : StateM Tree _).run t = (.ok (), t')) :
    (makeChain chain : StateM Tree _).run t' = (.ok (), t') := by
  cases chain with
  | nil => rfl
  | cons p above => exact run_makeChain_of_isDirectory (isDirectory_of_makeChain h)

/-- Where the path itself is refused, with the directory above it in place. -/
theorem makeChain_of_refused (h : t.makeDirectory p = .error fault)
    (hd : t.isDirectory p = false)
    (habove : (makeChain above : StateM Tree _).run t = (.ok (), t)) :
    (makeChain (p :: above) : StateM Tree _).run t = (.error fault, t) := by
  by_cases hnot : fault = .notFound
  · rw [run_makeChain_of_eq (hnot ▸ h), habove]
    exact settle_of_error h hd
  · exact run_makeChain_of_error h hd hnot

/-- Where a path above is blocked the fault is told from there, or from the chain above if something
is merely missing. -/
theorem makeChain_of_blocked_above {q : Path} {first again : FileFault} (hf : p.fault? = none)
    (hqp : q.Above p) (hq : q ∈ above) (hblock : t.enter (t.stepsTo q) = .error first)
    (hfirst : t.Retells [q] fault first)
    (habove : (makeChain above : StateM Tree _).run t = (.error again, t))
    (hagain : t.Retells above.tail fault again) :
    ∃ again, (makeChain (p :: above) : StateM Tree _).run t = (.error again, t) ∧
      t.Retells above fault again := by
  have hmake := makeDirectory_of_above hf hqp hblock
  by_cases hnot : first = .notFound
  · refine ⟨again, ?_, hagain.mono fun _ => List.mem_of_mem_tail⟩
    rw [run_makeChain_of_eq (hnot ▸ hmake), habove]
  · refine ⟨first, ?_, hfirst.mono fun _ h => List.mem_singleton.1 h ▸ hq⟩
    have hd := isDirectory_of_enter_eq_error (enter_of_above hqp hblock)
    exact run_makeChain_of_error hmake hd hnot

/-- An attempt that failed has left the tree as it was, or one of the paths is blocked; and the
fault that blocks it is told for all that come before. -/
theorem makeChain_again_of_error (hchain : chain.Pairwise fun q above => above.Above q)
    (h : (makeChain chain : StateM Tree _).run t = (.error fault, t')) :
    t' = t ∨
      (∃ q ∈ chain, ∃ first, t'.enter (t'.stepsTo q) = .error first ∧
        t'.Retells [q] fault first) ∧
      ∃ again, (makeChain chain : StateM Tree _).run t' = (.error again, t') ∧
        t'.Retells chain.tail fault again := by
  induction chain with
  | nil => cases h
  | cons p above ih =>
      obtain ⟨habove, hpair⟩ := List.pairwise_cons.1 hchain
      by_cases hmake : t.makeDirectory p = .error .notFound
      · have hf : ∀ q ∈ above, p.fault? = none := fun q hq =>
          Path.fault?_eq_none (Path.isEmpty_of_above (habove q hq)) hmake nofun nofun
        rw [run_makeChain_of_eq hmake] at h
        split at h
        · next hrun =>
          -- the chain above failed, so whatever blocks it blocks the path itself
          cases h
          rcases ih hpair hrun with h | ⟨⟨q, hq, first, hblock, hfirst⟩, again, hagain, hretell⟩
          · exact Or.inl h
          · refine Or.inr ⟨⟨q, List.mem_cons_of_mem _ hq, first, hblock, hfirst⟩, ?_⟩
            exact makeChain_of_blocked_above (hf q hq) (habove q hq) hq hblock hfirst hagain hretell
        · next hrun =>
          -- the directory above is there by now, and the path itself was refused
          obtain ⟨rfl, hmake', hd⟩ := of_settle_eq_error h
          cases above with
          | nil => cases hrun; exact Or.inl rfl
          | cons q above =>
              have hf := hf q (List.mem_cons_self ..)
              obtain ⟨first, hblock⟩ := exists_enter_eq_error hf hd
              exact Or.inr ⟨⟨p, List.mem_cons_self .., first, hblock,
                retells_of_makeDirectory hf hmake' hblock⟩, fault,
                makeChain_of_refused hmake' hd (makeChain_again_of_ok hrun), Or.inl rfl⟩
      · rw [run_makeChain_of_ne hmake] at h
        exact Or.inl (of_settle_eq_error h).1

/-! ## Making sure of a directory -/

theorem run_ensureDirectory (p : Path) (t : Tree) :
    (ensureDirectory p : StateM Tree _).run t =
      if t.isDirectory p = true ∨ p.text.isEmpty = true then (.ok (), t)
      else (makeChain (p :: p.ancestors) : StateM Tree _).run t := by
  rw [ensureDirectory, run_bind]
  show (if t.isDirectory p then _ else _ : StateM Tree (Except FileFault Unit)).run t = _
  cases t.isDirectory p with
  | true => rfl
  | false => cases p.text.isEmpty <;> rfl

theorem ensureDirectory_of_stands (h : t.isDirectory p = true ∨ p.text.isEmpty = true) :
    (ensureDirectory p : StateM Tree _).run t = (.ok (), t) := by
  rw [run_ensureDirectory, if_pos h]

theorem stands_of_ensureDirectory
    (h : (ensureDirectory p : StateM Tree _).run t = (.ok (), t')) :
    t'.isDirectory p = true ∨ p.text.isEmpty = true := by
  rw [run_ensureDirectory] at h
  split at h
  · next hstands =>
    cases h
    exact hstands
  · exact Or.inl (isDirectory_of_makeChain h)

theorem makeChain_of_ensureDirectory
    (h : (ensureDirectory p : StateM Tree _).run t = (.error fault, t')) :
    p.text.isEmpty = false ∧
      (makeChain (p :: p.ancestors) : StateM Tree _).run t = (.error fault, t') := by
  rw [run_ensureDirectory] at h
  split at h
  · cases h
  · next hmissing => exact ⟨Bool.eq_false_iff.2 fun hempty => hmissing (Or.inr hempty), h⟩

theorem run_ensureDirectory_of_error (hne : p.text.isEmpty = false)
    (h : (makeChain (p :: p.ancestors) : StateM Tree _).run t = (.error fault, t')) :
    (ensureDirectory p : StateM Tree _).run t = (.error fault, t') := by
  rw [run_ensureDirectory, if_neg, h]
  rintro (hd | hempty)
  · cases h.symm.trans (run_makeChain_of_isDirectory hd)
  · cases hne.symm.trans hempty

theorem ensureDirectory_again_of_ok
    (h : (ensureDirectory p : StateM Tree _).run t = (.ok (), t')) :
    (ensureDirectory p : StateM Tree _).run t' = (.ok (), t') :=
  ensureDirectory_of_stands (stands_of_ensureDirectory h)

/-- An attempt to make sure of a directory that failed fails again and makes nothing. -/
theorem ensureDirectory_again_of_error
    (h : (ensureDirectory p : StateM Tree _).run t = (.error fault, t')) :
    ∃ again, (ensureDirectory p : StateM Tree _).run t' = (.error again, t') ∧
      t'.Retells p.ancestors fault again := by
  obtain ⟨hne, hchain⟩ := makeChain_of_ensureDirectory h
  rcases makeChain_again_of_error p.pairwise_above_ancestors hchain with
    rfl | ⟨-, again, hagain, hretell⟩
  · exact ⟨fault, h, Or.inl rfl⟩
  · exact ⟨again, run_ensureDirectory_of_error hne hagain, hretell⟩

theorem ensureDirectory_of_obstructs (hf : p.fault? = none) (h : t.Obstructs p) :
    (ensureDirectory p : StateM Tree _).run t = (.error .notADirectory, t) := by
  obtain ⟨q, hq, bytes, hfile⟩ := h
  have hqp := (List.pairwise_cons.1 p.pairwise_above_ancestors).1 q hq
  have hblock := enter_of_holds hfile
  refine run_ensureDirectory_of_error (Path.isEmpty_of_above hqp) ?_
  exact run_makeChain_of_error (makeDirectory_of_above hf hqp hblock)
    (isDirectory_of_enter_eq_error (enter_of_above hqp hblock)) nofun

theorem fault?_eq_none_of_ensureDirectory
    (h : (ensureDirectory p : StateM Tree _).run t = (.error .alreadyExists, t')) :
    p.fault? = none := by
  obtain ⟨hne, hchain⟩ := makeChain_of_ensureDirectory h
  by_cases hmake : t.makeDirectory p = .error .notFound
  · exact Path.fault?_eq_none hne hmake nofun nofun
  · rw [run_makeChain_of_ne hmake] at hchain
    exact Path.fault?_eq_none hne (of_settle_eq_error hchain).2.1 nofun nofun

/-- A file above can be met as one that exists only by way of two dots. Without them it is in the
way from the start. -/
theorem up_mem_of_obstructs
    (h : (ensureDirectory p : StateM Tree _).run t = (.error .alreadyExists, t'))
    (hfile : t'.Obstructs p) : .up ∈ p.steps := by
  refine Decidable.byContradiction fun hup => ?_
  have hgrow : t.Grows p t' := by
    have hgrow := onlyGrows_ensureDirectory keeps_id p t
    rwa [h] at hgrow
  obtain ⟨q, hq, bytes, hholds⟩ := hfile
  have hupq : .up ∉ q.steps := fun hm => by
    have hmem : PathStep.up ∈ moves q.steps := List.mem_filter.2 ⟨hm, rfl⟩
    have hpre := Path.Toward.moves_prefix (Path.toward_of_mem_ancestors hq)
    exact hup (PathStep.mem_of_mem_moves (hpre.subset hmem))
  have hbefore := ensureDirectory_of_obstructs (fault?_eq_none_of_ensureDirectory h)
    ⟨q, hq, bytes, hgrow.holds hupq hholds⟩
  cases h.symm.trans hbefore

end Storage

end HtmlMinifier
