import HtmlMinifier.Proofs.TreeGrowth

/-!
# Where a path is blocked

A path that leads to no directory is blocked somewhere, and the fault is told
where it is. To compare faults of different paths they are all asked the same
question, whether one can stand in a directory at the end of some steps
(`Tree.enter`), which is to follow one more single dot. Asked in this way single
dots make no difference (`enter_moves`), and whatever blocks some steps blocks
all that begin with them, with the same fault (`enter_eq_error_mono`).

Making a directory asks this question of the path above, and only then looks at
the last name. So a blocked path above decides the fault
(`makeDirectory_of_above`). The two questions can differ only where a file
stands at the end of the path: it exists already, and it is no directory
(`fault_cases_of_makeDirectory`).
-/

namespace HtmlMinifier

open PathStep (moves destination)

namespace Spot

variable {s u : Spot} {fault : FileFault} {step : PathStep} {steps : List PathStep}

theorem eq_of_follow_here (h : s.follow .here = .ok u) : u = s := by
  rw [follow] at h
  split at h
  · cases h
  · exact (Except.ok.inj h).symm

/-- From what is no directory no step can be taken. -/
theorem follow_of_here_eq_error (h : s.follow .here = .error fault) (step : PathStep) :
    s.follow step = .error fault := by
  rw [follow] at h ⊢
  split at h
  · exact h
  · cases h

theorem foldlM_follow_of_here_eq_error (h : s.follow .here = .error fault) (hne : steps ≠ []) :
    steps.foldlM follow s = .error fault := by
  cases steps with
  | nil => exact absurd rfl hne
  | cons step steps =>
      rw [List.foldlM_cons, follow_of_here_eq_error h]
      rfl

theorem foldlM_follow_moves (s : Spot) (steps : List PathStep) :
    (moves steps ++ [PathStep.here]).foldlM follow s =
      (steps ++ [PathStep.here]).foldlM follow s := by
  induction steps generalizing s with
  | nil => rfl
  | cons step steps ih =>
      have hcons (step : PathStep) : (step :: (moves steps ++ [PathStep.here])).foldlM follow s =
          (step :: (steps ++ [PathStep.here])).foldlM follow s := by
        rw [List.foldlM_cons, List.foldlM_cons]
        exact congrArg (s.follow step >>= ·) (funext ih)
      cases step with
      | up => exact hcons .up
      | into name => exact hcons (.into name)
      | here =>
          rw [PathStep.moves_here, ih, List.cons_append, List.foldlM_cons]
          cases h : s.follow .here with
          | error fault => exact foldlM_follow_of_here_eq_error h (by simp)
          | ok u =>
              obtain rfl := eq_of_follow_here h
              rfl

theorem follow_of_not_fits (h : s.follow .here = .ok u) (hfit : ¬ step.Fits) :
    s.follow step = .error .invalidName := by
  rw [follow] at h ⊢
  split at h
  · cases h
  · cases step with
    | here => exact absurd trivial hfit
    | up => exact absurd trivial hfit
    | into name => exact if_pos (Nat.not_le.1 hfit)

/-- The location that one more step asks for from a directory, which is none for dots. -/
def aim (s : Spot) : PathStep → Except FileFault (Option Location)
  | .into name =>
    if Path.maxNameSize < name.byteSize then .error .invalidName
    else .ok (some (s.location ++ [name]))
  | _ => .ok none

theorem aim_of_not_fits (s : Spot) (hfit : ¬ step.Fits) : s.aim step = .error .invalidName := by
  cases step with
  | here => exact absurd trivial hfit
  | up => exact absurd trivial hfit
  | into name => exact if_pos (Nat.not_le.1 hfit)

end Spot

/-- Whether some steps go on after others with at least one more move. -/
def PathStep.Extends (steps' steps : List PathStep) : Prop :=
  ∃ rest, rest ≠ [] ∧ moves steps' = moves steps ++ rest

/-- Whether a path is above another: that one starts where it does and goes on from there. -/
structure Path.Above (q p : Path) : Prop where
  startsWithSlash_eq : q.startsWithSlash = p.startsWithSlash
  extends_steps : PathStep.Extends p.steps q.steps

namespace Tree

variable {t t' : Tree} {p q : Path} {fault fault' : FileFault} {steps steps' front : List PathStep}
  {bytes : ByteArray}

theorem walk_append (t : Tree) (steps steps' : List PathStep) :
    t.walk (steps ++ steps') = t.walk steps >>= fun s => steps'.foldlM Spot.follow s :=
  List.foldlM_append

/-! ## Standing in a directory -/

/-- Takes some steps to a directory. -/
def enter (t : Tree) (steps : List PathStep) : Except FileFault Spot := t.walk (steps ++ [.here])

theorem enter_eq (t : Tree) (steps : List PathStep) :
    t.enter steps = t.walk steps >>= fun s => s.follow .here := by
  rw [enter, walk_append]
  cases t.walk steps with
  | error => rfl
  | ok s =>
      show [PathStep.here].foldlM Spot.follow s = s.follow .here
      rw [List.foldlM_cons]
      cases s.follow .here <;> rfl

theorem of_enter_eq_ok {s : Spot} (h : t.enter steps = .ok s) :
    t.walk steps = .ok s ∧ s.follow .here = .ok s := by
  rw [enter_eq] at h
  cases hs : t.walk steps with
  | error => rw [hs] at h; cases h
  | ok u =>
      rw [hs] at h
      have hhere : u.follow .here = .ok s := h
      obtain rfl := Spot.eq_of_follow_here hhere
      exact ⟨rfl, hhere⟩

theorem enter_moves (t : Tree) (steps : List PathStep) : t.enter (moves steps) = t.enter steps :=
  Spot.foldlM_follow_moves ⟨t.root, []⟩ steps

theorem exists_enter_iff : (∃ s, t.enter steps = .ok s) ↔
    t.Follows [] steps ∧ t.seen? (destination [] steps) = some .directory := by
  have hwalk : (∃ s, t.enter steps = .ok s ∧ s.node.entry = .directory) ↔ _ := walk_eq_ok_iff
  rw [follows_append, PathStep.destination_append] at hwalk
  constructor
  · rintro ⟨s, h⟩
    have hdir : s.node.entry = .directory := (of_follow_eq_ok (of_enter_eq_ok h).2).1
    obtain ⟨⟨hfol, -⟩, he⟩ := hwalk.1 ⟨s, h, hdir⟩
    exact ⟨hfol, he⟩
  · rintro ⟨hfol, he⟩
    obtain ⟨s, h, -⟩ := hwalk.2 ⟨⟨hfol, he, trivial, trivial⟩, he⟩
    exact ⟨s, h⟩

/-- What blocks some steps blocks all that begin with them. -/
theorem enter_eq_error_mono (h : t.enter steps = .error fault)
    (hpre : moves steps <+: moves steps') : t.enter steps' = .error fault := by
  obtain ⟨rest, hrest⟩ := hpre
  rw [← enter_moves, enter_eq] at h
  rw [← enter_moves, ← hrest, enter, List.append_assoc, walk_append]
  cases hs : t.walk (moves steps) with
  | error => rw [hs] at h; exact h
  | ok s =>
      rw [hs] at h
      exact Spot.foldlM_follow_of_here_eq_error h (by simp)

/-- A path is blocked where a file stands. -/
theorem enter_of_holds (h : t.Holds p bytes) : t.enter (t.stepsTo p) = .error .notADirectory := by
  obtain ⟨s, hs, hfile⟩ := walk_eq_ok_iff.2 ⟨h.follows, h.entry⟩
  rw [enter_eq, hs]
  show s.follow .here = _
  rw [Spot.follow]
  split
  · rfl
  · next hcs => rw [hcs] at hfile; cases hfile

theorem isDirectory_iff : t.isDirectory p = true ↔ p.fault? = none ∧
    t.Follows [] (t.stepsTo p) ∧ t.seen? (t.place p) = some .directory := by
  have hlocate : t.isDirectory p = true ↔
      ∃ s, t.locate p = .ok s ∧ s.node.entry = .directory := by
    rw [isDirectory]
    cases t.locate p with
    | error => simp [Except.map]
    | ok s => cases hs : s.node <;> simp [Except.map, hs, Node.entry]
  rw [hlocate, locate]
  cases p.fault? with
  | some fault => simp
  | none =>
      rw [walk_eq_ok_iff, follows_append, PathStep.destination_append]
      cases p.endsWithSlash with
      | false => exact ⟨fun h => ⟨rfl, h.1.1, h.2⟩, fun h => ⟨⟨h.2.1, trivial⟩, h.2.2⟩⟩
      | true =>
          exact ⟨fun h => ⟨rfl, h.1.1, h.2⟩, fun h => ⟨⟨h.2.1, h.2.2, trivial, trivial⟩, h.2.2⟩⟩

theorem isDirectory_of_enter_eq_error (h : t.enter (t.stepsTo p) = .error fault) :
    t.isDirectory p = false := by
  rw [Bool.eq_false_iff, ne_eq, isDirectory_iff]
  rintro ⟨-, hfol, he⟩
  obtain ⟨s, hs⟩ := exists_enter_iff.2 ⟨hfol, he⟩
  cases hs.symm.trans h

theorem exists_enter_eq_error (hf : p.fault? = none) (h : t.isDirectory p = false) :
    ∃ fault, t.enter (t.stepsTo p) = .error fault := by
  cases hs : t.enter (t.stepsTo p) with
  | error fault => exact ⟨fault, rfl⟩
  | ok s =>
      have hdir : t.isDirectory p = true := isDirectory_iff.2 ⟨hf, exists_enter_iff.1 ⟨s, hs⟩⟩
      cases h.symm.trans hdir

/-! ## Making a directory -/

theorem stepsTo_cases (t : Tree) (p : Path) :
    t.stepsTo p = [] ∨ ∃ front last, t.stepsTo p = front ++ [last] := by
  rcases List.eq_nil_or_concat (t.stepsTo p) with h | ⟨front, last, h⟩
  · exact Or.inl h
  · exact Or.inr ⟨front, last, by rw [h, List.concat_eq_append]⟩

theorem target_of_stepsTo_eq_nil (hf : p.fault? = none) (hsteps : t.stepsTo p = []) :
    t.target p = .ok none := by
  rw [target, hf, hsteps]
  rfl

/-- The last step is only looked at from a directory. -/
theorem target_of_stepsTo_eq {last : PathStep} (hf : p.fault? = none)
    (hsteps : t.stepsTo p = front ++ [last]) :
    t.target p = t.enter front >>= fun s => s.aim last := by
  have hreverse : (t.stepsTo p).reverse = last :: front.reverse := by
    rw [hsteps, List.reverse_append]
    rfl
  rw [target, hf, hreverse, enter_eq]
  simp only [List.reverse_reverse]
  cases t.walk front with
  | error => rfl
  | ok s =>
      show _ = s.follow .here >>= fun u => u.aim last
      rw [Spot.follow]
      cases hs : s.node with
      | file => simp only [hs]; rfl
      | directory => cases last <;> simp only [hs] <;> rfl

theorem makeDirectory_of_fault (hf : p.fault? = some fault) :
    t.makeDirectory p = .error fault := by
  rw [makeDirectory, target, hf]

theorem makeDirectory_of_enter_eq_error {last : PathStep} (hf : p.fault? = none)
    (hsteps : t.stepsTo p = front ++ [last]) (h : t.enter front = .error fault) :
    t.makeDirectory p = .error fault := by
  rw [makeDirectory, target_of_stepsTo_eq hf hsteps, h]
  rfl

/-- A location above one where a directory stands, or the root itself. -/
theorem seen?_dropLast {l : Location} (h : t.seen? l = some .directory) :
    t.seen? l.dropLast = some .directory := by
  obtain ⟨n, hn, -⟩ := Option.map_eq_some_iff.1 h
  by_cases hl : l.dropLast = l
  · rw [hl, h]
  · exact seen?_above hn l.dropLast_prefix hl

/-- The target of a path whose steps can be taken is its place, unless it ends on a dot or two or at
the root. -/
theorem target_of_follows (hf : p.fault? = none) (hfol : t.Follows [] (t.stepsTo p)) :
    t.target p = .ok (some (t.place p)) ∨
      t.target p = .ok none ∧ (t.place p = [] ∨ t.seen? (t.place p) = some .directory) := by
  rcases t.stepsTo_cases p with hsteps | ⟨front, last, hsteps⟩
  · refine Or.inr ⟨target_of_stepsTo_eq_nil hf hsteps, Or.inl ?_⟩
    rw [place, hsteps]
    rfl
  · have hplace : t.place p = last.after (destination [] front) := by
      rw [place, hsteps, PathStep.destination_append]
      rfl
    rw [hsteps, follows_append] at hfol
    obtain ⟨hfront, hdir, hfit, -⟩ := hfol
    obtain ⟨s, hs⟩ := exists_enter_iff.2 ⟨hfront, hdir⟩
    have hloc : s.location = destination [] front := by
      rw [(of_walk_eq_ok hs).2, PathStep.destination_append]
      rfl
    rw [target_of_stepsTo_eq hf hsteps, hs, hplace]
    cases last with
    | here => exact Or.inr ⟨rfl, Or.inr hdir⟩
    | up => exact Or.inr ⟨rfl, Or.inr (seen?_dropLast hdir)⟩
    | into name =>
        left
        show s.aim (.into name) = _
        rw [Spot.aim, if_neg (Nat.not_lt.2 hfit), hloc]
        rfl

/-- No directory is made where something stands. -/
theorem makeDirectory_of_seen {e : Entry} (hf : p.fault? = none)
    (hfol : t.Follows [] (t.stepsTo p)) (he : t.seen? (t.place p) = some e) :
    t.makeDirectory p = .error .alreadyExists := by
  obtain ⟨n, hn, -⟩ := Option.map_eq_some_iff.1 he
  rcases target_of_follows hf hfol with h | ⟨h, -⟩
  · rw [makeDirectory, h]
    simp only [hn]
  · rw [makeDirectory, h]

theorem exists_makeDirectory_eq_ok (hf : p.fault? = none) (hfol : t.Follows [] (t.stepsTo p))
    (he : t.seen? (t.place p) = none) : ∃ t', t.makeDirectory p = .ok t' := by
  rcases target_of_follows hf hfol with h | ⟨-, h | h⟩
  · rw [makeDirectory, h]
    simp only [Option.map_eq_none_iff.1 he]
    exact ⟨_, rfl⟩
  · rw [h] at he
    cases he
  · cases he.symm.trans h

theorem makeDirectory_of_isDirectory (h : t.isDirectory p = true) :
    t.makeDirectory p = .error .alreadyExists := by
  obtain ⟨hf, hfol, he⟩ := isDirectory_iff.1 h
  exact makeDirectory_of_seen hf hfol he

/-- What has been made stands there. -/
theorem isDirectory_of_makeDirectory (h : t.makeDirectory p = .ok t') :
    t'.isDirectory p = true := by
  obtain ⟨-, hput⟩ := putAt_of_makeDirectory h
  have hf : p.fault? = none := by
    cases hf : p.fault? with
    | none => rfl
    | some fault => cases h.symm.trans (makeDirectory_of_fault hf)
  have hfol : t.Follows [] (t.stepsTo p) := by
    rw [makeDirectory] at h
    split at h
    · cases h
    · cases h
    · next hl => exact (of_target_eq_ok hl).1
  rw [isDirectory_iff, stepsTo_eq hput.home_eq, place_eq hput.home_eq]
  exact ⟨hf, hput.follows hfol, hput.entry_self⟩

theorem fault_eq_of_not_follows (hf : p.fault? = none) (hfol : ¬ t.Follows [] (t.stepsTo p))
    (h : t.makeDirectory p = .error fault) (hblock : t.enter (t.stepsTo p) = .error fault') :
    fault' = fault := by
  rcases t.stepsTo_cases p with hsteps | ⟨front, last, hsteps⟩
  · rw [hsteps] at hfol
    exact absurd trivial hfol
  · cases hs : t.enter front with
    | error first =>
        have hpre : moves front <+: moves (t.stepsTo p) := by
          rw [hsteps, PathStep.moves_append]
          exact List.prefix_append ..
        have hmake := makeDirectory_of_enter_eq_error hf hsteps hs
        obtain rfl := Except.error.inj (h.symm.trans hmake)
        exact Except.error.inj (hblock.symm.trans (enter_eq_error_mono hs hpre))
    | ok s =>
        -- the steps in front can be taken, so that the name at the end is too long
        obtain ⟨hfront, hdir⟩ := exists_enter_iff.1 ⟨s, hs⟩
        have hfit : ¬ last.Fits := fun hfit =>
          hfol (hsteps ▸ follows_append.2 ⟨hfront, hdir, hfit, trivial⟩)
        obtain ⟨hwalk, hhere⟩ := of_enter_eq_ok hs
        have htarget : t.target p = .error .invalidName := by
          rw [target_of_stepsTo_eq hf hsteps, hs]
          exact s.aim_of_not_fits hfit
        have hlast : t.walk (t.stepsTo p) = .error .invalidName := by
          rw [hsteps, walk_append, hwalk]
          show [last].foldlM Spot.follow s = _
          rw [List.foldlM_cons, Spot.follow_of_not_fits hhere hfit]
          rfl
        rw [makeDirectory, htarget] at h
        rw [enter_eq, hlast] at hblock
        obtain rfl := Except.error.inj h
        exact (Except.error.inj hblock).symm

/-- A directory is refused for what blocks the path, but where a file stands it exists already. -/
theorem fault_cases_of_makeDirectory (hf : p.fault? = none)
    (h : t.makeDirectory p = .error fault) (hblock : t.enter (t.stepsTo p) = .error fault') :
    fault' = fault ∨
      fault = .alreadyExists ∧ fault' = .notADirectory ∧ ∃ bytes, t.Holds p bytes := by
  by_cases hfol : t.Follows [] (t.stepsTo p)
  · cases he : t.seen? (t.place p) with
    | none =>
        obtain ⟨t', ht'⟩ := exists_makeDirectory_eq_ok hf hfol he
        cases h.symm.trans ht'
    | some e =>
        cases e with
        | directory =>
            obtain ⟨s, hs⟩ := exists_enter_iff.2 ⟨hfol, he⟩
            cases hblock.symm.trans hs
        | file bytes =>
            right
            obtain rfl := Except.error.inj (h.symm.trans (makeDirectory_of_seen hf hfol he))
            obtain rfl := Except.error.inj (hblock.symm.trans (enter_of_holds ⟨hfol, he⟩))
            exact ⟨rfl, rfl, bytes, hfol, he⟩
  · exact Or.inl (fault_eq_of_not_follows hf hfol h hblock)

/-! ## Paths above -/

theorem extends_stepsTo_of_above (h : q.Above p) (t : Tree) :
    PathStep.Extends (t.stepsTo p) (t.stepsTo q) := by
  obtain ⟨rest, hne, hrest⟩ := h.extends_steps
  refine ⟨rest, hne, ?_⟩
  rw [moves_stepsTo, moves_stepsTo, hrest, h.startsWithSlash_eq, List.append_assoc]

theorem enter_of_above (h : q.Above p) (hq : t.enter (t.stepsTo q) = .error fault) :
    t.enter (t.stepsTo p) = .error fault := by
  obtain ⟨rest, -, hrest⟩ := extends_stepsTo_of_above h t
  exact enter_eq_error_mono hq ⟨rest, hrest.symm⟩

/-- Where a path above is blocked no directory is made, for the fault told there. -/
theorem makeDirectory_of_above (hf : p.fault? = none) (h : q.Above p)
    (hq : t.enter (t.stepsTo q) = .error fault) : t.makeDirectory p = .error fault := by
  obtain ⟨rest, hne, hrest⟩ := extends_stepsTo_of_above h t
  rcases t.stepsTo_cases p with hsteps | ⟨front, last, hsteps⟩
  · rw [hsteps] at hrest
    exact absurd (List.append_eq_nil_iff.1 hrest.symm).2 hne
  · refine makeDirectory_of_enter_eq_error hf hsteps (enter_eq_error_mono hq ?_)
    -- the last step is one move at most, and there is at least one below the path above
    rw [hsteps, PathStep.moves_append] at hrest
    have hlast : (moves [last]).length ≤ 1 := List.length_filter_le ..
    have hrestpos : 0 < rest.length := List.length_pos_iff.2 hne
    have hlength := congrArg List.length hrest
    rw [List.length_append, List.length_append] at hlength
    exact List.prefix_of_prefix_length_le ⟨rest, hrest.symm⟩ (List.prefix_append ..) (by omega)

end Tree

end HtmlMinifier
