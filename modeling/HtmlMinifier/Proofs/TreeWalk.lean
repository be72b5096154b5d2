import HtmlMinifier.FileTree.Basic
import HtmlMinifier.Proofs.PathSteps

/-!
# Where paths lead in a tree

Nothing in a tree stands for something else, so the location a path leads to can
be told from the path alone: `destination` goes up and down by names and never
looks at a tree. What the tree decides is whether one gets there, and this is
`Follows`: every step is taken from a directory, and no name is too long. The
operations of a tree, which keep a trail of nodes, are put in these two terms
here and not unfolded again.

The second half is what a change leaves as it was. A file or an empty directory
that is put into a directory is seen at its own location and at no other
(`PutAt`). For this a location is looked at from outside, as an `Entry`: a
directory has got one more child then, and is a directory as before.
-/

namespace HtmlMinifier

/-- What is seen of a place in a tree without looking into directories. -/
inductive Entry where
  | file (bytes : ByteArray)
  | directory

namespace Node

/-- What is seen of a node. -/
def entry : Node → Entry
  | file bytes => .file bytes
  | directory _ => .directory

theorem entry_eq_directory_of_childIn {n c : Node} {name : Text}
    (h : childIn name n.children = some c) : n.entry = .directory := by
  cases n with
  | file => cases h
  | directory => rfl

end Node

namespace PathStep

/-- Where a step leads from a location. Nothing lies above the root. -/
def after (l : Location) : PathStep → Location
  | here => l
  | up => l.dropLast
  | into name => l ++ [name]

/-- Whether something can have the name that a step asks for. -/
def Fits : PathStep → Prop
  | into name => name.byteSize ≤ Path.maxNameSize
  | _ => True

/-- Where some steps lead from a location. -/
def destination (l : Location) (steps : List PathStep) : Location := steps.foldl after l

@[simp] theorem destination_cons (l : Location) (step : PathStep) (steps : List PathStep) :
    destination l (step :: steps) = destination (step.after l) steps := rfl

@[simp] theorem destination_append (l : Location) (steps steps' : List PathStep) :
    destination l (steps ++ steps') = destination (destination l steps) steps' :=
  List.foldl_append

theorem destination_moves (l : Location) (steps : List PathStep) :
    destination l (moves steps) = destination l steps := by
  induction steps generalizing l with
  | nil => rfl
  | cons step steps ih => cases step <;> exact ih _

end PathStep

namespace Tree

variable {t t' : Tree} {l k : Location} {steps : List PathStep} {p : Path}

/-- What is seen at a location. -/
def seen? (t : Tree) (l : Location) : Option Entry := (t.get? l).map Node.entry

/-- Whether some steps can be taken from a location, each from a directory. Nothing need stand where
the last one leads. -/
def Follows (t : Tree) : Location → List PathStep → Prop
  | _, [] => True
  | l, step :: steps =>
      t.seen? l = some .directory ∧ step.Fits ∧ t.Follows (step.after l) steps

/-- The location that a path leads to. -/
def place (t : Tree) (p : Path) : Location := PathStep.destination [] (t.stepsTo p)

/-! ## Steps that can be taken -/

theorem follows_append {steps' : List PathStep} :
    t.Follows l (steps ++ steps') ↔
      t.Follows l steps ∧ t.Follows (PathStep.destination l steps) steps' := by
  induction steps generalizing l with
  | nil => exact ⟨fun h => ⟨trivial, h⟩, And.right⟩
  | cons step steps ih =>
      simp only [List.cons_append, Follows, ih, and_assoc, PathStep.destination_cons]

theorem Follows.seen?_eq (h : t.Follows l steps) (hne : steps ≠ []) :
    t.seen? l = some .directory := by
  cases steps with
  | nil => exact absurd rfl hne
  | cons => exact h.1

/-- Directories that stay can still be passed. -/
theorem Follows.mono (h : t.Follows l steps)
    (hstay : ∀ k, t.seen? k = some .directory → t'.seen? k = some .directory) :
    t'.Follows l steps := by
  induction steps generalizing l with
  | nil => trivial
  | cons step steps ih => exact ⟨hstay l h.1, h.2.1, ih h.2.2⟩

/-- A single dot asks for a directory where it stands, and so does the step that comes after. -/
theorem follows_of_moves {name : Text} (h : t.Follows l (PathStep.moves steps ++ [.into name])) :
    t.Follows l (steps ++ [.into name]) := by
  induction steps generalizing l with
  | nil => exact h
  | cons step steps ih =>
      cases step with
      | here => exact ⟨h.seen?_eq (by simp), trivial, ih h⟩
      | up => exact ⟨h.1, h.2.1, ih h.2.2⟩
      | into name => exact ⟨h.1, h.2.1, ih h.2.2⟩

/-! ## Following a trail -/

theorem seen?_location_of_sound {s : Spot} (hr : s.root = t.root)
    (hs : Spot.Sound s.root s.trail) : t.seen? s.location = some s.node.entry := by
  rw [seen?, get?, ← hr]
  exact congrArg (Option.map Node.entry) (Spot.get?_of_sound hs)

theorem location_tail (s : Spot) : Spot.location ⟨s.root, s.trail.tail⟩ = s.location.dropLast := by
  obtain ⟨root, trail⟩ := s
  cases trail with
  | nil => rfl
  | cons e trail => simp [Spot.location]

theorem of_follow_eq_ok {s u : Spot} {step : PathStep} (h : s.follow step = .ok u) :
    s.node.entry = .directory ∧ step.Fits ∧ u.location = step.after s.location := by
  rw [Spot.follow] at h
  split at h
  · cases h
  · next cs hcs =>
    refine ⟨by rw [hcs]; rfl, ?_⟩
    cases step with
    | here =>
        obtain rfl := Except.ok.inj h
        exact ⟨trivial, rfl⟩
    | up =>
        obtain rfl := Except.ok.inj h
        exact ⟨trivial, location_tail s⟩
    | into name =>
        simp only at h
        split at h
        · cases h
        · next hfit =>
          split at h
          · cases h
          · next n hn =>
            obtain rfl := Except.ok.inj h
            exact ⟨Nat.le_of_not_lt hfit, by simp [Spot.location, PathStep.after]⟩

theorem exists_follow {s : Spot} {step : PathStep} {e : Entry} (hr : s.root = t.root)
    (hs : Spot.Sound s.root s.trail) (hd : t.seen? s.location = some .directory)
    (hfit : step.Fits) (he : t.seen? (step.after s.location) = some e) :
    ∃ u, s.follow step = .ok u := by
  have hnode := seen?_location_of_sound hr hs
  rw [hd, Option.some_inj] at hnode
  rw [Spot.follow]
  split
  · next hf => rw [hf] at hnode; cases hnode
  · next cs hcs =>
    cases step with
    | here => exact ⟨_, rfl⟩
    | up => exact ⟨_, rfl⟩
    | into name =>
        have hget : t.get? s.location = some s.node := by
          rw [get?, ← hr]
          exact Spot.get?_of_sound hs
        rw [PathStep.after, seen?, get?, Node.get?_append, ← get?, hget, Option.bind_some,
          Node.get?_cons, hcs] at he
        obtain ⟨n, hn, -⟩ := Option.map_eq_some_iff.1 he
        obtain ⟨c, hc, -⟩ := Option.bind_eq_some_iff.1 hn
        rw [Node.children_directory] at hc
        simp only [if_neg (Nat.not_lt.2 hfit), hc]
        exact ⟨_, rfl⟩

theorem of_foldlM_follow {s u : Spot} (hr : s.root = t.root) (hs : Spot.Sound s.root s.trail)
    (h : steps.foldlM Spot.follow s = .ok u) :
    t.Follows s.location steps ∧ u.location = PathStep.destination s.location steps := by
  induction steps generalizing s with
  | nil =>
      obtain rfl := Except.ok.inj h
      exact ⟨trivial, rfl⟩
  | cons step steps ih =>
      rw [List.foldlM_cons] at h
      cases hf : s.follow step with
      | error fault => rw [hf] at h; cases h
      | ok v =>
          rw [hf] at h
          obtain ⟨hroot, hv⟩ := Spot.sound_follow hs hf
          obtain ⟨hd, hfit, hloc⟩ := of_follow_eq_ok hf
          obtain ⟨hfol, hend⟩ := ih (hroot.trans hr) hv h
          rw [hloc] at hfol hend
          exact ⟨⟨(seen?_location_of_sound hr hs).trans (congrArg some hd), hfit, hfol⟩, hend⟩

theorem exists_foldlM_follow {s : Spot} {e : Entry} (hr : s.root = t.root)
    (hs : Spot.Sound s.root s.trail) (h : t.Follows s.location steps)
    (he : t.seen? (PathStep.destination s.location steps) = some e) :
    ∃ u, steps.foldlM Spot.follow s = .ok u := by
  induction steps generalizing s with
  | nil => exact ⟨s, rfl⟩
  | cons step steps ih =>
      have hnext : ∃ e', t.seen? (step.after s.location) = some e' := by
        cases steps with
        | nil => exact ⟨e, he⟩
        | cons => exact ⟨_, h.2.2.1⟩
      obtain ⟨e', he'⟩ := hnext
      obtain ⟨v, hf⟩ := exists_follow hr hs h.1 h.2.1 he'
      obtain ⟨hroot, hv⟩ := Spot.sound_follow hs hf
      have hloc := (of_follow_eq_ok hf).2.2
      rw [List.foldlM_cons, hf]
      exact ih (hroot.trans hr) hv (hloc ▸ h.2.2) (hloc ▸ he)

theorem of_walk_eq_ok {s : Spot} (h : t.walk steps = .ok s) :
    t.Follows [] steps ∧ s.location = PathStep.destination [] steps :=
  of_foldlM_follow (s := ⟨t.root, []⟩) rfl trivial h

/-- A walk succeeds if its steps can be taken and something stands at the end. -/
theorem walk_eq_ok_iff {e : Entry} :
    (∃ s, t.walk steps = .ok s ∧ s.node.entry = e) ↔
      t.Follows [] steps ∧ t.seen? (PathStep.destination [] steps) = some e := by
  constructor
  · rintro ⟨s, h, rfl⟩
    obtain ⟨hfol, hend⟩ := of_walk_eq_ok h
    refine ⟨hfol, ?_⟩
    rw [seen?, ← hend, get?_location h, Option.map_some]
  · rintro ⟨hfol, he⟩
    obtain ⟨s, h⟩ := exists_foldlM_follow (s := ⟨t.root, []⟩) rfl trivial hfol he
    refine ⟨s, h, ?_⟩
    rw [← (of_walk_eq_ok h).2, seen?, get?_location h, Option.map_some, Option.some_inj] at he
    exact he

/-! ## The operations of a tree -/

/-- Whether a path leads to a file with these bytes. A path that is too long to be followed leads
somewhere all the same, and a slash at its end is not asked about. -/
structure Holds (t : Tree) (p : Path) (bytes : ByteArray) : Prop where
  follows : t.Follows [] (t.stepsTo p)
  entry : t.seen? (t.place p) = some (.file bytes)

/-- What is read is what stands where the path leads. -/
theorem read_eq_ok_iff {bytes : ByteArray} :
    t.read p = .ok bytes ↔ p.fault? = none ∧ p.endsWithSlash = false ∧ t.Holds p bytes := by
  have hread : t.read p = .ok bytes ↔
      ∃ s, t.locate p = .ok s ∧ s.node.entry = .file bytes := by
    rw [read]
    cases t.locate p with
    | error => simp [Except.map]
    | ok s => cases hs : s.node <;> simp [Except.map, hs, Node.entry]
  rw [hread, locate]
  cases p.fault? with
  | some fault => simp
  | none =>
      rw [walk_eq_ok_iff, follows_append, PathStep.destination_append]
      cases p.endsWithSlash with
      | false =>
          constructor
          · rintro ⟨⟨hfol, -⟩, he⟩
            exact ⟨rfl, rfl, hfol, he⟩
          · rintro ⟨-, -, hfol, he⟩
            exact ⟨⟨hfol, trivial⟩, he⟩
      | true =>
          constructor
          · rintro ⟨⟨-, hdir, -⟩, he⟩
            exact absurd (hdir.symm.trans he) nofun
          · rintro ⟨-, h, -⟩
            cases h

theorem of_target_eq_ok (h : t.target p = .ok (some l)) :
    t.Follows [] (t.stepsTo p) ∧ l = t.place p ∧
      ∃ k name, l = k ++ [name] ∧ t.seen? k = some .directory := by
  rw [target] at h
  split at h
  · cases h
  · split at h
    · cases h
    · next last front hsteps =>
      have hrev : t.stepsTo p = front.reverse ++ [last] := by
        rw [← List.reverse_reverse (t.stepsTo p), hsteps, List.reverse_cons]
      split at h
      · cases h
      · next s hwalk =>
        split at h
        · cases h
        · next cs name hs =>
          split at h
          · cases h
          · next hfit =>
            obtain rfl := Option.some.inj (Except.ok.inj h)
            obtain ⟨hfol, hdir⟩ := walk_eq_ok_iff.1 ⟨s, hwalk, congrArg Node.entry hs⟩
            have hloc := (of_walk_eq_ok hwalk).2
            refine ⟨?_, ?_, s.location, name, rfl, hloc ▸ hdir⟩
            · rw [hrev, follows_append]
              exact ⟨hfol, hdir, Nat.le_of_not_lt hfit, trivial⟩
            · rw [place, hrev, PathStep.destination_append, ← hloc]
              rfl
        · cases h

/-! ## What a change leaves as it was -/

/-- Whether one tree is another in which something has been put at a location. A directory that
stood there would have been lost with all that it held. -/
structure PutAt (t : Tree) (l : Location) (e : Entry) (t' : Tree) : Prop where
  home_eq : t'.home = t.home
  vacant : t.seen? l ≠ some .directory
  entry_self : t'.seen? l = some e
  entry_of_ne : ∀ k, k ≠ l → t'.seen? k = t.seen? k

theorem PutAt.seen?_eq_directory {e : Entry} (h : t.PutAt l e t')
    (hk : t.seen? k = some .directory) : t'.seen? k = some .directory := by
  by_cases hkl : k = l
  · exact absurd (hkl ▸ hk) h.vacant
  · rw [h.entry_of_ne k hkl, hk]

/-- Whatever has something below it is a directory. -/
theorem seen?_above {n : Node} (hn : t.get? l = some n) (h : k <+: l) (hne : k ≠ l) :
    t.seen? k = some .directory := by
  obtain ⟨r, rfl⟩ := h
  cases r with
  | nil => exact absurd (List.append_nil k).symm hne
  | cons name r =>
      rw [get?, Node.get?_append] at hn
      obtain ⟨m, hm, hn⟩ := Option.bind_eq_some_iff.1 hn
      rw [Node.get?_cons] at hn
      obtain ⟨c, hc, -⟩ := Option.bind_eq_some_iff.1 hn
      rw [seen?, get?, hm, Option.map_some, Node.entry_eq_directory_of_childIn hc]

theorem seen?_below (hk : t.seen? k ≠ some .directory) (h : k <+: l)
    (hne : k ≠ l) : t.seen? l = none := by
  cases hn : t.get? l with
  | none => rw [seen?, hn, Option.map_none]
  | some n => exact absurd (seen?_above hn h hne) hk

theorem putAt_put {name : Text} {n : Node} (hk : t.seen? k = some .directory)
    (hv : t.seen? (k ++ [name]) ≠ some .directory) (hn : n.children = []) :
    t.PutAt (k ++ [name]) n.entry (t.put (k ++ [name]) n) where
  home_eq := rfl
  vacant := hv
  entry_self := congrArg (Option.map Node.entry) (Node.get?_put_self t.root (k ++ [name]) n)
  entry_of_ne := by
    intro j hj
    have hself : (t.put (k ++ [name]) n).get? (k ++ [name]) = some n :=
      Node.get?_put_self t.root (k ++ [name]) n
    by_cases hjk : j <+: k ++ [name]
    · -- what stands above has something below it, before the change as after
      rw [seen?_above hself hjk hj]
      by_cases hjk' : j = k
      · rw [hjk', hk]
      · obtain ⟨m, hm, -⟩ := Option.map_eq_some_iff.1 hk
        exact (seen?_above hm ((List.prefix_concat_iff.1 hjk).resolve_left hj) hjk').symm
    · by_cases hkj : k ++ [name] <+: j
      · -- nothing stands below a file, below nothing, or below a directory without children
        rw [seen?_below hv hkj hj.symm]
        obtain ⟨r, rfl⟩ := hkj
        cases r with
        | nil => exact absurd (List.append_nil _) hj
        | cons m r =>
            rw [seen?, get?, Node.get?_append, ← get?, hself, Option.bind_some, Node.get?_cons,
              hn]
            rfl
      · exact congrArg (Option.map Node.entry) (Node.get?_put_of_not_prefix hjk hkj t.root n)

theorem putAt_of_makeDirectory (h : t.makeDirectory p = .ok t') :
    t.seen? (t.place p) = none ∧ t.PutAt (t.place p) .directory t' := by
  rw [makeDirectory] at h
  split at h
  · cases h
  · cases h
  · next l hl =>
    obtain ⟨-, hplace, k, name, hlk, hk⟩ := of_target_eq_ok hl
    split at h
    · next hnone =>
      obtain rfl := Except.ok.inj h
      have hvacant : t.seen? l = none := by rw [seen?, hnone, Option.map_none]
      rw [← hplace]
      subst hlk
      refine ⟨hvacant, ?_⟩
      exact putAt_put (n := .directory []) hk (by rw [hvacant]; exact nofun) rfl
    · cases h

theorem putAt_of_replace {bytes : ByteArray} (h : t.replace p bytes = .ok t') :
    t.Follows [] (t.stepsTo p) ∧ t.PutAt (t.place p) (.file bytes) t' := by
  rw [replace] at h
  split at h
  · cases h
  · cases h
  · next l hl =>
    obtain ⟨hfol, hplace, k, name, hlk, hk⟩ := of_target_eq_ok hl
    split at h
    · cases h
    · next hndir =>
      split at h
      · cases h
      · obtain rfl := Except.ok.inj h
        rw [← hplace]
        subst hlk
        refine ⟨hfol, putAt_put (n := .file bytes) hk ?_ rfl⟩
        intro hdir
        obtain ⟨m, hm, hme⟩ := Option.map_eq_some_iff.1 hdir
        cases m with
        | file => cases hme
        | directory cs => exact hndir cs hm

end Tree

end HtmlMinifier
