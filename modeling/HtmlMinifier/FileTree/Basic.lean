import HtmlMinifier.FileTree.Path

/-!
# A tree of files

A tree is made of files with their bytes and of directories with the names of what they hold. A
location is the names that lead to a place from the root. Nothing lies above the root, so two dots
stay there. One location is the working directory: a path starts there unless it has a slash in
front.

A path is followed a step at a time, and each step needs a directory to be taken from. Whoever
follows it keeps the directories passed, so that two dots lead back to where the last name was
taken. The operations that a run needs look at a tree (`isDirectory`, `read`, `resolve`) or change
it at one location (`makeDirectory`, `replace`).

Main statements: `get?_put_self` and `get?_put_of_not_prefix` say what stands where after such a
change, `put_of_get?` that putting what is there already changes nothing, and `get?_location` that
following a path leads to what stands at the location it ends at.
-/

namespace HtmlMinifier

/-- The names from the root to a place in a tree. -/
abbrev Location := List Text

/-- What stands at a place. -/
inductive Node where
  | file (bytes : ByteArray)
  | directory (children : List (Text × Node))

namespace Node

/-- The first child of this name. -/
def childIn (name : Text) : List (Text × Node) → Option Node
  | [] => none
  | (k, n) :: cs => if k = name then some n else childIn name cs

/-- Puts a node into the place of the first child of this name, or at the end. -/
def putIn (name : Text) (n : Node) : List (Text × Node) → List (Text × Node)
  | [] => [(name, n)]
  | (k, m) :: cs => if k = name then (k, n) :: cs else (k, m) :: putIn name n cs

/-- The children of a directory; a file has none. -/
def children : Node → List (Text × Node)
  | file _ => []
  | directory cs => cs

/-- What stands at a location below a node. -/
def get? : Node → Location → Option Node
  | n, [] => some n
  | n, name :: l =>
    match childIn name n.children with
    | none => none
    | some c => c.get? l

/-- Puts a node at a location below another. Directories are put where there are none on the way. -/
def put : Node → Location → Node → Node
  | _, [], n => n
  | m, name :: l, n =>
    directory (putIn name (((childIn name m.children).getD (directory [])).put l n) m.children)

@[simp] theorem get?_nil (n : Node) : n.get? [] = some n := by rw [get?]

@[simp] theorem put_nil (m n : Node) : m.put [] n = n := by rw [put]

@[simp] theorem children_directory (cs : List (Text × Node)) : (directory cs).children = cs := rfl

theorem childIn_putIn_self (name : Text) (n : Node) (cs : List (Text × Node)) :
    childIn name (putIn name n cs) = some n := by
  induction cs with
  | nil => simp [putIn, childIn]
  | cons c cs ih =>
    obtain ⟨k, m⟩ := c
    rw [putIn]
    split
    next h => simp [childIn, h]
    next h => simp [childIn, h, ih]

theorem childIn_putIn_of_ne {name k : Text} (h : name ≠ k) (n : Node) (cs : List (Text × Node)) :
    childIn k (putIn name n cs) = childIn k cs := by
  induction cs with
  | nil => simp [putIn, childIn, h]
  | cons c cs ih =>
    obtain ⟨j, m⟩ := c
    rw [putIn]
    split
    next hj => simp [childIn, hj, h]
    next hj => simp [childIn, ih]

theorem putIn_of_childIn {name : Text} {n : Node} {cs : List (Text × Node)}
    (h : childIn name cs = some n) : putIn name n cs = cs := by
  induction cs with
  | nil => cases h
  | cons c cs ih =>
    obtain ⟨k, m⟩ := c
    rw [childIn] at h
    rw [putIn]
    split at h
    next hk =>
      obtain rfl := Option.some.inj h
      rw [if_pos hk]
    next hk => rw [if_neg hk, ih h]

theorem get?_cons (n : Node) (name : Text) (l : Location) :
    n.get? (name :: l) = (childIn name n.children).bind (get? · l) := by
  rw [get?]
  cases childIn name n.children <;> rfl

theorem get?_append (n : Node) (l k : Location) :
    n.get? (l ++ k) = (n.get? l).bind (get? · k) := by
  induction l generalizing n with
  | nil => simp
  | cons name l ih =>
    rw [List.cons_append, get?_cons, get?_cons]
    cases childIn name n.children with
    | none => rfl
    | some c => exact ih c

/-- A node that was put somewhere stands there. -/
theorem get?_put_self (m : Node) (l : Location) (n : Node) : (m.put l n).get? l = some n := by
  induction l generalizing m with
  | nil => simp
  | cons name l ih =>
    rw [put, get?_cons, children_directory, childIn_putIn_self]
    exact ih _

/-- Putting a node somewhere changes nothing at a location neither above nor below. -/
theorem get?_put_of_not_prefix {l k : Location} (hkl : ¬ k <+: l) (hlk : ¬ l <+: k) (m n : Node) :
    (m.put l n).get? k = m.get? k := by
  induction l generalizing m k with
  | nil => exact absurd List.nil_prefix hlk
  | cons name l ih =>
    cases k with
    | nil => exact absurd List.nil_prefix hkl
    | cons other k =>
      rw [put, get?_cons, get?_cons, children_directory]
      by_cases h : name = other
      · subst h
        rw [List.prefix_cons_inj] at hkl hlk
        rw [childIn_putIn_self, Option.bind_some, ih hkl hlk]
        cases childIn name m.children with
        | some c => rfl
        | none =>
          cases k with
          | nil => exact absurd List.nil_prefix hkl
          | cons j k => simp [get?_cons, childIn]
      · rw [childIn_putIn_of_ne h]

/-- Putting what stands there already changes nothing. -/
theorem put_of_get? {m : Node} {l : Location} {n : Node} (h : m.get? l = some n) :
    m.put l n = m := by
  induction l generalizing m with
  | nil => simpa [eq_comm] using h
  | cons name l ih =>
    rw [get?_cons] at h
    obtain ⟨c, hc, hn⟩ := Option.bind_eq_some_iff.1 h
    rw [put, hc, Option.getD_some, ih hn, putIn_of_childIn hc]
    cases m with
    | file => cases hc
    | directory cs => rfl

end Node

/-- Files and directories, and the working directory among them. -/
structure Tree where
  home : Location
  root : Node

/-- A place reached from a root: the nodes on the way with their names, the last one first. -/
structure Spot where
  root : Node
  trail : List (Text × Node)

namespace Spot

/-- The node one stands at. -/
def node (s : Spot) : Node :=
  match s.trail with
  | [] => s.root
  | (_, n) :: _ => n

/-- The location one stands at. -/
def location (s : Spot) : Location := (s.trail.map Prod.fst).reverse

/-- Takes one step from a directory to something that exists. -/
def follow (s : Spot) (step : PathStep) : Except FileFault Spot :=
  match s.node with
  | .file _ => .error .notADirectory
  | .directory cs =>
    match step with
    | .here => .ok s
    | .up => .ok ⟨s.root, s.trail.tail⟩
    | .into name =>
      if Path.maxNameSize < name.byteSize then .error .invalidName
      else
        match Node.childIn name cs with
        | none => .error .notFound
        | some n => .ok ⟨s.root, (name, n) :: s.trail⟩

/-- Whether each name of the trail is that of a child of the node before. -/
def Sound (root : Node) : List (Text × Node) → Prop
  | [] => True
  | (name, n) :: trail =>
    Node.childIn name (node ⟨root, trail⟩).children = some n ∧ Sound root trail

theorem sound_follow {s t : Spot} {step : PathStep} (hs : Sound s.root s.trail)
    (h : s.follow step = .ok t) : t.root = s.root ∧ Sound t.root t.trail := by
  rw [follow] at h
  split at h
  next => cases h
  next cs hcs =>
    split at h
    next =>
      obtain rfl := Except.ok.inj h
      exact ⟨rfl, hs⟩
    next =>
      obtain rfl := Except.ok.inj h
      refine ⟨rfl, ?_⟩
      cases htr : s.trail with
      | nil => trivial
      | cons e trail =>
        rw [htr] at hs
        exact hs.2
    next name =>
      split at h
      next => cases h
      next =>
        split at h
        next => cases h
        next n hn =>
          obtain rfl := Except.ok.inj h
          refine ⟨rfl, ?_, hs⟩
          show Node.childIn name (node s).children = some n
          rw [hcs]
          exact hn

theorem get?_of_sound {root : Node} {trail : List (Text × Node)} (h : Sound root trail) :
    root.get? (location ⟨root, trail⟩) = some (node ⟨root, trail⟩) := by
  induction trail with
  | nil => rw [location]; exact root.get?_nil
  | cons e trail ih =>
    obtain ⟨name, n⟩ := e
    have hl : location ⟨root, (name, n) :: trail⟩ = location ⟨root, trail⟩ ++ [name] := by
      simp [location]
    rw [hl, Node.get?_append, ih h.2, Option.bind_some, Node.get?_cons, h.1, Option.bind_some,
      Node.get?_nil]
    rfl

end Spot

namespace Tree

/-- The tree in which nothing stands but the working directory and the directories above it. -/
def empty (home : Location) : Tree := ⟨home, (Node.directory []).put home (.directory [])⟩

/-- What stands at a location. -/
def get? (t : Tree) (l : Location) : Option Node := t.root.get? l

/-- The tree with a node at a location. -/
def put (t : Tree) (l : Location) (n : Node) : Tree := ⟨t.home, t.root.put l n⟩

/-- The steps from the root along a path. A path without a slash in front goes on from the working
directory. -/
def stepsTo (t : Tree) (p : Path) : List PathStep :=
  if p.startsWithSlash then p.steps else t.home.map .into ++ p.steps

/-- Takes some steps from the root, each to something that exists. -/
def walk (t : Tree) (steps : List PathStep) : Except FileFault Spot :=
  steps.foldlM Spot.follow ⟨t.root, []⟩

theorem sound_foldlM_follow {s t : Spot} {steps : List PathStep} (hs : Spot.Sound s.root s.trail)
    (h : steps.foldlM Spot.follow s = .ok t) : t.root = s.root ∧ Spot.Sound t.root t.trail := by
  induction steps generalizing s with
  | nil =>
    obtain rfl := Except.ok.inj h
    exact ⟨rfl, hs⟩
  | cons step steps ih =>
    rw [List.foldlM_cons] at h
    cases hf : s.follow step with
    | error fault => rw [hf] at h; cases h
    | ok u =>
      rw [hf] at h
      obtain ⟨hr, hu⟩ := Spot.sound_follow hs hf
      obtain ⟨hr', ht⟩ := ih hu h
      exact ⟨hr'.trans hr, ht⟩

/-- Some steps lead to what stands at the location they end at. -/
theorem get?_location {t : Tree} {steps : List PathStep} {s : Spot} (h : t.walk steps = .ok s) :
    t.get? s.location = some s.node := by
  obtain ⟨hr, hs⟩ := sound_foldlM_follow (s := ⟨t.root, []⟩) trivial h
  rw [get?, ← show s.root = t.root from hr]
  exact Spot.get?_of_sound hs

/-- The place a path leads to, where something stands. A slash at its end asks for a directory. -/
def locate (t : Tree) (p : Path) : Except FileFault Spot :=
  match p.fault? with
  | some fault => .error fault
  | none => t.walk (t.stepsTo p ++ if p.endsWithSlash then [.here] else [])

/-- Where the last step of a path leads, whether anything stands there or not; the steps before it
lead to a directory. There is no location if the path ends on a dot, two dots or the root. -/
def target (t : Tree) (p : Path) : Except FileFault (Option Location) :=
  match p.fault? with
  | some fault => .error fault
  | none =>
    match (t.stepsTo p).reverse with
    | [] => .ok none
    | last :: front =>
      match t.walk front.reverse with
      | .error fault => .error fault
      | .ok s =>
        match s.node, last with
        | .file _, _ => .error .notADirectory
        | .directory _, .into name =>
          if Path.maxNameSize < name.byteSize then .error .invalidName
          else .ok (some (s.location ++ [name]))
        | .directory _, _ => .ok none

/-! ## What a run does with a tree -/

/-- Whether a directory stands at a path. -/
def isDirectory (t : Tree) (p : Path) : Bool :=
  match (t.locate p).map Spot.node with
  | .ok (.directory _) => true
  | _ => false

/-- The bytes of the file at a path. -/
def read (t : Tree) (p : Path) : Except FileFault ByteArray :=
  match (t.locate p).map Spot.node with
  | .error fault => .error fault
  | .ok (.directory _) => .error .isADirectory
  | .ok (.file bytes) => .ok bytes

/-- The path from the root, without dots, to what stands at a path. -/
def resolve (t : Tree) (p : Path) : Except FileFault Path :=
  (t.locate p).map fun s => .ofSteps true (s.location.map .into)

/-- The path from the root to the working directory. -/
def workingDirectory (t : Tree) : Path := .ofSteps true (t.home.map .into)

/-- Makes one directory in one that exists. -/
def makeDirectory (t : Tree) (p : Path) : Except FileFault Tree :=
  match t.target p with
  | .error fault => .error fault
  | .ok none => .error .alreadyExists
  | .ok (some l) =>
    match t.get? l with
    | none => .ok (t.put l (.directory []))
    | some _ => .error .alreadyExists

/-- Puts a file with these bytes at a path, in place of the file there, if there is one. -/
def replace (t : Tree) (p : Path) (bytes : ByteArray) : Except FileFault Tree :=
  match t.target p with
  | .error fault => .error fault
  | .ok none => .error .isADirectory
  | .ok (some l) =>
    match t.get? l with
    | some (.directory _) => .error .isADirectory
    | _ => if p.endsWithSlash then .error .isADirectory else .ok (t.put l (.file bytes))

end Tree

end HtmlMinifier
