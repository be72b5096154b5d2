import HtmlMinifier.FileTree.Fault
import HtmlMinifier.Text.Offset

/-!
# Paths

A path is kept as it is given and taken apart only to be followed. Its pieces stand between slashes;
an empty piece means nothing, a single dot stays where one is and two dots go up. No file is looked
for, and no directory made, at a path that is empty, too long or has a NUL in it.

Main statement: `piecesOf_join` says that joining a name to a path adds its pieces at the end.
-/

namespace HtmlMinifier

/-- A path as it was given. -/
structure Path where
  text : String
deriving DecidableEq, Repr

/-- One step along a path. -/
inductive PathStep where
  /-- A single dot: stay. -/
  | here
  /-- Two dots: go up. -/
  | up
  /-- Any other piece: go to what has this name. -/
  | into (name : Text)
deriving DecidableEq, Repr

namespace PathStep

/-- The step that a piece of a path stands for. -/
def ofPiece (piece : Text) : PathStep :=
  if piece = ['.'] then here
  else if piece = ['.', '.'] then up
  else into piece

/-- The piece that stands for a step. -/
def piece : PathStep → Text
  | here => ['.']
  | up => ['.', '.']
  | into name => name

theorem piece_ofPiece (p : Text) : (ofPiece p).piece = p := by
  rw [ofPiece]
  split
  next h => exact h.symm
  next =>
    split
    next h => exact h.symm
    next => rfl

end PathStep

namespace Path

/-- Divides a text at its slashes. -/
def splitSlashes : Text → List Text
  | [] => [[]]
  | c :: s =>
    if c = '/' then [] :: splitSlashes s
    else
      match splitSlashes s with
      | [] => [[c]]
      | p :: ps => (c :: p) :: ps

/-- The parts of a text between slashes that are not empty. -/
def piecesOf (s : Text) : List Text := (splitSlashes s).filter (· ≠ [])

/-- The steps along a path. -/
def steps (p : Path) : List PathStep := (piecesOf p.text.toList).map .ofPiece

/-- Whether the path ends with a slash. -/
def endsWithSlash (p : Path) : Bool := p.text.toList.getLast? == some '/'

/-- Whether the path starts with a slash. -/
def startsWithSlash (p : Path) : Bool := p.text.toList.head? == some '/'

/-- The path with a name added at its end, after a slash unless the path is empty or already ends
with one. -/
def join (p : Path) (name : String) : Path :=
  if p.text.isEmpty || p.endsWithSlash then ⟨p.text ++ name⟩ else ⟨p.text ++ "/" ++ name⟩

/-- The path without single dots and repeated slashes, followed from the root: a path that does not
start there is joined to `base`. Two dots stay, since what they lead to depends on the files. -/
def absolute (base p : Path) : Path :=
  let pieces := (p.steps.filter (· ≠ .here)).map PathStep.piece
  let plain := String.ofList (List.intercalate ['/'] pieces) ++ if p.endsWithSlash then "/" else ""
  if p.startsWithSlash then ⟨"/" ++ plain⟩ else base.join plain

/-- The longest path, in bytes. -/
def maxSize : Nat := 4095

/-- The longest name of a file or directory, in bytes. -/
def maxNameSize : Nat := 255

/-- What is wrong with a path whatever files there are. -/
def fault? (p : Path) : Option FileFault :=
  if '\x00' ∈ p.text.toList then some .invalidInput
  else if p.text.isEmpty then some .notFound
  else if maxSize < p.text.utf8ByteSize then some .invalidName
  else none

/-- The path, from the working directory or from the root, along some steps. -/
def ofSteps (fromRoot : Bool) (steps : List PathStep) : Path :=
  ⟨(if fromRoot then "/" else "") ++
    String.ofList (List.intercalate ['/'] (steps.map PathStep.piece))⟩

/-- The steps of a path without the single dots in it. At the start of a path from the working
directory a single dot counts as a step. -/
def plainSteps (p : Path) : List PathStep :=
  match p.steps with
  | [] => []
  | s :: ss =>
    if s = .here && p.startsWithSlash then ss.filter (· ≠ .here)
    else s :: ss.filter (· ≠ .here)

/-- What is left of some steps, given last one first, when the last ones are dropped: all but the
last, all but the last two, and so on, while there are any. -/
def shortened : (reversed : List PathStep) → List (List PathStep)
  | [] => []
  | _ :: [] => []
  | _ :: s :: ss => (s :: ss).reverse :: shortened (s :: ss)

/-- The directories on the way to a path, the nearest first. -/
def ancestors (p : Path) : List Path :=
  (shortened p.plainSteps.reverse).map (ofSteps p.startsWithSlash)

theorem splitSlashes_ne_nil (s : Text) : splitSlashes s ≠ [] := by
  cases s with
  | nil => simp [splitSlashes]
  | cons c s =>
    rw [splitSlashes]
    split
    next => simp
    next => split <;> simp

theorem splitSlashes_append_slash (s t : Text) :
    splitSlashes (s ++ '/' :: t) = splitSlashes s ++ splitSlashes t := by
  induction s with
  | nil => simp [splitSlashes]
  | cons c s ih =>
    rw [List.cons_append, splitSlashes, splitSlashes]
    split
    next => rw [ih, List.cons_append]
    next =>
      rw [ih]
      cases h : splitSlashes s with
      | nil => exact absurd h (splitSlashes_ne_nil s)
      | cons p ps => rfl

theorem splitSlashes_of_not_mem {s : Text} (h : '/' ∉ s) : splitSlashes s = [s] := by
  induction s with
  | nil => rfl
  | cons c s ih =>
    have hc : c ≠ '/' := fun e => h (by simp [e])
    rw [splitSlashes, if_neg hc, ih fun hm => h (List.mem_cons_of_mem _ hm)]

theorem piecesOf_append_slash (s t : Text) :
    piecesOf (s ++ '/' :: t) = piecesOf s ++ piecesOf t := by
  rw [piecesOf, splitSlashes_append_slash, List.filter_append]
  rfl

/-- Joining adds the pieces of the name at the end. -/
theorem piecesOf_join (p : Path) (name : String) :
    piecesOf (p.join name).text.toList = piecesOf p.text.toList ++ piecesOf name.toList := by
  rw [join]
  split
  next hp =>
    rw [String.toList_append]
    rw [Bool.or_eq_true] at hp
    rcases hp with hp | hp
    · rw [String.isEmpty_iff.1 hp]
      rfl
    · rw [endsWithSlash, beq_iff_eq] at hp
      obtain ⟨init, hi⟩ := List.getLast?_eq_some_iff.1 hp
      rw [hi, List.append_assoc, List.singleton_append, piecesOf_append_slash,
        piecesOf_append_slash]
      simp [piecesOf, splitSlashes]
  next =>
    rw [String.toList_append, String.toList_append]
    show piecesOf (p.text.toList ++ ['/'] ++ name.toList) = _
    rw [List.append_assoc, List.singleton_append, piecesOf_append_slash]

end Path

end HtmlMinifier
