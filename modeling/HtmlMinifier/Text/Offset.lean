import HtmlMinifier.Text.Word

/-!
# Byte offsets

Sizes are counted in bytes of UTF-8, and so are the positions that the comment scan keeps. An
offset is a *boundary* of a text when it lies between two of its characters; only at a boundary
can the text be cut. The cuts here are checked: they answer `none` off a boundary and past the
end, so that a scan which computes its offsets by addition has something to be right about.

A cursor is a text that has been read up to some offset. It moves forward only, again to checked
offsets, and so that it need not start over it keeps the text that lies ahead.

Main statements: `dropBytes?_eq_some_iff` and `slice?_eq_some_iff` say which offsets can be cut
at and what is cut off there, `moveTo?_eq_some_iff` and `textTo?_eq_slice?` that a cursor cuts the text
it was made of in the same way, and `byteSize_toList` that the size is that of the encoding.
-/

namespace HtmlMinifier.Text

/-- The number of bytes of the UTF-8 encoding. -/
def byteSize (s : Text) : Nat := s.foldl (fun n c => n + c.utf8Size) 0

theorem foldl_utf8Size (n : Nat) (s : Text) :
    s.foldl (fun n c => n + c.utf8Size) n = n + byteSize s := by
  induction s generalizing n with
  | nil => rfl
  | cons c s ih =>
    rw [byteSize, List.foldl_cons, List.foldl_cons, ih, ih (0 + c.utf8Size)]
    omega

@[simp] theorem byteSize_nil : byteSize [] = 0 := rfl

@[simp] theorem byteSize_cons (c : Char) (s : Text) :
    byteSize (c :: s) = c.utf8Size + byteSize s := by
  rw [byteSize, List.foldl_cons, foldl_utf8Size]
  omega

@[simp] theorem byteSize_append (s t : Text) : byteSize (s ++ t) = byteSize s + byteSize t := by
  induction s with
  | nil => simp
  | cons c s ih =>
    rw [List.cons_append, byteSize_cons, byteSize_cons, ih]
    omega

theorem byteSize_ofList (s : Text) : (String.ofList s).utf8ByteSize = byteSize s := by
  induction s with
  | nil => simp
  | cons c s ih => rw [String.ofList_cons, String.utf8ByteSize_append, ih]; simp

/-- The size counted here is the size of the string's encoding. -/
theorem byteSize_toList (s : String) : byteSize s.toList = s.utf8ByteSize := by
  rw [← byteSize_ofList, String.ofList_toList]

/-- A character takes at least one byte, so a text has no more characters than bytes. -/
theorem length_le_byteSize (s : Text) : s.length ≤ byteSize s := by
  induction s with
  | nil => simp
  | cons c s ih =>
    have := c.utf8Size_pos
    simp only [List.length_cons, byteSize_cons]
    omega

/-- The text from byte offset `n` on, if `n` is a boundary. -/
def dropBytes? : (n : Nat) → Text → Option Text
  | 0, s => some s
  | _ + 1, [] => none
  | n + 1, c :: s => if c.utf8Size ≤ n + 1 then dropBytes? (n + 1 - c.utf8Size) s else none

/-- Takes `n` bytes off a text, if `n` is a boundary, with the characters in `done`, last one first,
already taken. -/
def takeBytesFrom (done : Text) : (n : Nat) → Text → Option Text
  | 0, _ => some done.reverse
  | _ + 1, [] => none
  | n + 1, c :: s =>
    if c.utf8Size ≤ n + 1 then takeBytesFrom (c :: done) (n + 1 - c.utf8Size) s else none

/-- The text before byte offset `n`, if `n` is a boundary. -/
def takeBytes? (n : Nat) (s : Text) : Option Text := takeBytesFrom [] n s

/-- The text from byte offset `i` up to byte offset `j`, if both are boundaries and in order. -/
def slice? (i j : Nat) (s : Text) : Option Text :=
  if i ≤ j then (dropBytes? i s).bind (takeBytes? (j - i)) else none

theorem dropBytes?_byteSize_append (t r : Text) : dropBytes? (byteSize t) (t ++ r) = some r := by
  induction t with
  | nil => simp [dropBytes?]
  | cons c t ih =>
    have hc := c.utf8Size_pos
    obtain ⟨n, hn⟩ : ∃ n, byteSize (c :: t) = n + 1 := ⟨byteSize (c :: t) - 1, by simp; omega⟩
    have hn' := hn
    rw [byteSize_cons] at hn
    rw [hn', List.cons_append, dropBytes?, if_pos (by omega), show n + 1 - c.utf8Size = byteSize t by omega]
    exact ih

/-- A cut succeeds exactly at the size of a head of the text, and leaves what follows that head. -/
theorem dropBytes?_eq_some_iff {n : Nat} {s r : Text} :
    dropBytes? n s = some r ↔ ∃ t, t ++ r = s ∧ byteSize t = n := by
  constructor
  · intro h
    fun_induction dropBytes? n s with
    | case1 s => exact ⟨[], by simpa using h.symm⟩
    | case2 => cases h
    | case3 n c s hc ih =>
      obtain ⟨t, rfl, ht⟩ := ih h
      exact ⟨c :: t, rfl, by simp; omega⟩
    | case4 => cases h
  · rintro ⟨t, rfl, rfl⟩
    exact dropBytes?_byteSize_append t r

theorem takeBytesFrom_byteSize_append (done t r : Text) :
    takeBytesFrom done (byteSize t) (t ++ r) = some (done.reverse ++ t) := by
  induction t generalizing done with
  | nil => simp [takeBytesFrom]
  | cons c t ih =>
    have hc := c.utf8Size_pos
    obtain ⟨n, hn⟩ : ∃ n, byteSize (c :: t) = n + 1 := ⟨byteSize (c :: t) - 1, by simp; omega⟩
    have hn' := hn
    rw [byteSize_cons] at hn
    rw [hn', List.cons_append, takeBytesFrom, if_pos (by omega),
      show n + 1 - c.utf8Size = byteSize t by omega, ih]
    simp

theorem isSome_takeBytesFrom (done : Text) (n : Nat) (s : Text) :
    (takeBytesFrom done n s).isSome = (dropBytes? n s).isSome := by
  fun_induction dropBytes? n s generalizing done with
  | case1 s => simp [takeBytesFrom]
  | case2 n => simp [takeBytesFrom]
  | case3 n c s h ih => rw [takeBytesFrom, if_pos h, ih]
  | case4 n c s h => rw [takeBytesFrom, if_neg h]

theorem takeBytes?_eq_some_iff {n : Nat} {s t : Text} :
    takeBytes? n s = some t ↔ ∃ r, t ++ r = s ∧ byteSize t = n := by
  constructor
  · intro h
    have hs := isSome_takeBytesFrom [] n s
    rw [show takeBytesFrom [] n s = some t from h] at hs
    obtain ⟨r, hr⟩ := Option.isSome_iff_exists.1 hs.symm
    obtain ⟨u, rfl, rfl⟩ := dropBytes?_eq_some_iff.1 hr
    rw [takeBytes?, takeBytesFrom_byteSize_append] at h
    obtain rfl : u = t := by simpa using h
    exact ⟨r, rfl, rfl⟩
  · rintro ⟨r, rfl, rfl⟩
    exact takeBytesFrom_byteSize_append [] t r

/-- A slice is a part of the text between two heads of it whose sizes are the offsets. -/
theorem slice?_eq_some_iff {i j : Nat} {s m : Text} :
    slice? i j s = some m ↔ ∃ l r, l ++ m ++ r = s ∧ byteSize l = i ∧ i + byteSize m = j := by
  constructor
  · intro h
    rw [slice?] at h
    split at h
    next hij =>
      obtain ⟨u, hu, hm⟩ := Option.bind_eq_some_iff.1 h
      obtain ⟨l, rfl, hl⟩ := dropBytes?_eq_some_iff.1 hu
      obtain ⟨r, rfl, hr⟩ := takeBytes?_eq_some_iff.1 hm
      exact ⟨l, r, by simp, hl, by omega⟩
    next => cases h
  · rintro ⟨l, r, rfl, rfl, rfl⟩
    rw [slice?, if_pos (by omega), List.append_assoc, dropBytes?_byteSize_append]
    exact takeBytes?_eq_some_iff.2 ⟨r, rfl, by omega⟩

end HtmlMinifier.Text

namespace HtmlMinifier

/-- A text read up to a byte offset. -/
structure Cursor where
  offset : Nat
  rest : Text
deriving DecidableEq, Repr

namespace Cursor

/-- A text of which nothing has been read. -/
def start (s : Text) : Cursor := ⟨0, s⟩

/-- Reads on up to byte offset `n`, if that does not lie behind and is a boundary. -/
def moveTo? (c : Cursor) (n : Nat) : Option Cursor :=
  if c.offset ≤ n then (c.rest.dropBytes? (n - c.offset)).map fun r => ⟨n, r⟩ else none

/-- The text up to byte offset `n`, if that does not lie behind and is a boundary. -/
def textTo? (c : Cursor) (n : Nat) : Option Text :=
  if c.offset ≤ n then c.rest.takeBytes? (n - c.offset) else none

/-- Whether a cursor has read some of this text. -/
def Of (s : Text) (c : Cursor) : Prop := s.dropBytes? c.offset = some c.rest

theorem of_start (s : Text) : (start s).Of s := by rw [Of, start, Text.dropBytes?]

theorem dropBytes?_add {s r : Text} {i : Nat} (h : s.dropBytes? i = some r) (n : Nat) :
    s.dropBytes? (i + n) = r.dropBytes? n := by
  obtain ⟨t, rfl, rfl⟩ := Text.dropBytes?_eq_some_iff.1 h
  apply Option.ext
  intro u
  rw [Text.dropBytes?_eq_some_iff, Text.dropBytes?_eq_some_iff]
  constructor
  · rintro ⟨v, hv, hn⟩
    rcases List.append_eq_append_iff.1 hv with ⟨w, rfl, rfl⟩ | ⟨w, rfl, rfl⟩
    · have hw : Text.byteSize w = 0 := by
        rw [Text.byteSize_append] at hn
        omega
      have : w = [] := by
        have := Text.length_le_byteSize w
        exact List.length_eq_zero_iff.1 (by omega)
      subst this
      exact ⟨[], rfl, by simp at hn ⊢; omega⟩
    · exact ⟨w, rfl, by rw [Text.byteSize_append] at hn; omega⟩
  · rintro ⟨v, rfl, rfl⟩
    exact ⟨t ++ v, by simp, by simp⟩

/-- A cursor moves to the boundaries of its text that do not lie behind it. -/
theorem moveTo?_eq_some_iff {s : Text} {c d : Cursor} {n : Nat} (hc : c.Of s) :
    c.moveTo? n = some d ↔ c.offset ≤ n ∧ d.offset = n ∧ d.Of s := by
  rw [moveTo?]
  split
  next hle =>
    have hadd := dropBytes?_add hc (n - c.offset)
    rw [show c.offset + (n - c.offset) = n by omega] at hadd
    constructor
    · intro h
      obtain ⟨r, hr, rfl⟩ := Option.map_eq_some_iff.1 h
      exact ⟨hle, rfl, hadd.trans hr⟩
    · rintro ⟨-, rfl, hd⟩
      rw [← hadd, show s.dropBytes? d.offset = some d.rest from hd]
      rfl
  next hle =>
    constructor
    · intro h; cases h
    · rintro ⟨h, -, -⟩; exact absurd h hle

/-- The text up to an offset is the slice of the cursor's text that ends there. -/
theorem textTo?_eq_slice? {s : Text} {c : Cursor} (hc : c.Of s) (n : Nat) :
    c.textTo? n = s.slice? c.offset n := by
  rw [textTo?, Text.slice?, show s.dropBytes? c.offset = some c.rest from hc]
  rfl

end Cursor

end HtmlMinifier

namespace HtmlMinifier.Word

/-- The byte offset of the first place of the word. -/
def offset? (w : Word) (s : Text) : Option Nat :=
  (w.find? s).map fun n => Text.byteSize (s.take n)

/-- The offset found is the size of the text before the first place of the word. -/
theorem offset?_eq_some_iff {w : Word} {s : Text} {n : Nat} :
    w.offset? s = some n ↔ ∃ a r, a ++ r = s ∧ Text.byteSize a = n ∧ w.heads r = true ∧
      ∀ j < a.length, w.heads (s.drop j) = false := by
  constructor
  · intro h
    obtain ⟨i, hi, rfl⟩ := Option.map_eq_some_iff.1 h
    obtain ⟨hle, hh, hlt⟩ := find?_eq_some_iff.1 hi
    refine ⟨s.take i, s.drop i, List.take_append_drop i s, rfl, hh, ?_⟩
    intro j hj
    exact hlt j (by simp at hj; omega)
  · rintro ⟨a, r, rfl, rfl, hh, hlt⟩
    have : w.find? (a ++ r) = some a.length :=
      find?_eq_some_iff.2 ⟨by simp, by simpa using hh, hlt⟩
    simp [offset?, this]

end HtmlMinifier.Word
