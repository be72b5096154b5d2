import HtmlMinifier.Proofs.CommentScan

/-!
# Every cut at a byte offset is a good one

Two functions of the program count bytes. The comment scan adds up its offsets
from what it finds and from the sizes of the markers; it cuts the text where
the next opener is looked for, where one is found, behind it, and between its
two cursors. Trimming cuts twice, the second time at a difference of two sizes.
A cut off the boundaries of the encoding, past the end, or with its bounds out
of order would end the program. In the model such a cut has no answer, and so
the statement here is that there is always one, together with the offsets at
which it is made.

What carries the scan is `Scan.Sound`: both cursors stand at boundaries, the
one that lags is not ahead, and the other has read at least one byte in each
turn so far. A turn keeps this (`Scan.Sound.turn`), because each offset that
the scan moves to is that of a cursor plus the size of the text just read
(`Cursor.Of.boundary_add`). The passed opener, of which the scan reads one byte
only, is no exception: the byte is the character `<`, so the cursor stands
inside the marker and still at a boundary. As the number of turns is bounded by
an offset, it is bounded by the size of the text, which is why the steps that
`scan?` allows for never run out.
-/

namespace HtmlMinifier.Text

/-! ## Boundaries -/

/-- The encoding of the text can be cut at this offset. -/
def Boundary (s : Text) (n : Nat) : Prop :=
  String.Pos.Raw.IsValid (String.ofList s) ⟨n⟩

theorem boundary_iff {s : Text} {n : Nat} :
    s.Boundary n ↔ ∃ t r, t ++ r = s ∧ byteSize t = n := by
  rw [Boundary, String.Pos.Raw.isValid_ofList]
  constructor
  · rintro ⟨i, hi⟩
    refine ⟨s.take i, s.drop i, List.take_append_drop i s, ?_⟩
    rw [← byteSize_ofList, ← hi]
  · rintro ⟨t, r, rfl, rfl⟩
    refine ⟨t.length, ?_⟩
    rw [List.take_left, byteSize_ofList]

theorem Boundary.le_byteSize {s : Text} {n : Nat} (h : s.Boundary n) :
    n ≤ byteSize s := by
  obtain ⟨t, r, rfl, rfl⟩ := boundary_iff.1 h
  rw [byteSize_append]
  exact Nat.le_add_right _ _

theorem isSome_dropBytes?_iff {s : Text} {n : Nat} :
    (s.dropBytes? n).isSome ↔ s.Boundary n := by
  rw [Option.isSome_iff_exists, boundary_iff, exists_comm]
  exact exists_congr fun r => dropBytes?_eq_some_iff

theorem isSome_takeBytes?_iff {s : Text} {n : Nat} :
    (s.takeBytes? n).isSome ↔ s.Boundary n := by
  rw [takeBytes?, isSome_takeBytesFrom, isSome_dropBytes?_iff]

/-- A slice needs two boundaries in order, and nothing else. -/
theorem isSome_slice?_iff {s : Text} {i j : Nat} :
    (s.slice? i j).isSome ↔ i ≤ j ∧ s.Boundary i ∧ s.Boundary j := by
  rw [← isSome_dropBytes?_iff, ← isSome_dropBytes?_iff, slice?]
  split
  next hij =>
    cases hi : s.dropBytes? i with
    | none => simp
    | some r =>
        have hj := Cursor.dropBytes?_add hi (j - i)
        rw [Nat.add_sub_cancel' hij] at hj
        rw [Option.bind_some, hj, isSome_takeBytes?_iff, isSome_dropBytes?_iff]
        simp [hij]
  next hij => simp [hij]

/-- Inside a character there is nothing to cut at. -/
example : Text.slice? 1 2 ['é'] = none := by decide

/-! ## Trimming by two cuts -/

/-- The blanks at the end are cut off at one offset, and those at the start of
what is left at another one, the difference of two sizes. There is no answer if
a cut is off a boundary or the difference negative. -/
def trimInPlace? (s : Text) : Option Text :=
  (s.takeBytes? (byteSize s.trimEnd)).bind fun t =>
    if byteSize t.trimStart ≤ byteSize t then
      t.dropBytes? (byteSize t - byteSize t.trimStart)
    else none

theorem takeBytes?_trimEnd (s : Text) :
    s.takeBytes? (byteSize s.trimEnd) = some s.trimEnd :=
  takeBytes?_eq_some_iff.2 ⟨_, s.trimEnd_append_blanks, rfl⟩

theorem byteSize_trimStart (s : Text) :
    byteSize s = byteSize s.leadingBlanks + byteSize s.trimStart := by
  rw [← byteSize_append, leadingBlanks_append_trimStart]

theorem dropBytes?_trimStart (s : Text) :
    s.dropBytes? (byteSize s - byteSize s.trimStart) = some s.trimStart := by
  rw [byteSize_trimStart, Nat.add_sub_cancel]
  exact dropBytes?_eq_some_iff.2 ⟨_, s.leadingBlanks_append_trimStart, rfl⟩

theorem trimInPlace?_eq (s : Text) : s.trimInPlace? = some s.trim := by
  have hle : byteSize s.trimEnd.trimStart ≤ byteSize s.trimEnd := by
    rw [byteSize_trimStart s.trimEnd]
    exact Nat.le_add_left _ _
  rw [trimInPlace?, takeBytes?_trimEnd, Option.bind_some, if_pos hle,
    dropBytes?_trimStart, trim]

end HtmlMinifier.Text

namespace HtmlMinifier

/-! ## What a cursor can move to -/

theorem Cursor.Of.boundary {s : Text} {c : Cursor} (h : c.Of s) :
    s.Boundary c.offset := by
  rw [← Text.isSome_dropBytes?_iff, show s.dropBytes? c.offset = some c.rest from h]
  rfl

/-- Reading a part of the text ahead leads from a boundary to a boundary. -/
theorem Cursor.Of.boundary_add {s a r : Text} {c : Cursor} (h : c.Of s)
    (hr : c.rest = a ++ r) : s.Boundary (c.offset + Text.byteSize a) := by
  rw [← Text.isSome_dropBytes?_iff, Cursor.dropBytes?_add h, hr,
    Text.dropBytes?_byteSize_append]
  rfl

theorem Cursor.Of.exists_moveTo? {s : Text} {c : Cursor} {n : Nat} (h : c.Of s)
    (hle : c.offset ≤ n) (hn : s.Boundary n) : ∃ d, c.moveTo? n = some d := by
  obtain ⟨r, hr⟩ := Option.isSome_iff_exists.1 (Text.isSome_dropBytes?_iff.2 hn)
  exact ⟨⟨n, r⟩, (Cursor.moveTo?_eq_some_iff h).2 ⟨hle, rfl, hr⟩⟩

theorem Cursor.Of.exists_textTo? {s : Text} {c : Cursor} {n : Nat} (h : c.Of s)
    (hle : c.offset ≤ n) (hn : s.Boundary n) : ∃ m, c.textTo? n = some m := by
  rw [Cursor.textTo?_eq_slice? h]
  exact Option.isSome_iff_exists.1
    (Text.isSome_slice?_iff.2 ⟨hle, h.boundary, hn⟩)

namespace Comment

variable {s : Text} {n : Nat} {c d : Scan}

/-! ## One turn -/

/-- One turn of the scan that does not end it. -/
def Scan.Turns (c d : Scan) : Prop :=
  ∃ step, Step.next? c.next = some step ∧ step ≠ .finish ∧
    c.follow? step = some d

/-- What the scan of a text has come to after a number of turns. -/
inductive Scan.Reached (s : Text) : Nat → Scan → Prop
  | start : Reached s 0 (.start s)
  | turn {n : Nat} {c d : Scan} (h : Reached s n c) (hturn : c.Turns d) :
      Reached s (n + 1) d

/-- Both cursors stand at boundaries and in order, and the scan has read at
least one byte in each turn. -/
structure Scan.Sound (s : Text) (n : Nat) (c : Scan) : Prop where
  kept_of : c.kept.Of s
  next_of : c.next.Of s
  kept_le_next : c.kept.offset ≤ c.next.offset
  turns_le_next : n ≤ c.next.offset

/-- The offsets at which a turn cuts that finds an opener at `start`: there,
behind the opener, and from the lagging cursor up to it. -/
structure Scan.Cuts (s : Text) (c : Scan) (start : Nat) : Prop where
  next_le_start : c.next.offset ≤ start
  start_boundary : s.Boundary start
  body_boundary : s.Boundary (start + Text.byteSize opener)
  part_isSome : (s.slice? c.kept.offset start).isSome

theorem Scan.sound_start (s : Text) : (Scan.start s).Sound s 0 :=
  ⟨Cursor.of_start s, Cursor.of_start s, Nat.le_refl _, Nat.zero_le _⟩

theorem Scan.Sound.cuts {i : Nat} (h : c.Sound s n)
    (hi : (Word.exact opener).offset? c.next.rest = some i) :
    c.Cuts s (c.next.offset + i) := by
  obtain ⟨a, r, hr, rfl, -⟩ := exists_of_offset? hi
  have hstart := h.next_of.boundary_add hr
  have hle := Nat.le_add_right c.next.offset (Text.byteSize a)
  refine ⟨hle, hstart, ?_, ?_⟩
  · rw [Nat.add_assoc, ← Text.byteSize_append]
    exact h.next_of.boundary_add (r := r) (by rw [hr, List.append_assoc])
  · exact Text.isSome_slice?_iff.2
      ⟨Nat.le_trans h.kept_le_next hle, h.kept_of.boundary, hstart⟩

/-- A turn that finds an opener has that opener ahead of the bytes that the
turns before it have read. -/
theorem Scan.Sound.lt_byteSize {i : Nat} (h : c.Sound s n)
    (hi : (Word.exact opener).offset? c.next.rest = some i) :
    n < Text.byteSize s := by
  have hcuts := h.cuts hi
  have hn := Nat.le_trans h.turns_le_next hcuts.next_le_start
  have hbody := hcuts.body_boundary.le_byteSize
  have hopener : Text.byteSize opener = 4 := by decide
  omega

/-- No cut of a turn fails: the scan has ended, or there is a next state. -/
theorem Scan.Sound.finish_or_turns (h : c.Sound s n) :
    Step.next? c.next = some .finish ∨ ∃ d, c.Turns d := by
  rcases next?_cases c.next with ⟨hstep, -⟩ | ⟨a, r, hr, hstep, -⟩ |
    ⟨a, m, r, hr, -, hstep, -⟩
  · exact .inl hstep
  · have hle := Nat.le_add_right c.next.offset (Text.byteSize (a ++ ['<']))
    obtain ⟨next, hnext⟩ := h.next_of.exists_moveTo? hle
      (h.next_of.boundary_add (r := r) (by simp [hr]))
    rw [Text.byteSize_append, ← Nat.add_assoc] at hnext
    refine .inr ⟨{ c with next := next }, _, hstep, by simp, ?_⟩
    exact congrArg (Option.map fun next => { c with next := next }) hnext
  · have hle := Nat.le_add_right c.next.offset (Text.byteSize a)
    have hstop := h.next_of.boundary_add (a := a ++ m) (r := r) (by simp [hr])
    rw [Text.byteSize_append, ← Nat.add_assoc] at hstop
    obtain ⟨part, hpart⟩ := h.kept_of.exists_textTo?
      (Nat.le_trans h.kept_le_next hle) (h.next_of.boundary_add hr)
    obtain ⟨next, hnext⟩ := h.next_of.exists_moveTo?
      (Nat.le_trans hle (Nat.le_add_right _ _)) hstop
    refine .inr ⟨⟨part :: c.copied, next, next⟩, _, hstep, by simp, ?_⟩
    rw [Scan.follow?, hpart, Option.bind_some, hnext, Option.map_some]

/-- A turn reads at least one byte and keeps what is known of the cursors. -/
theorem Scan.Sound.turn (h : c.Sound s n) (hturn : c.Turns d) :
    d.Sound s (n + 1) ∧ c.next.offset < d.next.offset := by
  obtain ⟨step, hnext, hne, hd⟩ := hturn
  rcases next?_cases c.next with ⟨hstep, -⟩ | ⟨a, r, -, hstep, -⟩ |
    ⟨a, m, r, -, hm, hstep, -⟩
  all_goals
    obtain rfl := Option.some.inj (hnext.symm.trans hstep)
  · exact absurd rfl hne
  -- the lagging cursor stays where it is
  · obtain ⟨next, hmove, rfl⟩ := Option.map_eq_some_iff.1 hd
    obtain ⟨-, hoff, hof⟩ := (Cursor.moveTo?_eq_some_iff h.next_of).1 hmove
    have hlt : c.next.offset < next.offset := by omega
    exact ⟨⟨h.kept_of, hof, Nat.le_trans h.kept_le_next (Nat.le_of_lt hlt),
      Nat.lt_of_le_of_lt h.turns_le_next hlt⟩, hlt⟩
  -- both cursors go behind the comment, which has at least one byte
  · obtain ⟨part, -, hd⟩ := Option.bind_eq_some_iff.1 hd
    obtain ⟨next, hmove, rfl⟩ := Option.map_eq_some_iff.1 hd
    obtain ⟨-, hoff, hof⟩ := (Cursor.moveTo?_eq_some_iff h.next_of).1 hmove
    have hpos := List.length_pos_iff.2 hm
    have hbytes := Text.length_le_byteSize m
    have hlt : c.next.offset < next.offset := by omega
    exact ⟨⟨hof, hof, Nat.le_refl _,
      Nat.lt_of_le_of_lt h.turns_le_next hlt⟩, hlt⟩

/-! ## The whole scan -/

theorem Scan.Reached.sound (h : Scan.Reached s n c) : c.Sound s n := by
  induction h with
  | start => exact Scan.sound_start s
  | turn _ hturn ih => exact (ih.turn hturn).1

theorem Scan.Reached.le_byteSize (h : Scan.Reached s n c) :
    n ≤ Text.byteSize s :=
  Nat.le_trans h.sound.turns_le_next h.sound.next_of.boundary.le_byteSize

/-- As many steps as there are bytes, less the turns made, and one more are
enough to reach the end. -/
theorem Scan.Reached.run? {fuel : Nat} (h : Scan.Reached s n c)
    (hfuel : Text.byteSize s < n + fuel) :
    ∃ k d, Scan.Reached s k d ∧ Step.next? d.next = some .finish ∧
      Scan.run? fuel c = some d := by
  induction fuel generalizing n c with
  | zero => exact absurd h.le_byteSize (Nat.not_le.2 hfuel)
  | succ fuel ih =>
      rcases h.sound.finish_or_turns with hfinish | ⟨d, hturn⟩
      · exact ⟨n, c, h, hfinish, by rw [Scan.run?, hfinish]⟩
      · obtain ⟨k, e, he, hfinish, hrun⟩ := ih (h.turn hturn) (by omega)
        obtain ⟨step, hstep, hne, hd⟩ := hturn
        exact ⟨k, e, he, hfinish, by rw [run?_succ hstep hne hd, hrun]⟩

theorem scan?_reached (s : Text) :
    ∃ n c, n ≤ Text.byteSize s ∧ Scan.Reached s n c ∧
      Step.next? c.next = some .finish ∧ scan? s = some c.result := by
  have hfuel : Text.byteSize s < 0 + (Text.byteSize s + 1) := by omega
  obtain ⟨n, c, hc, hfinish, hrun⟩ := Scan.Reached.start.run? hfuel
  exact ⟨n, c, hc.le_byteSize, hc, hfinish, by rw [scan?, hrun]; rfl⟩

end Comment

/-- The program never cuts a text where it cannot be cut. Whatever the scan has
come to, its cursors stand at boundaries and in order, what it cuts when it
finds an opener is between boundaries, and if it has not ended there is a next
state, with the search further on. So it ends, with at most one turn for each
byte. Both offsets of trimming are boundaries of the text that is cut there. -/
theorem byte_cuts_at_boundaries (s : Text) :
    (∀ n c, Comment.Scan.Reached s n c →
      c.Sound s n ∧
      (∀ i, (Word.exact Comment.opener).offset? c.next.rest = some i →
        n < Text.byteSize s ∧ c.Cuts s (c.next.offset + i)) ∧
      (Comment.Step.next? c.next = some .finish ∨ ∃ d, c.Turns d) ∧
      ∀ d, c.Turns d → c.next.offset < d.next.offset) ∧
    (∃ n c, n ≤ Text.byteSize s ∧ Comment.Scan.Reached s n c ∧
      Comment.Step.next? c.next = some .finish ∧
      Comment.scan? s = some c.result) ∧
    s.Boundary (Text.byteSize s.trimEnd) ∧
    s.trimEnd.Boundary
      (Text.byteSize s.trimEnd - Text.byteSize s.trimEnd.trimStart) ∧
    s.trimInPlace? = some s.trim := by
  refine ⟨fun n c h => ⟨h.sound, ?_, h.sound.finish_or_turns, ?_⟩,
    Comment.scan?_reached s, ?_, ?_, s.trimInPlace?_eq⟩
  · exact fun i hi => ⟨h.sound.lt_byteSize hi, h.sound.cuts hi⟩
  · exact fun d hturn => (h.sound.turn hturn).2
  · rw [← Text.isSome_takeBytes?_iff, Text.takeBytes?_trimEnd]
    rfl
  · rw [← Text.isSome_dropBytes?_iff, Text.dropBytes?_trimStart]
    rfl

end HtmlMinifier
