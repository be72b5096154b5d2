import HtmlMinifier.CommandLine.Item

/-!
# How a command line is read

The reader is stated here a second time, as a grammar. From the front of the
arguments one piece is taken after another, one argument or a keyword with the
argument after it, and each piece says at most one item (`Takes`). Arguments
that come out even are `Whole`. What may be left over at the end is nothing, a
keyword that misses its value, or two hyphens with whatever follows (`Ends`).

`reads_iff` says that the reader and the grammar agree, so that a command line
is read in one way only. The proof needs no look-ahead beyond the piece at hand:
an argument that begins a piece is a keyword, has a keyword joined to it, or
neither, and which of these it is can be told from the argument alone. That
what was read is not read differently when more is written behind it
(`exists_ofArguments_append`) comes out of this.
-/

namespace HtmlMinifier

namespace Text

variable {c : Char} {s : Text}

theorem takeWhile_ne_append (h : c ∉ s) (t : Text) :
    (s ++ c :: t).takeWhile (· != c) = s := by
  have hne : ∀ e ∈ s, (e != c) = true := fun e he => bne_iff_ne.2 fun heq => h (heq ▸ he)
  rw [List.takeWhile_append_of_pos hne]
  simp

theorem dropWhile_ne_append (h : c ∉ s) (t : Text) :
    (s ++ c :: t).dropWhile (· != c) = c :: t := by
  have hne : ∀ e ∈ s, (e != c) = true := fun e he => bne_iff_ne.2 fun heq => h (heq ▸ he)
  rw [List.dropWhile_append_of_pos hne]
  simp

end Text

namespace Keyword

variable {k : Keyword} {s v : Text}

/-- Whether a text is a keyword with a value joined to it: after an equals sign, or directly after a
keyword of one hyphen and one letter. -/
inductive Joins (k : Keyword) : Text → Text → Prop
  | equals (v : Text) : Joins k (k.name.toList ++ '=' :: v) v
  | attached (v : Text) (hk : k.name.toList.length = 2) (hne : v ≠ []) (hv : v.head? ≠ some '=') :
      Joins k (k.name.toList ++ v) v

/-- What a keyword says with a value joined to it. One that asks for a text has no use for it. -/
def itemWith (k : Keyword) (value : String) : Item :=
  match k.purpose with
  | .ask request => .ask request
  | .set field => .set field value

theorem purpose?_eq_none_iff : purpose? s = none ↔ ∀ k ∈ all, k.name.toList ≠ s := by
  rw [purpose?, Option.map_eq_none_iff, List.find?_eq_none]
  simp only [beq_iff_eq, ne_eq]

theorem exists_of_purpose? {p : Purpose} (h : purpose? s = some p) :
    ∃ k ∈ all, k.name.toList = s ∧ k.purpose = p := by
  obtain ⟨k, hk, hp⟩ := Option.map_eq_some_iff.1 h
  have hs := List.find?_some hk
  exact ⟨k, List.mem_of_find?_eq_some hk, beq_iff_eq.1 hs, hp⟩

/-- No two keywords have the same name. -/
theorem purpose?_name : ∀ k ∈ all, purpose? k.name.toList = some k.purpose := by decide

theorem equals_not_mem_name : ∀ k ∈ all, '=' ∉ k.name.toList := by decide

theorem name_ne : ∀ k ∈ all, k.name ≠ "" ∧ k.name ≠ "--" := by decide

/-- A keyword is a hyphen and a letter, or two hyphens, a letter and more. -/
theorem name_cases (hk : k ∈ all) :
    (∃ c, k.name.toList = ['-', c] ∧ c.isAlphanum = true) ∨
    ∃ d name, k.name.toList = '-' :: '-' :: d :: name ∧ d.isAlphanum = true := by
  simp only [all, List.mem_cons, List.not_mem_nil, or_false] at hk
  rcases hk with rfl | rfl | rfl | rfl | rfl | rfl | rfl | rfl | rfl
  all_goals
    first
    | exact Or.inl ⟨_, rfl, rfl⟩
    | exact Or.inr ⟨_, _, rfl, rfl⟩

/-- A keyword with a value joined to it is no keyword. -/
theorem Joins.purpose?_eq_none (hk : k ∈ all) (h : k.Joins s v) : purpose? s = none := by
  rw [purpose?_eq_none_iff]
  intro k' hk' hs
  cases h with
  | equals => exact equals_not_mem_name k' hk' (by simp [hs])
  | attached _ hlen hne =>
      obtain ⟨c, hc, halpha⟩ | ⟨d, name, hname, -⟩ := name_cases hk
      · rw [hc] at hs
        obtain ⟨c', hc', -⟩ | ⟨d', name', hname', -⟩ := name_cases hk'
        · rw [hc'] at hs
          simp_all
        · rw [hname'] at hs
          injection hs with _ hs
          injection hs with hdash
          subst hdash
          cases halpha
      · simp [hname] at hlen

/-- Nor is it empty, or two hyphens. -/
theorem Joins.ne (h : k.Joins s v) : s ≠ [] ∧ s ≠ ['-', '-'] := by
  cases h with
  | equals => constructor <;> exact fun h => absurd (congrArg ('=' ∈ ·) h) (by simp)
  | attached _ hlen hne =>
      constructor <;> exact fun h => absurd (congrArg List.length h) (by simp [hlen, hne])

end Keyword

namespace Item

open Keyword (all purpose?)

variable {k : Keyword} {s v : Text}

theorem ofJoined_name (hk : k ∈ all) (w : Text) :
    ofJoined k.name.toList w = k.itemWith (String.ofList (dropEquals w)) := by
  rw [ofJoined, Keyword.purpose?_name k hk, Keyword.itemWith]
  cases k.purpose <;> rfl

theorem exists_of_ofJoined {name w : Text} (h : ofJoined name w ≠ unknown) :
    ∃ k ∈ all, k.name.toList = name := by
  rw [ofJoined] at h
  cases hp : purpose? name with
  | none => exact absurd (by rw [hp]) h
  | some p =>
      obtain ⟨k, hk, hname, -⟩ := Keyword.exists_of_purpose? hp
      exact ⟨k, hk, hname⟩

theorem dropEquals_of_ne (h : v.head? ≠ some '=') : dropEquals v = v := by
  cases v with
  | nil => rfl
  | cons c v =>
      rw [dropEquals]
      rintro _ ⟨⟩
      exact h rfl

theorem exists_dropWhile_eq (h : '=' ∈ s) : ∃ v, s.dropWhile (· != '=') = '=' :: v := by
  induction s with
  | nil => cases h
  | cons c s ih =>
      rw [List.dropWhile_cons]
      by_cases hc : c = '='
      · exact ⟨s, by simp [hc]⟩
      · rw [if_pos (by simpa using hc)]
        exact ih ((List.mem_cons.1 h).resolve_left (Ne.symm hc))

theorem ofText_short {c : Char} (hc : c.isAlphanum = true) (hv : v ≠ []) :
    ofText ('-' :: c :: v) = ofJoined ['-', c] v := by
  simp [ofText, hv, hc]

theorem ofText_long {d : Char} (hd : d.isAlphanum = true) (h : '=' ∈ d :: v) :
    ofText ('-' :: '-' :: d :: v) =
      ofJoined ('-' :: '-' :: (d :: v).takeWhile (· != '=')) ((d :: v).dropWhile (· != '=')) := by
  have hdash : ('-' : Char).isAlphanum = false := by decide
  simp [ofText, hdash, hd, List.mem_cons.1 h]

theorem ofText_of_joins (hk : k ∈ all) (h : k.Joins s v) :
    ofText s = k.itemWith (String.ofList v) := by
  obtain ⟨c, hc, halpha⟩ | ⟨d, name, hname, halpha⟩ := Keyword.name_cases hk
  · have hshort (w : Text) (hw : w ≠ []) :
        ofText (k.name.toList ++ w) = k.itemWith (String.ofList (dropEquals w)) := by
      rw [← ofJoined_name hk, hc]
      exact ofText_short halpha hw
    cases h with
    | equals => exact hshort _ (by simp)
    | attached _ _ hne hv => rw [hshort _ hne, dropEquals_of_ne hv]
  · cases h with
    | equals =>
        have hnot : '=' ∉ d :: name := by
          have hnot := Keyword.equals_not_mem_name k hk
          rw [hname] at hnot
          exact fun h => hnot (by simp_all)
        rw [hname]
        refine (ofText_long (v := name ++ '=' :: v) halpha (by simp)).trans ?_
        rw [← List.cons_append, Text.takeWhile_ne_append hnot, Text.dropWhile_ne_append hnot,
          ← hname, ofJoined_name hk]
        rfl
    | attached _ hlen => simp [hname] at hlen

theorem exists_joins_of_ofText (h : ofText s ≠ unknown) : ∃ k ∈ all, ∃ v, k.Joins s v := by
  unfold ofText at h
  split at h
  · next c v =>
    split at h
    · exact absurd rfl h
    · next hv =>
      have hv : v ≠ [] := by simpa using hv
      split at h
      · obtain ⟨k, hk, hname⟩ := exists_of_ofJoined h
        by_cases heq : v.head? = some '='
        · obtain ⟨w, rfl⟩ := List.head?_eq_some_iff.1 heq
          refine ⟨k, hk, w, ?_⟩
          have := Keyword.Joins.equals (k := k) w
          rwa [hname] at this
        · refine ⟨k, hk, v, ?_⟩
          have := Keyword.Joins.attached (k := k) v (by rw [hname]; rfl) hv heq
          rwa [hname] at this
      · split at h
        · next d v _ _ =>
          split at h
          · next hd =>
            have heq : '=' ∈ d :: v := List.contains_iff_mem.1 (Bool.and_eq_true_iff.1 hd).2
            obtain ⟨k, hk, hname⟩ := exists_of_ofJoined h
            obtain ⟨w, hw⟩ := exists_dropWhile_eq heq
            refine ⟨k, hk, w, ?_⟩
            have := Keyword.Joins.equals (k := k) w
            rw [hname, List.cons_append, List.cons_append, ← hw, List.takeWhile_append_dropWhile]
              at this
            exact this
          · exact absurd rfl h
        · exact absurd rfl h
  · exact absurd rfl h

theorem ofText_of_not_joins (h : ∀ k ∈ all, ∀ v, ¬ k.Joins s v) : ofText s = unknown := by
  refine Decidable.byContradiction fun hne => ?_
  obtain ⟨k, hk, v, hv⟩ := exists_joins_of_ofText hne
  exact h k hk v hv

/-! ## The grammar -/

/-- What is taken from the front of some arguments, and the item it says. -/
inductive Takes : List Argument → List Item → Prop
  | empty : Takes [.text ""] []
  | ask {k : Keyword} {request : Request} (hk : k ∈ all) (hp : k.purpose = .ask request) :
      Takes [.text k.name] [ask request]
  | set {k : Keyword} {field : Field} (hk : k ∈ all) (hp : k.purpose = .set field)
      (value : String) : Takes [.text k.name, .text value] [set field value]
  | setUndecodable {k : Keyword} {field : Field} (hk : k ∈ all) (hp : k.purpose = .set field) :
      Takes [.text k.name, .undecodable] [unknown]
  | joined {k : Keyword} {s v : Text} (hk : k ∈ all) (h : k.Joins s v) :
      Takes [.text (String.ofList s)] [k.itemWith (String.ofList v)]
  | undecodable : Takes [.undecodable] [unknown]
  | other {s : String} (hempty : s ≠ "") (hdashes : s ≠ "--") (hname : ∀ k ∈ all, k.name ≠ s)
      (hjoins : ∀ k ∈ all, ∀ v, ¬ k.Joins s.toList v) : Takes [.text s] [unknown]

/-- Arguments that can be taken to the last, and the items they say. -/
inductive Whole : List Argument → List Item → Prop
  | nil : Whole [] []
  | cons {piece args : List Argument} {said items : List Item} (h : Takes piece said)
      (hargs : Whole args items) : Whole (piece ++ args) (said ++ items)

/-- What may be left over at the end, and the items it says. -/
inductive Ends : List Argument → List Item → Prop
  | nothing : Ends [] []
  | dashes : Ends [.text "--"] []
  | dangling {k : Keyword} {field : Field} (hk : k ∈ all) (hp : k.purpose = .set field) :
      Ends [.text k.name] []
  | afterDashes (arg : Argument) (args : List Argument) :
      Ends (.text "--" :: arg :: args) [unknown]

/-- The items that some arguments say. -/
def Reads (args : List Argument) (items : List Item) : Prop :=
  ∃ front said rest left, Whole front said ∧ Ends rest left ∧ args = front ++ rest ∧
    items = said ++ left

/-! ## The reader keeps to the grammar -/

theorem exists_of_purpose? {s : String} {p : Purpose} (h : purpose? s.toList = some p) :
    ∃ k ∈ all, k.name = s ∧ k.purpose = p := by
  obtain ⟨k, hk, hname, hp⟩ := Keyword.exists_of_purpose? h
  exact ⟨k, hk, String.toList_inj.1 hname, hp⟩

theorem ofArguments_keyword (hk : k ∈ all) (args : List Argument) :
    ofArguments (.text k.name :: args) =
      match k.purpose with
      | .ask request => ask request :: ofArguments args
      | .set field =>
        match args with
        | [] => []
        | .text value :: args => set field value :: ofArguments args
        | .undecodable :: args => unknown :: ofArguments args := by
  obtain ⟨hempty, hdashes⟩ := Keyword.name_ne k hk
  rw [ofArguments, if_neg (by simpa using hempty), if_neg (by simpa using hdashes),
    Keyword.purpose?_name k hk]
  cases k.purpose with
  | ask => rfl
  | set =>
      cases args with
      | nil => rfl
      | cons arg args => cases arg <;> rfl

theorem ofArguments_ofText {s : String} (hempty : s ≠ "") (hdashes : s ≠ "--")
    (hp : purpose? s.toList = none) (args : List Argument) :
    ofArguments (.text s :: args) = ofText s.toList :: ofArguments args := by
  rw [ofArguments, if_neg (by simpa using hempty), if_neg (by simpa using hdashes), hp]

theorem Takes.ofArguments_append {piece : List Argument} {said : List Item} (h : Takes piece said)
    (args : List Argument) : ofArguments (piece ++ args) = said ++ ofArguments args := by
  cases h with
  | empty => exact ofArguments.eq_3 "" args
  | ask hk hp => exact (ofArguments_keyword hk args).trans (by rw [hp]; rfl)
  | set hk hp value => exact (ofArguments_keyword hk _).trans (by rw [hp]; rfl)
  | setUndecodable hk hp => exact (ofArguments_keyword hk _).trans (by rw [hp]; rfl)
  | @joined k s v hk h =>
      obtain ⟨hempty, hdashes⟩ := h.ne
      have hs : (String.ofList s).toList = s := String.toList_ofList
      refine (ofArguments_ofText ?_ ?_ (by rw [hs, h.purpose?_eq_none hk]) args).trans ?_
      · exact fun h => hempty (by rw [← hs, h]; rfl)
      · exact fun h => hdashes (by rw [← hs, h]; rfl)
      · rw [hs, ofText_of_joins hk h]
        rfl
  | undecodable => rfl
  | @other s hempty hdashes hname hjoins =>
      have hp : purpose? s.toList = none := by
        rw [Keyword.purpose?_eq_none_iff]
        exact fun k hk h => hname k hk (String.toList_inj.1 h)
      rw [List.singleton_append, ofArguments_ofText hempty hdashes hp, ofText_of_not_joins hjoins]
      rfl

theorem Whole.ofArguments_append {front : List Argument} {said : List Item} (h : Whole front said)
    (args : List Argument) : ofArguments (front ++ args) = said ++ ofArguments args := by
  induction h with
  | nil => rfl
  | cons h hargs ih => rw [List.append_assoc, h.ofArguments_append, ih, List.append_assoc]

theorem Ends.ofArguments_eq {rest : List Argument} {left : List Item} (h : Ends rest left) :
    ofArguments rest = left := by
  cases h with
  | nothing => rfl
  | dashes => rfl
  | dangling hk hp => rw [ofArguments_keyword hk, hp]
  | afterDashes arg args => rfl

theorem Reads.take {piece args : List Argument} {said items : List Item} (h : Takes piece said)
    (hargs : Reads args items) : Reads (piece ++ args) (said ++ items) := by
  obtain ⟨front, said', rest, left, hfront, hrest, rfl, rfl⟩ := hargs
  exact ⟨_, _, rest, left, .cons h hfront, hrest, (List.append_assoc ..).symm,
    (List.append_assoc ..).symm⟩

theorem Reads.of_ends {rest : List Argument} {left : List Item} (h : Ends rest left) :
    Reads rest left :=
  ⟨[], [], rest, left, .nil, h, rfl, rfl⟩

theorem reads_ofArguments (args : List Argument) : Reads args (ofArguments args) := by
  fun_induction ofArguments args with
  | case1 => exact .of_ends .nothing
  | case2 args ih => exact .take .undecodable ih
  | case3 s args hs ih =>
      obtain rfl := String.isEmpty_iff.1 hs
      exact .take .empty ih
  | case4 s args hs hdashes hargs =>
      obtain rfl := beq_iff_eq.1 hdashes
      obtain rfl := List.isEmpty_iff.1 hargs
      exact .of_ends .dashes
  | case5 s args hs hdashes hargs =>
      obtain rfl := beq_iff_eq.1 hdashes
      cases args with
      | nil => exact absurd rfl hargs
      | cons arg args => exact .of_ends (.afterDashes arg args)
  | case6 s args hs hdashes request hp ih =>
      obtain ⟨k, hk, rfl, hask⟩ := exists_of_purpose? hp
      exact .take (.ask hk hask) ih
  | case7 s hs hdashes field hp =>
      obtain ⟨k, hk, rfl, hset⟩ := exists_of_purpose? hp
      exact .of_ends (.dangling hk hset)
  | case8 s hs hdashes field hp value args ih =>
      obtain ⟨k, hk, rfl, hset⟩ := exists_of_purpose? hp
      exact .take (.set hk hset value) ih
  | case9 s hs hdashes field hp args ih =>
      obtain ⟨k, hk, rfl, hset⟩ := exists_of_purpose? hp
      exact .take (.setUndecodable hk hset) ih
  | case10 s args hs hdashes hp ih =>
      show Reads ([.text s] ++ args) ([ofText s.toList] ++ ofArguments args)
      refine .take ?_ ih
      rw [Keyword.purpose?_eq_none_iff] at hp
      by_cases hjoins : ∃ k ∈ all, ∃ v, k.Joins s.toList v
      · obtain ⟨k, hk, v, h⟩ := hjoins
        rw [ofText_of_joins hk h, ← String.ofList_toList (s := s)]
        exact .joined hk h
      · have hjoins : ∀ k ∈ all, ∀ v, ¬ k.Joins s.toList v :=
          fun k hk v h => hjoins ⟨k, hk, v, h⟩
        rw [ofText_of_not_joins hjoins]
        exact .other (by simpa using hs) (by simpa using hdashes)
          (fun k hk h => hp k hk (congrArg String.toList h)) hjoins

/-- A command line is read in one way, and the reader reads it so. -/
theorem reads_iff {args : List Argument} {items : List Item} :
    Reads args items ↔ items = ofArguments args := by
  constructor
  · rintro ⟨front, said, rest, left, hfront, hrest, rfl, rfl⟩
    rw [hfront.ofArguments_append, hrest.ofArguments_eq]
  · rintro rfl
    exact reads_ofArguments args

/-- Arguments written behind others add items, and change none of those before. -/
theorem exists_ofArguments_append (args more : List Argument) :
    ∃ items, ofArguments (args ++ more) = ofArguments args ++ items := by
  obtain ⟨front, said, rest, left, hfront, hrest, rfl, hitems⟩ := reads_ofArguments args
  rw [hitems, List.append_assoc, hfront.ofArguments_append]
  cases hrest with
  | nothing => exact ⟨ofArguments more, by rw [List.append_nil]; rfl⟩
  | dashes => exact ⟨ofArguments (.text "--" :: more), by rw [List.append_nil]; rfl⟩
  | @dangling k _ hk hp =>
      exact ⟨ofArguments (.text k.name :: more), by rw [List.append_nil]; rfl⟩
  | afterDashes arg args => exact ⟨[], by rw [List.append_nil]; rfl⟩

end Item

end HtmlMinifier
