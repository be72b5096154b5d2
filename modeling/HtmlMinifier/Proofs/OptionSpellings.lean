import HtmlMinifier.Proofs.SettingsChoice

/-!
# An option can be spelt in any of its ways

A field is set by a short keyword or a long one, and the value is the next
argument, or it is joined to the keyword. Each of these spellings is one piece
of the grammar, and all of them say the same item (`takes_of_mem_spellings`).
Since a piece says its item wherever the reader comes to it, the choice among
them is lost on everything that is read before or after, whatever the value
looks like: a keyword, two hyphens, or nothing.

The reader has to come to it, though. Behind a keyword that still misses its
value the spellings part: the first argument of each is taken for that value,
and they do not begin alike.
-/

namespace HtmlMinifier

/-- The ways to give a keyword this value: in the next argument, after an equals
sign, and directly behind a short keyword. There an empty value would not be
seen, and an equals sign at its start would be lost. -/
def Keyword.spellings (k : Keyword) (value : String) : List (List Argument) :=
  [.text k.name, .text value] :: [.text (k.name ++ "=" ++ value)] ::
    if k.name.toList.length = 2 ∧ value ≠ "" ∧ value.toList.head? ≠ some '=' then
      [[.text (k.name ++ value)]]
    else []

/-- The ways to give a field this value, with each of its keywords. -/
def Field.spellings (field : Field) (value : String) : List (List Argument) :=
  (Keyword.all.filter fun k => k.purpose = .set field).flatMap (·.spellings value)

example : Field.output.spellings "a" =
    [[.text "-o", .text "a"], [.text "-o=a"], [.text "-oa"],
      [.text "--output", .text "a"], [.text "--output=a"]] := by decide

namespace Item

variable {k : Keyword} {field : Field} {value : String} {x : List Argument}

theorem takes_equals (hk : k ∈ Keyword.all) (hp : k.purpose = .set field) (value : String) :
    Takes [.text (k.name ++ "=" ++ value)] [.set field value] := by
  have h := Takes.joined hk (Keyword.Joins.equals (k := k) value.toList)
  have hs : String.ofList (k.name.toList ++ '=' :: value.toList) = k.name ++ "=" ++ value := by
    rw [← String.toList_inj, String.toList_ofList]
    simp
  rwa [hs, String.ofList_toList, Keyword.itemWith, hp] at h

theorem takes_attached (hk : k ∈ Keyword.all) (hp : k.purpose = .set field)
    (hshort : k.name.toList.length = 2) (hne : value ≠ "")
    (heq : value.toList.head? ≠ some '=') :
    Takes [.text (k.name ++ value)] [.set field value] := by
  have hne' : value.toList ≠ [] := fun h => hne (String.toList_eq_nil_iff.1 h)
  have h := Takes.joined hk (Keyword.Joins.attached value.toList hshort hne' heq)
  rwa [← String.toList_append, String.ofList_toList, String.ofList_toList, Keyword.itemWith,
    hp] at h

theorem takes_of_mem_spellings (hx : x ∈ field.spellings value) :
    Takes x [.set field value] := by
  obtain ⟨k, hmem, hxk⟩ := List.mem_flatMap.1 hx
  obtain ⟨hk, hp⟩ := List.mem_filter.1 hmem
  have hp : k.purpose = .set field := of_decide_eq_true hp
  rw [Keyword.spellings, List.mem_cons, List.mem_cons] at hxk
  rcases hxk with rfl | rfl | hxk
  · exact .set hk hp value
  · exact takes_equals hk hp value
  · split at hxk
    · next h =>
      obtain ⟨hshort, hne, heq⟩ := h
      obtain rfl := List.mem_singleton.1 hxk
      exact takes_attached hk hp hshort hne heq
    · cases hxk

end Item

namespace Settings

variable {front x y : List Argument} {said : List Item} {field : Field} {value : String}

/-- An option says its item between what was read before it and what is read after it. -/
theorem ofArguments_option (hfront : Item.Whole front said) (hx : x ∈ field.spellings value)
    (back : List Argument) :
    ofArguments (front ++ x ++ back) =
      ofItems (said ++ .set field value :: Item.ofArguments back) := by
  rw [ofArguments, List.append_assoc, hfront.ofArguments_append,
    (Item.takes_of_mem_spellings hx).ofArguments_append]
  rfl

/-- Behind arguments that can be taken to the last, an option has the same effect in each of its
spellings. -/
theorem ofArguments_spellings (hfront : Item.Whole front said) (hx : x ∈ field.spellings value)
    (hy : y ∈ field.spellings value) (back : List Argument) :
    ofArguments (front ++ x ++ back) = ofArguments (front ++ y ++ back) := by
  rw [ofArguments_option hfront hx, ofArguments_option hfront hy]

theorem ofArguments_spellings_dashes :
    ofArguments ([.text "-i", .text "-h"] ++ [.text "-o--"] ++ [.text "--profile=x"]) =
      ofArguments ([.text "-i", .text "-h"] ++ [.text "--output", .text "--"] ++
        [.text "--profile=x"]) := by
  have hinput : Item.Takes [.text "-i", .text "-h"] [.set .input "-h"] :=
    .set (k := ⟨"-i", .set .input⟩) (by decide) rfl "-h"
  have hattached : [.text "-o--"] ∈ Field.output.spellings "--" := by decide
  have hapart : [.text "--output", .text "--"] ∈ Field.output.spellings "--" := by decide
  exact ofArguments_spellings (.cons hinput .nil) hattached hapart _

/-- Behind a keyword without its value they are not read alike. -/
example : Item.ofArguments [.text "-i", .text "-o", .text "a"] ≠
    Item.ofArguments [.text "-i", .text "-o=a"] := by decide

end Settings

end HtmlMinifier
