import HtmlMinifier.CommandLine.Settings
import HtmlMinifier.Proofs.ArgumentReading

/-!
# Which settings a command line chooses

An item either gives a field a value that can be taken, or ends the run for a
reason of its own; which of the two it is does not depend on the items before
it. So a command line is accepted if all its items are, and refused for the
first one that is not, whatever follows that one.

Of the values given for a field only the last is left, and the items for other
fields in between do not matter. This is proved from the back of the items,
where the last value is (`ofItems_eq_ok_iff`), and the refusal from the front
(`ofItems_eq_error_iff`).
-/

namespace HtmlMinifier

namespace Profile

variable {v : String} {p p' : Profile}

/-- Whether a word names a profile. Blanks around the word do not count, nor do capital letters. -/
def Names (v : String) (p : Profile) : Prop := lowerAscii (Text.trim v.toList) = p.name.toList

theorem Names.eq (h : p.Names v) (h' : p'.Names v) : p = p' := by
  have hname : p.name.toList = p'.name.toList := h.symm.trans h'
  cases p <;> cases p' <;> first | rfl | exact absurd hname (by decide)

theorem ofName?_eq_some_iff : ofName? v = some p ↔ p.Names v := by
  constructor
  · intro h
    rw [ofName?] at h
    split at h
    · next hword =>
      obtain rfl := Option.some.inj h
      exact hword
    · split at h
      · next hword =>
        obtain rfl := Option.some.inj h
        exact hword
      · cases h
  · intro h
    rw [ofName?, show lowerAscii (Text.trim v.toList) = p.name.toList from h]
    cases p <;> rfl

end Profile

namespace Item

variable {i : Item} {halt halt' : Halt} {items : List Item}

/-- Whether an item gives a field a value that can be taken. -/
inductive Accepted : Item → Prop
  | input (v : String) : Accepted (.set .input v)
  | output (v : String) : Accepted (.set .output v)
  | profile {v : String} {p : Profile} (h : p.Names v) : Accepted (.set .profile v)

/-- Whether an item ends the run, and for which reason. -/
inductive Offends : Item → Halt → Prop
  | help : Offends (.ask .help) .help
  | version : Offends (.ask .version) .version
  | profile {v : String} (h : ∀ p : Profile, ¬ p.Names v) :
      Offends (.set .profile v) .unknownProfile
  | unknown : Offends .unknown .unexpectedArgument

theorem accepted_or_offends (i : Item) : i.Accepted ∨ ∃ halt, i.Offends halt := by
  match i with
  | .ask .help => exact Or.inr ⟨_, .help⟩
  | .ask .version => exact Or.inr ⟨_, .version⟩
  | .set .input v => exact Or.inl (.input v)
  | .set .output v => exact Or.inl (.output v)
  | .set .profile v =>
      by_cases h : ∃ p : Profile, p.Names v
      · obtain ⟨p, hp⟩ := h
        exact Or.inl (.profile hp)
      · exact Or.inr ⟨_, .profile fun p hp => h ⟨p, hp⟩⟩
  | .unknown => exact Or.inr ⟨_, .unknown⟩

/-- If not all items are accepted, there is a first that is not. -/
theorem forall_accepted_or (items : List Item) : (∀ i ∈ items, i.Accepted) ∨
    ∃ before i after halt, items = before ++ i :: after ∧ (∀ j ∈ before, j.Accepted) ∧
      i.Offends halt := by
  induction items with
  | nil => exact Or.inl nofun
  | cons i items ih =>
      rcases i.accepted_or_offends with hi | ⟨halt, hi⟩
      · rcases ih with h | ⟨before, j, after, halt, rfl, hbefore, hj⟩
        · exact Or.inl (List.forall_mem_cons.2 ⟨hi, h⟩)
        · exact Or.inr ⟨i :: before, j, after, halt, rfl, List.forall_mem_cons.2 ⟨hi, hbefore⟩, hj⟩
      · exact Or.inr ⟨[], i, items, halt, rfl, nofun, hi⟩

/-- The value that an item gives a field. -/
def value? (field : Field) : Item → Option String
  | .set f v => if f = field then some v else none
  | _ => none

/-- The last value that some items give a field. -/
def lastValue? (field : Field) (items : List Item) : Option String :=
  (items.filterMap (value? field)).getLast?

theorem lastValue?_concat (field : Field) (items : List Item) (i : Item) :
    lastValue? field (items ++ [i]) = (i.value? field).or (lastValue? field items) := by
  rw [lastValue?, List.filterMap_append, List.getLast?_append]
  cases h : i.value? field <;> simp [lastValue?, h]

end Item

namespace Settings

variable {s s' : Settings} {i : Item} {halt : Halt} {items : List Item}

/-- Whether settings are those that some accepted items choose: the last value for each field, or
what it is without one. -/
structure Chosen (s : Settings) (items : List Item) : Prop where
  input_eq : s.input.text = (Item.lastValue? .input items).getD "index.html"
  output_eq : s.outputDirectory.text = (Item.lastValue? .output items).getD "docs"
  profile_default : Item.lastValue? .profile items = none → s.profile = .structured
  profile_names : ∀ v, Item.lastValue? .profile items = some v → s.profile.Names v

theorem Chosen.eq (h : s.Chosen items) (h' : s'.Chosen items) : s = s' := by
  obtain ⟨⟨input⟩, ⟨output⟩, profile⟩ := s
  obtain ⟨⟨input'⟩, ⟨output'⟩, profile'⟩ := s'
  obtain rfl : input = input' := h.input_eq.trans h'.input_eq.symm
  obtain rfl : output = output' := h.output_eq.trans h'.output_eq.symm
  obtain rfl : profile = profile' := by
    cases hv : Item.lastValue? .profile items with
    | none => exact (h.profile_default hv).trans (h'.profile_default hv).symm
    | some v => exact (h.profile_names v hv).eq (h'.profile_names v hv)
  rfl

/-- An accepted item puts its value in the place of those before. -/
theorem Chosen.add (h : s.Chosen items) (hi : i.Accepted) :
    ∃ s', s.add i = .ok s' ∧ s'.Chosen (items ++ [i]) := by
  obtain ⟨hinput, houtput, hdefault, hnames⟩ := h
  cases hi with
  | input v =>
      refine ⟨_, rfl, ?_, ?_, ?_, ?_⟩ <;> rw [Item.lastValue?_concat]
      · rfl
      · exact houtput
      · exact hdefault
      · exact hnames
  | output v =>
      refine ⟨_, rfl, ?_, ?_, ?_, ?_⟩ <;> rw [Item.lastValue?_concat]
      · exact hinput
      · rfl
      · exact hdefault
      · exact hnames
  | @profile v p hp =>
      have hset : s.add (.set .profile v) = .ok { s with profile := p } := by
        rw [Settings.add, Settings.set, Profile.ofName?_eq_some_iff.2 hp]
      refine ⟨_, hset, ?_, ?_, ?_, ?_⟩ <;> rw [Item.lastValue?_concat]
      · exact hinput
      · exact houtput
      · exact nofun
      · rintro _ ⟨⟩
        exact hp

theorem add_of_offends (h : i.Offends halt) (s : Settings) : s.add i = .error halt := by
  cases h with
  | help => rfl
  | version => rfl
  | @profile v h =>
      have hnone : Profile.ofName? v = none := by
        rw [Option.eq_none_iff_forall_not_mem]
        exact fun p hp => h p (Profile.ofName?_eq_some_iff.1 hp)
      rw [Settings.add, Settings.set, hnone]
  | unknown => rfl

theorem ofItems_append (items items' : List Item) :
    ofItems (items ++ items') = ofItems items >>= fun s => items'.foldlM add s :=
  List.foldlM_append

/-- Accepted items, one after another, lead from settings that are chosen to others that are. -/
theorem Chosen.foldlM (h : s.Chosen items) {more : List Item} (hmore : ∀ i ∈ more, i.Accepted) :
    ∃ s', more.foldlM Settings.add s = .ok s' ∧ s'.Chosen (items ++ more) := by
  induction more generalizing s items with
  | nil => exact ⟨s, rfl, (List.append_nil items).symm ▸ h⟩
  | cons i more ih =>
      obtain ⟨hi, hmore⟩ := List.forall_mem_cons.1 hmore
      obtain ⟨u, hadd, hu⟩ := h.add hi
      obtain ⟨s', hs', hchosen⟩ := ih hu hmore
      rw [List.append_assoc] at hchosen
      refine ⟨s', ?_, hchosen⟩
      rw [List.foldlM_cons, hadd]
      exact hs'

theorem chosen_default : default.Chosen [] := ⟨rfl, rfl, fun _ => rfl, nofun⟩

theorem exists_chosen (h : ∀ i ∈ items, i.Accepted) :
    ∃ s, ofItems items = .ok s ∧ s.Chosen items :=
  chosen_default.foldlM h

theorem ofItems_of_offends {before after : List Item} (hbefore : ∀ j ∈ before, j.Accepted)
    (hi : i.Offends halt) : ofItems (before ++ i :: after) = .error halt := by
  obtain ⟨s, hs, -⟩ := exists_chosen hbefore
  rw [ofItems_append, hs]
  show (i :: after).foldlM add s = _
  rw [List.foldlM_cons, add_of_offends hi]
  rfl

/-- Items give settings if all of them are accepted, and then those that they choose. -/
theorem ofItems_eq_ok_iff :
    ofItems items = .ok s ↔ (∀ i ∈ items, i.Accepted) ∧ s.Chosen items := by
  constructor
  · intro h
    rcases Item.forall_accepted_or items with hall | ⟨before, i, after, halt, rfl, hbefore, hi⟩
    · obtain ⟨s', hs', hchosen⟩ := exists_chosen hall
      obtain rfl := Except.ok.inj (h.symm.trans hs')
      exact ⟨hall, hchosen⟩
    · cases h.symm.trans (ofItems_of_offends hbefore hi)
  · rintro ⟨hall, hchosen⟩
    obtain ⟨s', hs', hchosen'⟩ := exists_chosen hall
    rw [hs', hchosen'.eq hchosen]

/-- Items that give no settings are refused for the first one that is not accepted. -/
theorem ofItems_eq_error_iff :
    ofItems items = .error halt ↔ ∃ before i after, items = before ++ i :: after ∧
      (∀ j ∈ before, j.Accepted) ∧ i.Offends halt := by
  constructor
  · intro h
    rcases Item.forall_accepted_or items with hall | ⟨before, i, after, halt', rfl, hbefore, hi⟩
    · obtain ⟨s, hs, -⟩ := exists_chosen hall
      cases h.symm.trans hs
    · obtain rfl := Except.error.inj (h.symm.trans (ofItems_of_offends hbefore hi))
      exact ⟨before, i, after, rfl, hbefore, hi⟩
  · rintro ⟨before, i, after, rfl, hbefore, hi⟩
    exact ofItems_of_offends hbefore hi

/-- What is written behind a command line that is refused does not change the reason. -/
theorem ofArguments_append_of_error {args : List Argument} (h : ofArguments args = .error halt)
    (more : List Argument) : ofArguments (args ++ more) = .error halt := by
  obtain ⟨items, hitems⟩ := Item.exists_ofArguments_append args more
  rw [ofArguments] at h ⊢
  rw [hitems, ofItems_append, h]
  rfl

/-- A command line is read in one way. It gives settings if all that it says is accepted, and then
the last value said for each field; if not, it is refused for the first item that is not accepted,
and so is every longer one that starts with it. -/
theorem ofArguments_grammar (args : List Argument) :
    ∃ items, (∀ items', Item.Reads args items' ↔ items' = items) ∧
      (∀ s, ofArguments args = .ok s ↔ (∀ i ∈ items, i.Accepted) ∧ s.Chosen items) ∧
      (∀ halt, ofArguments args = .error halt ↔ ∃ before i after, items = before ++ i :: after ∧
        (∀ j ∈ before, j.Accepted) ∧ i.Offends halt) ∧
      ∀ halt, ofArguments args = .error halt →
        ∀ more, ofArguments (args ++ more) = .error halt := by
  refine ⟨Item.ofArguments args, fun items' => Item.reads_iff, fun s => ?_, fun halt => ?_,
    fun halt h more => ofArguments_append_of_error h more⟩
  · exact ofItems_eq_ok_iff
  · exact ofItems_eq_error_iff

example : ofArguments [.text "-i", .text "--", .text "--output=a", .text "-i=b"] =
    .ok ⟨⟨"b"⟩, ⟨"a"⟩, .structured⟩ := by rfl

/-! ## A missing value -/

/-- A keyword that misses its value at the very end is passed over in silence. -/
theorem ofArguments_dangling {args : List Argument} {k : Keyword} {field : Field}
    (hargs : Item.Whole args items) (hs : ofArguments args = .ok s) (hk : k ∈ Keyword.all)
    (hp : k.purpose = .set field) : ofArguments (args ++ [.text k.name]) = .ok s := by
  have hitems : Item.ofArguments args = items := by
    have happend := hargs.ofArguments_append []
    rw [List.append_nil] at happend
    exact happend.trans (List.append_nil items)
  have hend := (Item.Ends.dangling hk hp).ofArguments_eq
  rw [ofArguments, hargs.ofArguments_append, hend, List.append_nil, ← hitems]
  exact hs

theorem ofArguments_dangling_input :
    ofArguments ([.text "--profile", .text " Aggressive"] ++ [.text "-i"]) =
      .ok ⟨⟨"index.html"⟩, ⟨"docs"⟩, .aggressive⟩ := by
  have hprofile : Item.Takes [.text "--profile", .text " Aggressive"]
      [.set .profile " Aggressive"] :=
    .set (k := ⟨"--profile", .set .profile⟩) (by decide) rfl " Aggressive"
  exact ofArguments_dangling (k := ⟨"-i", .set .input⟩) (.cons hprofile .nil) (by rfl)
    (by decide) rfl

/-- It is not refused, then. -/
theorem dangling_not_refused :
    ¬ ∀ (args : List Argument) (items : List Item) (s : Settings) (k : Keyword) (field : Field),
      Item.Whole args items → ofArguments args = .ok s → k ∈ Keyword.all →
        k.purpose = .set field →
          ofArguments (args ++ [.text k.name]) = .error .unexpectedArgument := by
  intro h
  have hrefused := h [] [] default ⟨"-i", .set .input⟩ .input .nil rfl (by decide) rfl
  have hdefault : ofArguments [.text "-i"] = .ok default := by rfl
  cases hdefault.symm.trans hrefused

end Settings

end HtmlMinifier
