import HtmlMinifier.Console
import HtmlMinifier.Proofs.Provenance
import HtmlMinifier.Proofs.TreeGrowth

/-!
# What a run does to the files

Only the last stage of a run writes a file, so a run that ends early has at most
made directories, whichever stage failed and for whatever fault. For a run that
succeeds three trees are to be kept apart: the one that was there, the one with
the directories made, where the document is read, and the one that is left. The
document was there before, since directories only add to a tree, and it may well
stand in the place that is written to; so its text is told from the first tree
and the output from the last (`Published`).

`Course` spells the stages out in their order. It is what the run is proved
equal to, and everything else is read off it.
-/

namespace HtmlMinifier

theorem run_orHalt {σ α : Type} (halt : FileFault → Halt)
    (action : StateM σ (Except FileFault α)) (w : σ) :
    (orHalt halt action).run.run w =
      (match (action.run w).1 with
        | .error fault => .error (halt fault)
        | .ok a => .ok a, (action.run w).2) := by
  show (action >>= _).run w = _
  rw [Storage.run_bind]
  cases (action.run w).1 <;> rfl

/-- What follows a stage is run where the stage left off, and only if it did not fail. -/
theorem run_orHalt_bind {σ α β : Type} (halt : FileFault → Halt)
    (action : StateM σ (Except FileFault α)) (f : α → ExceptT Halt (StateM σ) β) (w : σ) :
    (orHalt halt action >>= f).run.run w =
      match action.run w with
      | (.error fault, w') => (.error (halt fault), w')
      | (.ok a, w') => (f a).run.run w' := by
  rw [ExceptT.run_bind, Storage.run_bind, run_orHalt]
  obtain ⟨r, w'⟩ := action.run w
  cases r <;> rfl

namespace Settings

open Storage

variable {σ : Type} [Storage (StateM σ)]

/-- What a run comes to, and the state it leaves. -/
def publishFrom (s : Settings) (w : σ) : Except Halt Savings × σ :=
  (s.publish : ExceptT Halt (StateM σ) Savings).run.run w

/-- How a run goes: the directory is made sure of, the document is read and must not be empty, and
what it is minified to is written. -/
inductive Course (s : Settings) (w : σ) : Except Halt Savings → σ → Prop
  | directory {fault : FileFault} {w₁ : σ}
      (hdir : (ensureDirectory s.outputDirectory : StateM σ _).run w = (.error fault, w₁)) :
      Course s w (.error (.directory fault)) w₁
  | reading {fault : FileFault} {w₁ w₂ : σ}
      (hdir : (ensureDirectory s.outputDirectory : StateM σ _).run w = (.ok (), w₁))
      (hread : (readText s.input : StateM σ _).run w₁ = (.error fault, w₂)) :
      Course s w (.error (.reading fault)) w₂
  | empty {document : String} {w₁ w₂ : σ}
      (hdir : (ensureDirectory s.outputDirectory : StateM σ _).run w = (.ok (), w₁))
      (hread : (readText s.input : StateM σ _).run w₁ = (.ok document, w₂))
      (hempty : ¬ 0 < document.utf8ByteSize) :
      Course s w (.error .emptyDocument) w₂
  | writing {document : String} {fault : FileFault} {w₁ w₂ w₃ : σ}
      (hdir : (ensureDirectory s.outputDirectory : StateM σ _).run w = (.ok (), w₁))
      (hread : (readText s.input : StateM σ _).run w₁ = (.ok document, w₂))
      (hpos : 0 < document.utf8ByteSize)
      (hwrite : (writeText s.outputFile (minify s.profile document) : StateM σ _).run w₂ =
        (.error fault, w₃)) :
      Course s w (.error (.writing fault)) w₃
  | done {document : String} {w₁ w₂ w₃ : σ}
      (hdir : (ensureDirectory s.outputDirectory : StateM σ _).run w = (.ok (), w₁))
      (hread : (readText s.input : StateM σ _).run w₁ = (.ok document, w₂))
      (hpos : 0 < document.utf8ByteSize)
      (hwrite : (writeText s.outputFile (minify s.profile document) : StateM σ _).run w₂ =
        (.ok (), w₃)) :
      Course s w (.ok ⟨document.utf8ByteSize, (minify s.profile document).utf8ByteSize, hpos⟩) w₃

theorem publishFrom_eq (s : Settings) (w : σ) :
    s.publishFrom w =
      match (ensureDirectory s.outputDirectory : StateM σ _).run w with
      | (.error fault, w₁) => (.error (.directory fault), w₁)
      | (.ok (), w₁) =>
        match (readText s.input : StateM σ _).run w₁ with
        | (.error fault, w₂) => (.error (.reading fault), w₂)
        | (.ok document, w₂) =>
          if hpos : 0 < document.utf8ByteSize then
            match (writeText s.outputFile (minify s.profile document) : StateM σ _).run w₂ with
            | (.error fault, w₃) => (.error (.writing fault), w₃)
            | (.ok (), w₃) =>
              (.ok ⟨document.utf8ByteSize, (minify s.profile document).utf8ByteSize, hpos⟩, w₃)
          else (.error .emptyDocument, w₂) := by
  rw [publishFrom, publish, run_orHalt_bind]
  cases (ensureDirectory s.outputDirectory : StateM σ _).run w with
  | mk r w₁ =>
      cases r with
      | error fault => rfl
      | ok =>
          simp only
          rw [run_orHalt_bind]
          cases (readText s.input : StateM σ _).run w₁ with
          | mk r w₂ =>
              cases r with
              | error fault => rfl
              | ok document =>
                  simp only
                  split
                  · rw [run_orHalt_bind]
                    cases (writeText s.outputFile (minify s.profile document) : StateM σ _).run w₂
                      with
                    | mk r w₃ => cases r <;> rfl
                  · rfl

/-- A run goes one of these ways, and only one. -/
theorem publishFrom_eq_iff (s : Settings) (w : σ) (r : Except Halt Savings) (w' : σ) :
    s.publishFrom w = (r, w') ↔ s.Course w r w' := by
  rw [publishFrom_eq]
  constructor
  · intro h
    split at h
    · next hdir =>
      cases h
      exact .directory hdir
    · next hdir =>
      split at h
      · next hread =>
        cases h
        exact .reading hdir hread
      · next hread =>
        split at h
        · next hpos =>
          split at h
          · next hwrite =>
            cases h
            exact .writing hdir hread hpos hwrite
          · next hwrite =>
            cases h
            exact .done hdir hread hpos hwrite
        · next hempty =>
          cases h
          exact .empty hdir hread hempty
  · intro h
    cases h with
    | directory hdir => rw [hdir]
    | reading hdir hread => rw [hdir]; simp only [hread]
    | empty hdir hread hempty => rw [hdir]; simp only [hread, dif_neg hempty]
    | writing hdir hread hpos hwrite => rw [hdir]; simp only [hread, dif_pos hpos, hwrite]
    | done hdir hread hpos hwrite => rw [hdir]; simp only [hread, dif_pos hpos, hwrite]

/-! ## Sizes -/

theorem Course.savings_eq {s : Settings} {w w' : σ} {v : Savings} (h : s.Course w (.ok v) w') :
    ∃ document, v.before = document.utf8ByteSize ∧
      v.after = (minify s.profile document).utf8ByteSize := by
  cases h with
  | done => exact ⟨_, rfl, rfl⟩

end Settings

theorem utf8ByteSize_minify_le (p : Profile) (document : String) :
    (minify p document).utf8ByteSize +
        (if document.toList.head? = some Document.byteOrderMark then 3 else 0) ≤
      document.utf8ByteSize := by
  have h := Document.byteSize_minify_le p document.toList
  rwa [← toList_minify, Text.byteSize_toList, Text.byteSize_toList] at h

/-- A document does not grow, and loses a byte order mark besides; so no run has saved less than
nothing, whatever the files do. -/
theorem minify_never_grows :
    (∀ (p : Profile) (document : String),
      (minify p document).utf8ByteSize +
          (if document.toList.head? = some Document.byteOrderMark then 3 else 0) ≤
        document.utf8ByteSize) ∧
    ∀ {σ : Type} [Storage (StateM σ)] (s : Settings) (w w' : σ) (v : Savings),
      s.publishFrom w = (.ok v, w') → v.after ≤ v.before := by
  refine ⟨utf8ByteSize_minify_le, fun s w w' v h => ?_⟩
  obtain ⟨document, hb, ha⟩ := ((s.publishFrom_eq_iff w (.ok v) w').1 h).savings_eq
  rw [ha, hb]
  exact (Nat.le_add_right _ _).trans (utf8ByteSize_minify_le s.profile document)

/-- A working directory in which nothing stands but a document. -/
def Tree.sample : Tree :=
  (Tree.empty [['w']]).put [['w'], "index.html".toList] (.file "<p>\n  Hello  \n</p>\n".toUTF8)

/-- The document is written over with what it is minified to. -/
def Settings.inPlace : Settings := ⟨⟨"index.html"⟩, ⟨"."⟩, .aggressive⟩

theorem publishFrom_sample :
    (Settings.inPlace.publishFrom Tree.sample).1 = .ok ⟨19, 14, by decide⟩ := by
  decide +kernel

theorem sample_inPlace_shrinks :
    ∃ v, (Settings.inPlace.publishFrom Tree.sample).1 = .ok v ∧ v.after ≤ v.before :=
  ⟨_, publishFrom_sample,
    minify_never_grows.2 Settings.inPlace Tree.sample _ _ (Prod.ext publishFrom_sample rfl)⟩

namespace Settings

open Storage

/-! ## Files -/

theorem stepsTo_outputFile (s : Settings) (t : Tree) :
    t.stepsTo s.outputFile = t.stepsTo s.outputDirectory ++ [.into "index.html".toList] := by
  have hsteps : s.outputFile.steps = s.outputDirectory.steps ++ [.into "index.html".toList] :=
    Path.steps_join s.outputDirectory "index.html"
  have hslash : s.outputFile.startsWithSlash = s.outputDirectory.startsWithSlash :=
    Path.startsWithSlash_join (Or.inr (by decide))
  rw [Tree.stepsTo, Tree.stepsTo, hsteps, hslash]
  split
  · rfl
  · rw [List.append_assoc]

theorem endsWithSlash_outputFile (s : Settings) : s.outputFile.endsWithSlash = false := by
  have hne : "index.html".toList ≠ [] := by decide
  exact Path.endsWithSlash_join hne

/-- What a run that succeeded has done to a tree, and what it tells of it. The input may lead
through directories that were not there before the run; the file it leads to was. -/
structure Published (s : Settings) (t t' : Tree) (document : String) (v : Savings) : Prop where
  input_follows : t'.Follows [] (t.stepsTo s.input)
  input_entry : t.seen? (t.place s.input) = some (.file document.toUTF8)
  input_read : ∀ bytes, t.read s.input = .ok bytes → bytes = document.toUTF8
  output_holds : t'.Holds s.outputFile (minify s.profile document).toUTF8
  output_read : s.outputFile.fault? = none →
    t'.read s.outputFile = .ok (minify s.profile document).toUTF8
  output_vacant : t.seen? (t.place s.outputFile) ≠ some .directory
  home_eq : t'.home = t.home
  others : ∀ l, l ≠ t.place s.outputFile → t'.seen? l = t.seen? l ∨
    t.seen? l = none ∧ t'.seen? l = some .directory ∧ t.OnWay s.outputDirectory l
  before_eq : v.before = document.utf8ByteSize
  after_eq : v.after = (minify s.profile document).utf8ByteSize

/-- From the tree with the directories made, where the document was read, to the one left. -/
theorem published_of_putAt {s : Settings} {t t₁ t' : Tree} {document : String} {v : Savings}
    (hgrow : t.Grows s.outputDirectory t₁) (hread : t₁.read s.input = .ok document.toUTF8)
    (hfol : t₁.Follows [] (t₁.stepsTo s.outputFile))
    (hput : t₁.PutAt (t₁.place s.outputFile) (.file (minify s.profile document).toUTF8) t')
    (hb : v.before = document.utf8ByteSize)
    (ha : v.after = (minify s.profile document).utf8ByteSize) :
    s.Published t t' document v where
  input_follows := by
    obtain ⟨-, -, hin⟩ := Tree.read_eq_ok_iff.1 hread
    rw [← Tree.stepsTo_eq hgrow.home_eq]
    exact hput.follows hin.follows
  input_entry := hgrow.seen?_place_of_read hread
  input_read _ hbytes := Tree.eq_of_read (hgrow.seen?_place_of_read hread) hbytes
  output_holds := hput.holds hfol
  output_read hfault :=
    Tree.read_eq_ok_iff.2 ⟨hfault, s.endsWithSlash_outputFile, hput.holds hfol⟩
  output_vacant := by
    rw [← Tree.place_eq hgrow.home_eq]
    exact fun hdir => hput.vacant (hgrow.seen?_eq_some hdir)
  home_eq := hput.home_eq.trans hgrow.home_eq
  others := by
    intro l hl
    rw [← Tree.place_eq hgrow.home_eq] at hl
    rw [hput.entry_of_ne l hl]
    exact hgrow.entry_cases l
  before_eq := hb
  after_eq := ha

variable {σ : Type} [Storage (StateM σ)] {tree : σ → Tree} (hkeeps : Keeps tree) {s : Settings}
  {w w' : σ}

include hkeeps

theorem grows_of_ensureDirectory {p : Path} {r : Except FileFault Unit}
    (h : (ensureDirectory p : StateM σ _).run w = (r, w')) : (tree w).Grows p (tree w') := by
  have hgrow := onlyGrows_ensureDirectory hkeeps p w
  rwa [h] at hgrow

theorem tree_eq_of_readText {p : Path} {r : Except FileFault String}
    (h : (readText p : StateM σ _).run w = (r, w')) : tree w' = tree w := by
  have htree := tree_readText hkeeps p w
  rwa [h] at htree

/-- A run that ended early has added directories on the way and done nothing else. -/
theorem Course.grows_of_error {halt : Halt} (h : s.Course w (.error halt) w') :
    (tree w).Grows s.outputDirectory (tree w') := by
  cases h with
  | directory hdir => exact grows_of_ensureDirectory hkeeps hdir
  | reading hdir hread =>
      rw [tree_eq_of_readText hkeeps hread]
      exact grows_of_ensureDirectory hkeeps hdir
  | empty hdir hread =>
      rw [tree_eq_of_readText hkeeps hread]
      exact grows_of_ensureDirectory hkeeps hdir
  | @writing document fault w₁ w₂ w₃ hdir hread hpos hwrite =>
      have h := answers_writeText hkeeps s.outputFile (minify s.profile document) w₂
      rw [hwrite] at h
      rw [show tree w' = tree w₂ from h, tree_eq_of_readText hkeeps hread]
      exact grows_of_ensureDirectory hkeeps hdir

theorem Course.published {v : Savings} (h : s.Course w (.ok v) w')
    (hhome : ∀ name ∈ (tree w).home, (PathStep.into name).Proper) :
    ∃ document, s.Published (tree w) (tree w') document v := by
  cases h with
  | @done document w₁ w₂ w₃ hdir hread hpos hwrite =>
      have hgrow := grows_of_ensureDirectory hkeeps hdir
      have htree := tree_eq_of_readText hkeeps hread
      have hdoc := read_of_readText hkeeps (congrArg Prod.fst hread)
      have hput := answers_writeText hkeeps s.outputFile (minify s.profile document) w₂
      rw [hwrite, htree] at hput
      rw [← hgrow.home_eq] at hhome
      obtain ⟨hfol, hput⟩ :=
        Tree.putAt_of_replace_absolute hhome (s.stepsTo_outputFile _) hput
      exact ⟨document, published_of_putAt hgrow hdoc hfol hput rfl rfl⟩

/-- A run that succeeded has written one file, in its place or over the one there, and has told its
size and that of the document; one that failed has written none, and its error is that of the first
stage that failed. Either may have added directories on the way to the output directory, and has
changed nothing else. Arguments that give no settings leave everything as it was. Of the tree it is
only asked that the names of the working directory can be told apart again in a path. -/
theorem publish_frame (hhome : ∀ name ∈ (tree w).home, (PathStep.into name).Proper) :
    (∀ r w', s.publishFrom w = (r, w') ↔ s.Course w r w') ∧
    (∀ v w', s.publishFrom w = (.ok v, w') →
      ∃ document, s.Published (tree w) (tree w') document v) ∧
    (∀ halt w', s.publishFrom w = (.error halt, w') →
      (tree w).Grows s.outputDirectory (tree w') ∧
        ∀ l bytes, (tree w').seen? l = some (.file bytes) ↔
          (tree w).seen? l = some (.file bytes)) ∧
    ∀ args halt, ofArguments args = .error halt →
      (perform args : StateM σ Transcript).run w = (.ofHalt halt, w) := by
  refine ⟨s.publishFrom_eq_iff w, fun v w' h => ?_, fun halt w' h => ?_, fun args halt h => ?_⟩
  · exact ((s.publishFrom_eq_iff w _ w').1 h).published hkeeps hhome
  · have hgrow := ((s.publishFrom_eq_iff w _ w').1 h).grows_of_error hkeeps
    exact ⟨hgrow, fun l bytes => hgrow.seen?_eq_file_iff⟩
  · rw [perform, runWith, h]
    rfl

end Settings

theorem sample_inPlace_published :
    ∃ document v, Settings.inPlace.Published Tree.sample
      (Settings.inPlace.publishFrom Tree.sample).2 document v := by
  have hhome : ∀ name ∈ Tree.sample.home, (PathStep.into name).Proper := by decide
  obtain ⟨document, h⟩ := (Settings.publish_frame Storage.keeps_id hhome).2.1 _ _
    (Prod.ext publishFrom_sample rfl)
  exact ⟨document, _, h⟩

end HtmlMinifier
