import HtmlMinifier.Proofs.DirectoryChain
import HtmlMinifier.Proofs.Reporting

/-!
# Running again

A second run with the same arguments starts from the tree that the first one
left. Where that run failed after its directories were made, it left the tree in
which it failed, and fails there once more. Where it succeeded, a file has been
written since the document was read; as long as this is not the document itself,
the document is the same as before, and so is what it is minified to, and a file
that is put where it stands already changes nothing (`Tree.replace_again`).

Only the making of directories does not always tell the same fault twice, for
the reason given where it is treated. `StopsAtFile` names the runs in question.
-/

namespace HtmlMinifier

namespace Tree

variable {t t' : Tree} {p : Path} {l : Location} {bytes : ByteArray} {e : Entry}

/-! ## Writing again -/

theorem of_replace_eq_ok (h : t.replace p bytes = .ok t') :
    p.fault? = none ∧ p.endsWithSlash = false ∧ t.target p = .ok (some (t.place p)) ∧
      t' = t.put (t.place p) (.file bytes) := by
  have hf : p.fault? = none := by
    cases hf : p.fault? with
    | none => rfl
    | some fault =>
        rw [replace, target, hf] at h
        cases h
  rw [replace] at h
  split at h
  · cases h
  · cases h
  · next l hl =>
    obtain ⟨-, rfl, -⟩ := of_target_eq_ok hl
    split at h
    · cases h
    · split at h
      · cases h
      · next hslash =>
        cases h
        exact ⟨hf, Bool.eq_false_iff.2 hslash, hl, rfl⟩

theorem replace_again (h : t.replace p bytes = .ok t') : t'.replace p bytes = .ok t' := by
  obtain ⟨hf, hslash, htarget, ht'⟩ := of_replace_eq_ok h
  obtain ⟨hfol, hput⟩ := putAt_of_replace h
  have hplace := place_eq hput.home_eq p
  have hget : t'.get? (t.place p) = some (.file bytes) := by
    rw [ht']
    exact Node.get?_put_self t.root (t.place p) (.file bytes)
  have hfol' := hput.follows hfol
  rw [← stepsTo_eq hput.home_eq] at hfol'
  rcases target_of_follows hf hfol' with htarget' | ⟨-, hroot | hdir⟩
  · have hself : t'.put (t.place p) (.file bytes) = t' :=
      congrArg (Tree.mk t'.home) (Node.put_of_get? hget)
    rw [replace, htarget', hplace]
    simp only [hget, hslash, Bool.false_eq_true, if_false, hself]
  · obtain ⟨-, -, k, name, hk, -⟩ := of_target_eq_ok htarget
    rw [hplace, hk] at hroot
    cases List.append_eq_nil_iff.1 hroot with
    | intro _ hname => cases hname
  · rw [hplace, hput.entry_self] at hdir
    cases hdir

/-! ## What is seen from elsewhere -/

theorem PutAt.isDirectory (h : t.PutAt l e t') (hd : t.isDirectory p = true) :
    t'.isDirectory p = true := by
  obtain ⟨hf, hfol, hdir⟩ := isDirectory_iff.1 hd
  rw [isDirectory_iff, stepsTo_eq h.home_eq, place_eq h.home_eq]
  exact ⟨hf, h.follows hfol, h.seen?_eq_directory hdir⟩

theorem PutAt.read (h : t.PutAt l e t') (hne : t.place p ≠ l) (hr : t.read p = .ok bytes) :
    t'.read p = .ok bytes := by
  obtain ⟨hf, hslash, hp⟩ := read_eq_ok_iff.1 hr
  refine read_eq_ok_iff.2 ⟨hf, hslash, ?_, ?_⟩
  · rw [stepsTo_eq h.home_eq]
    exact h.follows hp.follows
  · rw [place_eq h.home_eq, h.entry_of_ne _ hne]
    exact hp.entry

end Tree

namespace Storage

open HtmlMinifier.Tree

variable {t t' : Tree} {p : Path} {text : String} {fault : FileFault}

/-! ## The stages once more -/

theorem run_writeText (p : Path) (text : String) (t : Tree) :
    (writeText p text : StateM Tree (Except FileFault Unit)).run t =
      if t.isDirectory (Path.absolute t.workingDirectory p) then (.error .invalidInput, t)
      else
        match t.replace (Path.absolute t.workingDirectory p) text.toUTF8 with
        | .error fault => (.error fault, t)
        | .ok t' => (.ok (), t') := by
  rw [writeText, run_bind, run_bind]
  show (if t.isDirectory (Path.absolute t.workingDirectory p) then _ else _ :
    StateM Tree (Except FileFault Unit)).run t = _
  split <;> rfl

theorem eq_of_readText {r : Except FileFault String}
    (h : (readText p : StateM Tree _).run t = (r, t')) : t' = t :=
  Settings.tree_eq_of_readText keeps_id h

theorem run_read (p : Path) (t : Tree) :
    (read p : StateM Tree (Except FileFault ByteArray)).run t = (t.read p, t) := rfl

/-- The same bytes are read as the same text. -/
theorem run_readText_of_read {bytes : ByteArray} (h : t.read p = .ok bytes)
    (h' : t'.read p = .ok bytes) :
    (readText p : StateM Tree (Except FileFault String)).run t' =
      (((readText p : StateM Tree (Except FileFault String)).run t).1, t') := by
  rw [readText, run_bind, run_bind, run_read, run_read, h, h']
  simp only
  split <;> rfl

theorem of_writeText_eq_ok
    (h : (writeText p text : StateM Tree _).run t = (.ok (), t')) :
    t.isDirectory (Path.absolute t.workingDirectory p) = false ∧
      t.replace (Path.absolute t.workingDirectory p) text.toUTF8 = .ok t' := by
  rw [run_writeText] at h
  split at h
  · cases h
  · next hd =>
    split at h
    · cases h
    · next hreplace =>
      cases h
      exact ⟨Bool.eq_false_iff.2 hd, hreplace⟩

theorem eq_of_writeText_eq_error
    (h : (writeText p text : StateM Tree _).run t = (.error fault, t')) : t' = t := by
  have hanswers := answers_writeText keeps_id p text t
  rwa [h] at hanswers

/-- What has been written can be written there again, and nothing changes. -/
theorem writeText_again (h : (writeText p text : StateM Tree _).run t = (.ok (), t')) :
    (writeText p text : StateM Tree _).run t' = (.ok (), t') := by
  obtain ⟨-, hreplace⟩ := of_writeText_eq_ok h
  obtain ⟨-, hput⟩ := putAt_of_replace hreplace
  have hhome : t'.workingDirectory = t.workingDirectory := by
    rw [Tree.workingDirectory, Tree.workingDirectory, hput.home_eq]
  have hd : t'.isDirectory (Path.absolute t.workingDirectory p) = false := by
    rw [Bool.eq_false_iff, ne_eq, isDirectory_iff, place_eq hput.home_eq, hput.entry_self]
    rintro ⟨-, -, hdir⟩
    cases hdir
  rw [run_writeText, hhome, hd, replace_again hreplace]
  rfl

end Storage

/-- The working directory of the sample with another file in it. -/
def Tree.withFile : Tree := Tree.sample.put [['w'], ['x']] (.file "1".toUTF8)

namespace Settings

open Storage HtmlMinifier.Tree

variable {s : Settings} {t t' : Tree} {args : List Argument} {tr : Transcript}

/-- Whether a run meets a file above its output directory as something that exists already. -/
def StopsAtFile (args : List Argument) (t : Tree) : Prop :=
  ∃ s t', ofArguments args = .ok s ∧
    s.publishFrom t = (.error (.directory .alreadyExists), t') ∧ t'.Obstructs s.outputDirectory

theorem publishFrom_again_of_ok {v : Savings}
    (hhome : ∀ name ∈ t.home, (PathStep.into name).Proper)
    (hne : t.place s.input ≠ t.place s.outputFile) (h : s.publishFrom t = (.ok v, t')) :
    s.publishFrom t' = (.ok v, t') := by
  have hcourse := (s.publishFrom_eq_iff t _ t').1 h
  rw [publishFrom_eq_iff]
  cases hcourse with
  | @done document t₁ t₂ t₃ hdir hread hpos hwrite =>
      obtain rfl := eq_of_readText hread
      have hgrow := grows_of_ensureDirectory keeps_id hdir
      have hgrowhome : t₂.home = t.home := hgrow.home_eq
      rw [← hgrowhome] at hhome
      rw [← place_eq hgrowhome, ← place_eq hgrowhome] at hne
      obtain ⟨-, hreplace⟩ := of_writeText_eq_ok hwrite
      obtain ⟨-, hput⟩ := putAt_of_replace_absolute hhome (s.stepsTo_outputFile _) hreplace
      have hbytes : t₂.read s.input = .ok document.toUTF8 :=
        read_of_readText keeps_id (congrArg Prod.fst hread)
      have hdir' : (ensureDirectory s.outputDirectory : StateM Tree _).run t' = (.ok (), t') :=
        ensureDirectory_of_stands ((stands_of_ensureDirectory hdir).imp_left hput.isDirectory)
      have hread' : (readText s.input : StateM Tree _).run t' = (.ok document, t') := by
        rw [run_readText_of_read hbytes (hput.read hne hbytes), hread]
      exact .done hdir' hread' hpos (writeText_again hwrite)

theorem publishFrom_again_of_error {halt : Halt} (h : s.publishFrom t = (.error halt, t')) :
    ∃ halt', s.publishFrom t' = (.error halt', t') ∧
      (halt' = halt ∨ halt = .directory .alreadyExists ∧ halt' = .directory .notADirectory ∧
        t'.Obstructs s.outputDirectory) := by
  simp only [publishFrom_eq_iff]
  -- a stage after the first one is reached again in the tree it was reached in
  cases (s.publishFrom_eq_iff t _ t').1 h with
  | directory hdir =>
      obtain ⟨again, hrun, hretell⟩ := ensureDirectory_again_of_error hdir
      refine ⟨.directory again, .directory hrun, ?_⟩
      rcases hretell with rfl | ⟨rfl, rfl, hfile⟩
      · exact Or.inl rfl
      · exact Or.inr ⟨rfl, rfl, hfile⟩
  | reading hdir hread =>
      obtain rfl := eq_of_readText hread
      exact ⟨_, .reading (ensureDirectory_again_of_ok hdir) hread, Or.inl rfl⟩
  | empty hdir hread hempty =>
      obtain rfl := eq_of_readText hread
      exact ⟨_, .empty (ensureDirectory_again_of_ok hdir) hread hempty, Or.inl rfl⟩
  | writing hdir hread hpos hwrite =>
      obtain rfl := eq_of_readText hread
      obtain rfl := eq_of_writeText_eq_error hwrite
      exact ⟨_, .writing (ensureDirectory_again_of_ok hdir) hread hpos hwrite, Or.inl rfl⟩

/-- A run that stops at a file is told of it from below when it is repeated, and has two dots in the
path. -/
theorem publishFrom_again_of_obstructs
    (h : s.publishFrom t = (.error (.directory .alreadyExists), t'))
    (hfile : t'.Obstructs s.outputDirectory) :
    s.publishFrom t' = (.error (.directory .notADirectory), t') ∧
      .up ∈ s.outputDirectory.steps := by
  rw [publishFrom_eq_iff] at h ⊢
  cases h with
  | directory hdir =>
      have hf := fault?_eq_none_of_ensureDirectory hdir
      exact ⟨.directory (ensureDirectory_of_obstructs hf hfile), up_mem_of_obstructs hdir hfile⟩

theorem stopsAtFile_iff {r : Except Halt Savings} (hs : ofArguments args = .ok s)
    (h : s.publishFrom t = (r, t')) :
    StopsAtFile args t ↔
      r = .error (.directory .alreadyExists) ∧ t'.Obstructs s.outputDirectory := by
  constructor
  · rintro ⟨s', u, hs', h', hfile⟩
    obtain rfl := Except.ok.inj (hs.symm.trans hs')
    cases h.symm.trans h'
    exact ⟨rfl, hfile⟩
  · rintro ⟨rfl, hfile⟩
    exact ⟨s, t', hs, h, hfile⟩

theorem run_perform_of_publishFrom {r : Except Halt Savings} (hs : ofArguments args = .ok s)
    (h : s.publishFrom t = (r, t')) :
    (perform args : StateM Tree Transcript).run t =
      (.ofResult (r.map fun savings => ⟨s, savings⟩), t') := by
  rw [run_perform, hs]
  simp only [h]

/-- A run that is repeated in the tree that it left changes nothing, and ends with the same status
and output. Its error is the same as well, unless the run stopped at a file; that file exists
already for the first run and is not a directory for the second. -/
theorem perform_again (hhome : ∀ name ∈ t.home, (PathStep.into name).Proper)
    (hne : ∀ s, ofArguments args = .ok s → t.place s.input ≠ t.place s.outputFile)
    (hrun : (perform args : StateM Tree Transcript).run t = (tr, t')) :
    ∃ again, (perform args : StateM Tree Transcript).run t' = (again, t') ∧
      again.status = tr.status ∧ again.output = tr.output ∧
      (¬ StopsAtFile args t → again = tr) ∧
      (StopsAtFile args t → tr = .ofHalt (.directory .alreadyExists) ∧
        again = .ofHalt (.directory .notADirectory) ∧
        ∀ s, ofArguments args = .ok s → .up ∈ s.outputDirectory.steps) := by
  cases hs : ofArguments args with
  | error halt =>
      rw [run_perform, hs] at hrun
      cases hrun
      refine ⟨.ofHalt halt, ?_, rfl, rfl, fun _ => rfl, ?_⟩
      · rw [run_perform, hs]
      · rintro ⟨s, -, hs', -⟩
        cases hs.symm.trans hs'
  | ok s =>
      have hp : s.publishFrom t = ((s.publishFrom t).1, (s.publishFrom t).2) := rfl
      generalize (s.publishFrom t).1 = r, (s.publishFrom t).2 = u at hp
      rw [run_perform_of_publishFrom hs hp] at hrun
      cases hrun
      rw [stopsAtFile_iff hs hp]
      cases r with
      | ok v =>
          have hp' := publishFrom_again_of_ok hhome (hne s hs) hp
          exact ⟨_, run_perform_of_publishFrom hs hp', rfl, rfl, fun _ => rfl, nofun⟩
      | error halt =>
          by_cases hstop : halt = .directory .alreadyExists ∧ t'.Obstructs s.outputDirectory
          · obtain ⟨rfl, hfile⟩ := hstop
            obtain ⟨hp', hup⟩ := publishFrom_again_of_obstructs hp hfile
            refine ⟨_, run_perform_of_publishFrom hs hp', rfl, rfl, fun hnot => ?_, fun _ => ?_⟩
            · exact absurd ⟨rfl, hfile⟩ hnot
            · refine ⟨rfl, rfl, fun s' hs' => ?_⟩
              obtain rfl := Except.ok.inj hs'
              exact hup
          · obtain ⟨halt', hp', hcases⟩ := publishFrom_again_of_error hp
            obtain rfl : halt' = halt :=
              hcases.resolve_right fun h => hstop ⟨h.1, h.2.2⟩
            refine ⟨_, run_perform_of_publishFrom hs hp', rfl, rfl, fun _ => rfl, fun h => ?_⟩
            exact absurd ⟨Except.error.inj h.1, h.2⟩ hstop

theorem sample_again :
    (perform [] : StateM Tree Transcript).run
        ((perform [] : StateM Tree Transcript).run Tree.sample).2 =
      (perform [] : StateM Tree Transcript).run Tree.sample := by
  have hhome : ∀ name ∈ Tree.sample.home, (PathStep.into name).Proper := by decide
  have hdefault : ofArguments [] = .ok default := by rfl
  have hne : ∀ s, ofArguments [] = .ok s →
      Tree.sample.place s.input ≠ Tree.sample.place s.outputFile := by
    intro s hs
    obtain rfl := Except.ok.inj (hdefault.symm.trans hs)
    decide
  have hrun (x : Transcript × Tree) : x = (x.1, x.2) := rfl
  obtain ⟨again, hagain, -, -, hsame, hstops⟩ := perform_again hhome hne (hrun _)
  have hnot : ¬ StopsAtFile [] Tree.sample := fun h => by
    have hup : .up ∈ (default : Settings).outputDirectory.steps := (hstops h).2.2 _ hdefault
    revert hup
    decide
  rw [hagain, hsame hnot]
  exact (hrun _).symm

/-- The first run makes `new` and comes back through it to a file, which exists; the second one asks
for what would be below that file. -/
theorem perform_again_other_error :
    ¬ ∀ (args : List Argument) (t t' : Tree) (tr : Transcript),
      (∀ name ∈ t.home, (PathStep.into name).Proper) →
        (∀ s, ofArguments args = .ok s → t.place s.input ≠ t.place s.outputFile) →
          (perform args : StateM Tree Transcript).run t = (tr, t') →
            (perform args : StateM Tree Transcript).run t' = (tr, t') := by
  intro h
  have hhome : ∀ name ∈ withFile.home, (PathStep.into name).Proper := by decide
  have hdefault : ofArguments [.text "-o", .text "new/../x/y"] =
      .ok ⟨⟨"index.html"⟩, ⟨"new/../x/y"⟩, .structured⟩ := by rfl
  have hne : ∀ s, ofArguments [.text "-o", .text "new/../x/y"] = .ok s →
      withFile.place s.input ≠ withFile.place s.outputFile := by
    intro s hs
    obtain rfl := Except.ok.inj (hdefault.symm.trans hs)
    decide
  have hother : ((perform [.text "-o", .text "new/../x/y"] : StateM Tree Transcript).run
        ((perform [.text "-o", .text "new/../x/y"] : StateM Tree Transcript).run withFile).2).1 ≠
      ((perform [.text "-o", .text "new/../x/y"] : StateM Tree Transcript).run withFile).1 := by
    decide +kernel
  exact hother (congrArg Prod.fst (h _ _ _ _ hhome hne rfl))

end Settings

end HtmlMinifier
