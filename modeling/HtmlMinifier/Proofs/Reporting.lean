import HtmlMinifier.Proofs.PrintedNumbers
import HtmlMinifier.Proofs.Publishing
import HtmlMinifier.Proofs.SettingsChoice

/-!
# What a run tells

A run ends in one of three ways, and what is printed shows which: a text that
was asked for, a report on the document that was written, or one line on what
is wrong. What is printed is spelled out here, label, words and line feed, so it
can be read beside the program's own way of putting lines together.

Two things are proved for this. The way of a run is found by going through it
once (`run_perform`): the arguments give settings or they do not, and settings
lead to savings or to an end of the run. And the sizes can be read off what is
printed. The path of the output directory may have line feeds in it, so the
lines are counted from the end (`linesBack_eq`); on such a line no parenthesis
stands before the one that opens the count, and no blank is in the count itself
(`countIn_sizeText`). Of the floating-point numbers this asks only in which
characters they are written.

The sizes that are read are tied to the tree by `Settings.Published`: one is
that of a file before the run, the other that of a file after it.
-/

namespace HtmlMinifier

theorem not_mem_toList_append {c : Char} {s t : String} (hs : c ∉ s.toList) (ht : c ∉ t.toList) :
    c ∉ (s ++ t).toList := by
  rw [String.toList_append, List.mem_append, not_or]
  exact ⟨hs, ht⟩

/-- The lines of what was printed, the last one first. -/
def linesBack (output : String) : List Text := (output.toList.splitOn '\n').reverse.tail

/-- If what is printed ends with some lines, they can be read off it, whatever comes before. -/
theorem linesBack_eq {output : String} {s : Text} {lines : List Text}
    (houtput : output.toList = s ++ '\n' :: lines.flatMap (· ++ ['\n']))
    (h : ∀ line ∈ lines, '\n' ∉ line) :
    linesBack output = lines.reverse ++ (s.splitOn '\n').reverse := by
  have hsplit : (lines.flatMap (· ++ ['\n'])).splitOn '\n' = lines ++ [[]] := by
    clear houtput
    induction lines with
    | nil => rfl
    | cons line lines ih =>
        obtain ⟨hline, hlines⟩ := List.forall_mem_cons.1 h
        rw [List.flatMap_cons, List.append_assoc, List.singleton_append,
          List.splitOn_append_cons_self, List.splitOn_eq_singleton hline, ih hlines]
        rfl
  rw [linesBack, houtput, List.splitOn_append_cons_self, hsplit, ← List.append_assoc,
    List.reverse_concat, List.tail_cons, List.reverse_append]

namespace Savings

/-- The count of bytes that a line tells: what stands after the parenthesis, up to the next blank,
without the commas. -/
def countIn (line : Text) : Nat :=
  Decimal.ofDigits
    (Decimal.ungrouped (((line.dropWhile (· != '(')).drop 1).takeWhile (· != ' ')))

theorem toList_sizeText (bytes : Nat) :
    (sizeText bytes).toList =
      (fixedFloat 2 (kibibytes bytes)).toList ++ " KiB ".toList ++
        '(' :: (Decimal.grouped bytes ++ ' ' :: "bytes)".toList) := by
  simp [sizeText]

theorem newline_not_mem_sizeText (bytes : Nat) : '\n' ∉ (sizeText bytes).toList := by
  have hfloat := not_mem_fixedFloat (c := '\n') (by decide) (by decide) 2 (kibibytes bytes)
  have hcount := Decimal.not_mem_grouped (c := '\n') (by decide) (by decide) bytes
  simp [toList_sizeText, hfloat, hcount]

theorem countIn_sizeText {label : Text} (h : '(' ∉ label) (bytes : Nat) :
    countIn (label ++ (sizeText bytes).toList) = bytes := by
  have hbefore :
      '(' ∉ label ++ ((fixedFloat 2 (kibibytes bytes)).toList ++ " KiB ".toList) := by
    have hfloat := not_mem_fixedFloat (c := '(') (by decide) (by decide) 2 (kibibytes bytes)
    simp [h, hfloat]
  have hcount : ' ' ∉ Decimal.grouped bytes :=
    Decimal.not_mem_grouped (by decide) (by decide) bytes
  rw [countIn, toList_sizeText, ← List.append_assoc, Text.dropWhile_ne_append hbefore,
    List.drop_one, List.tail_cons, Text.takeWhile_ne_append hcount,
    Decimal.ofDigits_ungrouped_grouped]

end Savings

theorem run_perform {σ : Type} [Storage (StateM σ)] (args : List Argument) (w : σ) :
    (perform args : StateM σ Transcript).run w =
      match Settings.ofArguments args with
      | .error halt => (.ofHalt halt, w)
      | .ok s =>
        (.ofResult ((s.publishFrom w).1.map fun savings => ⟨s, savings⟩), (s.publishFrom w).2) := by
  cases h : Settings.ofArguments args with
  | error halt =>
      rw [perform, runWith, h]
      rfl
  | ok s =>
      rw [perform, runWith, h]
      show ((s.publish >>= fun savings => pure (⟨s, savings⟩ : Outcome) :
        ExceptT Halt (StateM σ) Outcome).run >>= fun r => pure (Transcript.ofResult r)).run w = _
      rw [Storage.run_bind, ExceptT.run_bind, Storage.run_bind]
      show _ = (Transcript.ofResult ((s.publishFrom w).1.map _), (s.publishFrom w).2)
      rw [Settings.publishFrom]
      cases (s.publish : ExceptT Halt (StateM σ) Savings).run.run w with
      | mk r w' => cases r <;> rfl

theorem Halt.not_isRequest_of_publishFrom {σ : Type} [Storage (StateM σ)] {s : Settings} {w w' : σ}
    {halt : Halt} (h : s.publishFrom w = (.error halt, w')) : halt.isRequest = false := by
  cases (s.publishFrom_eq_iff w _ w').1 h <;> rfl

/-- The text that a request asks for. -/
def Request.text : Request → String
  | help => Halt.helpText
  | version => "HTMLPress v0.1.0"

/-- The faults of a file, each with its words. -/
def FileFault.words : List (FileFault × String) := [
  (notFound, "entity not found"),
  (permissionDenied, "permission denied"),
  (alreadyExists, "entity already exists"),
  (notADirectory, "not a directory"),
  (isADirectory, "is a directory"),
  (directoryNotEmpty, "directory not empty"),
  (readOnlyStorage, "read-only filesystem or storage medium"),
  (invalidInput, "invalid input parameter"),
  (invalidData, "invalid data"),
  (storageFull, "no storage space"),
  (invalidName, "invalid filename"),
  (unexpectedEnd, "unexpected end of file"),
  (other, "other error")]

/-- Reads `text` as the words for what is wrong. For a request there are none. -/
inductive Halt.Worded : Halt → String → Prop
  | unexpectedArgument : Worded .unexpectedArgument "Invalid or unexpected CLI argument(s)."
  | unknownProfile :
      Worded .unknownProfile "The profile must be \"structured\" or \"aggressive\"."
  | directory {fault : FileFault} {words : String} (h : (fault, words) ∈ FileFault.words) :
      Worded (.directory fault) ("Unable to create the output directory. (" ++ words ++ ")")
  | reading {fault : FileFault} {words : String} (h : (fault, words) ∈ FileFault.words) :
      Worded (.reading fault) ("Unable to read the input document. (" ++ words ++ ")")
  | emptyDocument : Worded .emptyDocument "The input document is empty."
  | writing {fault : FileFault} {words : String} (h : (fault, words) ∈ FileFault.words) :
      Worded (.writing fault) ("Unable to write the minified document. (" ++ words ++ ")")

theorem FileFault.message_mem_words (fault : FileFault) : (fault, fault.message) ∈ words := by
  cases fault <;> simp [words, message]

theorem Halt.worded_message {halt : Halt} (h : halt.isRequest = false) :
    halt.Worded halt.message := by
  cases halt with
  | help => cases h
  | version => cases h
  | unexpectedArgument => exact .unexpectedArgument
  | unknownProfile => exact .unknownProfile
  | directory fault => exact .directory fault.message_mem_words
  | reading fault => exact .reading fault.message_mem_words
  | emptyDocument => exact .emptyDocument
  | writing fault => exact .writing fault.message_mem_words

namespace Transcript

open Storage

variable {σ : Type} {args : List Argument} {w w' : σ} {t : Transcript}

/-- Whether a text was asked for before anything was wrong, and is all that is printed. -/
def AnswersRequest (args : List Argument) (w : σ) (t : Transcript) (w' : σ) : Prop :=
  ∃ request before after, Item.Reads args (before ++ .ask request :: after) ∧
    (∀ i ∈ before, i.Accepted) ∧ t = ⟨0, request.text ++ "\n", ""⟩ ∧ w' = w

theorem answers_of_request {halt : Halt} (h : Settings.ofArguments args = .error halt)
    (hask : halt.isRequest = true) (w : σ) : AnswersRequest args w (ofHalt halt) w := by
  obtain ⟨before, i, after, hitems, hbefore, hi⟩ := Settings.ofItems_eq_error_iff.1 h
  have hreads : Item.Reads args (before ++ i :: after) := Item.reads_iff.2 hitems.symm
  cases hi with
  | help => exact ⟨.help, before, after, hreads, hbefore, rfl, rfl⟩
  | version => exact ⟨.version, before, after, hreads, hbefore, rfl, rfl⟩
  | profile => cases hask
  | unknown => cases hask

theorem AnswersRequest.ofArguments_eq (h : AnswersRequest args w t w') :
    ∃ halt, Settings.ofArguments args = .error halt := by
  obtain ⟨request, before, after, hreads, hbefore, -, -⟩ := h
  rw [Item.reads_iff] at hreads
  have hi : ∃ halt, Item.Offends (.ask request) halt := by
    cases request
    · exact ⟨_, .help⟩
    · exact ⟨_, .version⟩
  obtain ⟨halt, hi⟩ := hi
  exact ⟨halt, Settings.ofItems_eq_error_iff.2 ⟨before, _, after, hreads.symm, hbefore, hi⟩⟩

theorem AnswersRequest.status_eq (h : AnswersRequest args w t w') : t.status = 0 := by
  obtain ⟨_, _, _, _, _, rfl, _⟩ := h
  rfl

variable [Storage (StateM σ)] {tree : σ → Tree}

/-- What is printed of a document that was written: where it went, how large the file was that was
there before and how large the one is that is there after. -/
structure Report (tree : σ → Tree) (args : List Argument) (w : σ) (t : Transcript) (w' : σ)
    (s : Settings) (v : Savings) (input output : ByteArray) : Prop where
  settings : Settings.ofArguments args = .ok s
  published : s.publishFrom w = (.ok v, w')
  input_entry : (tree w).seen? ((tree w).place s.input) = some (.file input)
  output_holds : (tree w').Holds s.outputFile output
  status_eq : t.status = 0
  errors_eq : t.errors = ""
  output_eq : t.output = String.join [
    "\x1b[1;92mSuccess:\x1b[0m Minification complete.\n",
    "\x1b[1;95mInfo:\x1b[0m Output directory: " ++ s.outputDirectory.text ++ "\n",
    "\x1b[1;95mInfo:\x1b[0m Original size:   " ++
      fixedFloat 2 (Float.ofNat input.size / 1024.0) ++ " KiB (" ++
      String.ofList (Decimal.inThousands input.size) ++ " bytes)\n",
    "\x1b[1;95mInfo:\x1b[0m Compressed size: " ++
      fixedFloat 2 (Float.ofNat output.size / 1024.0) ++ " KiB (" ++
      String.ofList (Decimal.inThousands output.size) ++ " bytes)\n",
    "\x1b[1;95mInfo:\x1b[0m Compression ratio: " ++
      fixedFloat 2 ((Float.ofNat input.size - Float.ofNat output.size) /
        Float.ofNat input.size * 100.0) ++ "%\n"]
  -- The last line tells the ratio, the two before it the sizes.
  count_before : (linesBack t.output)[2]?.map Savings.countIn = some input.size
  count_after : (linesBack t.output)[1]?.map Savings.countIn = some output.size

/-- Whether a document was written, and what is printed is the report on it. -/
def ReportsDocument (tree : σ → Tree) (args : List Argument) (w : σ) (t : Transcript) (w' : σ) :
    Prop :=
  ∃ s v input output, Report tree args w t w' s v input output

/-- Whether something was wrong, and one line says what. -/
def NamesFailure (args : List Argument) (w : σ) (t : Transcript) (w' : σ) : Prop :=
  ∃ halt text, (Settings.ofArguments args = .error halt ∧ w' = w ∨
      ∃ s, Settings.ofArguments args = .ok s ∧ s.publishFrom w = (.error halt, w')) ∧
    halt.Worded text ∧ t = ⟨1, "", "\x1b[1;91mError:\x1b[0m " ++ text ++ "\n"⟩

theorem NamesFailure.status_eq (h : NamesFailure args w t w') : t.status = 1 := by
  obtain ⟨_, _, _, _, rfl⟩ := h
  rfl

/-! ## The lines as they are printed -/

theorem labelled_eq {colour label start : String}
    (h : "\x1b[1;" ++ colour ++ "m" ++ label ++ ":\x1b[0m " = start) (text : String) :
    labelled colour label text = start ++ text ++ "\n" := by
  rw [labelled, h]

theorem successLine_eq (text : String) :
    successLine text = "\x1b[1;92mSuccess:\x1b[0m " ++ text ++ "\n" :=
  labelled_eq (by decide +kernel) text

theorem infoLine_eq (text : String) :
    infoLine text = "\x1b[1;95mInfo:\x1b[0m " ++ text ++ "\n" :=
  labelled_eq (by decide +kernel) text

theorem errorLine_eq (text : String) :
    errorLine text = "\x1b[1;91mError:\x1b[0m " ++ text ++ "\n" :=
  labelled_eq (by decide +kernel) text

theorem infoLine_append (label text : String) :
    infoLine (label ++ text) = "\x1b[1;95mInfo:\x1b[0m " ++ label ++ text ++ "\n" := by
  rw [infoLine_eq, ← String.append_assoc]

theorem infoLine_sizeText (label : String) (bytes : Nat) :
    infoLine (label ++ Savings.sizeText bytes) =
      "\x1b[1;95mInfo:\x1b[0m " ++ label ++ fixedFloat 2 (Savings.kibibytes bytes) ++
        " KiB (" ++ String.ofList (Decimal.inThousands bytes) ++ (" bytes)" ++ "\n") := by
  rw [infoLine_append, Savings.sizeText, Decimal.grouped_eq_inThousands]
  simp only [String.append_assoc]

theorem infoLine_append_append (label text unit : String) :
    infoLine (label ++ text ++ unit) =
      "\x1b[1;95mInfo:\x1b[0m " ++ label ++ text ++ (unit ++ "\n") := by
  rw [infoLine_eq]
  simp only [String.append_assoc]

/-! ## The sizes in a report -/

theorem newline_not_mem_of_summary {v : Savings} {text : String} (h : text ∈ v.summary) :
    '\n' ∉ text.toList := by
  have hbefore : '\n' ∉ "Original size:   ".toList := by decide
  have hafter : '\n' ∉ "Compressed size: ".toList := by decide
  have hratio : '\n' ∉ "Compression ratio: ".toList := by decide
  have hfloat := not_mem_fixedFloat (c := '\n') (by decide) (by decide) 2 v.ratio
  simp only [Savings.summary, List.mem_cons, List.not_mem_nil, or_false] at h
  rcases h with rfl | rfl | rfl
  · exact not_mem_toList_append hbefore (Savings.newline_not_mem_sizeText v.before)
  · exact not_mem_toList_append hafter (Savings.newline_not_mem_sizeText v.after)
  · exact not_mem_toList_append (not_mem_toList_append hratio hfloat) (by decide)

/-- A line of information without its line feed. -/
def infoText (text : String) : Text := ("\x1b[1;95mInfo:\x1b[0m " ++ text).toList

theorem toList_infoLine (text : String) : (infoLine text).toList = infoText text ++ ['\n'] := by
  rw [infoLine_eq, String.toList_append]
  rfl

/-- The last lines of a report are the summary of what was saved. -/
theorem linesBack_ofOutcome (o : Outcome) :
    ∃ first, linesBack (ofOutcome o).output =
      (o.savings.summary.map infoText).reverse ++ first := by
  have hinfo (texts : List String) :
      (texts.map infoLine).flatMap String.toList =
        (texts.map infoText).flatMap (· ++ ['\n']) := by
    rw [List.flatMap_map, List.flatMap_map]
    exact List.flatMap_congr fun text _ => toList_infoLine text
  have houtput : (ofOutcome o).output.toList =
      (successLine "Minification complete.").toList ++
          infoText ("Output directory: " ++ o.settings.outputDirectory.text) ++
        '\n' :: (o.savings.summary.map infoText).flatMap (· ++ ['\n']) := by
    rw [ofOutcome, String.toList_join, List.flatMap_cons, hinfo, List.map_cons, List.flatMap_cons]
    simp only [List.append_assoc, List.singleton_append]
  refine ⟨_, linesBack_eq houtput fun line hline => ?_⟩
  obtain ⟨text, htext, rfl⟩ := List.mem_map.1 hline
  exact not_mem_toList_append (by decide) (newline_not_mem_of_summary htext)

theorem countIn_infoText {label : String} (h : '(' ∉ label.toList) (bytes : Nat) :
    Savings.countIn (infoText (label ++ Savings.sizeText bytes)) = bytes := by
  have hlabel : '(' ∉ ("\x1b[1;95mInfo:\x1b[0m " ++ label).toList :=
    not_mem_toList_append (by decide) h
  rw [infoText, ← String.append_assoc, String.toList_append, Savings.countIn_sizeText hlabel]

theorem report_of_published {s : Settings} {v : Savings} {document : String}
    (hs : Settings.ofArguments args = .ok s) (hv : s.publishFrom w = (.ok v, w'))
    (h : s.Published (tree w) (tree w') document v) :
    Report tree args w (ofOutcome ⟨s, v⟩) w' s v document.toUTF8
      (minify s.profile document).toUTF8 where
  settings := hs
  published := hv
  input_entry := h.input_entry
  output_holds := h.output_holds
  status_eq := rfl
  errors_eq := rfl
  output_eq := by
    show String.join [successLine "Minification complete.",
      infoLine ("Output directory: " ++ s.outputDirectory.text),
      infoLine ("Original size:   " ++ Savings.sizeText v.before),
      infoLine ("Compressed size: " ++ Savings.sizeText v.after),
      infoLine ("Compression ratio: " ++ fixedFloat 2 v.ratio ++ "%")] = _
    rw [successLine_eq, infoLine_append, infoLine_sizeText, infoLine_sizeText,
      infoLine_append_append, Savings.ratio, h.before_eq, h.after_eq]
    simp only [String.reduceAppend]
    rfl
  count_before := by
    obtain ⟨first, hlines⟩ := linesBack_ofOutcome ⟨s, v⟩
    rw [hlines]
    show some (Savings.countIn (infoText ("Original size:   " ++ Savings.sizeText v.before))) = _
    rw [countIn_infoText (by decide), h.before_eq]
    rfl
  count_after := by
    obtain ⟨first, hlines⟩ := linesBack_ofOutcome ⟨s, v⟩
    rw [hlines]
    show some (Savings.countIn (infoText ("Compressed size: " ++ Savings.sizeText v.after))) = _
    rw [countIn_infoText (by decide), h.after_eq]
    rfl

theorem ofHalt_of_not_isRequest {halt : Halt} (h : halt.isRequest = false) :
    ofHalt halt = ⟨1, "", "\x1b[1;91mError:\x1b[0m " ++ halt.message ++ "\n"⟩ := by
  rw [ofHalt, h, ← errorLine_eq]
  rfl

section

variable (hkeeps : Keeps tree)

include hkeeps

/-- A run ends in exactly one of three ways. A text that was asked for is printed and nothing is
touched; or the document is written and the sizes in the report are those of the files; or one line
of error is printed and nothing else. -/
theorem perform_exclusive (hhome : ∀ name ∈ (tree w).home, (PathStep.into name).Proper)
    (hrun : (perform args : StateM σ Transcript).run w = (t, w')) :
    (AnswersRequest args w t w' ∨ ReportsDocument tree args w t w' ∨ NamesFailure args w t w') ∧
      ¬ (AnswersRequest args w t w' ∧ ReportsDocument tree args w t w') ∧
      ¬ (AnswersRequest args w t w' ∧ NamesFailure args w t w') ∧
      ¬ (ReportsDocument tree args w t w' ∧ NamesFailure args w t w') := by
  refine ⟨?_, ?_, ?_, ?_⟩
  · rw [run_perform] at hrun
    cases hs : Settings.ofArguments args with
    | error halt =>
        rw [hs] at hrun
        cases hrun
        cases hask : halt.isRequest with
        | true => exact Or.inl (answers_of_request hs hask w)
        | false =>
            exact Or.inr (Or.inr ⟨halt, _, Or.inl ⟨hs, rfl⟩, Halt.worded_message hask,
              ofHalt_of_not_isRequest hask⟩)
    | ok s =>
        rw [hs] at hrun
        cases hp : s.publishFrom w with
        | mk r u =>
            simp only [hp] at hrun
            cases hrun
            cases r with
            | error halt =>
                have hask := Halt.not_isRequest_of_publishFrom hp
                exact Or.inr (Or.inr ⟨halt, _, Or.inr ⟨s, hs, hp⟩, Halt.worded_message hask,
                  ofHalt_of_not_isRequest hask⟩)
            | ok v =>
                obtain ⟨document, hdoc⟩ :=
                  ((s.publishFrom_eq_iff w _ _).1 hp).published hkeeps hhome
                exact Or.inr (Or.inl ⟨s, v, _, _, report_of_published hs hp hdoc⟩)
  · rintro ⟨hanswers, s, v, input, output, hreports⟩
    obtain ⟨halt, hhalt⟩ := hanswers.ofArguments_eq
    cases hreports.settings.symm.trans hhalt
  · rintro ⟨hanswers, hfails⟩
    cases hanswers.status_eq.symm.trans hfails.status_eq
  · rintro ⟨⟨s, v, input, output, hreports⟩, hfails⟩
    cases hreports.status_eq.symm.trans hfails.status_eq

end

theorem sample_inPlace_reported :
    ReportsDocument id [.text "-o", .text ".", .text "--profile=aggressive"] Tree.sample
      ((perform [.text "-o", .text ".", .text "--profile=aggressive"] :
        StateM Tree Transcript).run Tree.sample).1
      ((perform [.text "-o", .text ".", .text "--profile=aggressive"] :
        StateM Tree Transcript).run Tree.sample).2 := by
  have hhome : ∀ name ∈ Tree.sample.home, (PathStep.into name).Proper := by decide
  have hs : Settings.ofArguments [.text "-o", .text ".", .text "--profile=aggressive"] =
      .ok Settings.inPlace := by rfl
  rcases (perform_exclusive keeps_id hhome rfl).1 with h | h | ⟨halt, text, h, -, -⟩
  · obtain ⟨halt, hhalt⟩ := h.ofArguments_eq
    cases hs.symm.trans hhalt
  · exact h
  · rcases h with ⟨hhalt, -⟩ | ⟨s, hs', hp⟩
    · cases hs.symm.trans hhalt
    · obtain rfl := Except.ok.inj (hs.symm.trans hs')
      cases publishFrom_sample.symm.trans (congrArg Prod.fst hp)

end Transcript

end HtmlMinifier
