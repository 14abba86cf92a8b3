import LetLang.Command
import LetLang.Proofs.Evaluation.Failures
import LetLang.Proofs.Session
import Mathlib

/-!
# What the command reports

Whatever goes wrong on the way through the passes is reported by the command, with two exceptions:
a file that is there but of which no text can be had, and a number that is too long to be read or to
be written, end the command instead.
-/

namespace LetLang

/-- No text can be had of the file with the name: no file can have the name, or what the file holds
is not UTF-8. -/
inductive Files.NoText (files : Files) (name : String) : FileError → Prop
  | nul : (Path.ofString name).hasNul = true → NoText files name .nulInPath
  | bytes {bytes : List UInt8} {e : Text.Utf8Error} :
      files.bytesAt (.ofString name) = .ok bytes → Text.decodeText bytes = .error e →
      NoText files name (.undecodable e)

/-- A file that cannot be read is refused by the operating system, or no text can be had of it. -/
theorem Files.refused_or_noText {files : Files} {name : String} {e : FileError}
    (h : files.readText name = .error e) :
    (∃ fault path, e = .refused fault path) ∨ files.NoText name e := by
  unfold readText at h
  dsimp only at h
  split at h
  · next hnul =>
    cases h
    exact .inr (.nul hnul)
  · split at h
    · cases h
      exact .inl ⟨_, _, rfl⟩
    · next bytes hbytes =>
      cases hdecode : Text.decodeText bytes with
      | ok s => simp [hdecode, Except.mapError] at h
      | error cause =>
        obtain rfl : FileError.undecodable cause = e := by
          simpa [hdecode, Except.mapError] using h
        exact .inr (.bytes hbytes hdecode)

namespace Session

variable {P : Failure → Prop}

/-- An arena that is interpreted fails at a stage, reads a file of which no text can be had, or
makes the text of a value that has none. -/
theorem failsOnly_interpret {files : Files} (h : ∀ f, f.stage?.isSome = true → P f)
    (hread : ∀ name e, files.NoText name e → P (.run (.unreadable name e)))
    (hvalue : ∀ v : Value, v.hasText = false → P (.run (.unwritten v))) (hfuel : P .outOfFuel)
    (a : Arena Node) (fuel : Nat) : FailsOnly P (interpret a [] files fuel) := by
  intro t f t' hrun
  rcases interpret_eq_error hrun with ⟨e, he, rfl⟩ | ⟨p, -, ⟨e, he, rfl⟩ | rfl⟩
  · refine h _ ?_
    change e.stage?.isSome = true
    rw [Program.stage?_of_build he]
    rfl
  · by_cases hstage : e.stage?.isSome = true
    · exact h (.run e) hstage
    · have htrue := (Evaluation.truthful_runEntry ⟨a, p, files⟩ fuel).run he
      cases e with
      | unreadable name cause =>
        rcases Files.refused_or_noText (htrue.1 name cause rfl) with ⟨fault, path, rfl⟩ | hnone
        · exact absurd rfl hstage
        · exact hread name cause hnone
      | unwritten v => exact hvalue v (htrue.2 v rfl)
      | _ => exact absurd rfl hstage
  · exact hfuel

end Session

namespace Command

open Session

variable {around : Surroundings} {o : Options}

/-- The failure is about a text that cannot be had or be made. No text can be had of the file that
the options name or of one that the program reads; the source text has a number that is too long to
be read; or there is no text of a value that the program shows, or of the one that the run gives. -/
inductive Unreported (files : Files) (o : Options) : Failure → Prop
  | source {name : String} {e : FileError} : o.file = some name → files.NoText name e →
      Unreported files o (.file e)
  | numeral {t t' : Transcript} {source : String} {e : Text.UnreadNumeral} :
      sourceOf files o t = .ok source t' → tokenize source = .error e →
      Unreported files o (.parse (.numeral e))
  | read {name : String} {e : FileError} : files.NoText name e →
      Unreported files o (.run (.unreadable name e))
  | shown {v : Value} : v.hasText = false → Unreported files o (.run (.unwritten v))
  | given {v : Value} : v.hasText = false → Unreported files o (.unwritten v)

theorem isReported_of_stage? {f : Failure} (h : f.stage?.isSome = true) : isReported f = true := by
  unfold isReported
  split
  · rfl
  · rfl
  · rfl
  · exact h

theorem Unreported.not_reported {files : Files} {f : Failure} (h : Unreported files o f) :
    isReported f = false := by
  cases h with
  | source _ h => cases h <;> rfl
  | read h => cases h <;> rfl
  | numeral | shown | given => rfl

/-- What the command can fail with, as long as it neither writes a file nor opens a window. -/
def Expected (files : Files) (o : Options) (f : Failure) : Prop :=
  f = .outOfFuel ∨ isReported f = true ∨ Unreported files o f

theorem expected_of_stage? {files : Files} {f : Failure} (h : f.stage?.isSome = true) :
    Expected files o f := .inr (.inl (isReported_of_stage? h))

theorem failsOnly_sourceOf (files : Files) (o : Options) :
    FailsOnly (Expected files o) (sourceOf files o) := by
  unfold sourceOf
  split
  · exact .pure _
  · next name hname =>
    split
    · exact .pure _
    · refine failsOnly_lift fun e he => ?_
      rcases Files.refused_or_noText he with ⟨fault, path, rfl⟩ | hnone
      · exact .inr (.inl rfl)
      · exact .inr (.inr (.source hname hnone))

theorem exitText_eq_error {o : Option Value} {f : Failure} (h : exitText o = .error f) :
    ∃ v, f = .unwritten v ∧ v.hasText = false := by
  unfold exitText at h
  split at h
  · cases h
  · split at h
    · cases h
    · next v htext => exact ⟨v, (Except.error.inj h).symm, Bool.eq_false_iff.2 htext⟩

theorem failsOnly_showGraph (hwindow : o.window = false) (houtput : o.output = none)
    (a : Arena Node) : FailsOnly (Expected around.files o) (showGraph around o a) := by
  unfold showGraph
  rw [hwindow, houtput]
  refine .bind (.bind (failsOnly_lift fun e _ => expected_of_stage? rfl) fun graphs => ?_)
    fun graphs => ?_
  · exact (failsOnly_note _ _).bind fun _ => .pure _
  · have hend : FailsOnly (Expected around.files o) (do
        (pure () : Session Unit)
        if false = true then throw .noWindow) := FailsOnly.pure ()
    dsimp only
    split
    · refine .bind (failsOnly_lift fun e _ => expected_of_stage? rfl) fun text => ?_
      exact (failsOnly_print _).bind fun _ => hend
    · exact hend

theorem failsOnly_perform (hwindow : o.window = false) (houtput : o.output = none) :
    FailsOnly (Expected around.files o) (perform around o) := by
  unfold perform
  refine (failsOnly_sourceOf _ _).bindOf fun _ source _ hsource => ?_
  refine .bind (failsOnly_compile (fun f => expected_of_stage?) (fun e he => ?_) o.checked)
    fun c => ?_
  · exact .inr (.inr (.numeral hsource he))
  have hrest : FailsOnly (Expected around.files o) (
      if (o.graph.isSome || o.output.isSome || o.window) = true then
        showGraph around o c.lowered.arena
      else do
        let value ← Session.interpret c.lowered.arena [] around.files around.fuel
        Session.print ("Exit value: " ++ (← Session.lift id (exitText value)) ++ "\n")) := by
    split
    · exact failsOnly_showGraph hwindow houtput _
    · refine .bind ?_ fun value => .bind (failsOnly_lift fun e he => ?_) fun _ => failsOnly_print _
      · exact failsOnly_interpret (fun f => expected_of_stage?)
          (fun _ _ h => .inr (.inr (.read h))) (fun _ h => .inr (.inr (.shown h))) (.inl rfl) _ _
      · obtain ⟨v, rfl, hv⟩ := exitText_eq_error he
        exact .inr (.inr (.given hv))
  dsimp only
  split
  · exact (failsOnly_print _).bind fun _ => hrest
  · exact hrest

/-- The command reports every failure but those about a text that cannot be had or be made. Where
the run of the program is finished, the exit code is 0 if nothing failed; if something failed, it is
1 and the last line printed is the message, unless the failure is about such a text: then the
command does not end with an exit code. -/
theorem run_reports_iff (hwindow : o.window = false) (houtput : o.output = none)
    (hends : (run around o).ending ≠ .escaped .outOfFuel) :
    (∃ t, Session.outcome (perform around o) = (.ok (), t) ∧
      (run around o).ending.exitCode? = some 0 ∧ (run around o).transcript = t) ∨
    ∃ f t, Session.outcome (perform around o) = (.error f, t) ∧
      (¬ Unreported around.files o f → (run around o).ending.exitCode? = some 1 ∧
        (run around o).transcript.printed = t.printed ++ "✗ " ++ f.message ++ "\n") ∧
      (Unreported around.files o f → (run around o).ending = .escaped f ∧
        (run around o).ending.exitCode? = none ∧ (run around o).transcript = t) := by
  have hexpected : FailsOnly (Expected around.files o) (perform around o) :=
    failsOnly_perform hwindow houtput
  unfold run at hends ⊢
  unfold Session.outcome at hends ⊢
  cases hperform : perform around o ⟨"", []⟩ with
  | ok u t => exact .inl ⟨t, rfl, rfl, rfl⟩
  | error f t =>
    refine .inr ⟨f, t, rfl, fun hnot => ?_, fun hescape => ?_⟩
    · have hreported : isReported f = true := by
        rcases hexpected _ f t hperform with rfl | hreported | hescape
        · rw [hperform] at hends
          exact absurd rfl hends
        · exact hreported
        · exact absurd hescape hnot
      simp [hreported, Ending.exitCode?]
    · simp [hescape.not_reported, Ending.exitCode?]

/-- A source file with a byte that begins no character ends the command without a report. -/
theorem undecodable_source_escapes : ∃ o around f,
    Options.ofArguments ["p"] = .ok o ∧ around.files.bytesAt (.ofString "p") = .ok [0xff] ∧
      (run around o).ending = .escaped f ∧ (run around o).ending.exitCode? = none ∧
      (run around o).transcript.printed = "" ∧
      f.message = "'utf-8' codec can't decode byte 0xff in position 0: invalid start byte" := by
  let o : Options := { Options.standard with file := some "p" }
  let files : Files := Files.empty.report "p" (.ok [0xff])
  have hbytes : files.bytesAt (.ofString "p") = .ok [0xff] := by
    simp [files, Files.report, Files.bytesAt]
  have hdecode : Text.decodeText [0xff] = .error ⟨.start, 0xff, 0, 1⟩ := by cbv
  have hread : files.readText "p" = .error (.undecodable ⟨.start, 0xff, 0, 1⟩) := by
    have hnul : (Path.ofString "p").hasNul = false := by cbv
    unfold Files.readText
    simp [hnul, hbytes, hdecode, Except.mapError]
  have hperform : Session.outcome (perform ⟨files, false, 9⟩ o) =
      (.error (.file (.undecodable ⟨.start, 0xff, 0, 1⟩)), ⟨"", []⟩) := by
    have hsource : sourceOf files o ⟨"", []⟩ =
        .error (.file (.undecodable ⟨.start, 0xff, 0, 1⟩)) ⟨"", []⟩ := by
      change Session.lift .file (files.readText "p") _ = _
      rw [hread]
      rfl
    unfold Session.outcome perform
    rw [bind_of_error hsource]
  have hends : (run ⟨files, false, 9⟩ o).ending ≠ .escaped .outOfFuel := by
    unfold run
    rw [hperform]
    rintro ⟨⟩
  rcases run_reports_iff rfl rfl hends with ⟨t, ht, -⟩ | ⟨f, t, hf, -, hescape⟩
  · rw [hperform] at ht
    cases ht
  · rw [hperform] at hf
    cases hf
    obtain ⟨hending, hcode, ht⟩ := hescape (.source rfl (.bytes hbytes hdecode))
    exact ⟨o, ⟨files, false, 9⟩, _, rfl, hbytes, hending, hcode, by rw [ht], by decide⟩

end Command

end LetLang
