import OpsLang.Proofs.Agreement
import OpsLang.Proofs.Json.Trees
import OpsLang.Proofs.Rereading.File

/-!
# The verdict of the commands

`parse`, `fmt` and `check` end with the same code on the same file, whatever options they are
given (`run_agrees`). Each of them comes down to the strict reading of the text
(`parseSource_cases`) : `check` may read with recovery, which reports nothing exactly where the
strict reading accepts (`checkFindings_of_accepted`, `checkFindings_of_refused`).

`fmt --check` compares a text with the canonical text of its file. A canonical text is that of
the file it is read as, so what `fmt` writes passes.
-/

namespace OpsLang

/-! ## Requests for a file -/

/-- The arguments ask for the command, and for the format of answers if they name one. They
name no settings. -/
def Asks (args : List String) (output : Option OutputFormat) (c : Command) : Prop :=
  ∃ quiet verbose, Request.ofArgs args = .ok ⟨output, quiet, verbose, none, c⟩

namespace Files

/-- The file at a path holds a text. -/
def Holds (files : Files) (path text : String) : Prop :=
  files path = .ok text.toUTF8

/-- There are no settings. -/
def Unset (files : Files) : Prop :=
  ∃ reason, files settingsPath = .error reason

end Files

section Requests

variable {files : Files} {path text : String} {args : List String} {output : Option OutputFormat}

theorem fromUTF8?_toUTF8 (s : String) : String.fromUTF8? s.toUTF8 = some s := by
  simp only [String.fromUTF8?, String.toUTF8_eq_toByteArray]
  rw [dif_pos s.isValidUTF8]
  rfl

theorem readText_of_holds (h : files.Holds path text) : readText files path = .ok text := by
  rw [readText, h]
  simp only [fromUTF8?_toUTF8]

theorem withText_of_holds (h : files.Holds path text) (m : Manner) (f : String → Answer) :
    withText files m path f = f text := by
  rw [withText, readText_of_holds h]

/-- Without settings a request is answered by its command, in some manner. -/
theorem run_of_asks {c : Command} (hset : files.Unset) (h : Asks args output c) :
    ∃ quiet, run files args = c.answer files ⟨output.getD .text, quiet⟩ .standard := by
  obtain ⟨reason, hreason⟩ := hset
  obtain ⟨quiet, verbose, hargs⟩ := h
  refine ⟨quiet, ?_⟩
  simp [run, hargs, Request.answer, loadSettings, hreason, Settings.standard]

end Requests

/-! ## Verdicts on a text -/

section Texts

variable {text : String} {f : SourceFile} {d : Diagnostic}

/-- The strict reading of a text accepts or refuses. -/
theorem parseSource_cases (text : String) :
    (∃ f, parseSource text = .accepted f) ∨ ∃ d, parseSource text = .refused d := by
  rw [parseSource, ofText]
  cases hts : tokenize text with
  | ok ts => exact parseFile_cases (endsOnce_of_tokenize hts)
  | error d => exact .inr ⟨d, rfl⟩

/-- On an accepted text `check` finds the file, and nothing to report. -/
theorem checkFindings_of_accepted (h : parseSource text = .accepted f) (recover : Bool)
    (maxErrors : Nat) : checkFindings recover maxErrors text = (f, []) := by
  cases recover with
  | false => simp [checkFindings, h]
  | true =>
    rw [parseSource, ofText] at h
    cases hts : tokenize text with
    | ok ts =>
      rw [hts] at h
      simp [checkFindings, recoverSource, ofText, hts, recoverFile_of_accepted h]
    | error d =>
      rw [hts] at h
      cases h

/-- On a refused text the first report of `check` is the fault. -/
theorem checkFindings_of_refused (h : parseSource text = .refused d) (recover : Bool)
    (maxErrors : Nat) : (checkFindings recover maxErrors text).2.head? = some d := by
  cases recover with
  | false => simp [checkFindings, h]
  | true =>
    rw [parseSource, ofText] at h
    cases hts : tokenize text with
    | ok ts =>
      rw [hts] at h
      obtain ⟨r, hr, hd⟩ := recoverFile_of_refused (endsOnce_of_tokenize hts) h maxErrors
      simp [checkFindings, recoverSource, ofText, hts, hr, hd]
    | error d' =>
      rw [hts] at h
      cases h
      simp [checkFindings, recoverSource, ofText, hts]

theorem isEmpty_checkFindings_of_refused (h : parseSource text = .refused d) (recover : Bool)
    (maxErrors : Nat) : (checkFindings recover maxErrors text).2.isEmpty = false := by
  rw [List.isEmpty_eq_false_iff, ← List.isSome_head?, checkFindings_of_refused h]
  rfl

end Texts

/-! ## Answers about a text -/

section Answers

variable {text : String} (m : Manner) (path : String) (recover : Bool) (maxErrors : Nat)

theorem code_checkAnswer : (checkAnswer m path recover maxErrors text).code =
    if (checkFindings recover maxErrors text).2.isEmpty then 0 else 1 := by
  rw [checkAnswer]
  cases m.output
  · dsimp only
    split
    · rfl
    · split <;> simp [*]
  · rfl

theorem out_checkAnswer (hm : m.output = .json) :
    (checkAnswer m path recover maxErrors text).out =
      onLine (checkReport path (checkFindings recover maxErrors text).2).pretty := by
  rw [checkAnswer, hm]

theorem whole_report (d : Diagnostic) : d.report.Whole := by
  obtain ⟨kind, message, span, expected, found⟩ := d
  have hexpected := Json.whole_strings expected
  cases found <;>
    simp [Diagnostic.report, Json.Whole, Json.MembersWhole, Json.nat, Json.stringOrNull, hexpected]

theorem whole_checkReport (ds : List Diagnostic) : (checkReport path ds).Whole :=
  ⟨Json.allWhole_map fun d _ => whole_report d, trivial, trivial, trivial⟩

theorem truthAt?_checkReport (ds : List Diagnostic) :
    (checkReport path ds).truthAt? "ok" = some ds.isEmpty := by
  simp [checkReport, Json.truthAt?, Json.member?]

/-- The report of `check` can be read, and is `ok` with code 0 only. -/
theorem report_checkAnswer (hm : m.output = .json) : ∃ report,
    Json.ofText? (checkAnswer m path recover maxErrors text).out = some report ∧
      report.truthAt? "ok" = some ((checkAnswer m path recover maxErrors text).code == 0) := by
  rw [out_checkAnswer m path recover maxErrors hm, code_checkAnswer]
  refine ⟨_, Json.ofText?_onLine (whole_checkReport path _), ?_⟩
  rw [truthAt?_checkReport]
  split <;> simp [*]

/-- The text of an accepted file is in canonical form. -/
theorem code_fmtAnswer_text {f : SourceFile} (h : parseSource text = .accepted f) :
    (fmtAnswer m path true f.text).code = 0 := by
  obtain ⟨g, hg, hlines⟩ := exists_parseSource_text h
  simp [fmtAnswer, withVerdict, hg, SourceFile.text_eq_of_unlined hlines, Answer.done]

/-- A text in canonical form is that of the file it is read as. -/
theorem text_eq_of_code_fmtAnswer (h : (fmtAnswer m path true text).code = 0) :
    ∃ f, parseSource text = .accepted f ∧ f.text = text := by
  obtain ⟨f, hf⟩ | ⟨d, hd⟩ := parseSource_cases text
  · refine ⟨f, hf, ?_⟩
    by_contra hne
    simp [fmtAnswer, withVerdict, hf, hne, Answer.failed] at h
  · simp [fmtAnswer, withVerdict, hd, Answer.failed] at h

end Answers

/-! ## Agreement -/

section Agreement

variable {files : Files} {path text : String}

/-- On the same file `parse`, `fmt` and `check` all end with code 0 or all with code 1, whatever
options they are given. Then `parse` and `fmt` write nothing to standard output, and the JSON
report of `check` is `ok` with code 0 only. What `fmt` writes with code 0 passes `fmt --check`
from any file, and what passes it is what `fmt` would write. -/
theorem run_agrees (hfile : files.Holds path text) (hset : files.Unset)
    {parseArgs fmtArgs checkArgs confirmArgs : List String} {o₁ o₂ o₃ o₄ : Option OutputFormat}
    {recover : Bool} {maxErrors : Option Nat} (hparse : Asks parseArgs o₁ (.parse path))
    (hfmt : Asks fmtArgs o₂ (.fmt path false))
    (hcheck : Asks checkArgs o₃ (.check path recover maxErrors))
    (hconfirm : Asks confirmArgs o₄ (.fmt path true)) :
    let parse := run files parseArgs
    let fmt := run files fmtArgs
    let check := run files checkArgs
    ((parse.code = 0 ∧ fmt.code = 0 ∧ check.code = 0) ∨
        (parse.code = 1 ∧ fmt.code = 1 ∧ check.code = 1 ∧ parse.out = "" ∧ fmt.out = "")) ∧
      (o₃ = some .json → ∃ report, Json.ofText? check.out = some report ∧
        report.truthAt? "ok" = some (check.code == 0)) ∧
      (fmt.code = 0 → ∀ {files' path' args' o'}, Files.Holds files' path' fmt.out →
        Files.Unset files' → Asks args' o' (.fmt path' true) → (run files' args').code = 0) ∧
      ((run files confirmArgs).code = 0 → fmt.code = 0 ∧ fmt.out = text) := by
  intro parse fmt check
  obtain ⟨q₁, hrun₁⟩ := run_of_asks hset hparse
  obtain ⟨q₂, hrun₂⟩ := run_of_asks hset hfmt
  obtain ⟨q₃, hrun₃⟩ := run_of_asks hset hcheck
  obtain ⟨q₄, hrun₄⟩ := run_of_asks hset hconfirm
  simp only [Command.answer, withText_of_holds hfile] at hrun₁ hrun₂ hrun₃ hrun₄
  refine ⟨?codes, ?report, ?written, ?canonical⟩
  case codes =>
    simp only [parse, fmt, check, hrun₁, hrun₂, hrun₃, code_checkAnswer]
    obtain ⟨f, hf⟩ | ⟨d, hd⟩ := parseSource_cases text
    · left
      simp [parseAnswer, fmtAnswer, withVerdict, hf, Answer.done, checkFindings_of_accepted hf]
    · right
      simp [parseAnswer, fmtAnswer, withVerdict, hd, Answer.failed,
        isEmpty_checkFindings_of_refused hd]
  case report =>
    rintro rfl
    simp only [check, hrun₃]
    exact report_checkAnswer _ path _ _ rfl
  case written =>
    intro hcode files' path' args' o' hfile' hset' hask
    obtain ⟨q, hrun⟩ := run_of_asks hset' hask
    simp only [Command.answer, withText_of_holds hfile'] at hrun
    obtain ⟨f, hf⟩ | ⟨d, hd⟩ := parseSource_cases text
    · have hout : fmt.out = f.text := by
        simp [fmt, hrun₂, fmtAnswer, withVerdict, hf, Answer.done]
      rw [hrun, hout]
      exact code_fmtAnswer_text _ path' hf
    · simp [fmt, hrun₂, fmtAnswer, withVerdict, hd, Answer.failed] at hcode
  case canonical =>
    intro hcode
    rw [hrun₄] at hcode
    obtain ⟨f, hf, htext⟩ := text_eq_of_code_fmtAnswer _ path hcode
    simp [fmt, hrun₂, fmtAnswer, withVerdict, hf, htext, Answer.done]

/-- A file that `fmt` would write in another way, with options before the commands and behind
them. -/
theorem run_agrees_spaced :
    let text := "procedure P main a( b ) end main end procedure"
    let files : Files := fun path => if path = "p.ops" then .ok text.toUTF8 else .error "none"
    let parse := run files ["--quiet", "parse", "p.ops"]
    let fmt := run files ["fmt", "p.ops", "--output", "json"]
    let check := run files ["--output=json", "check", "--recover", "--max-errors", "3", "p.ops"]
    files.Holds "p.ops" text ∧ files.Unset ∧
      Asks ["--quiet", "parse", "p.ops"] none (.parse "p.ops") ∧
      Asks ["fmt", "p.ops", "--output", "json"] (some .json) (.fmt "p.ops" false) ∧
      Asks ["--output=json", "check", "--recover", "--max-errors", "3", "p.ops"] (some .json)
        (.check "p.ops" true (some 3)) ∧
      Asks ["fmt", "--check", "p.ops"] none (.fmt "p.ops" true) ∧
      ((parse.code = 0 ∧ fmt.code = 0 ∧ check.code = 0) ∨
        (parse.code = 1 ∧ fmt.code = 1 ∧ check.code = 1 ∧ parse.out = "" ∧ fmt.out = "")) ∧
      (∃ report, Json.ofText? check.out = some report ∧
        report.truthAt? "ok" = some (check.code == 0)) ∧
      (fmt.code = 0 → ∀ {files' path' args' o'}, Files.Holds files' path' fmt.out →
        Files.Unset files' → Asks args' o' (.fmt path' true) → (run files' args').code = 0) ∧
      ((run files ["fmt", "--check", "p.ops"]).code = 0 → fmt.code = 0 ∧ fmt.out = text) := by
  intro text files parse fmt check
  have hfile : files.Holds "p.ops" text := if_pos rfl
  have hset : files.Unset := ⟨"none", if_neg (by decide)⟩
  have hparse : Asks ["--quiet", "parse", "p.ops"] none (.parse "p.ops") :=
    ⟨true, false, by cbv⟩
  have hfmt : Asks ["fmt", "p.ops", "--output", "json"] (some .json) (.fmt "p.ops" false) :=
    ⟨false, false, by cbv⟩
  have hcheck : Asks ["--output=json", "check", "--recover", "--max-errors", "3", "p.ops"]
      (some .json) (.check "p.ops" true (some 3)) := ⟨false, false, by cbv⟩
  have hconfirm : Asks ["fmt", "--check", "p.ops"] none (.fmt "p.ops" true) :=
    ⟨false, false, by cbv⟩
  obtain ⟨hcodes, hreport, hwritten, hcanonical⟩ :=
    run_agrees hfile hset hparse hfmt hcheck hconfirm
  exact ⟨hfile, hset, hparse, hfmt, hcheck, hconfirm, hcodes, hreport rfl, hwritten, hcanonical⟩

end Agreement

end OpsLang
