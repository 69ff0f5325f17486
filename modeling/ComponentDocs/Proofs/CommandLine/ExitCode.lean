import ComponentDocs.CommandLine.Run
import ComponentDocs.Proofs.Project.LastWrite
/-! The code that a run exits with, and what the run has done to the files by then. A run goes through stages:
the settings with the patterns of flags, the template, the formatter, and the generation of documents. The first
stage that fails gives the code, and no file is written before the last stage succeeds. A program that formats is
a function of its input here: files that it changes on its own are not the run's. -/
namespace ComponentDocs

namespace Project
open FileTree

theorem writeFile_error_cases {here : Location} {t t' : FileTree} {text : String} {path : Path} {e : Error}
    (h : writeFile here t text path = (t', .error e)) : ∃ path cause, e = .output path cause := by
  unfold writeFile at h
  cases hm : makeParent here t path with
  | mk made result =>
    rw [hm] at h
    cases result with
    | error cause =>
      obtain ⟨-, he⟩ := Prod.mk.inj h
      obtain rfl : cause = e := Except.error.inj he
      unfold makeParent at hm
      grind
    | ok _ =>
      dsimp only at h
      split at h <;> grind

/-- A text that cannot be formatted leaves the files alone. Once it is formatted, only the disk can fail. -/
theorem write_error_cases {p : Project} {t : FileTree} {text : String} {path : Path} {e : Error}
    (h : (p.write t text path).result = .error e) :
    (∃ cause, e = .format cause ∧ (p.write t text path).tree = t) ∨ ∃ path cause, e = .output path cause := by
  rw [write_eq] at h ⊢
  cases hf : p.formatter text with
  | error cause =>
    rw [hf] at h
    exact .inl ⟨cause, (Except.error.inj h).symm, rfl⟩
  | ok formatted =>
    rw [hf] at h
    exact .inr (writeFile_error_cases (Prod.ext rfl h))

/-- Where generation fails as a whole, no file is new or changed. A directory is new only if the disk failed. -/
theorem generateAll_error_cases {p : Project} {t : FileTree} {e : Error} (h : (p.generateAll t).result = .error e) :
    AddsDirectories t (p.generateAll t).tree ∧
      (e.exitCode = 4 ∧ (p.generateAll t).tree = t ∨ e.exitCode = 5) := by
  unfold generateAll at h ⊢
  cases hd : p.discover t with
  | error cause =>
    rw [hd] at h
    obtain rfl : cause = e := Except.error.inj h
    have hsearch : ∃ path reason, cause = .search path reason := by
      unfold discover at hd
      split at hd <;> grind
    obtain ⟨path, reason, rfl⟩ := hsearch
    exact ⟨.rfl t, .inr rfl⟩
  | ok components =>
    rw [hd] at h
    dsimp only at h ⊢
    cases hfile : p.config.outFile with
    | none =>
      rw [hfile] at h
      cases h
    | some file =>
      rw [hfile] at h
      dsimp only [generateTogether] at h ⊢
      split at h
      · cases h
      · next hne =>
        rw [if_neg hne]
        have hw : (p.write t ("\n\n".intercalate (p.renderings t components).texts) file).result = .error e := by
          cases hr : (p.write t ("\n\n".intercalate (p.renderings t components).texts) file).result with
          | error cause => simpa [Outcome.map, hr, Except.map] using h
          | ok _ => simp [Outcome.map, hr, Except.map] at h
        refine ⟨write_eq_error hw, ?_⟩
        rcases write_error_cases hw with ⟨cause, rfl, htree⟩ | ⟨path, cause, rfl⟩
        · exact .inl ⟨rfl, htree⟩
        · exact .inr rfl

end Project

namespace CommandLine
open FileTree
variable (run : Runner) (t : FileTree) (here : Location) (g : Given)

/-- The stages before generation have passed, and these are the settings and the project. -/
inductive Opens : Config → Project → Prop
  | intro {c : Config} {engine : Engine} {command : Option Command} (settings : loadConfig t here g = .ok c)
    (template : Engine.load t here c.template = .ok engine) (formatter : formatterCommand? g = .ok command) :
    Opens c
      { config := c.rootedAtComponents
        engine
        formatter := (command.map (Formatter.ofCommand run)).getD .canonical
        here }

/-- The first stage that fails, in their order, fails with this error. -/
inductive FailsWith : Project.Error → Prop
  | settings {cause : Settings.LoadError} (h : loadConfig t here g = .error cause) : FailsWith (.settings cause)
  | template {c : Config} {cause : Engine.Error} (settings : loadConfig t here g = .ok c)
    (h : Engine.load t here c.template = .error cause) : FailsWith (.template cause)
  | formatter {c : Config} {engine : Engine} {cause : Settings.LoadError} (settings : loadConfig t here g = .ok c)
    (template : Engine.load t here c.template = .ok engine) (h : formatterCommand? g = .error cause) :
    FailsWith (.settings cause)
  | generation {c : Config} {p : Project} {e : Project.Error} (opens : Opens run t here g c p)
    (h : (p.generateAll t).result = .error e) : FailsWith e

/-- No stage fails, and this is the report on the documents. -/
def Reports (c : Config) (p : Project) (r : Project.Report) : Prop :=
  Opens run t here g c p ∧ (p.generateAll t).result = .ok r

variable {run t here g}

theorem openProject_eq_ok {c : Config} {p : Project} (h : openProject run t here g = .ok (c, p)) :
    Opens run t here g c p := by
  unfold openProject at h
  cases hs : loadConfig t here g with
  | error cause => simp [hs, bind, Except.bind, Except.mapError] at h
  | ok c' =>
    cases he : Engine.load t here c'.template with
    | error cause => simp [hs, he, Project.ofConfig, bind, Except.bind, Except.mapError] at h
    | ok engine =>
      cases hf : formatterCommand? g with
      | error cause => simp [hs, he, hf, Project.ofConfig, bind, Except.bind, Except.mapError] at h
      | ok command =>
        cases command <;>
          · simp only [hs, he, hf, Project.ofConfig, bind, Except.bind, Except.mapError, Except.ok.injEq,
              Prod.mk.injEq] at h
            obtain ⟨rfl, rfl⟩ := h
            exact .intro hs he hf

theorem openProject_eq_error {e : Project.Error} (h : openProject run t here g = .error e) :
    FailsWith run t here g e ∧ (e.exitCode = 2 ∨ e.exitCode = 3) := by
  unfold openProject at h
  cases hs : loadConfig t here g with
  | error cause =>
    simp only [hs, bind, Except.bind, Except.mapError, Except.error.injEq] at h
    subst h
    exact ⟨.settings hs, .inl rfl⟩
  | ok c =>
    cases he : Engine.load t here c.template with
    | error cause =>
      simp only [hs, he, Project.ofConfig, bind, Except.bind, Except.mapError, Except.error.injEq] at h
      subst h
      exact ⟨.template hs he, .inr rfl⟩
    | ok engine =>
      cases hf : formatterCommand? g with
      | error cause =>
        simp only [hs, he, hf, Project.ofConfig, bind, Except.bind, Except.mapError, Except.error.injEq] at h
        subst h
        exact ⟨.formatter hs he hf, .inl rfl⟩
      | ok command =>
        cases command <;>
          simp [hs, he, hf, Project.ofConfig, bind, Except.bind, Except.mapError] at h

theorem Opens.unique {c c' : Config} {p p' : Project} (h : Opens run t here g c p) (h' : Opens run t here g c' p') :
    c = c' ∧ p = p' := by
  cases h with
  | intro hs he hf =>
    cases h' with
    | intro hs' he' hf' =>
      obtain rfl := Except.ok.inj (hs.symm.trans hs')
      obtain rfl := Except.ok.inj (he.symm.trans he')
      obtain rfl := Except.ok.inj (hf.symm.trans hf')
      exact ⟨rfl, rfl⟩

theorem Reports.unique {c c' : Config} {p p' : Project} {r r' : Project.Report} (h : Reports run t here g c p r)
    (h' : Reports run t here g c' p' r') : c = c' ∧ p = p' ∧ r = r' := by
  obtain ⟨rfl, rfl⟩ := h.1.unique h'.1
  exact ⟨rfl, rfl, Except.ok.inj (h.2.symm.trans h'.2)⟩

theorem Reports.exists_iff {c : Config} {p : Project} {r : Project.Report} (h : Reports run t here g c p r)
    (P : Project.Report → Prop) : (∃ c p r, Reports run t here g c p r ∧ P r) ↔ P r := by
  constructor
  · rintro ⟨c', p', r', hr', hP⟩
    obtain ⟨rfl, rfl, rfl⟩ := h.unique hr'
    exact hP
  · intro hP
    exact ⟨c, p, r, h, hP⟩

/-- A run that fails has no report. -/
theorem FailsWith.not_reports {e : Project.Error} (h : FailsWith run t here g e) {c : Config} {p : Project}
    {r : Project.Report} : ¬ Reports run t here g c p r := by
  rintro ⟨⟨hs, he, hf⟩, hr⟩
  cases h with
  | settings h =>
    rw [h] at hs
    cases hs
  | template settings h =>
    obtain rfl := Except.ok.inj (settings.symm.trans hs)
    rw [h] at he
    cases he
  | formatter settings template h =>
    rw [h] at hf
    cases hf
  | generation opens h =>
    obtain ⟨rfl, rfl⟩ := opens.unique (.intro hs he hf)
    rw [h] at hr
    cases hr

theorem FailsWith.unique {e e' : Project.Error} (h : FailsWith run t here g e) (h' : FailsWith run t here g e') :
    e = e' := by
  cases h <;> cases h' <;> grind [Opens, Opens.unique]

/-- How a run ends that does not watch: with a report, or with the error of the first stage that fails. -/
theorem execute_cases (hflag : g.has .watch = false) (hwatch : ∀ c, loadConfig t here g = .ok c → c.watch = false) :
    (∃ c p r e, Reports run t here g c p r ∧ execute run t here g = .ended e ∧
      e.code = (if r.isSuccess then 0 else 1) ∧ e.output = describeWritten r c.cwd) ∨
    ∃ error e, FailsWith run t here g error ∧ execute run t here g = .ended e ∧ e.code = error.exitCode ∧
      AddsDirectories t e.tree ∧ (error.exitCode = 2 ∨ error.exitCode = 3 ∨ error.exitCode = 4 → e.tree = t) ∧
      2 ≤ error.exitCode := by
  unfold execute executeBy
  cases ho : openProject run t here g with
  | error error =>
    obtain ⟨hfails, hcode⟩ := openProject_eq_error ho
    exact .inr ⟨error, _, hfails, rfl, rfl, .rfl t, fun _ => rfl, by omega⟩
  | ok opened =>
    obtain ⟨c, p⟩ := opened
    have hopens := openProject_eq_ok ho
    have hquiet : (g.has .watch || c.watch) = false := by
      cases hopens with
      | intro settings _ _ => rw [hflag, hwatch c settings, Bool.or_false]
    cases hr : (p.generateAll t).result with
    | ok r =>
      simp only [hr, hquiet, Bool.false_eq_true, if_false]
      exact .inl ⟨c, p, r, _, ⟨hopens, hr⟩, rfl, rfl, rfl⟩
    | error error =>
      obtain ⟨hadds, hcode⟩ := Project.generateAll_error_cases hr
      simp only [hr]
      refine .inr ⟨error, _, .generation hopens hr, rfl, rfl, hadds, fun hlow => ?_, by omega⟩
      rcases hcode with ⟨-, htree⟩ | hdisk
      · exact htree
      · omega

/-- A run that does not watch exits with zero or one if it comes to a report, without or with failures, and with
the code of the first stage that fails if not. Before a report no file is new or changed, and only a failure of the
disk leaves directories behind. A report is printed with a line for each file. -/
theorem start_exit_code {args : List String} (hargs : Demand.ofArguments args = .ok (.run g))
    (hflag : g.has .watch = false) (hwatch : ∀ c, loadConfig t here g = .ok c → c.watch = false) :
    ∃ e : Ended, start run t here args = .ended e ∧
      (e.code = 0 ↔ ∃ c p r, Reports run t here g c p r ∧ r.failures = []) ∧
      (e.code = 1 ↔ ∃ c p r, Reports run t here g c p r ∧ r.failures ≠ []) ∧
      (2 ≤ e.code ↔ ∃ error, FailsWith run t here g error) ∧
      (∀ error, FailsWith run t here g error → e.code = error.exitCode) ∧
      (2 ≤ e.code → AddsDirectories t e.tree) ∧
      (e.code = 2 ∨ e.code = 3 ∨ e.code = 4 → e.tree = t) ∧
      ∀ c p r, Reports run t here g c p r → e.output =
        String.join (r.written.map fun path => s!"wrote {path.displayRelative c.cwd}\n") ++
          s!"{r.written.length} written, {r.failures.length} failed\n" := by
  have hstart : start run t here args = execute run t here g := by
    unfold start answer
    rw [hargs]
  rw [hstart]
  rcases execute_cases hflag hwatch with ⟨c, p, r, e, hr, he, hcode, hout⟩ |
      ⟨error, e, hfails, he, hcode, hadds, hkept, htwo⟩
  · have hsuccess : r.isSuccess = true ↔ r.failures = [] := List.isEmpty_iff
    have hzero : e.code = 0 ↔ r.failures = [] := by
      rw [hcode, ← hsuccess]
      split <;> simp_all
    have hone : e.code = 1 ↔ r.failures ≠ [] := by
      rw [hcode, Ne, ← hsuccess]
      split <;> simp_all
    have hlow : ¬ 2 ≤ e.code := by
      rw [hcode]
      split <;> omega
    have hno : ¬ ∃ error, FailsWith run t here g error := fun ⟨_, hf⟩ => hf.not_reports hr
    refine ⟨e, he, hzero.trans (hr.exists_iff (·.failures = [])).symm,
      hone.trans (hr.exists_iff (·.failures ≠ [])).symm, iff_of_false hlow hno,
      fun error hf => absurd ⟨error, hf⟩ hno, fun htwo => absurd htwo hlow, by omega, fun c' p' r' hr' => ?_⟩
    obtain ⟨rfl, rfl, rfl⟩ := hr.unique hr'
    exact hout
  · have hno : ∀ {c p r}, ¬ Reports run t here g c p r := hfails.not_reports
    refine ⟨e, he, iff_of_false (by omega) fun ⟨_, _, _, hr, _⟩ => hno hr,
      iff_of_false (by omega) fun ⟨_, _, _, hr, _⟩ => hno hr, iff_of_true (by omega) ⟨error, hfails⟩, ?_,
      fun _ => hadds, fun hlow => hkept (hcode ▸ hlow), fun _ _ _ hr => absurd hr hno⟩
    intro error' hf
    rw [hcode, hfails.unique hf]

/-- A formatter that fails is fatal for the one file of all components, and leaves nothing behind. -/
theorem start_exit_code_failing_formatter :
    let t := Project.sampleTree
    let run : Runner := fun _ _ => .ok { status := .code 1 }
    let args := ["--out-file", "docs/all.md", "--formatter-command", "false"]
    ∃ e, start run t [['w']] args = .ended e ∧ e.code = 4 ∧ e.tree = t := by
  intro t run args
  let g : Given := [(.outFile, "docs/all.md"), (.formatterCommand, "false")]
  have hargs : Demand.ofArguments args = .ok (.run g) := by decide +kernel
  have hflag : g.has .watch = false := by decide
  have hwatch : ∀ c, loadConfig t [['w']] g = .ok c → c.watch = false := by
    have hloaded : (loadConfig t [['w']] g).map (fun c => c.watch) = .ok false := by decide +kernel
    intro c hc
    simpa [hc, Except.map] using hloaded
  obtain ⟨e, he, -, -, -, -, -, hkept, -⟩ := start_exit_code hargs hflag hwatch
  have hcode : (start run t [['w']] args).casesOn (motive := fun _ => Nat) (·.code) (fun _ _ => 0) = 4 := by
    decide +kernel
  rw [he] at hcode
  exact ⟨e, he, hcode, hkept (.inr (.inr hcode))⟩

end CommandLine

end ComponentDocs
