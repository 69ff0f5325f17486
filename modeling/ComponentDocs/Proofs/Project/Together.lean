import ComponentDocs.Proofs.FileTree.Merge
import ComponentDocs.Proofs.Project.Discovery
import ComponentDocs.Proofs.Stages
/-! Writing a text is all or nothing. Either the file holds what the formatter makes of the text, or no file is new
or changed. All else that may be new are directories above the file. -/
namespace ComponentDocs

namespace FileTree

/-- The one file that a path leads to holds a text now. Nothing is gone, and all else is as it was, but for new
directories. -/
structure WritesOnly (here : Location) (t t' : FileTree) (path : Path) (text : String) : Prop where
  grows : Grows t t'
  exists_place : ∃ l, t'.find here path = .ok (l, .file (.text text)) ∧
    ∀ m, m ≠ l → t'.get? m = t.get? m ∨ t.get? m = none ∧ t'.get? m = some .directory

/-- The directory that a file lies in is there, if its path names one. -/
def Housed (here : Location) (t : FileTree) (path : Path) : Prop :=
  ∀ parent, path.parent? = some parent → parent.isEmpty = false → t.isDirectory here parent = true

end FileTree

namespace Project
open FileTree

/-- How writing a text to a path may end, with the tree that it leaves. -/
inductive WriteEnds (p : Project) (t : FileTree) (text : String) (path : Path) :
    FileTree → Except Error Unit → Prop
  | written {t' : FileTree} {formatted : String} (hf : p.formatter text = .ok formatted)
    (hw : WritesOnly p.here t t' path formatted) : WriteEnds p t text path t' (.ok ())
  /-- The text cannot be formatted. Nothing is touched, not even a directory. -/
  | unformatted {cause : FormatError} (hf : p.formatter text = .error cause) :
    WriteEnds p t text path t (.error (.format cause))
  /-- The directory of the file cannot be made. -/
  | unhoused {t' : FileTree} {formatted : String} {parent : Path} {cause : FileError}
    (hf : p.formatter text = .ok formatted) (hp : path.parent? = some parent)
    (hmade : t.makeDirectories p.here parent = (t', .error cause)) (hno : t'.isDirectory p.here parent = false)
    (ha : AddsDirectories t t') : WriteEnds p t text path t' (.error (.output parent cause))
  /-- The directory of the file is there, but the file cannot be written. -/
  | unwritten {t' : FileTree} {formatted : String} {cause : FileError} (hf : p.formatter text = .ok formatted)
    (hhoused : FileTree.Housed p.here t' path) (hw : t'.write p.here path (.text formatted) = .error cause)
    (ha : AddsDirectories t t') : WriteEnds p t text path t' (.error (.output path cause))

theorem WriteEnds.exists_formatted {p : Project} {t t' : FileTree} {text : String} {path : Path}
    (h : p.WriteEnds t text path t' (.ok ())) :
    ∃ formatted, p.formatter text = .ok formatted ∧ WritesOnly p.here t t' path formatted := by
  cases h with
  | written hf hw => exact ⟨_, hf, hw⟩

theorem makeParent_cases (here : Location) (t : FileTree) (path : Path) :
    (∃ t', makeParent here t path = (t', .ok ()) ∧ AddsDirectories t t' ∧ FileTree.Housed here t' path) ∨
      ∃ parent t' cause, path.parent? = some parent ∧ t.makeDirectories here parent = (t', .error cause) ∧
        makeParent here t path = (t', .error (.output parent cause)) ∧ AddsDirectories t t' ∧
        t'.isDirectory here parent = false := by
  have ha := makeParent_addsDirectories here t path
  unfold makeParent at ha ⊢
  cases hp : path.parent? with
  | none => exact .inl ⟨t, rfl, .rfl t, by simp [FileTree.Housed, hp]⟩
  | some parent =>
    rw [hp] at ha
    dsimp only at ha ⊢
    cases he : parent.isEmpty with
    | true => exact .inl ⟨t, rfl, .rfl t, by simp [FileTree.Housed, hp, he]⟩
    | false =>
      have hmade := makeDirectories_eq_ok_iff t here he
      rw [he, if_neg Bool.false_ne_true] at ha
      rcases hr : t.makeDirectories here parent with ⟨t', cause | _⟩
      · rw [hr] at ha hmade
        exact .inr ⟨parent, t', cause, rfl, hr, rfl, ha, by simpa using hmade⟩
      · rw [hr] at ha hmade
        refine .inl ⟨t', rfl, ha, fun other hother _ => ?_⟩
        obtain rfl : parent = other := Option.some.inj (hp.symm.trans hother)
        exact hmade.1 rfl

theorem writesOnly_of_writeFile {here : Location} {t t' : FileTree} {text : String} {path : Path}
    (h : writeFile here t text path = (t', .ok ())) : WritesOnly here t t' path text := by
  obtain ⟨l, hg, hfind, -⟩ := writeFile_eq_ok h
  refine ⟨hg, l, hfind, fun m hm => ?_⟩
  by_cases heq : t'.get? m = t.get? m
  · exact .inl heq
  · rcases (writeFile_footprint h).changed m heq with ⟨q, hq, content, hfound⟩ | ⟨hn, hd, -⟩
    · obtain rfl : q = path := List.mem_singleton.1 hq
      rw [hfind] at hfound
      cases hfound
      exact absurd rfl hm
    · exact .inr ⟨hn, hd⟩

theorem writeEnds_write (p : Project) (t : FileTree) (text : String) (path : Path) :
    p.WriteEnds t text path (p.write t text path).tree (p.write t text path).result := by
  rw [write_eq]
  cases hf : p.formatter text with
  | error cause => exact .unformatted hf
  | ok formatted =>
    dsimp only
    cases hfile : writeFile p.here t formatted path with
    | mk t' result =>
      dsimp only
      have hopen := hfile
      unfold writeFile at hopen
      rcases makeParent_cases p.here t path with ⟨t₁, hm, ha, hhoused⟩ | ⟨parent, t₁, cause, hp, hmade, hm, ha, hno⟩
      · rw [hm] at hopen
        dsimp only at hopen
        cases hw : t₁.write p.here path (.text formatted) with
        | ok t₂ =>
          rw [hw] at hopen
          cases hopen
          exact .written hf (writesOnly_of_writeFile hfile)
        | error cause =>
          rw [hw] at hopen
          cases hopen
          exact .unwritten hf hhoused hw ha
      · rw [hm] at hopen
        cases hopen
        exact .unhoused hf hp hmade hno ha

theorem drafts_write (p : Project) (t : FileTree) (text : String) (path : Path) :
    (p.write t text path).drafts = [text] := by
  rw [write_eq]
  cases p.formatter text <;> rfl

/-- The formatter is asked once for each document that was rendered, whatever came of those before. -/
theorem draftsEach_eq_texts (p : Project) (rs : Renderings) (t : FileTree) : p.draftsEach rs t = rs.texts := by
  induction rs generalizing t with
  | nil => rfl
  | cons r rest ih =>
    obtain ⟨component, rendered⟩ := r
    cases rendered with
    | error e => exact ih t
    | ok text =>
      rw [draftsEach, drafts_write, ih]
      rfl

/-- Whatever the formatter, the text, the path and the files, writing ends in one of four ways: the file holds what
the formatter gave and all other files are as they were; or the text cannot be formatted and nothing is touched; or
the directory of the file or the file itself cannot be made, which the error tells apart, and no file is new or
changed. The formatter is asked once, for the text as it is, and what it would say to another text does not matter. -/
theorem write_all_or_nothing (p : Project) (t : FileTree) (text : String) (path : Path) :
    p.WriteEnds t text path (p.write t text path).tree (p.write t text path).result ∧
      (∀ e, (p.write t text path).result = .error e → ∀ l, (p.write t text path).tree.fileAt? l = t.fileAt? l) ∧
      (p.write t text path).drafts = [text] ∧
      ∀ f : Formatter, f text = p.formatter text →
        { p with formatter := f }.write t text path = p.write t text path := by
  have hends := p.writeEnds_write t text path
  refine ⟨hends, fun e he l => ?_, p.drafts_write t text path, fun f hf => ?_⟩
  · rw [he] at hends
    generalize (p.write t text path).tree = t' at hends ⊢
    cases hends with
    | unformatted => rfl
    | unhoused _ _ _ _ ha => exact ha.fileAt?_eq l
    | unwritten _ _ _ ha => exact ha.fileAt?_eq l
  · rw [write_eq, write_eq]
    dsimp only
    rw [hf]

/-! One file for all components. Each component is either in the file or in the report, and if there is nothing to
put in the file, the file stays as it is. -/

def answer (p : Project) (t : FileTree) (component : String) : Except Engine.Error String :=
  p.engine (p.config.request t p.here component)

/-- Components that the engine fails on, as they are reported. -/
def failuresOf (failed : List (String × Engine.Error)) : List (String × Error) :=
  failed.map fun (component, cause) => (component, .engine component cause)

variable {p : Project} {t : FileTree} {components sections : List String} {failed : List (String × Engine.Error)}

theorem renderings_cons (p : Project) (t : FileTree) (component : String) (rest : List String) :
    p.renderings t (component :: rest) =
      (component, (p.answer t component).mapError (.engine component)) :: p.renderings t rest := rfl

/-- The results stay with their components while they are put apart. -/
theorem renderings_of_sifted (h : Sifted (p.answer t) components sections failed) :
    (p.renderings t components).texts = sections ∧ (p.renderings t components).failures = failuresOf failed := by
  induction h with
  | nil => exact ⟨rfl, rfl⟩
  | ok h _ ih =>
    rw [renderings_cons, h]
    exact ⟨congrArg (_ :: ·) ih.1, ih.2⟩
  | error h _ ih =>
    rw [renderings_cons, h]
    exact ⟨ih.1, congrArg (_ :: ·) ih.2⟩

theorem generateAll_eq_generateTogether {file : Path} (hfile : p.config.outFile = some file)
    (hd : p.discover t = .ok components) : p.generateAll t = p.generateTogether t components file := by
  simp [generateAll, hd, hfile]

/-- Every component that is found is accounted for: it has its section in the one file, or it is reported with the
error of the engine, both in the order of the search. The file is written as a whole or not at all, and without a
section it is not touched. -/
theorem generateAll_accounts {file : Path} (hfile : p.config.outFile = some file) (t : FileTree) :
    (∀ report, (p.generateAll t).result = .ok report → ∃ components, p.discover t = .ok components) ∧
    ∀ components, p.discover t = .ok components → ∃ sections failed, Sifted (p.answer t) components sections failed ∧
      failed.map Prod.fst = components.filter (fun c => !(p.answer t c).isOk) ∧
      (sections = [] → (p.generateAll t).tree = t ∧
        (p.generateAll t).result = .ok { written := [], failures := failuresOf failed }) ∧
      (sections ≠ [] →
        p.WriteEnds t ("\n\n".intercalate sections) file (p.generateAll t).tree
          ((p.generateAll t).result.map fun _ => ()) ∧
        ∀ report, (p.generateAll t).result = .ok report →
          report = { written := [file], failures := failuresOf failed } ∧
          ∃ formatted, p.formatter ("\n\n".intercalate sections) = .ok formatted ∧
            WritesOnly p.here t (p.generateAll t).tree file formatted) := by
  constructor
  · intro report h
    cases hd : p.discover t with
    | ok components => exact ⟨components, rfl⟩
    | error e => simp [generateAll, hd] at h
  · intro components hd
    obtain ⟨sections, failed, hs⟩ := exists_sifted (p.answer t) components
    obtain ⟨htexts, hfailures⟩ := renderings_of_sifted hs
    rw [generateAll_eq_generateTogether hfile hd, generateTogether, htexts, hfailures]
    refine ⟨sections, failed, hs, hs.map_fst_failed, ?_, ?_⟩
    · rintro rfl
      exact ⟨rfl, rfl⟩
    · intro hne
      rw [if_neg (by simpa using hne)]
      have hends := p.writeEnds_write t ("\n\n".intercalate sections) file
      dsimp only [Outcome.map]
      generalize (p.write t ("\n\n".intercalate sections) file).tree = t' at hends ⊢
      cases hresult : (p.write t ("\n\n".intercalate sections) file).result with
      | error e =>
        rw [hresult] at hends
        exact ⟨hends, fun report h => by cases h⟩
      | ok _ =>
        rw [hresult] at hends
        refine ⟨hends, fun report h => ?_⟩
        cases h
        exact ⟨rfl, hends.exists_formatted⟩

/-- A project with one file for all components, whose engine has nothing to say to one of them. -/
def reluctantProject : Project :=
  { siteProject { siteConfig "src" "/w/docs" "*.vue" with outFile := some (.ofString "/w/docs/all.md") } with
    engine := fun r => if r.component = "B.vue" then .error (.other "no") else .ok ("# " ++ r.component)
    formatter := fun text => .ok (text ++ "\n") }

theorem generateAll_accounts_reluctant :
    let p := reluctantProject
    let t := siteTree [(["src"], .directory), (["src", "A.vue"], .file (.text "")),
      (["src", "B.vue"], .file (.text "")), (["src", "C.vue"], .file (.text ""))]
    let file := Path.ofString "/w/docs/all.md"
    p.config.outFile = some file ∧ p.discover t = .ok ["A.vue", "B.vue", "C.vue"] ∧
      (p.generateAll t).result = .ok { written := [file], failures := [("B.vue", .engine "B.vue" (.other "no"))] } ∧
      WritesOnly p.here t (p.generateAll t).tree file "# A.vue\n\n# C.vue\n" := by
  intro p t file
  have hfile : p.config.outFile = some file := rfl
  have hfiles : t.filesBelow p.here p.config.componentsDir isSkipped =
      .ok [["A.vue".toList], ["B.vue".toList], ["C.vue".toList]] := by decide +kernel
  have hd : p.discover t = .ok ["A.vue", "B.vue", "C.vue"] :=
    discover_of_pairwise hfiles (by decide +kernel) (by decide)
  have hresult : (p.generateAll t).result =
      .ok { written := [file], failures := [("B.vue", .engine "B.vue" (.other "no"))] } := by
    rw [generateAll_eq_generateTogether hfile hd]
    decide +kernel
  obtain ⟨sections, failed, hs, -, -, hsome⟩ := (generateAll_accounts hfile t).2 _ hd
  have htexts : (p.renderings t ["A.vue", "B.vue", "C.vue"]).texts = ["# A.vue", "# C.vue"] := by decide +kernel
  rw [(renderings_of_sifted hs).1] at htexts
  subst htexts
  obtain ⟨-, formatted, hf, hw⟩ := (hsome (by simp)).2 _ hresult
  have hformatted : "# A.vue\n\n# C.vue\n" = formatted := Except.ok.inj hf
  rw [hformatted]
  exact ⟨hfile, hd, hresult, hw⟩

end Project

end ComponentDocs
