import ComponentDocs.Proofs.Layout.Front
import ComponentDocs.Proofs.Project.Frame
import Mathlib.Tactic
/-! What the built-in template makes of a component: a heading, a line with the path, and what is in the
supplementary file. -/
namespace ComponentDocs

namespace Template

/-- Whether two parameters refer to the same data. -/
def Param.agrees : Param → Param → Bool
  | .data r, .data s => r == s
  | _, _ => false

def agreesAll : List Param → List Param → Bool
  | [], [] => true
  | p :: ps, q :: qs => p.agrees q && agreesAll ps qs
  | _, _ => false

def Call.agrees (c d : Call) : Bool :=
  c.helper == d.helper && agreesAll c.arguments.params d.arguments.params && c.arguments.keys == d.arguments.keys &&
    agreesAll c.arguments.values d.arguments.values && c.binds == d.binds

mutual

/-- A check that two elements are the same, for templates of texts, values and helpers with references to data. -/
def Element.agrees : Element → Element → Bool
  | .text a, .text b => a == b
  | .value p, .value q => p.agrees q
  | .call c, .call d => c.agrees d
  | .block c body inverse, .block d body' inverse' => c.agrees d && agreesIf body body' && agreesIf inverse inverse'
  | _, _ => false

def Body.agrees : Body → Body → Bool
  | .nil, .nil => true
  | .cons p e rest, .cons q f rest' => p == q && e.agrees f && rest.agrees rest'
  | _, _ => false

def agreesIf : Option Body → Option Body → Bool
  | none, none => true
  | some a, some b => a.agrees b
  | _, _ => false

end

theorem Param.eq_of_agrees {p q : Param} (h : p.agrees q = true) : p = q := by
  cases p <;> cases q <;> simp_all [agrees]

theorem eq_of_agreesAll {ps qs : List Param} (h : agreesAll ps qs = true) : ps = qs := by
  induction ps generalizing qs with
  | nil => cases qs <;> simp_all [agreesAll]
  | cons p ps ih =>
    cases qs with
    | nil => simp [agreesAll] at h
    | cons q qs =>
      rw [agreesAll, Bool.and_eq_true] at h
      rw [Param.eq_of_agrees h.1, ih h.2]

theorem Call.eq_of_agrees {c d : Call} (h : c.agrees d = true) : c = d := by
  obtain ⟨helper, ⟨params, keys, values⟩, binds⟩ := c
  obtain ⟨helper', ⟨params', keys', values'⟩, binds'⟩ := d
  simp only [agrees, Bool.and_eq_true, beq_iff_eq] at h
  obtain ⟨⟨⟨⟨rfl, hp⟩, rfl⟩, hv⟩, rfl⟩ := h
  rw [eq_of_agreesAll hp, eq_of_agreesAll hv]

mutual

theorem Element.eq_of_agrees : ∀ {e f : Element}, e.agrees f = true → e = f
  | .text _, f, h => by cases f <;> simp_all [Element.agrees]
  | .value _, f, h => by
    cases f <;> simp only [Element.agrees, Bool.false_eq_true] at h
    rw [Param.eq_of_agrees h]
  | .call _, f, h => by
    cases f <;> simp only [Element.agrees, Bool.false_eq_true] at h
    rw [Call.eq_of_agrees h]
  | .block _ _ _, f, h => by
    cases f <;> simp only [Element.agrees, Bool.and_eq_true, Bool.false_eq_true] at h
    rw [Call.eq_of_agrees h.1.1, eq_of_agreesIf h.1.2, eq_of_agreesIf h.2]
  | .decorator _ _, f, h | .insert _ _ _ _, f, h | .comment, f, h => by simp [Element.agrees] at h

theorem Body.eq_of_agrees : ∀ {a b : Body}, a.agrees b = true → a = b
  | .nil, b, h => by cases b <;> simp_all [Body.agrees]
  | .cons _ _ _, b, h => by
    cases b <;> simp only [Body.agrees, Bool.and_eq_true, beq_iff_eq, Bool.false_eq_true] at h
    rw [h.1.1, Element.eq_of_agrees h.1.2, Body.eq_of_agrees h.2]

theorem eq_of_agreesIf : ∀ {a b : Option Body}, agreesIf a b = true → a = b
  | none, b, h => by cases b <;> simp_all [agreesIf]
  | some _, b, h => by
    cases b <;> simp only [agreesIf, Bool.false_eq_true] at h
    rw [Body.eq_of_agrees h]

end

def fieldParam (name : String) : Param := .data ⟨name, [.field name]⟩

/-- The supplementary text behind a blank line, if there is one. -/
def extraBlock : Element :=
  .block { helper := "if", arguments := { params := [fieldParam "extra_content"] } }
    (some (.ofList [(none, .text "\n"), (some ⟨6, 1⟩, .value (fieldParam "extra_content")), (none, .text "\n")])) none

def builtInBody : Body :=
  .ofList [(none, .text "# "), (some ⟨1, 3⟩, .value (fieldParam "display_name")), (none, .text "\n\nSource: `"),
    (some ⟨3, 10⟩, .value (fieldParam "component_path")), (none, .text "`\n"), (some ⟨4, 1⟩, extraBlock), (none, .text "")]

theorem parse_builtIn : parse builtIn = .ok builtInBody := by
  have hagrees : (parse builtIn).toOption.any (·.agrees builtInBody) = true := by decide +kernel
  cases hparse : parse builtIn with
  | error e =>
    rw [hparse] at hagrees
    cases hagrees
  | ok body =>
    rw [hparse] at hagrees
    exact congrArg _ (Body.eq_of_agrees hagrees)

theorem ofText_builtIn : Engine.ofText builtIn = .ok (Engine.ofTemplate builtInBody) := by
  rw [Engine.ofText, parse_builtIn]

/-- What the document says before the supplementary text. -/
def headerText (component : String) : String :=
  "# " ++ displayName component ++ "\n\nSource: `" ++ component ++ "`\n"

section Render
variable (sourcePath : Path) (component : String)

theorem exists_renderElement_extraBlock (extra : Option String) (out : String) : ∃ s,
    renderElement ⟨componentName, builtInBody, componentData sourcePath component extra⟩ maxDepth extraBlock { out } =
      .ok s ∧ s.indent = none ∧ s.out = out ++ (if extra.getD "" = "" then "" else "\n" ++ extra.getD "" ++ "\n") := by
  cases extra with
  | none => exact ⟨{ out }, rfl, rfl, by simp⟩
  | some text =>
    have hchoice : renderElement ⟨componentName, builtInBody, componentData sourcePath component (some text)⟩ maxDepth
        extraBlock { out } =
          if text != "" then .ok { out := out ++ "\n" ++ text ++ "\n", atTop := false } else .ok { out } := by
      show inner _ (if (text != "") == true then _ else _) _ = _
      cases text != "" <;> rfl
    rw [hchoice]
    by_cases htext : text = ""
    · exact ⟨{ out }, by simp [htext], rfl, by simp [htext]⟩
    · exact ⟨_, if_pos (by simpa using htext), rfl, by simp [htext, String.append_assoc]⟩

theorem renderComponent_builtIn (extra : Option String) :
    renderComponent builtInBody sourcePath component extra =
      .ok (headerText component ++ (if extra.getD "" = "" then "" else "\n" ++ extra.getD "" ++ "\n")) := by
  obtain ⟨s, hs, hindent, hout⟩ := exists_renderElement_extraBlock sourcePath component extra
    ("" ++ "# " ++ displayName component ++ "\n\nSource: `" ++ component ++ "`\n")
  have hrender : renderComponent builtInBody sourcePath component extra = (do
      renderBody (renderElement ⟨componentName, builtInBody, componentData sourcePath component extra⟩ maxDepth)
        (.cons none (.text "") .nil) (← locate (some ⟨4, 1⟩)
          (renderElement ⟨componentName, builtInBody, componentData sourcePath component extra⟩ maxDepth extraBlock
            { out := "" ++ "# " ++ displayName component ++ "\n\nSource: `" ++ component ++ "`\n" }))).map State.out := rfl
  rw [hrender, hs]
  show Except.ok (s.write "").out = _
  simp [State.write, hindent, State.put, hout, headerText]

end Render

/-- The engine for the built-in template needs no file, and makes a document of every component. The path and the
supplementary text are in it as they are, whatever they hold: nothing is escaped, and nothing is taken for a tag. -/
theorem load_builtIn_verbatim (t : FileTree) (here : Location) (r : Engine.Request) : ∃ engine,
    Engine.load t here none = .ok engine ∧
      engine r = .ok ("# " ++ displayName r.component ++ "\n\nSource: `" ++ r.component ++ "`\n" ++
        (if r.extra.getD "" = "" then "" else "\n" ++ r.extra.getD "" ++ "\n")) := by
  refine ⟨Engine.ofTemplate builtInBody, (Engine.load_none t here).trans ofText_builtIn, ?_⟩
  rw [Engine.ofTemplate, renderComponent_builtIn]
  rfl

/-- What looks like a tag or like HTML stays as it is. -/
example : renderComponent builtInBody (.ofString "/p/\x7b\x7bx\x7d\x7d.vue") "\x7b\x7bx\x7d\x7d.vue" (some "<b> &\n") =
    .ok "# \x7b\x7bx\x7d\x7d\n\nSource: `\x7b\x7bx\x7d\x7d.vue`\n\n<b> &\n\n" := by
  rw [renderComponent_builtIn]
  decide +kernel

theorem mem_displayName {component : String} {c : Char} (h : c ∈ (displayName component).toList) :
    c ∈ component.toList ∨ c = '/' ∨ c = '.' := by
  have hname {path : Path} (hpath : ∀ c ∈ path.chars, c ∈ component.toList ∨ c = '/' ∨ c = '.') {name : List Char}
      (hn : path.fileName? = some name) : ∀ c ∈ name, c ∈ component.toList ∨ c = '/' ∨ c = '.' :=
    fun c hc => hpath c (Path.mem_of_fileName? hn hc)
  have hstem : ∀ c ∈ (Path.ofString component).fileStem?.getD [], c ∈ component.toList ∨ c = '/' ∨ c = '.' := by
    cases hs : (Path.ofString component).fileName? with
    | none => simp [Path.fileStem?, hs]
    | some name =>
      rw [Path.fileStem?, hs]
      exact fun c hc => hname (fun c hc => .inl hc) hs c (Path.stem_subset name hc)
  unfold displayName at h
  dsimp only at h
  split at h
  · split at h
    · next directory hd =>
      obtain ⟨parent, hparent, hdirectory⟩ := Option.bind_eq_some_iff.1 hd
      rw [String.toList_ofList] at h
      exact hname (fun c hc => Path.mem_of_parent? hparent hc) hdirectory c h
    · exact hstem c (by simpa using h)
  · exact hstem c (by simpa using h)

end Template

/-! The document that the built-in template and the canonical formatter make of a component. The supplementary text
comes after the header, formatted as if it stood alone. -/

namespace Template

theorem headerText_toList (component : String) :
    (headerText component).toList = Layout.header (displayName component).toList component.toList := by
  simp [headerText, Layout.header, Layout.sourceOf]

/-- The layout of a document is the header and, behind a blank line, the layout of the supplementary text. -/
theorem canonicalize_document {component : String} (h : Layout.IsTitle (displayName component).toList)
    (hp : ∀ c ∈ component.toList, Markdown.isEol c = false) (extra : String) :
    Layout.canonicalize (headerText component ++ (if extra = "" then "" else "\n" ++ extra ++ "\n")) =
      headerText component ++ (if Layout.canonicalize (extra ++ "\n") = "" then ""
        else "\n" ++ Layout.canonicalize (extra ++ "\n")) := by
  have hname : ∀ c ∈ (displayName component).toList, Markdown.isEol c = false := by
    intro c hc
    rcases mem_displayName hc with hc | rfl | rfl
    · exact hp c hc
    · rfl
    · rfl
  have hempty : (Layout.canonicalize (extra ++ "\n") = "") = (Layout.canonical (extra.toList ++ ['\n']) = []) := by
    rw [← String.toList_inj, Layout.canonicalize_toList, String.toList_append]
    rfl
  rw [← String.toList_inj, Layout.canonicalize_toList, String.toList_append, String.toList_append, headerText_toList]
  by_cases hextra : extra = ""
  · have hnone : Layout.canonical (extra.toList ++ ['\n']) = [] := by
      subst hextra
      decide +kernel
    rw [if_pos hextra, if_pos (hempty ▸ hnone), String.toList_empty, List.append_nil]
    exact Layout.canonical_header h hname hp
  · have htext : ("\n" ++ extra ++ "\n").toList = '\n' :: (extra.toList ++ ['\n']) := by simp
    rw [if_neg hextra, htext, Layout.canonical_header_append h hname hp]
    split
    · next hnil => rw [if_pos (hempty ▸ hnil), String.toList_empty]
    · next hne =>
      rw [if_neg (hempty ▸ hne), String.toList_append, Layout.canonicalize_toList, String.toList_append]
      rfl

end Template

namespace Project
variable {p : Project} {t : FileTree} {component : String}

def supplementText (p : Project) (t : FileTree) (component : String) : String :=
  let file := (p.config.cwd.join (.ofString component)).normalize.withExtension Config.markdown
  (t.readText p.here file).toOption.getD ""

/-- What is written for a component: its header and, behind a blank line, the layout of its supplementary text. -/
def document (p : Project) (t : FileTree) (component : String) : String :=
  let body := Layout.canonicalize (p.supplementText t component ++ "\n")
  Template.headerText component ++ (if body = "" then "" else "\n" ++ body)

/-- The supplementary text is formatted as if it stood alone. -/
theorem generate_document (hengine : Engine.ofText Template.builtIn = .ok p.engine) (hformatter : p.formatter = .canonical)
    (hsupplement : p.config.supplement = Config.defaultSupplement)
    (hdestination : p.config.destination = Config.defaultDestination)
    (hbreak : ∀ c ∈ component.toList, Markdown.isEol c = false)
    (htitle : Layout.IsTitle (Template.displayName component).toList) {path : Path}
    (h : (p.generate t component).result = .ok path) :
    path = (p.config.outDir.join (.ofString component)).withExtension Config.markdown ∧
      (p.generate t component).tree.readText p.here path = .ok (p.document t component) := by
  obtain ⟨rfl, text, hrender, hwrite, htree⟩ := generate_eq_ok h
  refine ⟨by simp [destination, Config.destFile, hdestination, Config.defaultDestination], ?_⟩
  obtain ⟨formatted, hformat, hfile⟩ := write_eq_ok hwrite
  obtain ⟨l, -, hfind, -⟩ := writeFile_eq_ok hfile
  have htext : text = Template.headerText component ++
      (if p.supplementText t component = "" then "" else "\n" ++ p.supplementText t component ++ "\n") := by
    have hbuiltIn : p.engine = Engine.ofTemplate Template.builtInBody := by
      rw [Template.ofText_builtIn] at hengine
      exact (Except.ok.inj hengine).symm
    have hextra : (p.config.request t p.here component).extra.getD "" = p.supplementText t component := by
      rw [Config.request, hsupplement]
      rfl
    simp only [render, compile, hbuiltIn, Engine.ofTemplate, Template.renderComponent_builtIn] at hrender
    have hcomponent : (p.config.request t p.here component).component = component := rfl
    rw [hextra, hcomponent] at hrender
    exact (Except.ok.inj hrender).symm
  have hdocument : formatted = p.document t component := by
    rw [hformatter] at hformat
    rw [← Except.ok.inj hformat, htext, Template.canonicalize_document htitle hbreak]
    rfl
  rw [htree, FileTree.readText_of_find hfind, hdocument]

/-- A project with the defaults in everything. -/
def defaultProject : Project where
  config := (Config.forWorkingDir (.ofString "/w")).rootedAtComponents
  engine := .ofTemplate Template.builtInBody
  formatter := .canonical
  here := []

theorem ofConfig_forWorkingDir (t : FileTree) :
    ofConfig t [] (Config.forWorkingDir (.ofString "/w")) = .ok defaultProject := by
  have htemplate : (Config.forWorkingDir (.ofString "/w")).template = none := rfl
  rw [ofConfig, htemplate, Engine.load_none, Template.ofText_builtIn]
  rfl

/-- A component with a supplementary file. -/
def supplementedTree (extra : String) : FileTree :=
  ⟨[([['w']], .directory), ([['w'], "A.vue".toList], .file (.text "")), ([['w'], "A.md".toList], .file (.text extra))]⟩

theorem generate_document_list :
    let t := supplementedTree "* b  \n~~~\n* c"
    (defaultProject.generate t "A.vue").result = .ok (.ofString "/w/docs/A.md") ∧
      (defaultProject.generate t "A.vue").tree.readText [] (.ofString "/w/docs/A.md") =
        .ok "# A\n\nSource: `A.vue`\n\n- b\n~~~\n* c\n" := by
  intro t
  have hresult : (defaultProject.generate t "A.vue").result = .ok (.ofString "/w/docs/A.md") := by decide +kernel
  have hdocument : defaultProject.document t "A.vue" = "# A\n\nSource: `A.vue`\n\n- b\n~~~\n* c\n" := by decide +kernel
  have htitle : Layout.IsTitle (Template.displayName "A.vue").toList :=
    ⟨by decide +kernel, by decide +kernel, by decide +kernel⟩
  have hbreak : ∀ c ∈ "A.vue".toList, Markdown.isEol c = false := by
    rw [show "A.vue".toList = ['A', '.', 'v', 'u', 'e'] from rfl]
    simp [Markdown.isEol]
  have h := generate_document (p := defaultProject) Template.ofText_builtIn rfl rfl rfl hbreak htitle hresult
  exact ⟨hresult, hdocument ▸ h.2⟩

/-- Where a text ends within HTML, in a line of marks and blanks that no line feed ends, the blanks are lost if
it stands alone. -/
theorem generate_document_ne :
    let extra := "> <!--\n> "
    let t := supplementedTree extra
    ofConfig t [] (Config.forWorkingDir (.ofString "/w")) = .ok defaultProject ∧ Template.displayName "A.vue" = "A" ∧
      (defaultProject.generate t "A.vue").result = .ok (.ofString "/w/docs/A.md") ∧
      (defaultProject.generate t "A.vue").tree.readText [] (.ofString "/w/docs/A.md") =
        .ok "# A\n\nSource: `A.vue`\n\n> <!--\n> \n" ∧
      "# A\n\nSource: `A.vue`\n\n" ++ Layout.canonicalize extra = "# A\n\nSource: `A.vue`\n\n> <!--\n>\n" :=
  ⟨ofConfig_forWorkingDir _, by decide +kernel, by decide +kernel, by decide +kernel, by decide +kernel⟩

end Project

end ComponentDocs
