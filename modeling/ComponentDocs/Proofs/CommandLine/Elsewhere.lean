import ComponentDocs.Proofs.CommandLine.ExitCode
import ComponentDocs.Proofs.CommandLine.Shadow
import ComponentDocs.Proofs.Settings.Places
import Mathlib.Data.Sum.Basic
/-! A directory that is named before all other arguments. The others are read as they are without it, unless they
name a directory themselves. -/
namespace ComponentDocs.CommandLine

namespace Flag

/-- The flags that tell a run where to take place, when to end and which program to call. -/
def outward : List Flag := [.cwd, .watch, .formatterCommand, .prettier]

theorem not_mem_outward_of_short {c : Char} {f : Flag} (h : ofShort? c = some f) : f ∉ outward := by
  have hshort := List.find?_some h
  rw [decide_eq_true_eq] at hshort
  cases f <;> simp_all [short?, outward]

def spelled? (argument : String) : Option Flag :=
  match argument.toList with
  | '-' :: '-' :: cs => ofLong? (splitValue cs).1
  | _ => none

end Flag

def Given.IsInward (g : Given) : Prop := ∀ y ∈ g, y.1 ∉ Flag.outward

/-- A flag whose value is yet to come is none of the outward ones. -/
def Pending.IsInward (pending : Pending) : Prop := ∀ y ∈ pending, y.1 ∉ Flag.outward

def Demand.IsInward : Demand → Prop
  | .run g => g.IsInward
  | _ => True

def Demand.inDirectory (dir : String) : Demand → Demand
  | .run g => .run ((.cwd, dir) :: g)
  | d => d

/-- The second flags are the first after a directory. -/
def Given.Leads (dir : String) (g h : Given) : Prop := g.IsInward ∧ h = (.cwd, dir) :: g

def Demand.Leads (dir : String) (d e : Demand) : Prop := d.IsInward ∧ e = d.inDirectory dir

variable {dir : String} {g h : Given} {pending : Pending}

theorem Pending.isInward_none : Pending.IsInward none := by simp [IsInward]

theorem Pending.isInward_some {f : Flag} (hf : f ∉ Flag.outward) (value? : Option String) :
    Pending.IsInward (some (f, value?)) := by
  rintro y ⟨⟩
  exact hf

theorem paired_accept (hg : g.Leads dir h) {f : Flag} (hf : f ∉ Flag.outward) (value : String) :
    Paired (Given.Leads dir) (g.accept f value) (h.accept f value) := by
  obtain ⟨hin, rfl⟩ := hg
  have hne : Flag.cwd ≠ f := by
    rintro rfl
    exact hf (by decide)
  have hhas : Given.has ((.cwd, dir) :: g) f = g.has f := by simp [Given.has, hne]
  unfold Given.accept
  rw [hhas]
  split
  · exact .error _
  · split
    · exact .error _
    · refine .ok ⟨fun y hy => ?_, rfl⟩
      rcases List.mem_append.1 hy with hy | hy
      · exact hin y hy
      · rwa [List.mem_singleton.1 hy]

theorem paired_settle (hg : g.Leads dir h) (hp : pending.IsInward) :
    Paired (Given.Leads dir) (settle g pending) (settle h pending) := by
  rcases pending with _ | ⟨f, _ | value⟩
  · exact .ok hg
  · exact .error _
  · exact paired_accept hg (hp _ rfl) value

theorem paired_take (hg : g.Leads dir h) {f : Flag} (hf : f ∉ Flag.outward) :
    Paired (Sum.LiftRel (Demand.Leads dir) (Given.Leads dir)) (take g f) (take h f) := by
  have haccept : Paired (Sum.LiftRel (Demand.Leads dir) (Given.Leads dir))
      ((g.accept f "").map .inr) ((h.accept f "").map .inr) :=
    (paired_accept hg hf "").map fun _ _ => .inr
  cases f with
  | help => exact .ok (.inl ⟨trivial, rfl⟩)
  | version => exact .ok (.inl ⟨trivial, rfl⟩)
  | _ => exact haccept

theorem paired_takeShort (hg : g.Leads dir h) (hp : pending.IsInward) (cs : List Char) :
    Paired (Sum.LiftRel (Demand.Leads dir) fun a b => a.1.Leads dir b.1 ∧ a.2 = b.2 ∧ a.2.IsInward)
      (takeShort cs g pending) (takeShort cs h pending) := by
  induction cs generalizing g h pending with
  | nil => exact .ok (.inr ⟨hg, rfl, hp⟩)
  | cons c cs ih =>
    unfold takeShort
    cases hc : Flag.ofShort? c with
    | none => exact .error _
    | some f =>
      refine (paired_settle hg hp).bind fun g₁ h₁ hg₁ => ?_
      refine (paired_take hg₁ (Flag.not_mem_outward_of_short hc)).bind fun a b hab => ?_
      cases hab with
      | inl hd => exact .ok (.inl hd)
      | inr hg₂ => exact ih hg₂ Pending.isInward_none

theorem paired_finish (hg : g.Leads dir h) : Paired (Demand.Leads dir) (finish g) (finish h) := by
  obtain ⟨hin, rfl⟩ := hg
  have hnone : (g.find? fun y => y.1 = .prettier || y.1 = .formatterCommand) = none := by
    refine List.find?_eq_none.2 fun y hy hf => hin y hy ?_
    rcases Bool.or_eq_true_iff.1 hf with hf | hf <;> simp [of_decide_eq_true hf, Flag.outward]
  have hnone' : (((Flag.cwd, dir) :: g).find? fun y => y.1 = .prettier || y.1 = .formatterCommand) = none := by
    simpa using hnone
  unfold finish
  rw [hnone, hnone']
  exact .ok ⟨hin, rfl⟩

/-- Arguments without an outward flag are read alike without a directory before them and with one. -/
theorem paired_read {args : List String} (hargs : ∀ a ∈ args, ∀ f ∈ Flag.spelled? a, f ∉ Flag.outward)
    (hg : g.Leads dir h) (hp : pending.IsInward) :
    Paired (Demand.Leads dir) (read args g pending) (read args h pending) := by
  have hend {g h : Given} {pending : Pending} (hg : g.Leads dir h) (hp : pending.IsInward) :
      Paired (Demand.Leads dir) (settle g pending >>= finish) (settle h pending >>= finish) :=
    (paired_settle hg hp).bind fun _ _ hg => paired_finish hg
  fun_induction read args g pending generalizing h with
  | case1 g pending => exact hend hg hp
  | case2 a g pending ha =>
    simp only [read, ha]
    exact hend hg hp
  | case3 a g pending ha next rest =>
    simp only [read, ha]
    exact .error _
  | case4 a rest g pending cs hcs ha name value? hsplit hlong =>
    simp only [read, ha, hsplit, hlong]
    exact .error _
  | case5 a rest g pending cs hcs ha name f hlong value hvalue hsplit ih =>
    obtain ⟨hfirst, hrest⟩ := List.forall_mem_cons.1 hargs
    have hf : f ∉ Flag.outward := hfirst f (by simp [Flag.spelled?, ha, hsplit, hlong])
    simp only [read, ha, hsplit, hlong, hvalue]
    refine (paired_settle hg hp).bind fun g₁ h₁ hg₁ => ?_
    exact (paired_accept hg₁ hf value).bind fun g₂ h₂ hg₂ => ih g₂ hrest hg₂ Pending.isInward_none
  | case6 a rest g pending cs hcs ha name f hlong hvalue hsplit ih =>
    obtain ⟨hfirst, hrest⟩ := List.forall_mem_cons.1 hargs
    have hf : f ∉ Flag.outward := hfirst f (by simp [Flag.spelled?, ha, hsplit, hlong])
    simp only [read, ha, hsplit, hlong, hvalue]
    exact (paired_settle hg hp).bind fun g₁ h₁ hg₁ => ih g₁ hrest hg₁ (Pending.isInward_some hf none)
  | case7 a rest g pending cs hcs ha name f hlong value hvalue hsplit =>
    simp only [read, ha, hsplit, hlong, hvalue]
    exact .error _
  | case8 a rest g pending cs hcs ha name f hlong hvalue hsplit ih =>
    obtain ⟨hfirst, hrest⟩ := List.forall_mem_cons.1 hargs
    have hf : f ∉ Flag.outward := hfirst f (by simp [Flag.spelled?, ha, hsplit, hlong])
    simp only [read, ha, hsplit, hlong, hvalue]
    refine (paired_settle hg hp).bind fun g₁ h₁ hg₁ => (paired_take hg₁ hf).bind fun b b' hb => ?_
    cases hb with
    | inl hd => exact .ok hd
    | inr hg₂ => exact ih _ hrest hg₂ Pending.isInward_none
  | case9 a rest g pending c cs hne hdash ha ih =>
    obtain ⟨-, hrest⟩ := List.forall_mem_cons.1 hargs
    simp only [read, ha]
    refine (paired_takeShort hg hp (c :: cs)).bind fun b b' hb => ?_
    cases hb with
    | inl hd => exact .ok hd
    | @inr next next' hnext =>
      obtain ⟨g₁, pending₁⟩ := next
      obtain ⟨h₁, _⟩ := next'
      obtain ⟨hg₁, rfl, hp₁⟩ := hnext
      exact ih g₁ pending₁ hrest hg₁ hp₁
  | case10 a rest g f hdashes hlong hshort ih =>
    obtain ⟨-, hrest⟩ := List.forall_mem_cons.1 hargs
    simp only [read]
    exact ih hrest hg (Pending.isInward_some (hp _ rfl) _)
  | case11 a rest g pending hdashes hlong hshort hpending =>
    simp only [read]
    exact .error _

theorem read_of_accept {f : Flag} {value : String} (hv : g.accept f value = .ok h) (args : List String) :
    read args g (some (f, some value)) = read args h none := by
  have hs : settle g (some (f, some value)) = settle h none := hv
  cases args with
  | nil => simp only [read, hs]
  | cons a rest => simp only [read, takeShort, hs]

theorem read_directory (l : Location) (args : List String) :
    read ("--cwd" :: l.path.toString :: args) [] none = read args [(.cwd, l.path.toString)] none := by
  have hflag (rest : List String) : read ("--cwd" :: rest) [] none = read rest [] (some (.cwd, none)) := by
    have hchars : "--cwd".toList = ['-', '-', 'c', 'w', 'd'] := by decide
    have hsplit : splitValue ['c', 'w', 'd'] = ("cwd", none) := by decide
    have hlong : Flag.ofLong? "cwd" = some .cwd := by decide
    have hvalue : Flag.cwd.takesValue = true := by decide
    simp only [read, hchars, hsplit, hlong, hvalue]
    rfl
  have hdir : l.path.toString.toList = '/' :: Path.glue l := by simp [Path.toString, Location.path]
  have hvalue : read (l.path.toString :: args) [] (some (.cwd, none)) =
      read args [] (some (.cwd, some l.path.toString)) := by
    simp only [read, hdir]
    rfl
  have haccept : Given.accept [] .cwd l.path.toString = .ok [(.cwd, l.path.toString)] := by
    have hne : l.path.toString.isEmpty = false := by simp [← String.toList_eq_nil_iff, hdir]
    simp [Given.accept, Given.has, hne]
  rw [hflag, hvalue, read_of_accept haccept]

theorem ofArguments_directory {args : List String} (hargs : ∀ a ∈ args, ∀ f ∈ Flag.spelled? a, f ∉ Flag.outward)
    {demand : Demand} (h : Demand.ofArguments args = .ok demand) (l : Location) :
    Demand.ofArguments ("--cwd" :: l.path.toString :: args) = .ok (demand.inDirectory l.path.toString) ∧
      demand.IsInward := by
  have hpaired : Paired (Demand.Leads l.path.toString) (read args [] none)
      (read args [(.cwd, l.path.toString)] none) :=
    paired_read hargs ⟨by simp [Given.IsInward], rfl⟩ Pending.isInward_none
  rw [Demand.ofArguments, read_directory]
  rw [Demand.ofArguments] at h
  generalize read args [(.cwd, l.path.toString)] none = r at hpaired ⊢
  rw [h] at hpaired
  cases hpaired with
  | ok hleads => exact ⟨congrArg Except.ok hleads.2, hleads.1⟩

end ComponentDocs.CommandLine

/-! A run in a directory and a run elsewhere that names the directory. They end alike. -/
namespace ComponentDocs.CommandLine
open Settings ComponentDocs.Path

namespace Given
variable {g : Given}

theorem values_cons_of_ne {f other : Flag} (hne : other ≠ f) (value : String) :
    values ((other, value) :: g) f = g.values f := by
  simp [values, hne]

theorem value?_cons_of_ne {f other : Flag} (hne : other ≠ f) (value : String) :
    value? ((other, value) :: g) f = g.value? f := by
  rw [value?, value?, values_cons_of_ne hne]

theorem has_cons_of_ne {f other : Flag} (hne : other ≠ f) (value : String) :
    has ((other, value) :: g) f = g.has f := by
  simp [has, hne]

namespace IsInward
variable (h : g.IsInward) {f : Flag} (hf : f ∈ Flag.outward)
include h hf

theorem has_eq_false : g.has f = false := by
  rw [has, List.any_eq_false]
  intro y hy hfy
  exact h y hy (of_decide_eq_true hfy ▸ hf)

theorem value?_eq_none : g.value? f = none := by
  have hvalues : g.values f = [] := by
    refine List.filterMap_eq_nil_iff.2 fun y hy => if_neg ?_
    rintro rfl
    exact h y hy hf
  rw [value?, hvalues]
  rfl

end IsInward

end Given

variable {t : FileTree} {x d : Location} {g : Given}

theorem loadConfig_directory (hd : t.canonicalize x d.path = .ok d.path) (hg : g.IsInward) :
    loadConfig t x ((.cwd, d.path.toString) :: g) = loadConfig t d g := by
  have hcwd : (Given.value? ((.cwd, d.path.toString) :: g) .cwd).map Path.ofString = some d.path := by
    simp [Given.value?, Given.values, Path.ofString, Path.toString]
  have hnone : g.value? .cwd = none := hg.value?_eq_none (by decide)
  have honto : Given.patternsOnto ((.cwd, d.path.toString) :: g) = g.patternsOnto := by
    funext c
    simp only [Given.patternsOnto, Given.values_cons_of_ne (show Flag.cwd ≠ .components by decide)]
  have hpaths : Given.pathsOnto ((.cwd, d.path.toString) :: g) = g.pathsOnto := by
    funext c
    simp only [Given.pathsOnto, Given.value?_cons_of_ne (show Flag.cwd ≠ .outDir by decide),
      Given.value?_cons_of_ne (show Flag.cwd ≠ .outFile by decide)]
  rw [loadConfig_eq, loadConfig_eq, hcwd, hnone, Given.value?_cons_of_ne (by decide), honto, hpaths, Option.map_none,
    Config.load_directory hd]

theorem anchored_pathsOnto {c : Config} (h : c.Anchored) (g : Given) : (g.pathsOnto c).Anchored := by
  refine ⟨h.cwd, ?_, fun file hf => ?_, h.template, h.supplement, h.destination⟩
  · unfold Given.pathsOnto
    cases g.value? .outDir with
    | none => exact h.outDir
    | some dir => exact isAbsolute_join_left h.cwd _
  · unfold Given.pathsOnto at hf
    cases hv : g.value? .outFile with
    | none => exact h.outFile file (by simpa [hv] using hf)
    | some named =>
      obtain rfl : c.cwd.join (.ofString named) = file := by simpa [hv] using hf
      exact .of_isAbsolute (isAbsolute_join_left h.cwd _)

theorem patternsOnto_eq_ok {c c' : Config} (h : g.patternsOnto c = .ok c') :
    ∃ components, c' = { c with components } := by
  unfold Given.patternsOnto at h
  split at h
  · cases h
    exact ⟨c.components, rfl⟩
  · split at h
    · cases h
      exact ⟨_, rfl⟩
    · cases h

/-- Flags leave it so that settings mean the same everywhere. -/
theorem anchored_of_loadConfig (hg : g.IsInward) {c : Config} (h : loadConfig t d g = .ok c)
    (hs : AllSettled t d d.path ((g.value? .config).map .ofString)) : c.Anchored ∧ c.watch = false := by
  have hnone : g.value? .cwd = none := hg.value?_eq_none (by decide)
  rw [loadConfig_eq, hnone, Option.map_none] at h
  cases hload : Config.load t d none ((g.value? .config).map .ofString) >>= g.patternsOnto with
  | error e =>
    rw [hload] at h
    cases h
  | ok listed =>
    rw [hload] at h
    cases h
    obtain ⟨loaded, hload, hlisted⟩ := bind_eq_ok hload
    obtain ⟨hanchored, hwatch⟩ := Config.anchored_of_load hload hs
    obtain ⟨components, rfl⟩ := patternsOnto_eq_ok hlisted
    refine ⟨anchored_pathsOnto ?_ g, hwatch⟩
    exact ⟨hanchored.cwd, hanchored.outDir, hanchored.outFile, hanchored.template, hanchored.supplement,
      hanchored.destination⟩

theorem formatterCommand?_of_isInward (hg : g.IsInward) : formatterCommand? g = .ok none := by
  have hflag : g.has .prettier = false := hg.has_eq_false (by decide)
  have hvalue : g.value? .formatterCommand = none := hg.value?_eq_none (by decide)
  simp [formatterCommand?, hflag, hvalue]

theorem templateText_anchored {template : Option Path} (h : ∀ file ∈ template, file.IsAnchored) (y : Location) :
    Engine.templateText t x template = Engine.templateText t y template := by
  cases template with
  | none => rfl
  | some file => simp only [Engine.templateText, FileTree.readText_anchored (h file rfl) t x y]

/-- The project is the same but for the directory that relative paths start from, and it has none of these. -/
theorem openProject_directory (hd : t.canonicalize x d.path = .ok d.path) (hg : g.IsInward)
    (hs : AllSettled t d d.path ((g.value? .config).map .ofString)) (run run' : Runner) :
    openProject run t x ((.cwd, d.path.toString) :: g) =
      (openProject run' t d g).map fun (c, p) => (c, p.startedIn x) := by
  have hcommand := formatterCommand?_of_isInward hg
  have hcommand' : formatterCommand? ((.cwd, d.path.toString) :: g) = .ok none := by
    rw [formatterCommand?, Given.has_cons_of_ne (by decide), Given.value?_cons_of_ne (by decide), ← formatterCommand?,
      hcommand]
  unfold openProject
  rw [loadConfig_directory hd hg, hcommand, hcommand']
  cases hc : loadConfig t d g with
  | error e => rfl
  | ok c =>
    obtain ⟨hanchored, -⟩ := anchored_of_loadConfig hg hc hs
    have hengine : Engine.load t x c.template = Engine.load t d c.template := by
      rw [Engine.load, Engine.load, templateText_anchored hanchored.template d]
    simp only [Except.mapError, bind, Except.bind, Project.ofConfig, hengine]
    cases Engine.load t d c.template <;> rfl

theorem settingsLog_directory (hd : t.canonicalize x d.path = .ok d.path) (hg : g.IsInward) :
    settingsLog t x ((.cwd, d.path.toString) :: g) = settingsLog t d g := by
  have hcwd : (Given.value? ((.cwd, d.path.toString) :: g) .cwd).map Path.ofString = some d.path := by
    simp [Given.value?, Given.values, Path.ofString, Path.toString]
  have hnone : g.value? .cwd = none := hg.value?_eq_none (by decide)
  simp only [settingsLog, hcwd, hnone, Option.map_none, Given.value?_cons_of_ne (show Flag.cwd ≠ .config by decide),
    Given.values_cons_of_ne (show Flag.cwd ≠ .components by decide), gather_directory hd, Config.load_directory hd]

theorem openingLog_directory (hd : t.canonicalize x d.path = .ok d.path) (hg : g.IsInward)
    (hs : AllSettled t d d.path ((g.value? .config).map .ofString)) :
    openingLog t x ((.cwd, d.path.toString) :: g) = openingLog t d g := by
  have hcommand' : formatterCommand? ((.cwd, d.path.toString) :: g) = formatterCommand? g := by
    rw [formatterCommand?, Given.has_cons_of_ne (by decide), Given.value?_cons_of_ne (by decide), ← formatterCommand?]
  unfold openingLog
  rw [settingsLog_directory hd hg, loadConfig_directory hd hg, hcommand']
  cases hc : loadConfig t d g with
  | error e => rfl
  | ok c =>
    obtain ⟨hanchored, -⟩ := anchored_of_loadConfig hg hc hs
    simp only [templateText_anchored hanchored.template d (t := t) (x := x)]

/-- A run ends the same wherever it is started, if the documents of its project are written the same. -/
theorem executeBy_directory (hd : t.canonicalize x d.path = .ok d.path) (hg : g.IsInward)
    (hs : AllSettled t d d.path ((g.value? .config).map .ofString)) (run run' : Runner)
    {generate : Project → FileTree → FileTree × Except Project.Error Project.Report}
    (hgenerate : ∀ p : Project, p.Anchored → generate (p.startedIn x) t = generate p t) (turns : Project.Turns) :
    ∃ e, executeBy generate turns run t x ((.cwd, d.path.toString) :: g) = .ended e ∧
      executeBy generate turns run' t d g = .ended e := by
  have hopen := openProject_directory hd hg hs run run'
  have hflag : g.has .watch = false := hg.has_eq_false (by decide)
  unfold executeBy
  rw [hopen, openingLog_directory hd hg hs, Given.has_cons_of_ne (by decide), hflag,
    Given.values_cons_of_ne (show Flag.cwd ≠ .verbose by decide)]
  cases hp : openProject run' t d g with
  | error e => exact ⟨_, rfl, rfl⟩
  | ok opened =>
    obtain ⟨c, p⟩ := opened
    have hopens : loadConfig t d g = .ok c ∧ p.config = c.rootedAtComponents := by
      cases openProject_eq_ok hp with
      | intro settings _ _ => exact ⟨settings, rfl⟩
    obtain ⟨hanchored, hwatch⟩ := anchored_of_loadConfig hg hopens.1 hs
    have hproject := hanchored.project hopens.2
    have hrendering : renderingLog t x c = renderingLog t d c := by
      funext request
      simp only [renderingLog, templateText_anchored hanchored.template d (t := t) (x := x)]
    simp only [Except.map, hwatch, Bool.or_self, Bool.false_eq_true, if_false, hrendering, hgenerate p hproject,
      hproject.generationLog_startedIn]
    rcases generate p t with ⟨tree, e | r⟩ <;> exact ⟨_, rfl, rfl⟩

theorem answer_directory {args : List String} (hflags : ∀ a ∈ args, ∀ f ∈ Flag.spelled? a, f ∉ Flag.outward)
    {demand : Demand} (hargs : Demand.ofArguments args = .ok demand) {execute execute' : Given → Ending}
    (h : ∀ g, demand = .run g → g.IsInward → ∃ e, execute ((.cwd, d.path.toString) :: g) = .ended e ∧
      execute' g = .ended e) :
    ∃ e, answer t ("--cwd" :: d.path.toString :: args) execute = .ended e ∧ answer t args execute' = .ended e := by
  obtain ⟨hdirectory, hin⟩ := ofArguments_directory hflags hargs d
  unfold answer
  rw [hdirectory, hargs]
  cases demand with
  | run g => exact h g rfl hin
  | help => exact ⟨_, rfl, rfl⟩
  | version => exact ⟨_, rfl, rfl⟩

/-- The program takes one of the orders that components may take their turns in. -/
theorem start_eq_startBy (ht : t.WellFormed) (run : Runner) (here : Location) (args : List String) :
    start run t here args = startBy {} run t here args := by
  unfold start startBy execute answer executeBy
  simp only [Project.generateBy_nil ht]

/-- Where a run takes place is told by the directory alone: a run that is started in it and one that is started
elsewhere and names it print the same, log the same, exit with the same code and leave the same files. So do any two
runs in which the components take the same turns. The arguments may name other paths, which start from the
directory. -/
theorem start_elsewhere (hd : t.canonicalize x d.path = .ok d.path) {args : List String}
    (hflags : ∀ a ∈ args, ∀ f ∈ Flag.spelled? a, f ∉ Flag.outward) {demand : Demand}
    (hargs : Demand.ofArguments args = .ok demand)
    (hs : ∀ g, demand = .run g → AllSettled t d d.path ((g.value? .config).map .ofString)) (run run' : Runner) :
    (∃ e, start run t x ("--cwd" :: d.path.toString :: args) = .ended e ∧ start run' t d args = .ended e) ∧
    ∀ turns, ∃ e, startBy turns run t x ("--cwd" :: d.path.toString :: args) = .ended e ∧
      startBy turns run' t d args = .ended e := by
  refine ⟨answer_directory hflags hargs fun g hg hin => ?_,
    fun turns => answer_directory hflags hargs fun g hg hin => ?_⟩
  · exact executeBy_directory hd hin (hs g hg) run run' (fun p hp => by rw [hp.generateAll_startedIn x t]) {}
  · exact executeBy_directory hd hin (hs g hg) run run' (fun p hp => hp.generateBy_startedIn x t turns.steps) turns

def elsewhereTree : FileTree :=
  ⟨[(["w".toList], .directory), (["w".toList, "A.vue".toList], .file (.text "")),
    (["w".toList, "docgen.config.toml".toList], .file (.text "components = \"B.*\"\nout_dir = \"a\"\n")),
    (["w".toList, "ci".toList], .directory),
    (["w".toList, "ci".toList, "ci.toml".toList], .file (.text "components = \"A.*\"\n")),
    (["x".toList], .directory)]⟩

/-- All that is logged is shown, by the values of its fields. -/
theorem start_elsewhere_relative :
    let run : Runner := fun _ _ => .ok { status := .code 1 }
    let run' : Runner := fun _ input => .ok { output := input }
    let args := ["--config", "ci/ci.toml", "--out-dir", "site", "-vv"]
    let turns : Project.Turns := { steps := ["A.vue"] }
    let console : Log.Console := ⟨none, fun _ => [], fun _ _ r => " ".intercalate (r.fields.map (·.2)) ++ "\n"⟩
    ∃ e, startBy turns run elsewhereTree [['x']] ("--cwd" :: "/w" :: args) = .ended e ∧
      startBy turns run' elsewhereTree [['w']] args = .ended e ∧ e.code = 0 ∧
      e.output = "wrote site/A.md\n1 written, 0 failed\n" ∧
      e.stderr console = "1\n/w/A.md No such file or directory (os error 2)\n\"A.vue\" /w/site/A.md\n" := by
  intro run run' args turns console
  have hd : elsewhereTree.canonicalize [['x']] (Location.path [['w']]) = .ok (Location.path [['w']]) := by
    decide +kernel
  have hflags : ∀ a ∈ args, ∀ f ∈ Flag.spelled? a, f ∉ Flag.outward := by decide +kernel
  have hargs : Demand.ofArguments args =
      .ok (.run [(.config, "ci/ci.toml"), (.outDir, "site"), (.verbose, ""), (.verbose, "")]) := by
    decide +kernel
  obtain ⟨-, hturns⟩ := start_elsewhere hd hflags hargs (by rintro g ⟨⟩; decide +kernel) run run'
  obtain ⟨e, he, he'⟩ := hturns turns
  have hshown : (startBy turns run' elsewhereTree [['w']] args).casesOn (motive := fun _ => Nat × String × String)
      (fun e => (e.code, e.output, e.stderr console)) (fun _ _ => (6, "", "")) =
      (0, "wrote site/A.md\n1 written, 0 failed\n",
        "1\n/w/A.md No such file or directory (os error 2)\n\"A.vue\" /w/site/A.md\n") := by
    decide +kernel
  rw [he'] at hshown
  simp only [Prod.mk.injEq] at hshown
  exact ⟨e, he, he', hshown⟩

end ComponentDocs.CommandLine
