import ComponentDocs.Markdown.Outline
import Mathlib.Data.List.TakeWhile
import Mathlib.Tactic
/-! What is left of a line after the marks of containers are passed: an end of it, and a shorter one
after every mark. -/
namespace ComponentDocs.Markdown

namespace LineStart

theorem exists_skip_go (n pending scanned column : Nat) (cs : List Char) :
    ∃ blanks, cs = blanks ++ (skip.go n pending scanned column cs).2.rest ∧ ∀ c ∈ blanks, isSpace c = true := by
  induction cs generalizing n pending scanned column with
  | nil => exact ⟨[], rfl, by simp⟩
  | cons c cs ih =>
    unfold skip.go
    split
    · exact ⟨[], rfl, by simp⟩
    · split
      · next hc =>
        obtain ⟨blanks, he, hb⟩ := ih (n - 1) pending (scanned + 1) (column + 1)
        exact ⟨c :: blanks, congrArg (c :: ·) he, List.forall_mem_cons.2 ⟨by simp [isSpace, hc], hb⟩⟩
      · split
        · next hc =>
          obtain ⟨blanks, he, hb⟩ := ih (n - (4 - column % 4)) (4 - column % 4 - n) (scanned + 1) 0
          exact ⟨c :: blanks, congrArg (c :: ·) he, List.forall_mem_cons.2 ⟨by simp [isSpace, hc], hb⟩⟩
        · exact ⟨[], rfl, by simp⟩

theorem exists_skip (l : LineStart) (n : Nat) :
    ∃ blanks, l.rest = blanks ++ (l.skip n).2.rest ∧ ∀ c ∈ blanks, isSpace c = true := exists_skip_go ..

theorem suffix_skip (l : LineStart) (n : Nat) : (l.skip n).2.rest <:+ l.rest := by
  obtain ⟨blanks, he, -⟩ := l.exists_skip n
  exact ⟨blanks, he.symm⟩

theorem skip_ne_nil {l : LineStart} (h : blankLine? l.rest = none) (n : Nat) : (l.skip n).2.rest ≠ [] := by
  obtain ⟨blanks, he, hb⟩ := l.exists_skip n
  rintro hnil
  rw [hnil, List.append_nil] at he
  have hrun : spaceRun l.rest = l.rest.length := by
    rw [spaceRun, he, List.takeWhile_eq_self_iff.2 hb]
  simp [blankLine?, hrun, eol?] at h

theorem suffix_indent (l : LineStart) (n : Nat) : (l.indent n).2.rest <:+ l.rest := suffix_skip ..

theorem suffix_skipAll (l : LineStart) : l.skipAll.rest <:+ l.rest := List.drop_suffix ..

theorem suffix_advance (l : LineStart) : l.advance.rest <:+ l.rest := List.drop_suffix ..

theorem length_advance_lt {l : LineStart} (h : l.rest ≠ []) : l.advance.rest.length < l.rest.length := by
  obtain ⟨c, cs, hcs⟩ := List.exists_cons_of_ne_nil h
  simp [advance, hcs]

theorem length_quoteMark?_lt {l next : LineStart} (h : l.quoteMark? = some next) :
    next.rest.length < l.rest.length := by
  unfold quoteMark? at h
  dsimp only at h
  split at h
  · next hmark =>
    cases h
    calc ((l.skip 3).2.advance.skip 1).2.rest.length
        ≤ (l.skip 3).2.advance.rest.length := (suffix_skip ..).length_le
      _ < (l.skip 3).2.rest.length := length_advance_lt (by rintro he; simp [he] at hmark)
      _ ≤ l.rest.length := (suffix_skip ..).length_le
  · cases h

theorem suffix_quoteMark? {l next : LineStart} (h : l.quoteMark? = some next) : next.rest <:+ l.rest := by
  unfold quoteMark? at h
  dsimp only at h
  split at h
  · cases h
    exact (suffix_skip ..).trans ((suffix_advance _).trans (suffix_skip ..))
  · cases h

theorem suffix_afterMarker? {l next : LineStart} (h : l.afterMarker? = some next) : next.rest <:+ l.rest := by
  unfold afterMarker? at h
  dsimp only at h
  split at h
  · cases h
    exact suffix_skip ..
  · cases h

theorem suffix_contentIndent (l : LineStart) (indent : Nat) : (l.contentIndent indent).2.rest <:+ l.rest := by
  unfold contentIndent
  split
  · exact List.suffix_rfl
  · dsimp only
    split
    · exact suffix_indent ..
    · exact List.suffix_rfl

theorem length_contentIndent_le {l next : LineStart} (h : l.afterMarker? = some next) (indent : Nat) :
    (next.contentIndent indent).2.rest.length ≤ l.rest.length :=
  ((next.suffix_contentIndent indent).trans (suffix_afterMarker? h)).length_le

theorem length_listMarker?_lt {l next : LineStart} {marker : Char} {indent : Nat}
    (h : l.listMarker? = some (marker, indent, next)) : next.rest.length < l.rest.length := by
  have hindent := (l.suffix_indent 4).length_le
  unfold listMarker? at h
  dsimp only at h
  split at h
  · cases h
  · split at h
    · cases h
    · next c cs hrest =>
      split at h
      · split at h
        · cases h
        · obtain ⟨after, ha, hnext⟩ := Option.map_eq_some_iff.1 h
          cases hnext
          calc _ ≤ (l.indent 4).2.advance.rest.length := length_contentIndent_le ha _
            _ < (l.indent 4).2.rest.length := length_advance_lt (by simp [hrest])
            _ ≤ l.rest.length := hindent
      · split at h
        · split at h
          · next d rest hdrop =>
            split at h
            · obtain ⟨after, ha, hnext⟩ := Option.map_eq_some_iff.1 h
              cases hnext
              have hlong := congrArg List.length hdrop
              simp only [List.length_drop, List.length_cons] at hlong
              exact (length_contentIndent_le ha _).trans_lt (show rest.length < _ by omega)
            · cases h
          · cases h
        · cases h

theorem length_taskBox?_le {l next : LineStart} (h : l.taskBox? = some next) :
    next.rest.length ≤ l.rest.length := by
  have hindent := (l.suffix_indent 3).length_le
  unfold taskBox? at h
  dsimp only at h
  split at h
  · split at h
    · cases h
      simp only [advance, List.drop_drop, List.length_drop]
      omega
    · cases h
  · cases h

end LineStart

namespace Container

theorem suffix_enter? {l next : LineStart} {c : Container} (h : c.enter? l = some next) : next.rest <:+ l.rest := by
  cases c with
  | blockQuote => exact LineStart.suffix_quoteMark? h
  | item indent =>
    simp only [enter?] at h
    split at h
    · cases h
      exact l.suffix_skip indent
    · cases h
  | list | footnote =>
    cases h
    exact List.suffix_rfl

theorem suffix_enterAll (l : LineStart) (cs : List Container) : (enterAll l cs).2.rest <:+ l.rest := by
  induction cs with
  | nil => exact List.suffix_rfl
  | cons c outer ih =>
    rw [enterAll]
    dsimp only
    split
    · split
      · next inner hinner => exact (suffix_enter? hinner).trans ih
      · exact ih
    · exact ih

end Container

/-! Places in a document. Whatever is passed on a line, its marks and its white space, the characters of it are counted,
and no line feed is among them. -/

/-- What is left of a line that begins with some text, after as many characters as were passed. -/
structure LineStart.On (cs : List Char) (l : LineStart) : Prop where
  rest_eq : l.rest = cs.drop l.scanned
  newline_not_mem : '\n' ∉ cs.take l.scanned

/-- A place counts the characters of the document before it. -/
def Cursor.In (document : List Char) (c : Cursor) : Prop := c.rest = document.drop c.offset

theorem isSpace_newline : isSpace '\n' = false := by decide

namespace LineStart.On
variable {cs : List Char} {l next : LineStart}

theorem pass (h : l.On cs) {n : Nat} (hn : '\n' ∉ l.rest.take n) (hrest : next.rest = l.rest.drop n)
    (hscanned : next.scanned = l.scanned + n) : next.On cs where
  rest_eq := by rw [hrest, hscanned, h.rest_eq, List.drop_drop]
  newline_not_mem := by
    rw [h.rest_eq] at hn
    rw [hscanned, List.take_add, List.mem_append, not_or]
    exact ⟨h.newline_not_mem, hn⟩

theorem start (cs : List Char) : LineStart.On cs { rest := cs } := ⟨rfl, by simp⟩

theorem passHead (h : l.On cs) {c : Char} {rest : List Char} (hl : l.rest = c :: rest) (hc : c ≠ '\n')
    (hrest : next.rest = rest) (hscanned : next.scanned = l.scanned + 1) : next.On cs :=
  h.pass (n := 1) (by simp [hl, hc.symm]) (by rw [hrest, hl]; rfl) hscanned

theorem advance (h : l.On cs) {c : Char} {rest : List Char} (hl : l.rest = c :: rest) (hc : c ≠ '\n') :
    l.advance.On cs := h.passHead hl hc (by rw [LineStart.advance, hl]; rfl) rfl

theorem skip_go (n pending scanned column : Nat) (ds : List Char)
    (h : LineStart.On cs ⟨ds, scanned, column, pending⟩) : (skip.go n pending scanned column ds).2.On cs := by
  induction ds generalizing n pending scanned column with
  | nil => exact h
  | cons d ds ih =>
    unfold skip.go
    split
    · exact h
    · split
      · next hd =>
        have hd : d ≠ '\n' := by rintro rfl; simp at hd
        exact ih _ _ _ _ (h.passHead rfl hd rfl rfl)
      · split
        · next hd =>
          have hd : d ≠ '\n' := by rintro rfl; simp at hd
          exact ih _ _ _ _ (h.passHead rfl hd rfl rfl)
        · exact h

theorem skip (h : l.On cs) (n : Nat) : (l.skip n).2.On cs := skip_go _ _ _ _ _ ⟨h.rest_eq, h.newline_not_mem⟩

theorem indent (h : l.On cs) (n : Nat) : (l.indent n).2.On cs := h.skip n

theorem newline_not_mem_takeWhile {p : Char → Bool} (hp : p '\n' = false) (ds : List Char) :
    '\n' ∉ ds.takeWhile p := by
  intro hmem
  have hnewline := List.mem_takeWhile_imp hmem
  rw [hp] at hnewline
  cases hnewline

theorem take_length_takeWhile (p : Char → Bool) (ds : List Char) : ds.take (ds.takeWhile p).length = ds.takeWhile p :=
  (List.prefix_iff_eq_take.1 (List.takeWhile_prefix p)).symm

theorem skipAll (h : l.On cs) : l.skipAll.On cs := by
  refine h.pass ?_ rfl rfl
  rw [take_length_takeWhile]
  exact newline_not_mem_takeWhile (by decide) _

theorem quoteMark? (h : l.On cs) (hq : l.quoteMark? = some next) : next.On cs := by
  simp only [LineStart.quoteMark?] at hq
  split at hq
  · next hmark =>
    obtain ⟨rest, hrest⟩ : ∃ rest, (l.skip 3).2.rest = '>' :: rest := by
      cases hr : (l.skip 3).2.rest with
      | nil => simp [hr] at hmark
      | cons c rest =>
        obtain rfl : c = '>' := by simpa [hr] using hmark
        exact ⟨rest, rfl⟩
    cases hq
    exact ((h.skip 3).advance hrest (by decide)).skip 1
  · cases hq

theorem afterMarker? (h : l.On cs) (ha : l.afterMarker? = some next) : next.On cs := by
  simp only [LineStart.afterMarker?] at ha
  split at ha
  · cases ha
    exact h.skip 1
  · cases ha

theorem contentIndent (h : l.On cs) (indent : Nat) : (l.contentIndent indent).2.On cs := by
  unfold LineStart.contentIndent
  split
  · exact h
  · dsimp only
    split
    · exact h.indent 4
    · exact h

theorem listMarker? (h : l.On cs) {marker : Char} {indent : Nat} (hm : l.listMarker? = some (marker, indent, next)) :
    next.On cs := by
  have hindent := h.indent 4
  simp only [LineStart.listMarker?] at hm
  split at hm
  · cases hm
  split at hm
  · cases hm
  next c rest hrest =>
  split at hm
  · next hc =>
    have hc : c ≠ '\n' := by rintro rfl; exact absurd hc (by decide)
    split at hm
    · cases hm
    · obtain ⟨after, ha, hnext⟩ := Option.map_eq_some_iff.1 hm
      cases hnext
      exact ((hindent.advance hrest hc).afterMarker? ha).contentIndent _
  split at hm
  swap
  · cases hm
  split at hm
  swap
  · cases hm
  next d after hdrop =>
  split at hm
  swap
  · cases hm
  next hd =>
  obtain ⟨inner, ha, hnext⟩ := Option.map_eq_some_iff.1 hm
  cases hnext
  refine (LineStart.On.afterMarker? (hindent.pass ?_ ?_ rfl) ha).contentIndent _
  · have hmarker : marker ≠ '\n' := by rintro rfl; simp at hd
    rw [List.take_add, take_length_takeWhile, hdrop, List.mem_append, not_or]
    exact ⟨newline_not_mem_takeWhile (by decide) _, by simp [hmarker.symm]⟩
  · rw [← List.drop_drop, hdrop]
    rfl

theorem taskBox? (h : l.On cs) (ht : l.taskBox? = some next) : next.On cs := by
  have hindent := h.indent 3
  simp only [LineStart.taskBox?] at ht
  split at ht
  · next state c rest hrest =>
    split at ht
    · next hstate =>
      have hstate : state ≠ '\n' := by rintro rfl; simp [isSpace_newline] at hstate
      cases ht
      have hfirst := hindent.advance hrest (by decide)
      have hafter : (l.indent 3).2.advance.rest = state :: ']' :: c :: rest := by rw [LineStart.advance, hrest]; rfl
      have hsecond := hfirst.advance hafter hstate
      have hlast : (l.indent 3).2.advance.advance.rest = ']' :: c :: rest := by rw [LineStart.advance, hafter]; rfl
      exact hsecond.advance hlast (by decide)
    · cases ht
  · cases ht

theorem enter? (h : l.On cs) {c : Container} (he : c.enter? l = some next) : next.On cs := by
  cases c with
  | blockQuote => exact h.quoteMark? he
  | item indent =>
    simp only [Container.enter?] at he
    split at he
    · cases he
      exact h.skip indent
    · cases he
  | list | footnote =>
    cases he
    exact h

theorem enterAll (h : l.On cs) (containers : List Container) : (Container.enterAll l containers).2.On cs := by
  induction containers with
  | nil => exact h
  | cons c outer ih =>
    rw [Container.enterAll]
    dsimp only
    split
    · split
      · next inner hinner => exact ih.enter? hinner
      · exact ih
    · exact ih

end LineStart.On

namespace Cursor.In
variable {document : List Char} {c next : Cursor}

theorem advance (h : c.In document) (n : Nat) : (c.advance n).In document := by
  change c.rest.drop n = document.drop (c.offset + n)
  rw [show c.rest = _ from h, List.drop_drop]

theorem upTo (h : c.In document) {l : LineStart} (hl : l.On c.rest) : (c.upTo l).In document :=
  hl.rest_eq.trans (h.advance l.scanned)

theorem nextLine (h : c.In document) : c.nextLine.In document := h.advance _

theorem blankLine? (h : c.In document) (hb : c.blankLine? = some next) : next.In document := by
  obtain ⟨n, -, rfl⟩ := Option.map_eq_some_iff.1 hb
  exact h.advance n

theorem getD_blankLine? (h : c.In document) : (c.blankLine?.getD c).In document := by
  cases hb : c.blankLine? with
  | none => exact h
  | some next => exact h.blankLine? hb

end Cursor.In

end ComponentDocs.Markdown
