import ComponentDocs.Proofs.Markdown.Advance
import ComponentDocs.Proofs.Markdown.LineTag
/-! Text with a blank line at its end. The labels and definitions that begin in it and the lines at which its
paragraphs end do not depend on what comes after it. -/
namespace ComponentDocs.Markdown

variable {cs : List Char}

/-- A text with a blank line at its end, and no backslash before that. -/
def Closed (cs : List Char) : Prop := ∃ front : List Char, cs = front ++ ['\n', '\n'] ∧ front.getLast? ≠ some '\\'

/-- What is left of a closed text where the line of it that is read is not its last one. -/
def Closing (cs : List Char) : Prop := cs = ['\n'] ∨ Closed cs

theorem Closed.mem (h : Closed cs) : '\n' ∈ cs := by
  obtain ⟨front, rfl, -⟩ := h
  simp

theorem Closing.mem (h : Closing cs) : '\n' ∈ cs := by
  rcases h with rfl | h
  · simp
  · exact h.mem

theorem Closed.tail {c : Char} (h : Closed (c :: cs)) (hc : c ≠ '\n') : Closed cs := by
  obtain ⟨front, hcs, hlast⟩ := h
  cases front with
  | nil => simp_all
  | cons d front =>
    obtain ⟨rfl, rfl⟩ := List.cons_eq_cons.1 hcs
    refine ⟨front, rfl, fun h => hlast ?_⟩
    rw [List.getLast?_cons, h, Option.getD_some]

theorem Closed.next (h : Closed ('\n' :: cs)) : Closing cs := by
  obtain ⟨front, hcs, hlast⟩ := h
  cases front with
  | nil => exact .inl (List.cons_eq_cons.1 hcs).2
  | cons d front =>
    obtain ⟨rfl, rfl⟩ := List.cons_eq_cons.1 hcs
    refine .inr ⟨front, rfl, fun h => hlast ?_⟩
    rw [List.getLast?_cons, h, Option.getD_some]

/-- A backslash, and what it is before, are not the end of a closed text. -/
theorem Closed.escape {d : Char} (h : Closed ('\\' :: d :: cs)) : Closed cs := by
  obtain ⟨front, hcs, hlast⟩ := h
  rcases front with _ | ⟨c, _ | ⟨e, front⟩⟩
  · simp_all
  · obtain ⟨rfl, -⟩ := List.cons_eq_cons.1 hcs
    exact absurd rfl hlast
  · obtain ⟨-, hcs⟩ := List.cons_eq_cons.1 hcs
    obtain ⟨-, rfl⟩ := List.cons_eq_cons.1 hcs
    refine ⟨front, rfl, fun h => hlast ?_⟩
    rw [List.getLast?_cons_cons, List.getLast?_cons, h, Option.getD_some]

theorem Closed.drop (h : Closed cs) {n : Nat} (hn : '\n' ∉ cs.take n) : Closed (cs.drop n) := by
  induction n generalizing cs with
  | zero => exact h
  | succ n ih =>
    cases cs with
    | nil => exact h
    | cons c cs =>
      rw [List.take_succ_cons, List.mem_cons, not_or] at hn
      exact ih (h.tail (Ne.symm hn.1)) hn.2

theorem Closing.drop (h : Closing cs) {n : Nat} (hn : '\n' ∉ cs.take n) : Closing (cs.drop n) := by
  rcases h with rfl | h
  · cases n with
    | zero => exact .inl rfl
    | succ n => simp at hn
  · exact .inr (h.drop hn)

theorem Closed.afterEol (h : Closed cs) {n : Nat} (heol : eol? cs = some n) : Closing (cs.drop n) ∧ 0 < n := by
  rcases cs with _ | ⟨c, cs⟩
  · cases h.mem
  · unfold eol? at heol
    split at heol
    · next hcs => cases hcs
    · next rest hcs =>
      obtain ⟨rfl, rfl⟩ := List.cons_eq_cons.1 hcs
      cases heol
      exact ⟨h.next, Nat.one_pos⟩
    · next rest hcs =>
      obtain ⟨rfl, rfl⟩ := List.cons_eq_cons.1 hcs
      cases heol
      exact ⟨(h.tail (by decide)).next, Nat.two_pos⟩
    · next rest _ hcs =>
      obtain ⟨rfl, rfl⟩ := List.cons_eq_cons.1 hcs
      cases heol
      exact ⟨.inr (h.tail (by decide)), Nat.one_pos⟩
    · cases heol

theorem newline_not_mem_spaces (cs : List Char) : '\n' ∉ cs.take (spaceRun cs) := by
  rw [spaceRun, LineStart.On.take_length_takeWhile]
  exact LineStart.On.newline_not_mem_takeWhile (by decide) cs

theorem Closed.dropSpaces (h : Closed cs) : Closed (cs.drop (spaceRun cs)) := h.drop (newline_not_mem_spaces cs)

theorem Closing.dropSpaces (h : Closing cs) : Closing (cs.drop (spaceRun cs)) := h.drop (newline_not_mem_spaces cs)

theorem Closed.length_le {n : Nat} (h : Closed (cs.drop n)) : n ≤ cs.length := by
  by_contra hlong
  rw [List.drop_eq_nil_of_le (by omega)] at h
  cases h.mem

theorem Closed.blankLine? (h : Closed cs) {n : Nat} (hblank : blankLine? cs = some n) : Closing (cs.drop n) := by
  obtain ⟨k, hk, rfl⟩ := Option.map_eq_some_iff.1 hblank
  rw [← List.drop_drop]
  exact (h.dropSpaces.afterEol hk).1

theorem Closing.length_le {n : Nat} (h : Closing (cs.drop n)) : n ≤ cs.length := by
  by_contra hlong
  rw [List.drop_eq_nil_of_le (by omega)] at h
  cases h.mem

/-- The way of a line into containers, where it is that of the line alone. -/
structure Enters (enter : List Char → Option Nat) : Prop where
  append {cs : List Char} (h : Closing cs) (v : List Char) : enter (cs ++ v) = enter cs
  passes {cs : List Char} {k : Nat} (h : enter cs = some k) : '\n' ∉ cs.take k

theorem Enters.closing {enter : List Char → Option Nat} (h : Enters enter) {k : Nat} (hcs : Closing cs)
    (hk : enter cs = some k) : Closing (cs.drop k) := hcs.drop (h.passes hk)

section Label
variable {enter : List Char → Option Nat} (henter : Enters enter) (hblank : enter ['\n'] = none) (v : List Char)
include henter hblank

theorem labelGap?_append {fuel fuel' : Nat} (ended : Bool) (length weight : Nat) (h : Closed cs)
    (h₁ : cs.length < fuel) (h₂ : cs.length < fuel') :
    labelGap? enter fuel ended length weight (cs ++ v) = labelGap? enter fuel' ended length weight cs ∧
      ∀ r ∈ labelGap? enter fuel' ended length weight cs, ∃ m, r.1 = length + m ∧ Closed (cs.drop m) ∧
        (cs.head?.any labelWhite → 0 < m) := by
  induction fuel generalizing fuel' ended length weight cs with
  | zero => cases h₁
  | succ fuel ih =>
    obtain _ | fuel' := fuel'
    · cases h₂
    obtain ⟨c, cs, rfl⟩ := List.exists_cons_of_ne_nil (List.ne_nil_of_mem h.mem)
    rw [List.cons_append, labelGap?, labelGap?, ← List.cons_append, eol?_append h.mem]
    split
    · next hc =>
      refine ⟨rfl, fun r hr => ?_⟩
      cases hr
      exact ⟨0, rfl, h, by simpa using hc⟩
    split
    · split
      · exact ⟨rfl, by simp⟩
      · next hc _ =>
        obtain ⟨n, hn⟩ := eol?_cons hc cs
        obtain ⟨hnext, -⟩ := h.afterEol hn
        rw [hn, Option.getD_some]
        dsimp only
        rw [List.drop_append_of_le_length hnext.length_le, henter.append hnext]
        cases hk : enter ((c :: cs).drop (n + 1)) with
        | none => exact ⟨rfl, by simp⟩
        | some k =>
          have hclosed : Closed ((c :: cs).drop (n + 1)) := by
            rcases hnext with hnext | hnext
            · rw [hnext, hblank] at hk
              cases hk
            · exact hnext
          have hinner := hclosed.drop (henter.passes hk)
          have hlength : (((c :: cs).drop (n + 1)).drop k).length < (c :: cs).length := by
            simp only [List.length_drop, List.length_cons]
            omega
          rw [Option.bind_some, Option.bind_some, List.drop_append_of_le_length hinner.length_le]
          refine (ih true (length + (n + 1) + k) (weight + 2) hinner (by omega) (by omega)).imp_right
            fun hrest r hr => ?_
          obtain ⟨m, hm, hmclosed, -⟩ := hrest r hr
          exact ⟨n + 1 + k + m, by omega, by simpa only [List.drop_drop] using hmclosed, fun _ => by omega⟩
    · next hc =>
      have hrest : Closed cs := h.tail (by rintro rfl; exact hc rfl)
      refine (ih ended (length + 1) _ hrest (by simpa using h₁) (by simpa using h₂)).imp_right fun hrest r hr => ?_
      obtain ⟨m, hm, hmclosed, -⟩ := hrest r hr
      exact ⟨m + 1, by omega, hmclosed, fun _ => Nat.succ_pos m⟩

theorem labelRest?_append {fuel fuel' : Nat} (units : Nat) (blank : Bool) (length : Nat) (h : Closed cs)
    (h₁ : cs.length < fuel) (h₂ : cs.length < fuel') :
    labelRest? enter fuel units blank length (cs ++ v) = labelRest? enter fuel' units blank length cs ∧
      ∀ n ∈ labelRest? enter fuel' units blank length cs, ∃ m, n = length + m ∧ Closed (cs.drop m) := by
  induction fuel generalizing fuel' units blank length cs with
  | zero => cases h₁
  | succ fuel ih =>
    obtain _ | fuel' := fuel'
    · cases h₂
    have hfurther {rest : List Char} {passed : Nat} (hrest : rest = cs.drop passed) (hpassed : 0 < passed)
        (hclosed : Closed rest) (units : Nat) (blank : Bool) :
        labelRest? enter fuel units blank (length + passed) (rest ++ v) =
          labelRest? enter fuel' units blank (length + passed) rest ∧
        ∀ n ∈ labelRest? enter fuel' units blank (length + passed) rest, ∃ m, n = length + m ∧ Closed (cs.drop m) := by
      have hle := (hrest ▸ hclosed).length_le
      have hlength : rest.length < cs.length := by
        rw [hrest, List.length_drop]
        omega
      refine (ih units blank (length + passed) hclosed (by omega) (by omega)).imp_right fun hn n hmem => ?_
      obtain ⟨m, hm, hmclosed⟩ := hn n hmem
      refine ⟨passed + m, by omega, ?_⟩
      rwa [← List.drop_drop, ← hrest]
    obtain ⟨c, cs, rfl⟩ := List.exists_cons_of_ne_nil (List.ne_nil_of_mem h.mem)
    rw [List.cons_append]
    unfold labelRest?
    dsimp only
    split
    · exact ⟨rfl, by simp⟩
    split
    · exact ⟨rfl, by simp⟩
    split
    · next hc =>
      obtain rfl : c = ']' := eq_of_beq hc
      split
      · exact ⟨rfl, by simp⟩
      · refine ⟨rfl, fun n hn => ?_⟩
        cases hn
        exact ⟨1, rfl, h.tail (by decide)⟩
    split
    · next hc =>
      obtain rfl : c = '\\' := eq_of_beq hc
      obtain ⟨d, cs, rfl⟩ := List.exists_cons_of_ne_nil (List.ne_nil_of_mem (h.tail (by decide)).mem)
      exact hfurther rfl Nat.two_pos h.escape _ _
    split
    · next hc =>
      obtain ⟨heq, hgap⟩ := labelGap?_append henter hblank v false 0 0 h h₁ h₂
      rw [← List.cons_append, heq]
      cases hr : labelGap? enter (fuel' + 1) false 0 0 (c :: cs) with
      | none => exact ⟨rfl, by simp⟩
      | some r =>
        obtain ⟨n, weight⟩ := r
        obtain ⟨m, hm, hclosed, hpos⟩ := hgap _ hr
        obtain rfl : n = m := by simpa using hm
        simp only [Option.bind_some]
        rw [List.drop_append_of_le_length hclosed.length_le]
        exact hfurther rfl (hpos (by simpa using hc)) hclosed _ _
    · next hc =>
      exact hfurther rfl Nat.one_pos (h.tail (by rintro rfl; exact hc rfl)) _ _

theorem label?_append (h : Closed cs) : label? enter (cs ++ v) = label? enter cs ∧
    ∀ n ∈ label? enter cs, Closed (cs.drop n) := by
  refine (labelRest?_append henter hblank v 0 true 0 h (by simp) (Nat.lt_succ_self _)).imp_right fun hlabel n hn => ?_
  obtain ⟨m, hm, hclosed⟩ := hlabel n hn
  rwa [hm, Nat.zero_add]

theorem footnoteLabel?_append (h : Closed cs) : footnoteLabel? enter (cs ++ v) = footnoteLabel? enter cs ∧
    ∀ n ∈ footnoteLabel? enter cs, Closed (cs.drop n) := by
  by_cases hmark : ∃ text, cs = '[' :: '^' :: text
  · obtain ⟨text, rfl⟩ := hmark
    have htext : Closed text := (h.tail (by decide)).tail (by decide)
    obtain ⟨hlabel, hclosed⟩ := label?_append henter hblank v htext
    simp only [List.cons_append, footnoteLabel?, hlabel]
    cases hn : label? enter text with
    | none => exact ⟨rfl, by simp⟩
    | some n =>
      have hrest := hclosed n hn
      simp only [Option.bind_eq_bind, Option.bind_some, List.drop_append_of_le_length hrest.length_le]
      obtain ⟨c, rest, hc⟩ := List.exists_cons_of_ne_nil (List.ne_nil_of_mem hrest.mem)
      rw [hc] at hrest ⊢
      by_cases hcolon : c = ':'
      · subst hcolon
        refine ⟨rfl, fun k hk => ?_⟩
        cases hk
        have hdrop : ('[' :: '^' :: text).drop (n + 3) = rest := by
          rw [show n + 3 = n + 1 + 2 by rfl, List.drop_succ_cons, List.drop_succ_cons, ← List.drop_drop, hc]
          rfl
        rw [hdrop]
        exact hrest.tail (by decide)
      · simp [hcolon]
  · have hnone (more : List Char) : footnoteLabel? enter (cs ++ more) = none := by
      unfold footnoteLabel?
      split
      · next text htext =>
        rcases cs with _ | ⟨c, _ | ⟨d, cs⟩⟩
        · cases h.mem
        · obtain ⟨front, hfront, -⟩ := h
          simpa using congrArg List.length hfront
        · simp_all
      · rfl
    have hnil := hnone []
    rw [List.append_nil] at hnil
    rw [hnone, hnil]
    exact ⟨rfl, by simp⟩

end Label

/-- A scanner that has come from `length` characters to `n` has passed no end of a line. -/
def Passed (cs : List Char) (length n : Nat) : Prop := ∃ m, n = length + m ∧ '\n' ∉ cs.take m

theorem Passed.zero (cs : List Char) (length : Nat) : Passed cs length length := ⟨0, rfl, by simp⟩

theorem Passed.cons {c : Char} {length n : Nat} (h : Passed cs (length + 1) n) (hc : c ≠ '\n') :
    Passed (c :: cs) length n := by
  obtain ⟨m, rfl, hm⟩ := h
  refine ⟨m + 1, by omega, ?_⟩
  rw [List.take_succ_cons, List.mem_cons, not_or]
  exact ⟨hc.symm, hm⟩

theorem ne_backslash {c : Char} (h : '\n' ∈ c :: cs) (hplain : ∀ d ds, c = '\\' → cs = d :: ds → False) : c ≠ '\\' := by
  rintro rfl
  obtain ⟨d, ds, hds⟩ := List.exists_cons_of_ne_nil (List.ne_nil_of_mem (mem_of_mem_cons h (by decide)))
  exact hplain d ds rfl hds

theorem ne_newline_of_isPunctuation {d : Char} (hd : isPunctuation d = true) : d ≠ '\n' := by
  rintro rfl
  exact absurd hd (by decide)

section Destination
variable (h : '\n' ∈ cs) (v : List Char)
include h

theorem pointedRest?_append (length : Nat) : pointedRest? length (cs ++ v) = pointedRest? length cs ∧
    ∀ n ∈ pointedRest? length cs, Passed cs length n := by
  fun_induction pointedRest? length cs with
  | case1 => cases h
  | case2 length d cs hd ih =>
    have hne := ne_newline_of_isPunctuation hd
    obtain ⟨heq, hpassed⟩ := ih (mem_of_mem_cons (mem_of_mem_cons h (by decide)) hne)
    exact ⟨by simpa [pointedRest?, hd] using heq, fun n hn => ((hpassed n hn).cons hne).cons (by decide)⟩
  | case3 length d cs hd ih =>
    obtain ⟨heq, hpassed⟩ := ih (mem_of_mem_cons h (by decide))
    exact ⟨by simpa [pointedRest?, hd] using heq, fun n hn => (hpassed n hn).cons (by decide)⟩
  | case4 length c cs hplain hc =>
    have hslash := ne_backslash h hplain
    exact ⟨by simp [pointedRest?, hslash, hc], by simp⟩
  | case5 length c cs hplain hc hclose =>
    obtain rfl : c = '>' := eq_of_beq hclose
    refine ⟨rfl, fun n hn => ?_⟩
    cases hn
    exact (Passed.zero cs _).cons (by decide)
  | case6 length c cs hplain hc hclose ih =>
    have hslash := ne_backslash h hplain
    have hne : c ≠ '\n' := by rintro rfl; exact hc rfl
    obtain ⟨heq, hpassed⟩ := ih (mem_of_mem_cons h hne)
    exact ⟨by simpa [pointedRest?, hslash, hc, hclose] using heq, fun n hn => (hpassed n hn).cons hne⟩

theorem bareRest?_append (most depth length : Nat) :
    bareRest? most depth length (cs ++ v) = bareRest? most depth length cs ∧
      ∀ n ∈ bareRest? most depth length cs, Passed cs length n := by
  fun_induction bareRest? most depth length cs with
  | case1 => cases h
  | case2 depth length d cs hd ih =>
    have hne := ne_newline_of_isPunctuation hd
    obtain ⟨heq, hpassed⟩ := ih (mem_of_mem_cons (mem_of_mem_cons h (by decide)) hne)
    exact ⟨by simpa [bareRest?, hd] using heq, fun n hn => ((hpassed n hn).cons hne).cons (by decide)⟩
  | case3 depth length d cs hd ih =>
    obtain ⟨heq, hpassed⟩ := ih (mem_of_mem_cons h (by decide))
    exact ⟨by simpa [bareRest?, hd] using heq, fun n hn => (hpassed n hn).cons (by decide)⟩
  | case4 depth length c cs hplain hc =>
    have hslash := ne_backslash h hplain
    refine ⟨by simp [bareRest?, hslash, hc], fun n hn => ?_⟩
    cases hn
    exact Passed.zero ..
  | case5 depth length c cs hplain hc hopen hdeep =>
    have hslash := ne_backslash h hplain
    exact ⟨by simp [bareRest?, hslash, hc, hopen, hdeep], by simp⟩
  | case6 depth length c cs hplain hc hopen hdeep ih =>
    have hslash := ne_backslash h hplain
    have hne : c ≠ '\n' := by rintro rfl; exact absurd hopen (by decide)
    obtain ⟨heq, hpassed⟩ := ih (mem_of_mem_cons h hne)
    exact ⟨by simpa [bareRest?, hslash, hc, hopen, hdeep] using heq, fun n hn => (hpassed n hn).cons hne⟩
  | case7 length c cs hplain hc hopen hclose =>
    have hslash := ne_backslash h hplain
    refine ⟨by simp [bareRest?, hslash, hc, hopen, hclose], fun n hn => ?_⟩
    cases hn
    exact Passed.zero ..
  | case8 depth length c cs hplain hc hopen hclose hdeep ih =>
    have hslash := ne_backslash h hplain
    have hne : c ≠ '\n' := by rintro rfl; exact absurd hclose (by decide)
    obtain ⟨heq, hpassed⟩ := ih (mem_of_mem_cons h hne)
    exact ⟨by simpa [bareRest?, hslash, hc, hopen, hclose, hdeep] using heq, fun n hn => (hpassed n hn).cons hne⟩
  | case9 depth length c cs hplain hc hopen hclose ih =>
    have hslash := ne_backslash h hplain
    have hne : c ≠ '\n' := by rintro rfl; exact absurd (show ('\n' : Char).toNat ≤ 0x20 by decide) hc
    obtain ⟨heq, hpassed⟩ := ih (mem_of_mem_cons h hne)
    exact ⟨by simpa [bareRest?, hslash, hc, hopen, hclose] using heq, fun n hn => (hpassed n hn).cons hne⟩

theorem destination?_append (most : Nat) : destination? most (cs ++ v) = destination? most cs ∧
    ∀ n ∈ destination? most cs, '\n' ∉ cs.take n := by
  have hpassed {n : Nat} (hn : Passed cs 0 n) : '\n' ∉ cs.take n := by
    obtain ⟨m, rfl, hm⟩ := hn
    rwa [Nat.zero_add]
  obtain ⟨c, cs, rfl⟩ := List.exists_cons_of_ne_nil (List.ne_nil_of_mem h)
  by_cases hc : c = '<'
  · subst hc
    obtain ⟨heq, hpointed⟩ := pointedRest?_append (mem_of_mem_cons h (by decide)) v 1
    exact ⟨heq, fun n hn => hpassed ((hpointed n hn).cons (by decide))⟩
  · obtain ⟨heq, hbare⟩ := bareRest?_append h v most 0 0
    have hother (more : List Char) : destination? most (c :: more) = bareRest? most 0 0 (c :: more) := by
      simp [destination?, hc]
    rw [List.cons_append, hother, hother]
    exact ⟨heq, fun n hn => hpassed (hbare n hn)⟩

end Destination

section Title
variable (v : List Char)

theorem titleRest?_append {close : Char} (hclose : close ≠ '\n') {fuel fuel' : Nat} (length : Nat) (h : Closed cs)
    (h₁ : cs.length < fuel) (h₂ : cs.length < fuel') :
    titleRest? close fuel length (cs ++ v) = titleRest? close fuel' length cs ∧
      ∀ n ∈ titleRest? close fuel' length cs, ∃ m, n = length + m ∧ Closed (cs.drop m) := by
  induction fuel generalizing fuel' length cs with
  | zero => cases h₁
  | succ fuel ih =>
    obtain _ | fuel' := fuel'
    · cases h₂
    have hfurther {rest : List Char} {passed : Nat} (hrest : rest = cs.drop passed) (hpassed : 0 < passed)
        (hclosed : Closed rest) : titleRest? close fuel (length + passed) (rest ++ v) =
          titleRest? close fuel' (length + passed) rest ∧
        ∀ n ∈ titleRest? close fuel' (length + passed) rest, ∃ m, n = length + m ∧ Closed (cs.drop m) := by
      have hle := (hrest ▸ hclosed).length_le
      have hlength : rest.length < cs.length := by
        rw [hrest, List.length_drop]
        omega
      refine (ih (length + passed) hclosed (by omega) (by omega)).imp_right fun hn n hmem => ?_
      obtain ⟨m, hm, hmclosed⟩ := hn n hmem
      refine ⟨passed + m, by omega, ?_⟩
      rwa [← List.drop_drop, ← hrest]
    obtain ⟨c, cs, rfl⟩ := List.exists_cons_of_ne_nil (List.ne_nil_of_mem h.mem)
    rw [List.cons_append]
    unfold titleRest?
    split
    · next hc =>
      obtain rfl : c = '\n' := eq_of_beq hc
      have hindent := takeWhile_append (p := isTitleIndent) (by decide) h.next.mem v
      have hblanks : '\n' ∉ cs.take (cs.takeWhile isTitleIndent).length := by
        rw [LineStart.On.take_length_takeWhile]
        exact LineStart.On.newline_not_mem_takeWhile (by decide) cs
      have hline := h.next.drop hblanks
      rw [hindent]
      dsimp only
      rw [List.drop_append_of_le_length (List.takeWhile_prefix _).length_le]
      generalize hn : (cs.takeWhile isTitleIndent).length = n at *
      obtain ⟨d, ds, hds⟩ := List.exists_cons_of_ne_nil (List.ne_nil_of_mem hline.mem)
      rw [hds] at hline ⊢
      simp only [List.cons_append]
      split
      · exact ⟨rfl, by simp⟩
      · next hd =>
        have hclosed : Closed (d :: ds) := hline.resolve_left (by rintro he; simp_all)
        have hpassed : d :: ds = ('\n' :: cs).drop (1 + n) := by rw [Nat.add_comm, List.drop_succ_cons, hds]
        have hrest := hfurther hpassed (by omega) hclosed
        rwa [← Nat.add_assoc] at hrest
    split
    · next hc =>
      obtain rfl : c = '\\' := eq_of_beq hc
      obtain ⟨d, cs, rfl⟩ := List.exists_cons_of_ne_nil (List.ne_nil_of_mem (h.tail (by decide)).mem)
      exact hfurther rfl Nat.two_pos h.escape
    split
    · next hc =>
      obtain rfl : c = close := eq_of_beq hc
      refine ⟨rfl, fun n hn => ?_⟩
      cases hn
      exact ⟨1, rfl, h.tail hclose⟩
    · next hc _ _ => exact hfurther rfl Nat.one_pos (h.tail (by rintro rfl; exact hc rfl))

theorem title?_append (h : Closed cs) : title? (cs ++ v) = title? cs ∧ ∀ n ∈ title? cs, Closed (cs.drop n) := by
  obtain ⟨c, cs, rfl⟩ := List.exists_cons_of_ne_nil (List.ne_nil_of_mem h.mem)
  have hrest {close : Char} (hclose : close ≠ '\n') (hc : c ≠ '\n') :
      titleRest? close ((cs ++ v).length + 1) 1 (cs ++ v) = titleRest? close (cs.length + 1) 1 cs ∧
        ∀ n ∈ titleRest? close (cs.length + 1) 1 cs, Closed ((c :: cs).drop n) := by
    refine (titleRest?_append v hclose 1 (h.tail hc) (by simp) (Nat.lt_succ_self _)).imp_right fun hrest n hn => ?_
    obtain ⟨m, rfl, hclosed⟩ := hrest n hn
    rwa [Nat.add_comm, List.drop_succ_cons]
  rw [List.cons_append, title?, title?]
  split
  · next hc =>
    have hne : c ≠ '\n' := by rintro rfl; exact absurd hc (by decide)
    exact hrest hne hne
  split
  · next hc =>
    have hne : c ≠ '\n' := by rintro rfl; exact absurd hc (by decide)
    exact hrest (by decide) hne
  · exact ⟨rfl, by simp⟩

end Title

section Definition
variable {enter : List Char → Option Nat} (henter : Enters enter) (v : List Char)
include henter

theorem partGap?_append (h : Closed cs) : partGap? enter (cs ++ v) = partGap? enter cs ∧
    ∀ r ∈ partGap? enter cs, Closed (cs.drop r.1) := by
  have hspaces := h.dropSpaces
  have hdrop : (cs ++ v).drop (spaceRun cs) = cs.drop (spaceRun cs) ++ v :=
    List.drop_append_of_le_length hspaces.length_le
  rw [partGap?, partGap?, spaceRun_append h.mem, hdrop, eol?_append hspaces.mem]
  cases hn : eol? (cs.drop (spaceRun cs)) with
  | none =>
    refine ⟨rfl, fun r hr => ?_⟩
    cases hr
    exact hspaces
  | some n =>
    obtain ⟨hnext, -⟩ := hspaces.afterEol hn
    rw [List.drop_drop] at hnext
    dsimp only
    rw [List.drop_append_of_le_length hnext.length_le, henter.append hnext]
    cases hk : enter (cs.drop (spaceRun cs + n)) with
    | none => exact ⟨rfl, by simp⟩
    | some k =>
      have hinner := henter.closing hnext hk
      have hblanks : Closing ((cs.drop (spaceRun cs + n)).drop (k + spaceRun ((cs.drop (spaceRun cs + n)).drop k))) := by
        rw [← List.drop_drop]
        exact hinner.dropSpaces
      rw [Option.bind_some, Option.bind_some, List.drop_append_of_le_length hinner.length_le,
        spaceRun_append hinner.mem, List.drop_append_of_le_length hblanks.length_le, eol?_append hblanks.mem]
      cases heol : eol? _ with
      | some _ => exact ⟨rfl, by simp⟩
      | none =>
        refine ⟨rfl, fun r hr => ?_⟩
        cases hr
        have hclosed := hblanks.resolve_left (by rintro he; rw [he] at heol; cases heol)
        simpa only [List.drop_drop, Nat.add_assoc] using hclosed

theorem definitionBody?_append (h : Closed cs) : definitionBody? enter (cs ++ v) = definitionBody? enter cs ∧
    ∀ n ∈ definitionBody? enter cs, Closing (cs.drop n) := by
  obtain ⟨hlead, hleadClosed⟩ := partGap?_append henter v h
  rw [definitionBody?, definitionBody?, hlead]
  cases hgap : partGap? enter cs with
  | none => exact ⟨rfl, by simp⟩
  | some r =>
    obtain ⟨lead, ends⟩ := r
    have htarget : Closed (cs.drop lead) := hleadClosed _ hgap
    simp only [Option.bind_eq_bind, Option.bind_some]
    rw [List.drop_append_of_le_length htarget.length_le]
    obtain ⟨hdestination, hpassed⟩ := destination?_append htarget.mem v 2
    rw [hdestination]
    cases hn : destination? 2 (cs.drop lead) with
    | none => exact ⟨rfl, by simp⟩
    | some n =>
      have hafter := htarget.drop (hpassed n hn)
      rw [Option.bind_some, Option.bind_some, List.drop_append_of_le_length hafter.length_le]
      obtain ⟨hpart, hpartClosed⟩ := partGap?_append henter v hafter
      have hbare : Closed (cs.drop (lead + n)) := by rwa [List.drop_drop] at hafter
      have hempty : ((cs.drop lead).drop n).isEmpty = false :=
        List.isEmpty_eq_false_iff.2 (List.ne_nil_of_mem hafter.mem)
      have hempty' : ((cs.drop lead).drop n ++ v).isEmpty = false :=
        List.isEmpty_eq_false_iff.2 (List.append_ne_nil_of_left_ne_nil (List.ne_nil_of_mem hafter.mem) v)
      rw [hpart, hempty, hempty']
      split
      · exact ⟨rfl, by simp⟩
      generalize hpartr : partGap? enter ((cs.drop lead).drop n) = part
      cases part with
      | none =>
        refine ⟨rfl, fun k hk => ?_⟩
        cases hk
        exact .inr hbare
      | some r =>
        obtain ⟨gap, ends⟩ := r
        have hbehind := hpartClosed _ hpartr
        dsimp only at hbehind ⊢
        rw [List.drop_append_of_le_length hbehind.length_le]
        obtain ⟨htitle, htitleClosed⟩ := title?_append v hbehind
        rw [htitle]
        split
        · exact ⟨rfl, by simp⟩
        have hwithout : ∀ k ∈ (if 0 < ends || false then some (lead + n) else none), Closing (cs.drop k) := by
          intro k hk
          split at hk
          · cases hk
            exact .inr hbare
          · cases hk
        cases ht : title? (((cs.drop lead).drop n).drop gap) with
        | none => exact ⟨rfl, hwithout⟩
        | some t =>
          have hend : Closed (((cs.drop lead).drop n).drop (gap + t)) := by
            rw [← List.drop_drop]
            exact htitleClosed t ht
          dsimp only
          rw [List.drop_append_of_le_length hend.length_le, blankLine?_append hend.mem]
          cases hb : blankLine? (((cs.drop lead).drop n).drop (gap + t)) with
          | none => exact ⟨rfl, hwithout⟩
          | some b =>
            refine ⟨rfl, fun k hk => ?_⟩
            cases hk
            simpa only [List.drop_drop, Nat.add_assoc] using hend.blankLine? hb

theorem definition?_append {enterLabel : List Char → Option Nat} (hlabel : Enters enterLabel)
    (hblank : enterLabel ['\n'] = none) (h : Closed cs) :
    definition? enterLabel enter (cs ++ v) = definition? enterLabel enter cs ∧
      ∀ n ∈ definition? enterLabel enter cs, Closing (cs.drop n) := by
  by_cases hmark : ∃ text, cs = '[' :: text
  · obtain ⟨text, rfl⟩ := hmark
    have htext : Closed text := h.tail (by decide)
    obtain ⟨hlabelEq, hclosed⟩ := label?_append hlabel hblank v htext
    simp only [List.cons_append, definition?, hlabelEq]
    cases hn : label? enterLabel text with
    | none => exact ⟨rfl, by simp⟩
    | some n =>
      have hrest := hclosed n hn
      simp only [Option.bind_eq_bind, Option.bind_some, List.drop_append_of_le_length hrest.length_le]
      obtain ⟨c, rest, hc⟩ := List.exists_cons_of_ne_nil (List.ne_nil_of_mem hrest.mem)
      rw [hc] at hrest ⊢
      by_cases hcolon : c = ':'
      · subst hcolon
        obtain ⟨hbody, hbodyClosing⟩ := definitionBody?_append henter v (hrest.tail (by decide))
        simp only [List.cons_append, hbody, true_and]
        intro k hk
        obtain ⟨m, hm, rfl⟩ := Option.map_eq_some_iff.1 hk
        have hdrop : ('[' :: text).drop (n + 2 + m) = rest.drop m := by
          rw [← List.drop_drop, show n + 2 = n + 1 + 1 by rfl, List.drop_succ_cons, ← List.drop_drop, hc]
          rfl
        rw [hdrop]
        exact hbodyClosing m hm
      · simp [hcolon]
  · obtain ⟨c, cs, rfl⟩ := List.exists_cons_of_ne_nil (List.ne_nil_of_mem h.mem)
    have hc : c ≠ '[' := fun hc => hmark ⟨cs, by rw [hc]⟩
    simp [definition?, hc]

end Definition

namespace Outline

theorem interrupts_append (h : '\n' ∈ cs) (v : List Char) : interrupts (cs ++ v) = interrupts cs := by
  unfold interrupts
  rw [eol?_append h, thematicBreak?_append h, atxLevel?_append h, codeFence?_append h, startsQuote_append h]
  obtain ⟨c, cs, rfl⟩ := List.exists_cons_of_ne_nil (List.ne_nil_of_mem h)
  by_cases hc : c = '<'
  · subst hc
    simp only [List.cons_append, interruptsWithHtml_append (mem_of_mem_cons h (by decide))]
  · simp [hc]

end Outline

theorem Closed.listMarker? (h : Closed cs) {mark : Char} {number : Nat} {rest : List Char}
    (hm : listMarker? cs = some (mark, number, rest)) : Closed rest := by
  have hspaced {c : Char} {n : Nat} {cs : List Char} (hs : listMarker?.spaced c n cs = some (mark, number, rest)) :
      rest = cs := by
    rw [listMarker?.spaced] at hs
    split at hs
    · cases hs
      rfl
    · cases hs
  obtain ⟨c, cs, rfl⟩ := List.exists_cons_of_ne_nil (List.ne_nil_of_mem h.mem)
  rw [Markdown.listMarker?] at hm
  split at hm
  · next hc =>
    rw [hspaced hm]
    exact h.tail (by rintro rfl; exact absurd hc (by decide))
  split at hm
  · have hdigits : Closed ((c :: cs).drop ((c :: cs).takeWhile Char.isDigit).length) := by
      refine h.drop ?_
      rw [LineStart.On.take_length_takeWhile]
      exact LineStart.On.newline_not_mem_takeWhile (by decide) _
    dsimp only at hm
    split at hm
    · next d ds hdrop =>
      rw [hdrop] at hdigits
      split at hm
      · next hd =>
        rw [hspaced hm]
        exact hdigits.tail (by rintro rfl; simp at hd)
      · cases hm
    · cases hm
  · cases hm

theorem blankTwice_append (h : Closed cs) (v : List Char) : blankTwice (cs ++ v) = blankTwice cs := by
  rw [blankTwice, blankTwice, blankLine?_append h.mem]
  cases hb : blankLine? cs with
  | none => rfl
  | some n =>
    have hnext := h.blankLine? hb
    dsimp only
    rw [List.drop_append_of_le_length hnext.length_le, blankLine?_append hnext.mem]

namespace Outline

theorem endsText_append (h : Closing cs) (inside : Bool) (v : List Char) :
    endsText inside (cs ++ v) = endsText inside cs := by
  have hitem : interruptsWithItem inside (cs ++ v) = interruptsWithItem inside cs := by
    rw [interruptsWithItem, interruptsWithItem, listMarker?_append h.mem]
    cases hm : listMarker? cs with
    | none => rfl
    | some m =>
      obtain ⟨mark, number, rest⟩ := m
      have hclosed : Closed rest := by
        rcases h with rfl | h
        · cases hm
        · exact h.listMarker? hm
      dsimp only [Option.map_some]
      rw [blankTwice_append hclosed]
  rw [endsText, endsText, hitem, interrupts_append h.mem]

theorem endsText_newline (inside : Bool) (cs : List Char) : endsText inside ('\n' :: cs) = true := by
  unfold endsText interrupts
  simp [eol?]

end Outline

namespace LineStart
variable {l : LineStart}

theorem On.closed {cs : List Char} (hl : l.On cs) (h : Closed cs) : Closed l.rest := by
  rw [hl.rest_eq]
  exact h.drop hl.newline_not_mem

theorem On.closing {cs : List Char} (hl : l.On cs) (h : Closing cs) : Closing l.rest := by
  rw [hl.rest_eq]
  exact h.drop hl.newline_not_mem

theorem On.rest_newline {v : List Char} (hl : l.On ('\n' :: v)) : l.rest = '\n' :: v := by
  have hnewline := hl.newline_not_mem
  rw [hl.rest_eq]
  cases hn : l.scanned with
  | zero => rfl
  | succ n => simp [hn] at hnewline

end LineStart

namespace Outline
variable (o : Outline)

theorem enterAll_append (h : '\n' ∈ cs) (v : List Char) : o.enterAll { rest := cs ++ v } =
    ((o.enterAll { rest := cs }).1, (o.enterAll { rest := cs }).2.append v) :=
  Container.enterAll_append (l := { rest := cs }) h v o.containers

theorem on_enterAll_start (cs : List Char) : (o.enterAll { rest := cs }).2.On cs :=
  (LineStart.On.start cs).enterAll o.containers

theorem enters_enterLabel : Enters o.enterLabel where
  append h v := by
    rw [enterLabel, enterLabel, enterAll_append o h.mem]
    dsimp only [LineStart.append]
    rw [endsText_append ((o.on_enterAll_start _).closing h)]
  passes {cs k} h := by
    rw [enterLabel] at h
    dsimp only at h
    split at h
    · cases h
    · cases h
      exact (o.on_enterAll_start cs).newline_not_mem

theorem enters_enterDefinition : Enters o.enterDefinition where
  append h v := by
    rw [enterDefinition, enterDefinition, enterAll_append o h.mem]
    rfl
  passes {cs k} h := by
    rw [enterDefinition] at h
    dsimp only at h
    split at h
    · cases h
      exact (o.on_enterAll_start cs).newline_not_mem
    · cases h

theorem enterLabel_newline : o.enterLabel ['\n'] = none := by
  rw [enterLabel]
  dsimp only
  rw [(o.on_enterAll_start ['\n']).rest_newline, endsText_newline, if_pos rfl]

theorem startsFootnote_append (h : Closed cs) (v : List Char) : o.startsFootnote (cs ++ v) = o.startsFootnote cs := by
  rw [startsFootnote, startsFootnote, (footnoteLabel?_append o.enters_enterLabel o.enterLabel_newline v h).1]

end Outline

end ComponentDocs.Markdown
