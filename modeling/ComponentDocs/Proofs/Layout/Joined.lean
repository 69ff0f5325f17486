import ComponentDocs.Proofs.Layout.Front
import ComponentDocs.Proofs.Markdown.Parts
/-! Sections that are written one after the other. Where each of them comes to rest at its end, with nothing open that
the next one goes on with, they are laid out as they are alone. -/
namespace ComponentDocs.Layout
open Markdown Text

section Marks
variable {front text : List Char} {before : List Block}

theorem lineAt_lt_count {i : Nat} (hi : i < (front ++ ['\n']).length) (text : List Char) :
    lineAt (front ++ ['\n'] ++ text) i = lineAt front i ∧ lineAt front i < (front ++ ['\n']).count '\n' := by
  have hle : i ≤ front.length := by simpa [Nat.lt_succ_iff] using hi
  have hcount : lineAt front i ≤ front.count '\n' := (List.take_sublist _ _).count_le _
  constructor
  · rw [lineAt, lineAt, List.append_assoc, List.take_append_of_le_length hle]
  · rw [List.count_append, List.count_singleton_self]
    omega

/-- Lines in front of a text are protected as they are in front of a line of text, and those of the text are protected
as they are alone. -/
theorem markLines_append_of_probe {ms : List MarkedLine}
    (hblocks : ∀ v, v = text ∨ v = probe →
      blocks (front ++ ['\n'] ++ v) = before ++ Block.shiftAll (front ++ ['\n']).length (blocks v))
    (hms : markLines (front ++ ['\n'] ++ probe) = ms ++ [(probe, false)]) :
    markLines (front ++ ['\n'] ++ text) = ms ++ markLines text := by
  have hlines (v : List Char) : lines (front ++ ['\n'] ++ v) = lines front ++ lines v := by
    rw [List.append_assoc, List.singleton_append, lines_append_newline_append]
  have hfirst : ms.map Prod.fst = lines front := by
    have hmap := congrArg (List.map Prod.fst) hms
    rw [map_fst_markLines, hlines, List.map_append] at hmap
    exact (List.append_inj_left' hmap rfl).symm
  have hcount : ms.length = (front ++ ['\n']).count '\n' := by
    rw [← List.length_map (f := Prod.fst), hfirst, length_lines, List.count_append, List.count_singleton_self]
  have htext := isVerbatim_append_iff (hblocks text (.inl rfl))
  have hprobe := isVerbatim_append_iff (hblocks probe (.inr rfl))
  have hends : ∀ s ∈ Block.verbatimOfAll false before, ∀ i ∈ s, i < (front ++ ['\n']).length := by
    intro s hs i hi
    by_contra hlong
    obtain ⟨d, rfl⟩ := Nat.exists_eq_add_of_le (Nat.le_of_not_lt hlong)
    have hlast : (markLines (front ++ ['\n'] ++ probe))[ms.length]? = some (probe, false) := by rw [hms]; simp
    refine Bool.false_ne_true ((marked_iff_isVerbatim hlast).2 ((hprobe _).2 (.inl ⟨s, hs, _, hi, ?_⟩)))
    rw [lineAt_append, hcount]
    rcases d with _ | d
    · rfl
    · simp [lineAt, probe]
  refine eq_of_map_fst_eq ?_ fun k a b ha hb => ?_
  · rw [map_fst_markLines, hlines, List.map_append, hfirst, map_fst_markLines]
  rw [marked_iff_isVerbatim ha, htext]
  rcases Nat.lt_or_ge k ms.length with hk | hk
  · have hmark : (markLines (front ++ ['\n'] ++ probe))[k]? = some b := by
      rw [hms, List.getElem?_append_left hk, ← hb, List.getElem?_append_left hk]
    rw [marked_iff_isVerbatim hmark, hprobe]
    refine or_congr ?_ ?_
    · refine exists_congr fun s => and_congr_right fun hs => exists_congr fun i => and_congr_right fun hi => ?_
      have hi := hends s hs i hi
      rw [(lineAt_lt_count hi text).1, (lineAt_lt_count hi probe).1]
    · exact iff_of_false (by rintro ⟨j, rfl, -⟩; omega) (by rintro ⟨j, rfl, -⟩; omega)
  · obtain ⟨j, rfl⟩ := Nat.exists_eq_add_of_le hk
    rw [List.getElem?_append_right hk, Nat.add_sub_cancel_left] at hb
    rw [marked_iff_isVerbatim hb, ← hcount]
    constructor
    · rintro (⟨s, hs, i, hi, hline⟩ | ⟨j', hj, hv⟩)
      · have hi := lineAt_lt_count (hends s hs i hi) text
        omega
      · obtain rfl : j = j' := by omega
        exact hv
    · exact fun hv => .inr ⟨j, rfl, hv⟩

end Marks

/-- Sections that are written one after the other, with a blank line between them. -/
def joined (sections : List (List Char)) : List Char := List.intercalate ['\n', '\n'] sections

/-- The lines of a section alone. -/
def sectionMarks (s : List Char) : List MarkedLine := sectionLines (markLines (unixNewlines s))

def MarkedAlike (sections : List (List Char)) : Prop :=
  upToText (markLines (unixNewlines (joined sections))) =
    upToText (List.intercalate [([], false)] (sections.map sectionMarks))

instance (sections : List (List Char)) : Decidable (MarkedAlike sections) := inferInstanceAs (Decidable (_ = _))

/-- The line feeds that a text begins with. -/
def leading (text : List Char) : List Char := text.takeWhile (· == '\n')

/-- The text of a section, with empty ones after it, does not end in a carriage return or a backslash, is protected in
front of a line of text as it is alone, and is parted from the text behind it. -/
structure SetOff (group : List (List Char)) (text : List Char) : Prop where
  return_ne : (joined group).getLast? ≠ some '\r'
  backslash_ne : (joined group).getLast? ≠ some '\\'
  alike : MarkedAlike (group ++ [leading text ++ probe])
  parts : Parts (unixNewlines (joined group) ++ ['\n', '\n'] ++ leading text) (text.dropWhile (· == '\n'))

instance (group : List (List Char)) (text : List Char) : Decidable (SetOff group text) :=
  decidable_of_iff ((joined group).getLast? ≠ some '\r' ∧ (joined group).getLast? ≠ some '\\' ∧
      MarkedAlike (group ++ [leading text ++ probe]) ∧
      Parts (unixNewlines (joined group) ++ ['\n', '\n'] ++ leading text) (text.dropWhile (· == '\n')))
    ⟨fun ⟨hr, hb, ha, hp⟩ => ⟨hr, hb, ha, hp⟩, fun ⟨hr, hb, ha, hp⟩ => ⟨hr, hb, ha, hp⟩⟩

/-- Behind a section, with empty ones after it, the further sections stand apart. -/
def StandApartFrom (group : List (List Char)) : List (List Char) → Prop
  | [] => MarkedAlike group
  | s :: rest =>
    if s.all isSpaceOrEol then StandApartFrom (group ++ [s]) rest
    else SetOff group (unixNewlines (joined (s :: rest))) ∧ StandApartFrom [s] rest

instance decidableStandApartFrom : ∀ group rest : List (List Char), Decidable (StandApartFrom group rest)
  | group, [] => inferInstanceAs (Decidable (MarkedAlike group))
  | group, s :: rest =>
    have := decidableStandApartFrom (group ++ [s]) rest
    have := decidableStandApartFrom [s] rest
    inferInstanceAs (Decidable (if s.all isSpaceOrEol then StandApartFrom (group ++ [s]) rest
      else SetOff group (unixNewlines (joined (s :: rest))) ∧ StandApartFrom [s] rest))

/-- No section goes on with the one before it. -/
def StandApart : List (List Char) → Prop
  | [] => True
  | s :: rest => StandApartFrom [s] rest

instance : ∀ sections : List (List Char), Decidable (StandApart sections)
  | [] => .isTrue trivial
  | s :: rest => decidableStandApartFrom [s] rest

theorem exists_leading (text : List Char) : ∃ k, leading text = List.replicate k '\n' := by
  refine ⟨(leading text).length, List.eq_replicate_iff.2 ⟨rfl, fun c hc => ?_⟩⟩
  have hmem : c ∈ text.takeWhile (· == '\n') := hc
  simpa using List.mem_takeWhile_imp hmem

theorem markLines_replicate_append (k : Nat) (text : List Char) :
    markLines (List.replicate k '\n' ++ text) = List.replicate k ([], false) ++ markLines text := by
  induction k with
  | zero => rfl
  | succ k ih => rw [List.replicate_succ, List.cons_append, markLines_newline, ih, List.replicate_succ, List.cons_append]

theorem closed_append {cs : List Char} (h : cs.getLast? ≠ some '\\') (k : Nat) :
    Closed (cs ++ ['\n', '\n'] ++ List.replicate k '\n') := by
  have hcomm : ['\n', '\n'] ++ List.replicate k '\n' = List.replicate k '\n' ++ ['\n', '\n'] := by
    rw [show ['\n', '\n'] = List.replicate 2 '\n' from rfl, List.replicate_append_replicate,
      List.replicate_append_replicate, Nat.add_comm]
  refine ⟨cs ++ List.replicate k '\n', by rw [List.append_assoc, hcomm, List.append_assoc], ?_⟩
  rw [List.getLast?_append, List.getLast?_replicate]
  split
  · exact h
  · simp

/-- A text with a line of text at its end has no blank lines there. -/
theorem upToText_markLines_probe (front : List Char) :
    upToText (markLines (front ++ ['\n'] ++ probe)) = markLines (front ++ ['\n'] ++ probe) := by
  refine List.rdropWhile_eq_self_iff.2 fun hne => ?_
  have hlast : ((markLines (front ++ ['\n'] ++ probe)).map Prod.fst).getLast? = some probe := by
    rw [map_fst_markLines, List.append_assoc, List.singleton_append, lines_append_newline_append, List.getLast?_append]
    rfl
  rw [List.getLast?_map, List.getLast?_eq_some_getLast hne, Option.map_some, Option.some.injEq] at hlast
  rw [isBlankLine, hlast]
  decide

theorem exists_eq_append_newline {cs : List Char} (h : Closed cs) : ∃ front, cs = front ++ ['\n'] := by
  obtain ⟨front, rfl, -⟩ := h
  exact ⟨front ++ ['\n'], by rw [List.append_assoc, List.singleton_append]⟩

theorem upToText_append_text (ms : List MarkedLine) {line : MarkedLine} (h : isBlank line.1 = false) :
    upToText (ms ++ [line]) = ms ++ [line] := by
  have hline : upToText [line] = [line] := by simp [upToText, isBlankLine, h, List.rdropWhile]
  rw [upToText_append, hline, if_neg (List.cons_ne_nil _ _)]

section SetOff
variable {group rest : List (List Char)}

/-- The lines of a section, in front of a line of text. -/
theorem markLines_probe (hgroup : group ≠ []) (hreturn : (joined group).getLast? ≠ some '\r') {k : Nat}
    (hclosed : Closed (unixNewlines (joined group) ++ ['\n', '\n'] ++ List.replicate k '\n'))
    (h : MarkedAlike (group ++ [List.replicate k '\n' ++ probe])) :
    markLines (unixNewlines (joined group) ++ ['\n', '\n'] ++ List.replicate k '\n' ++ probe) =
      List.intercalate [([], false)] (group.map sectionMarks) ++ [([], false)] ++ List.replicate k ([], false) ++
        [(probe, false)] := by
  have hprobe : markLines (List.replicate k '\n' ++ probe) = List.replicate k ([], false) ++ [(probe, false)] := by
    rw [markLines_replicate_append]
    rfl
  have hunix : unixNewlines (List.replicate k '\n' ++ probe) = List.replicate k '\n' ++ probe := by
    rw [unixNewlines_append_of_not_mem (by simp [List.mem_replicate])]
    rfl
  have hmarks : sectionMarks (List.replicate k '\n' ++ probe) = List.replicate k ([], false) ++ [(probe, false)] := by
    rw [sectionMarks, hunix, hprobe]
    exact sectionLines_eq_self (by simp [List.mem_replicate])
  have hjoined : unixNewlines (joined (group ++ [List.replicate k '\n' ++ probe])) =
      unixNewlines (joined group) ++ ['\n', '\n'] ++ List.replicate k '\n' ++ probe := by
    rw [joined, intercalate_append _ hgroup (List.cons_ne_nil _ _), List.intercalate_singleton, List.append_assoc,
      ← joined, unixNewlines_append hreturn, unixNewlines_append_of_not_mem (by decide), hunix]
    simp only [List.append_assoc]
  have hsections : List.intercalate [([], false)] ((group ++ [List.replicate k '\n' ++ probe]).map sectionMarks) =
      List.intercalate [([], false)] (group.map sectionMarks) ++ [([], false)] ++ List.replicate k ([], false) ++
        [(probe, false)] := by
    rw [List.map_append, intercalate_append _ (by simpa using hgroup) (by simp), List.map_singleton,
      List.intercalate_singleton, hmarks, List.append_assoc _ (List.replicate k _)]
  have hblank : isBlank probe = false := by decide
  have htext : upToText (markLines (unixNewlines (joined group) ++ ['\n', '\n'] ++ List.replicate k '\n' ++ probe)) =
      markLines (unixNewlines (joined group) ++ ['\n', '\n'] ++ List.replicate k '\n' ++ probe) := by
    obtain ⟨front, hfront⟩ := exists_eq_append_newline hclosed
    rw [hfront, upToText_markLines_probe]
  rwa [MarkedAlike, hjoined, hsections, upToText_append_text _ hblank, htext] at h

/-- Behind a section that is set off, the further ones are protected as they are without it. -/
theorem SetOff.markedAlike_append (hgroup : group ≠ []) (hrest : rest ≠ [])
    (h : SetOff group (unixNewlines (joined rest))) (ih : MarkedAlike rest) : MarkedAlike (group ++ rest) := by
  obtain ⟨k, hk⟩ := exists_leading (unixNewlines (joined rest))
  have halike := h.alike
  have hparts := h.parts
  have htext : List.replicate k '\n' ++ (unixNewlines (joined rest)).dropWhile (· == '\n') = unixNewlines (joined rest) := by
    rw [← hk]
    exact List.takeWhile_append_dropWhile
  rw [hk] at halike hparts
  generalize (unixNewlines (joined rest)).dropWhile (· == '\n') = text at hparts htext
  have hclosed := closed_append (by rw [getLast?_unixNewlines]; exact h.backslash_ne) k
  have hprobe := markLines_probe hgroup h.return_ne hclosed halike
  obtain ⟨before, hblocks⟩ := exists_blocks_append hclosed hparts
  have hmarks : markLines (unixNewlines (joined group) ++ ['\n', '\n'] ++ List.replicate k '\n' ++ text) =
      List.intercalate [([], false)] (group.map sectionMarks) ++ [([], false)] ++ List.replicate k ([], false) ++
        markLines text := by
    obtain ⟨front, hfront⟩ := exists_eq_append_newline hclosed
    rw [hfront] at hprobe hblocks ⊢
    exact markLines_append_of_probe hblocks hprobe
  have hjoined : unixNewlines (joined (group ++ rest)) =
      unixNewlines (joined group) ++ ['\n', '\n'] ++ List.replicate k '\n' ++ text := by
    rw [joined, intercalate_append _ hgroup hrest, List.append_assoc, ← joined, unixNewlines_append h.return_ne,
      unixNewlines_append_of_not_mem (by decide), ← joined, ← htext]
    simp only [List.append_assoc]
  have hsections : List.intercalate [([], false)] ((group ++ rest).map sectionMarks) =
      List.intercalate [([], false)] (group.map sectionMarks) ++ [([], false)] ++
        List.intercalate [([], false)] (rest.map sectionMarks) := by
    rw [List.map_append, intercalate_append _ (by simpa using hgroup) (by simpa using hrest)]
  rw [MarkedAlike, hjoined, hmarks, hsections, List.append_assoc _ (List.replicate k _), ← markLines_replicate_append,
    htext]
  exact upToText_append_congr ih

end SetOff

theorem markedAlike_of_standApartFrom {group rest : List (List Char)} (hgroup : group ≠ [])
    (h : StandApartFrom group rest) : MarkedAlike (group ++ rest) := by
  induction rest generalizing group with
  | nil => rwa [List.append_nil]
  | cons s rest ih =>
    rw [StandApartFrom] at h
    split at h
    · have hempty := ih (by simp) h
      rwa [List.append_assoc, List.singleton_append] at hempty
    · exact h.1.markedAlike_append hgroup (by simp) (ih (by simp) h.2)

theorem StandApart.markedAlike {sections : List (List Char)} (h : StandApart sections) : MarkedAlike sections := by
  cases sections with
  | nil => rfl
  | cons s rest => exact markedAlike_of_standApartFrom (List.cons_ne_nil s []) h

theorem canonical_intercalate {sections : List (List Char)} (h : StandApart sections) :
    canonical (List.intercalate ['\n', '\n'] sections) =
      List.intercalate ['\n'] ((sections.map canonical).filter (· ≠ [])) := by
  have hparts : ∀ part ∈ ((sections.map fun s => keptLines (markLines (unixNewlines s))).filter (· ≠ [])), part ≠ [] :=
    fun part hp => by simpa using (List.mem_filter.1 hp).2
  have hlines : keptLines (markLines (unixNewlines (List.intercalate ['\n', '\n'] sections))) =
      List.intercalate [[]] ((sections.map fun s => keptLines (markLines (unixNewlines s))).filter (· ≠ [])) := by
    have hmarks := keptLines_congr h.markedAlike
    rw [joined] at hmarks
    rw [hmarks]
    have hsections : sections.map sectionMarks = (sections.map fun s => markLines (unixNewlines s)).map sectionLines := by
      rw [List.map_map]
      rfl
    rw [hsections]
    simpa [Function.comp_def] using keptLines_intercalate (sections.map fun s => markLines (unixNewlines s))
  rw [canonical_eq, hlines, textOf_intercalate hparts, List.filter_map, List.filter_map, List.map_map]
  congr 1
  simp [Function.comp_def, canonical_eq, textOf_eq_nil]

/-- Sections that stand apart come out in one text as they do alone. -/
theorem canonicalize_intercalate (sections : List String) (h : StandApart (sections.map String.toList)) :
    canonicalize ("\n\n".intercalate sections) =
      "\n".intercalate ((sections.map canonicalize).filter (· ≠ "")) := by
  rw [← String.toList_inj, canonicalize_toList, String.toList_intercalate, String.toList_intercalate]
  change canonical (List.intercalate ['\n', '\n'] _) = _
  have hnonempty : (fun s : String => decide (s ≠ "")) = (fun s => decide (s ≠ [])) ∘ String.toList := by
    funext s
    simp [String.toList_eq_nil_iff]
  have hcanonical : canonical ∘ String.toList = String.toList ∘ canonicalize :=
    funext fun s => (canonicalize_toList s).symm
  rw [canonical_intercalate h, hnonempty, ← List.filter_map, List.map_map, List.map_map, hcanonical]
  rfl

/-- Code between fences, a section without text, a list, and HTML that nothing closes. -/
theorem canonicalize_intercalate_blocks :
    let sections := ["# A\n~~~\n\n* x  \n~~~", " ", "* b  ", "<p>\n* c"]
    StandApart (sections.map String.toList) ∧
      canonicalize ("\n\n".intercalate sections) = "\n".intercalate ((sections.map canonicalize).filter (· ≠ "")) ∧
      (sections.map canonicalize).filter (· ≠ "") = ["# A\n\n~~~\n\n* x  \n~~~\n", "- b\n", "<p>\n* c\n"] := by
  intro sections
  have h : StandApart (sections.map String.toList) := by decide +kernel
  exact ⟨h, canonicalize_intercalate sections h, by decide +kernel⟩

/-- A fence that nothing closes takes in the next section, and so does a list if that is indented. A carriage
return at the end of a section goes with the line feed after it. -/
theorem canonicalize_intercalate_ne :
    (canonicalize ("\n\n".intercalate ["```\na", "* b"]) = "```\na\n\n* b\n" ∧
      "\n".intercalate ((["```\na", "* b"].map canonicalize).filter (· ≠ "")) = "```\na\n\n- b\n") ∧
    (canonicalize ("\n\n".intercalate ["- a", "    c \n"]) = "- a\n\n    c\n" ∧
      "\n".intercalate ((["- a", "    c \n"].map canonicalize).filter (· ≠ "")) = "- a\n\n    c \n") ∧
    canonicalize ("\n\n".intercalate ["    a\r", "b"]) = "    a\n\nb\n" ∧
      "\n".intercalate ((["    a\r", "b"].map canonicalize).filter (· ≠ "")) = "    a\r\n\nb\n" := by
  decide +kernel

end ComponentDocs.Layout
