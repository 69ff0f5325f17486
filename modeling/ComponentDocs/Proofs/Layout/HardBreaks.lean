import ComponentDocs.Proofs.Layout.Misread
import ComponentDocs.Proofs.Layout.Shape
/-! Hard breaks: two spaces at the end of a line where the paragraph goes on on the next one. Which line is written for
each line of a text, and when it keeps the break. -/
namespace ComponentDocs.Layout
open Text Markdown

section Run

/-- What rises along a chain passes a number at one step of it, or lies on one side of the number. -/
theorem exists_step_or {α : Type} {R : α → α → Prop} {f : α → Nat} (hmono : ∀ x y, R x y → f x ≤ f y) (k : Nat)
    {l : List α} (h : l.IsChain R) :
    (∃ x y, R x y ∧ f x ≤ k ∧ k < f y) ∨ (∀ x ∈ l, f x ≤ k) ∨ ∀ x ∈ l, k < f x := by
  induction h with
  | nil => simp
  | singleton x =>
    rcases Nat.lt_or_ge k (f x) with hx | hx
    · exact .inr (.inr (List.forall_mem_singleton.2 hx))
    · exact .inr (.inl (List.forall_mem_singleton.2 hx))
  | @cons_cons x y l hxy _ ih =>
    rcases ih with hstep | hbelow | habove
    · exact .inl hstep
    · have hx := (hmono x y hxy).trans (hbelow y List.mem_cons_self)
      exact .inr (.inl (List.forall_mem_cons.2 ⟨hx, hbelow⟩))
    · rcases Nat.lt_or_ge k (f x) with hx | hx
      · exact .inr (.inr (List.forall_mem_cons.2 ⟨hx, habove⟩))
      · exact .inl ⟨x, y, hxy, hx, habove y List.mem_cons_self⟩

variable {document : List Char}

theorem getElem?_lines_lineAt {i : Nat} (h : document[i]? = some '\n') :
    (lines document)[lineAt document (i + 1)]? = some ((document.drop (i + 1)).takeWhile (· != '\n')) := by
  obtain ⟨hi, hc⟩ := List.getElem?_eq_some_iff.1 h
  have hsplit : lines document = lines (document.take i) ++ lines (document.drop (i + 1)) := by
    rw [← lines_append_newline_append, ← hc, ← List.drop_eq_getElem_cons hi, List.take_append_drop]
  have hbefore : lineAt document (i + 1) = (lines (document.take i)).length := by
    rw [lineAt, List.take_add_one, h, List.count_append, length_lines]
    rfl
  rw [hsplit, hbefore, List.getElem?_append_right le_rfl, Nat.sub_self, ← List.head?_eq_getElem?, head?_lines]

/-- A line of a paragraph begins on its own line, and the next one on this line or on the line after it. -/
theorem lineAt_of_continues {s : Span} {next : Nat} (h : Continues document s next) :
    lineAt document next = lineAt document s.stop ∧
      (s.start < s.stop → lineAt document (s.stop - 1) = lineAt document s.start) := by
  refine ⟨lineAt_eq_of_not_mem h.stop_le h.marks, fun hlt => lineAt_eq_of_not_mem (by omega) h.line⟩

theorem lineAt_le_of_continues {s : Span} {next : Nat} (h : Continues document s next) :
    lineAt document s.start ≤ lineAt document next :=
  lineAt_le document (h.start_le.trans h.stop_le)

theorem newline_of_continues {s : Span} {next k : Nat} (h : Continues document s next)
    (hs : lineAt document s.start ≤ k) (hnext : k < lineAt document next) :
    ∃ i, s.stop = i + 1 ∧ document[i]? = some '\n' ∧ lineAt document (i + 1) = k + 1 := by
  obtain ⟨hsame, hline⟩ := lineAt_of_continues h
  have hlt : s.start < s.stop := by
    refine Nat.lt_of_le_of_ne h.start_le fun he => ?_
    rw [he] at hs
    omega
  obtain ⟨i, hi⟩ := Nat.exists_eq_add_of_le' (Nat.one_le_of_lt hlt)
  rw [hi] at hsame hline
  have hbefore := hline (by omega)
  rw [Nat.add_sub_cancel] at hbefore
  refine ⟨i, hi, ?_, ?_⟩
  · by_contra hne
    have hsame' : lineAt document (i + 1) = lineAt document i := by
      refine lineAt_eq_of_not_mem (Nat.le_succ i) ?_
      rw [Nat.add_sub_cancel_left, List.take_one, List.head?_drop]
      simpa using hne
    omega
  · have hle := lineAt_succ_le document i
    omega

/-- The line behind one that a line of a paragraph begins on goes on with the paragraph if another line of the paragraph
begins on it. -/
theorem exists_goesOn {paragraph : List Span} (h : paragraph ∈ Block.paragraphsOfAll (blocks document)) {s u : Span}
    (hs : s ∈ paragraph) (hu : u ∈ paragraph) {k : Nat} (hsk : lineAt document s.start = k)
    (huk : lineAt document u.start = k + 1) {line : Line} (hline : (lines document)[k + 1]? = some line) :
    ∃ containers tail, IsLineRest tail ∧ GoesOn containers (line ++ tail) := by
  have hmono : ∀ x y : Span, Continues document x y.start → lineAt document x.start ≤ lineAt document y.start :=
    fun _ _ => lineAt_le_of_continues
  have hrun : paragraph.IsChain fun x y => Continues document x y.start := isRun_of_mem_paragraphs h
  obtain ⟨x, y, hxy, hx, hy⟩ | hbelow | habove := exists_step_or hmono k hrun
  · obtain ⟨i, hstop, hnewline, hnext⟩ := newline_of_continues hxy hx hy
    have hfound := getElem?_lines_lineAt hnewline
    rw [hnext, hline, Option.some.injEq] at hfound
    obtain ⟨containers, hgoes⟩ := hxy.goesOn
    refine ⟨containers, (document.drop (i + 1)).dropWhile (· != '\n'), fun c hc => ?_, ?_⟩
    · have hne := List.head?_dropWhile_not (· != '\n') (document.drop (i + 1))
      rw [Option.mem_def.1 hc] at hne
      simpa using hne
    · rwa [hfound, List.takeWhile_append_dropWhile, ← hstop]
  · have := hbelow u hu
    omega
  · have := habove s hs
    omega

end Run

section Ends

/-- A line that ends in a hard break: in two spaces, and no more of them. -/
def EndsInBreak (line : Line) : Prop := ∃ text, line = text ++ [' ', ' '] ∧ text.getLast? ≠ some ' '

theorem not_isBlankChar_of_mem_getLast?_trimEnd {line : Line} {c : Char} (h : c ∈ (trimEnd line).getLast?) :
    isBlankChar c = false := by
  rw [trimEnd_eq_rdropWhile] at h
  obtain ⟨hne, rfl⟩ := List.mem_getLast?_eq_getLast h
  simpa using List.rdropWhile_last_not isBlankChar line hne

theorem endsInBreak_of_blankTail {line : Line} (h : blankTail line = [' ', ' ']) : EndsInBreak line := by
  refine ⟨trimEnd line, by rw [← h, trimEnd_append_blankTail], fun hlast => ?_⟩
  exact absurd (not_isBlankChar_of_mem_getLast?_trimEnd hlast) (by decide)

theorem not_endsInBreak_of_blankTail {line : Line} (h : blankTail line = []) : ¬ EndsInBreak line := by
  rintro ⟨text, rfl, -⟩
  have hself := trimEnd_append_blankTail (text ++ [' ', ' '])
  rw [h, List.append_nil] at hself
  have hlast : ' ' ∈ (trimEnd (text ++ [' ', ' '])).getLast? := by
    rw [hself]
    simp
  exact absurd (not_isBlankChar_of_mem_getLast?_trimEnd hlast) (by decide)

theorem trimEnd_headingTitle (text : List Char) : trimEnd (headingTitle text) = headingTitle text := by
  rw [headingTitle_eq_content, trimEnd_eq_rdropWhile]
  exact rdropWhile_rdropWhile (fun _ => id) _

theorem blankTail_heading? {line heading : Line} (h : heading? line = some heading) : blankTail heading = [] := by
  obtain ⟨level, text, hopens, rfl⟩ := heading?_eq_some_iff.1 h
  have hself : trimEnd (spellHeading level (headingTitle text)) = spellHeading level (headingTitle text) := by
    have htitle := trimEnd_headingTitle text
    rw [spellHeading]
    split
    · obtain ⟨n, rfl⟩ := Nat.exists_eq_add_of_le' hopens.level_pos
      rw [List.append_nil, List.replicate_succ', trimEnd_append _ (by decide)]
      rfl
    · next hne =>
      have htext : isBlank (headingTitle text) = false := by
        rw [← Bool.not_eq_true, ← trimEnd_eq_nil_iff, htitle]
        simpa using hne
      rw [List.append_cons, trimEnd_append _ htext, htitle]
  rw [blankTail, hself, List.drop_length]

/-- What is laid out for a line ends in a hard break if the line has two spaces before its other blanks at the end, is no
heading, and the next line keeps the break. -/
theorem endsInBreak_image_iff {line : Line} (h : line.getLast? ≠ some '\t') (next : Option MarkedLine) :
    EndsInBreak (image (line, false) next) ↔
      heading? line = none ∧ [' ', ' '] <+: blankTail line ∧ keepsHardBreak next = true := by
  cases hh : heading? line with
  | some heading =>
    have himage : image (line, false) next = heading := by simp [image, hh]
    rw [himage]
    exact iff_of_false (not_endsInBreak_of_blankTail (blankTail_heading? hh)) (by simp)
  | none =>
    have himage : image (line, false) next = spellBullet (trimLine (keepsHardBreak next) line) := by simp [image, hh]
    have htail := blankTail_spellBullet (trimLine (keepsHardBreak next) line)
    rw [himage]
    by_cases hkeeps : (keepsHardBreak next && [' ', ' '].isPrefixOf (blankTail line) && line.getLast? != some '\t') = true
    · rw [trimLine, if_pos hkeeps] at htail ⊢
      have hspaces : blankTail (trimEnd line ++ [' ', ' ']) = [' ', ' '] := by
        rw [blankTail, trimEnd_append_of_isBlank _ (by decide), trimEnd_trimEnd, List.drop_left]
      simp only [Bool.and_eq_true, List.isPrefixOf_iff_prefix] at hkeeps
      exact iff_of_true (endsInBreak_of_blankTail (htail.trans hspaces)) ⟨rfl, hkeeps.1.2, hkeeps.1.1⟩
    · rw [trimLine, if_neg hkeeps] at htail ⊢
      have hnone : blankTail (trimEnd line) = [] := by rw [blankTail, trimEnd_trimEnd, List.drop_length]
      refine iff_of_false (not_endsInBreak_of_blankTail (htail.trans hnone)) ?_
      rintro ⟨-, hspaces, hkeep⟩
      apply hkeeps
      simp only [Bool.and_eq_true, List.isPrefixOf_iff_prefix, bne_iff_ne]
      exact ⟨⟨hkeep, hspaces⟩, h⟩

end Ends

section Written

/-- What is written for the line of a number: as many lines of the text have come before it. -/
def WrittenAt (ms : List MarkedLine) (k : Nat) (out : Line) : Prop :=
  ∃ m front back, ms[k]? = some m ∧ writtenFor ms = front ++ ⟨out, some m⟩ :: back ∧
    front.filterMap WrittenLine.source = (ms.take k).filter fun m => m.2 || hasText m.1

theorem exists_written_append (front rest : List MarkedLine) (afterText due : Bool) :
    ∃ before afterText' due', written afterText due (front ++ rest) = before ++ written afterText' due' rest := by
  induction front generalizing afterText due with
  | nil => exact ⟨[], afterText, due, rfl⟩
  | cons m front ih =>
    cases hb : isBlank m.1 with
    | true =>
      obtain ⟨before, afterText', due', he⟩ := ih false due
      rw [List.cons_append, written_blank _ _ _ hb, he, ← List.append_assoc]
      exact ⟨_, afterText', due', rfl⟩
    | false =>
      obtain ⟨before, afterText', due', he⟩ := ih true (isHeading m)
      rw [List.cons_append, written_text _ _ _ hb, he, ← List.cons_append, ← List.append_assoc]
      exact ⟨_, afterText', due', rfl⟩

theorem exists_rdropWhile_append {α : Type} {p : α → Bool} (front back : List α) {a : α} (h : p a = false) :
    ∃ back', (front ++ a :: back).rdropWhile p = front ++ a :: back' := by
  induction back using List.reverseRecOn with
  | nil => exact ⟨[], List.rdropWhile_concat_neg _ _ _ (by simp [h])⟩
  | append_singleton back x ih =>
    rw [← List.cons_append, ← List.append_assoc]
    cases hx : p x with
    | true =>
      obtain ⟨back', he⟩ := ih
      exact ⟨back', by rw [List.rdropWhile_concat_pos _ _ _ hx, he]⟩
    | false => exact ⟨back ++ [x], by rw [List.rdropWhile_concat_neg _ _ _ (by simp [hx])]; simp⟩

/-- Where as much came before, the same is there. -/
theorem eq_of_filterMap_eq {α β : Type} {f : α → Option β} {front front' back back' : List α} {a a' : α}
    (h : front ++ a :: back = front' ++ a' :: back') (hf : front.filterMap f = front'.filterMap f)
    (ha : (f a).isSome = true) (ha' : (f a').isSome = true) : a = a' := by
  obtain ⟨b, hb⟩ := Option.isSome_iff_exists.1 ha
  obtain ⟨b', hb'⟩ := Option.isSome_iff_exists.1 ha'
  rcases List.append_eq_append_iff.1 h with ⟨mid, rfl, hmid⟩ | ⟨mid, rfl, hmid⟩
  · cases mid with
    | nil => exact (List.cons.inj hmid).1
    | cons x mid =>
      obtain ⟨rfl, -⟩ := List.cons.inj hmid
      simp [hb] at hf
  · cases mid with
    | nil => exact (List.cons.inj hmid).1.symm
    | cons x mid =>
      obtain ⟨rfl, -⟩ := List.cons.inj hmid
      simp [hb'] at hf

theorem writtenAt_image {ms : List MarkedLine} {k : Nat} {line : Line} (hm : ms[k]? = some (line, false))
    (hb : isBlank line = false) : WrittenAt ms k (image (line, false) ms[k + 1]?) := by
  obtain ⟨hk, he⟩ := List.getElem?_eq_some_iff.1 hm
  have hsplit : ms = ms.take k ++ (line, false) :: ms.drop (k + 1) := by
    rw [← he, ← List.drop_eq_getElem_cons hk, List.take_append_drop]
  obtain ⟨front, afterText, due, hwritten⟩ :=
    exists_written_append (ms.take k) ((line, false) :: ms.drop (k + 1)) false false
  have hfront : front.filterMap WrittenLine.source = (ms.take k).filter fun m => m.2 || hasText m.1 := by
    have hsources := filterMap_source_written (ms.take k ++ (line, false) :: ms.drop (k + 1)) false false
    rw [hwritten, List.filterMap_append, filterMap_source_written, List.filter_append] at hsources
    exact List.append_cancel_right hsources
  rw [← hsplit, written_text _ _ _ hb, List.head?_drop, ← List.append_assoc] at hwritten
  have himage : isBlank (image (line, false) ms[k + 1]?) = false := isBlank_image _ hb
  obtain ⟨back, hback⟩ := exists_rdropWhile_append (p := fun w : WrittenLine => isBlank w.line)
    (a := ⟨image (line, false) ms[k + 1]?, some (line, false)⟩) _ _ himage
  refine ⟨_, _, back, hm, by rw [writtenFor, hwritten, hback], ?_⟩
  rw [List.filterMap_append, hfront]
  cases due || isHeading (line, false) <;> cases afterText <;> simp [separator]

/-- For a line that is not protected, its image before the next line is written, unless the line is blank. -/
theorem writtenAt_iff {ms : List MarkedLine} {k : Nat} {line : Line} (hm : ms[k]? = some (line, false)) (out : Line) :
    WrittenAt ms k out ↔ isBlank line = false ∧ out = image (line, false) ms[k + 1]? := by
  constructor
  · rintro ⟨m, front, back, hm', hwritten, hfront⟩
    obtain rfl : (line, false) = m := Option.some.inj (hm.symm.trans hm')
    have hb : isBlank line = false := by
      have hmem : (line, false) ∈ (writtenFor ms).filterMap WrittenLine.source := by simp [hwritten]
      have hall := (List.rdropWhile_prefix _ _).sublist.filterMap WrittenLine.source |>.subset hmem
      rw [filterMap_source_written] at hall
      simpa [hasText] using (List.mem_filter.1 hall).2
    obtain ⟨m, front', back', hm', hwritten', hfront'⟩ := writtenAt_image hm hb
    have hsame := eq_of_filterMap_eq (hwritten.symm.trans hwritten') (hfront.trans hfront'.symm) rfl rfl
    exact ⟨hb, (WrittenLine.mk.inj hsame).1⟩
  · rintro ⟨hb, rfl⟩
    exact writtenAt_image hm hb

end Written

/-- Two or more spaces at the end of a line, behind another character. -/
def EndsInSpaces (line : Line) : Prop := ∃ front c n, c ≠ ' ' ∧ line = front ++ c :: List.replicate (n + 2) ' '

/-- Where a line of a paragraph ends in spaces and the paragraph goes on on the next line, the line that is written for it
ends in a hard break, unless the line is taken for a blank line or a heading, has no two spaces before the other blanks at
its end, or the next line is misread. -/
theorem exists_writtenAt_endsInBreak_iff {text : String} {k : Nat} {line next : Line}
    (hline : (markLines (unixNewlines text.toList))[k]? = some (line, false))
    (hnext : (markLines (unixNewlines text.toList))[k + 1]? = some (next, false)) {paragraph : List Span}
    (hparagraph : paragraph ∈ Block.paragraphsOfAll (blocks (unixNewlines text.toList))) {s u : Span}
    (hs : s ∈ paragraph) (hu : u ∈ paragraph) (hsk : lineAt (unixNewlines text.toList) s.start = k)
    (huk : lineAt (unixNewlines text.toList) u.start = k + 1) (hspaces : EndsInSpaces line) :
    lines (canonicalize text).toList =
        (writtenFor (markLines (unixNewlines text.toList))).map WrittenLine.line ++ [[]] ∧
      ((∃ out, WrittenAt (markLines (unixNewlines text.toList)) k out ∧ EndsInBreak out) ↔ isBlank line = false ∧
        heading? line = none ∧ [' ', ' '] <+: blankTail line ∧ ¬ Misread next) := by
  have hnextLine : (lines (unixNewlines text.toList))[k + 1]? = some next := by
    rw [← map_fst_markLines, List.getElem?_map, hnext]
    rfl
  obtain ⟨containers, tail, htail, hgoes⟩ := exists_goesOn hparagraph hs hu hsk huk hnextLine
  obtain ⟨front, c, n, -, he⟩ := hspaces
  have hlast : line.getLast? ≠ some '\t' := by
    rw [he, List.replicate_succ', ← List.cons_append, ← List.append_assoc, List.getLast?_concat]
    decide
  refine ⟨?_, ?_⟩
  · rw [canonicalize_toList]
    exact lines_layOut fun _ => newline_not_mem_of_mem_markLines
  · simp only [writtenAt_iff hline, and_assoc, exists_and_left, exists_eq_left, hnext, endsInBreak_image_iff hlast]
    rw [← Bool.not_eq_false, keepsHardBreak_eq_false_iff htail hgoes]

theorem exists_writtenAt_endsInBreak_item : EndsInSpaces "- a  ".toList ∧
    [(⟨2, 6⟩ : Span), ⟨8, 10⟩] ∈ Block.paragraphsOfAll (blocks (unixNewlines "- a  \n  b\n".toList)) ∧
    ∃ out, WrittenAt (markLines (unixNewlines "- a  \n  b\n".toList)) 0 out ∧ EndsInBreak out := by
  have hspaces : EndsInSpaces "- a  ".toList := ⟨['-', ' '], 'a', 0, by decide, rfl⟩
  have hparagraph : [(⟨2, 6⟩ : Span), ⟨8, 10⟩] ∈ Block.paragraphsOfAll (blocks (unixNewlines "- a  \n  b\n".toList)) := by
    decide +kernel
  have hkeeps : ¬ Misread "  b".toList := fun h => absurd h.keepsHardBreak (by decide)
  have hnext : (markLines (unixNewlines "- a  \n  b\n".toList))[0 + 1]? = some ("  b".toList, false) := by decide +kernel
  have hwritten := exists_writtenAt_endsInBreak_iff (by decide +kernel) hnext hparagraph List.mem_cons_self
    (List.mem_cons_of_mem _ List.mem_cons_self) (by decide +kernel) (by decide +kernel) hspaces
  exact ⟨hspaces, hparagraph, hwritten.2.2 ⟨by decide, by decide, by decide, hkeeps⟩⟩

/-- A number but one cuts no paragraph short, and the break before it is lost all the same. -/
theorem canonicalize_loses_break :
    [(⟨0, 4⟩ : Span), ⟨4, 9⟩] ∈ Block.paragraphsOfAll (blocks (unixNewlines "a  \n2. b\n".toList)) ∧
    markLines (unixNewlines "a  \n2. b\n".toList) = [("a  ".toList, false), ("2. b".toList, false), ([], false)] ∧
    EndsInSpaces "a  ".toList ∧ canonicalize "a  \n2. b\n" = "a\n2. b\n" ∧
    ¬ ∃ out, WrittenAt (markLines (unixNewlines "a  \n2. b\n".toList)) 0 out ∧ EndsInBreak out := by
  have hmarked : markLines (unixNewlines "a  \n2. b\n".toList) =
      [("a  ".toList, false), ("2. b".toList, false), ([], false)] := by decide +kernel
  refine ⟨by decide +kernel, hmarked, ⟨[], 'a', 0, by decide, rfl⟩, by decide +kernel, ?_⟩
  rintro ⟨out, hout, hbreak⟩
  rw [hmarked, writtenAt_iff rfl] at hout
  obtain ⟨-, rfl⟩ := hout
  exact absurd ((endsInBreak_image_iff (by decide) _).1 hbreak).2.2 (by decide)

end ComponentDocs.Layout
