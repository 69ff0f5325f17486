import ComponentDocs.Proofs.Layout.Fixed
import ComponentDocs.Proofs.Layout.Verbatim
/-! The lines of a layout with the lines of the text that they are written for, whatever lines are
protected. Nothing of the text is lost, comes twice or changes its place. -/
namespace ComponentDocs.Layout
open Text

/-- The lines of a text, of which those are protected whose numbers `protects` tells. -/
def markBy (protects : Nat → Bool) (text : List Char) : List MarkedLine :=
  (lines text).zipIdx.map fun x => (x.1, protects x.2)

/-- The canonical layout of a text, whatever lines of it are protected. -/
def canonicalBy (protects : Nat → Bool) (text : List Char) : List Char := layOut (markBy protects (unixNewlines text))

/-- The lines that are protected when a text is laid out. -/
def verbatimLines (text : List Char) (k : Nat) : Bool := decide (IsVerbatim (unixNewlines text) k)

theorem map_fst_markBy (protects : Nat → Bool) (text : List Char) :
    (markBy protects text).map Prod.fst = lines text := by
  simp [markBy, Function.comp_def]

theorem newline_not_mem_of_mem_markBy {protects : Nat → Bool} {text : List Char} {m : MarkedLine}
    (h : m ∈ markBy protects text) : '\n' ∉ m.1 := by
  have hl : m.1 ∈ lines text := by
    rw [← map_fst_markBy protects text]
    exact List.mem_map_of_mem h
  exact not_mem_of_mem_lines hl

theorem markLines_eq_markBy (text : List Char) :
    markLines text = markBy (fun k => decide (IsVerbatim text k)) text := by
  refine List.ext_getElem? fun k => ?_
  have hl : (lines text)[k]? = (markLines text)[k]?.map Prod.fst := by
    rw [← map_fst_markLines, List.getElem?_map]
  rw [markBy, List.getElem?_map, List.getElem?_zipIdx, hl]
  cases hk : (markLines text)[k]? with
  | none => rfl
  | some m =>
    have hm : m.2 = decide (IsVerbatim text k) := by
      rw [Bool.eq_iff_iff, decide_eq_true_eq, marked_iff_isVerbatim hk]
    simp [← hm]

theorem canonicalize_eq_canonicalBy (text : String) :
    (canonicalize text).toList = canonicalBy (verbatimLines text.toList) text.toList := by
  rw [canonicalize_toList, canonical, markLines_eq_markBy]
  rfl

/-- A line of a layout. -/
structure WrittenLine where
  line : Line
  /-- The line of the text that it is written for. A blank line that separates is written for none. -/
  source : Option MarkedLine

def separator (afterText : Bool) : List WrittenLine := if afterText then [⟨[], none⟩] else []

/-- The lines that are laid out for some lines, with their sources. `afterText` tells that a line with
text came last, `due` that a heading did. -/
def written (afterText due : Bool) : List MarkedLine → List WrittenLine
  | [] => []
  | m :: rest =>
    if isBlank m.1 then (if m.2 then [⟨m.1, some m⟩] else separator afterText) ++ written false due rest
    else
      (if due || isHeading m then separator afterText else []) ++
        ⟨image m rest.head?, some m⟩ :: written true (isHeading m) rest

theorem written_blank {m : MarkedLine} (rest : List MarkedLine) (afterText due : Bool) (h : isBlank m.1 = true) :
    written afterText due (m :: rest) =
      (if m.2 then [⟨m.1, some m⟩] else separator afterText) ++ written false due rest := by
  simp [written, h]

theorem written_text {m : MarkedLine} (rest : List MarkedLine) (afterText due : Bool) (h : isBlank m.1 = false) :
    written afterText due (m :: rest) = (if due || isHeading m then separator afterText else []) ++
      ⟨image m rest.head?, some m⟩ :: written true (isHeading m) rest := by
  simp [written, h]

theorem map_line_written (ms : List MarkedLine) (afterText due : Bool) :
    (written afterText due ms).map WrittenLine.line = (laid afterText due ms).map Prod.fst := by
  have hs (b : Bool) : (separator b).map WrittenLine.line = (gap b).map Prod.fst := by cases b <;> rfl
  induction ms generalizing afterText due with
  | nil => rfl
  | cons m rest ih =>
    cases hb : isBlank m.1 with
    | true =>
      rw [written_blank rest _ _ hb, laid_blank rest _ _ hb, List.map_append, List.map_append, ih]
      cases m.2
      · exact congrArg (· ++ _) (hs afterText)
      · rfl
    | false =>
      rw [written_text rest _ _ hb, laid_text rest _ _ hb, List.map_append, List.map_append, List.map_cons,
        List.map_cons, ih]
      cases due || isHeading m
      · rfl
      · exact congrArg (· ++ _) (hs afterText)

def writtenFor (ms : List MarkedLine) : List WrittenLine := (written false false ms).rdropWhile fun w => isBlank w.line

theorem rdropWhile_map {α β : Type} (f : α → β) (p : β → Bool) (l : List α) :
    (l.map f).rdropWhile p = (l.rdropWhile fun a => p (f a)).map f := by
  simp only [List.rdropWhile, ← List.map_reverse, List.dropWhile_map]
  rfl

theorem lines_layOut {ms : List MarkedLine} (h : ∀ m ∈ ms, '\n' ∉ m.1) :
    lines (layOut ms) = (writtenFor ms).map WrittenLine.line ++ [[]] := by
  have hw : (writtenFor ms).map WrittenLine.line = ((laid false false ms).map Prod.fst).rdropWhile isBlank := by
    rw [← map_line_written, rdropWhile_map]
    rfl
  rw [hw, layOut_eq]
  split
  · next he => rw [he]; rfl
  · next hne =>
    have hn : ∀ l ∈ ((laid false false ms).map Prod.fst).rdropWhile isBlank, '\n' ∉ l := fun l hl =>
      newline_not_mem_laid h false false l ((List.rdropWhile_prefix isBlank _).subset hl)
    rw [lines_append_newline, lines_joinLines hne hn]

theorem lines_canonicalBy (protects : Nat → Bool) (text : List Char) : lines (canonicalBy protects text) =
    (writtenFor (markBy protects (unixNewlines text))).map WrittenLine.line ++ [[]] :=
  lines_layOut fun _ => newline_not_mem_of_mem_markBy

/-- What a line with text comes out as: a protected line as it is, a heading in its one spelling, and other
text without the blanks at its end, or with two spaces of them, and with a hyphen for the mark of a bullet. -/
def IsImage (m : MarkedLine) (line : Line) : Prop :=
  if m.2 then line = m.1
  else
    match heading? m.1 with
    | some heading => line = heading
    | none =>
      ∃ kept, (kept = trimEnd m.1 ∨ kept = trimEnd m.1 ++ [' ', ' '] ∧ kept <+: m.1) ∧
        if IsBullet m.1 ∧ isThematicBreak m.1 = false then
          ∃ before mark after, kept = before ++ mark :: after ∧ isBlank before = true ∧
            (mark = '*' ∨ mark = '+') ∧ line = before ++ '-' :: after
        else line = kept

theorem isImage_image (m : MarkedLine) (next : Option MarkedLine) : IsImage m (image m next) := by
  unfold IsImage image
  cases hp : m.2 with
  | true => simp
  | false =>
    cases hh : heading? m.1 with
    | some heading => simp
    | none =>
      simp only [Bool.false_eq_true, if_false, Option.getD_none]
      set keep := keepsHardBreak next
      refine ⟨trimLine keep m.1, trimLine_cases keep m.1, ?_⟩
      have hsame : (IsBullet (trimLine keep m.1) ∧ isThematicBreak (trimLine keep m.1) = false) ↔
          IsBullet m.1 ∧ isThematicBreak m.1 = false := by
        rw [isBullet_trimLine_iff, isThematicBreak_trimLine]
      rcases spellBullet_cases (trimLine keep m.1) with ⟨hb, ht, h⟩ | ⟨hn, h⟩
      · rw [if_pos (hsame.1 ⟨hb, ht⟩)]
        exact h
      · rw [if_neg (mt hsame.2 hn)]
        exact h

def hasText (line : Line) : Bool := !isBlank line

/-- Each line with text is written for one line with text, in order, and for no other. -/
theorem forall₂_written (ms : List MarkedLine) (afterText due : Bool) :
    List.Forall₂ (fun m w => w.source = some m ∧ IsImage m w.line) (ms.filter fun m => hasText m.1)
      ((written afterText due ms).filter fun w => hasText w.line) := by
  have hs (b : Bool) : (separator b).filter (fun w => hasText w.line) = [] := by cases b <;> rfl
  induction ms generalizing afterText due with
  | nil => exact .nil
  | cons m rest ih =>
    cases hb : isBlank m.1 with
    | true =>
      have hfirst : (if m.2 then [⟨m.1, some m⟩] else separator afterText).filter (fun w => hasText w.line) = [] := by
        cases m.2
        · exact hs afterText
        · simp [hasText, hb]
      rw [written_blank rest _ _ hb, List.filter_append, hfirst, List.nil_append,
        List.filter_cons_of_neg (by simp [hasText, hb])]
      exact ih false due
    | false =>
      have hfirst :
          (if due || isHeading m then separator afterText else []).filter (fun w => hasText w.line) = [] := by
        cases due || isHeading m
        · rfl
        · exact hs afterText
      rw [written_text rest _ _ hb, List.filter_append, hfirst, List.nil_append,
        List.filter_cons_of_pos (by simp [hasText, hb]),
        List.filter_cons_of_pos (by simp [hasText, isBlank_image rest.head? hb])]
      exact .cons ⟨rfl, isImage_image m rest.head?⟩ (ih true (isHeading m))

theorem filter_rdropWhile {α : Type} (p : α → Bool) (l : List α) :
    (l.rdropWhile p).filter (fun a => !p a) = l.filter fun a => !p a := by
  have hdrop : (l.reverse.dropWhile p).filter (fun a => !p a) = l.reverse.filter fun a => !p a := by
    conv_rhs => rw [← List.takeWhile_append_dropWhile (p := p) (l := l.reverse), List.filter_append]
    have hnone : (l.reverse.takeWhile p).filter (fun a => !p a) = [] := by
      rw [List.filter_eq_nil_iff]
      intro a ha
      simpa using List.mem_takeWhile_imp ha
    rw [hnone, List.nil_append]
  rw [List.rdropWhile, List.filter_reverse, hdrop, List.filter_reverse, List.reverse_reverse]

theorem forall₂_writtenFor (ms : List MarkedLine) :
    List.Forall₂ (fun m w => w.source = some m ∧ IsImage m w.line) (ms.filter fun m => hasText m.1)
      ((writtenFor ms).filter fun w => hasText w.line) := by
  have h := filter_rdropWhile (fun w : WrittenLine => isBlank w.line) (written false false ms)
  simp only [writtenFor, hasText] at h ⊢
  rw [h]
  exact forall₂_written ms false false

/-- The lines with text come out one for one and in order, each as its image, whatever lines are protected. -/
theorem texts_kept_in_order (text : String) :
    (∀ protects, List.Forall₂ IsImage
      ((markBy protects (unixNewlines text.toList)).filter fun m => hasText m.1)
      ((lines (canonicalBy protects text.toList)).filter hasText)) ∧
    (canonicalize text).toList = canonicalBy (verbatimLines text.toList) text.toList := by
  refine ⟨fun protects => ?_, canonicalize_eq_canonicalBy text⟩
  have hempty : [([] : Line)].filter hasText = [] := rfl
  rw [lines_canonicalBy, List.filter_append, hempty, List.append_nil, List.filter_map, List.forall₂_map_right_iff]
  exact (forall₂_writtenFor _).imp fun _ _ h => h.2

/-! The shape of a layout, line by line, whatever lines are protected: blank lines separate, headings stand
apart, and other text ends well and has no bullet with another mark than a hyphen. -/

/-- A text is empty, or its last line holds text and ends in the one line feed after it. -/
def EndsInText (text : List Char) : Prop :=
  text = [] ∨ ∃ front last, lines text = front ++ [last, []] ∧ isBlank last = false

/-- A line of a layout is well placed between the one before it and the one after it. -/
structure Shaped (before : Option WrittenLine) (here : WrittenLine) (after : Option WrittenLine) : Prop where
  separator : here.source = none → here.line = []
  /-- A blank line that is no copy of a protected line is empty and comes after text. -/
  blank : isBlank here.line = true → (∀ source, here.source ≠ some (source, true)) →
    here.line = [] ∧ ∃ b ∈ before, isBlank b.line = false
  copy : ∀ source, here.source = some (source, true) → here.line = source
  /-- A heading has blank lines around it, where it does not come first or last. -/
  heading : ∀ source heading, here.source = some (source, false) → heading? source = some heading →
    here.line = heading ∧ (∀ b ∈ before, isBlank b.line = true) ∧ ∀ a ∈ after, isBlank a.line = true
  /-- Other text has no blanks at its end but two spaces, and is no bullet to respell. -/
  text : ∀ source, here.source = some (source, false) → heading? source = none → isBlank here.line = false ∧
    (blankTail here.line = [] ∨ blankTail here.line = [' ', ' ']) ∧
    (IsBullet here.line → isThematicBreak here.line = true)

/-- What may stand before a line may end a text. -/
theorem Shaped.of_last {before after : Option WrittenLine} {here : WrittenLine} (h : Shaped before here after) :
    Shaped before here none :=
  ⟨h.separator, h.blank, h.copy, fun source heading hs hh =>
    have ⟨he, hb, _⟩ := h.heading source heading hs hh
    ⟨he, hb, by simp⟩, h.text⟩

theorem shaped_separator {before : WrittenLine} (after : Option WrittenLine) (h : isBlank before.line = false) :
    Shaped (some before) ⟨[], none⟩ after :=
  ⟨fun _ => rfl, fun _ _ => ⟨rfl, before, rfl, h⟩, by simp, by simp, by simp⟩

theorem shaped_copy {m : MarkedLine} (before after : Option WrittenLine) (h : m.2 = true) :
    Shaped before ⟨m.1, some m⟩ after := by
  obtain ⟨line, mark⟩ := m
  cases h
  exact ⟨by simp, fun _ hn => absurd rfl (hn line), by simp, by simp, by simp⟩

theorem shaped_image {m : MarkedLine} (next : Option MarkedLine) {before after : Option WrittenLine}
    (hb : isBlank m.1 = false) (h : isHeading m = true → (∀ b ∈ before, isBlank b.line = true) ∧
      ∀ a ∈ after, isBlank a.line = true) : Shaped before ⟨image m next, some m⟩ after := by
  have htext := isBlank_image next hb
  obtain ⟨line, mark⟩ := m
  refine ⟨by simp, fun hblank => absurd (htext.symm.trans hblank) Bool.false_ne_true, ?_, ?_, ?_⟩
  · rintro source hs
    cases hs
    rfl
  · rintro source heading hs hh
    cases hs
    exact ⟨by simp [image, hh], h (by simp [isHeading, hh])⟩
  · rintro source hs hh
    cases hs
    have himage : image (line, false) next = spellBullet (trimLine (keepsHardBreak next) line) := by
      simp [image, hh]
    refine ⟨htext, ?_, ?_⟩
    · simp only [himage, blankTail_spellBullet]
      exact blankTail_trimLine _ _
    · simp only [himage]
      exact isThematicBreak_of_isBullet_spellBullet

/-- The lines that are written are well placed. If a heading came last, a blank line comes first. -/
theorem along_written (ms : List MarkedLine) {before : Option WrittenLine} {afterText : Bool} (due : Bool)
    (h : (before.any fun b => hasText b.line) = afterText) :
    Along Shaped before (written afterText due ms) ∧
      (due = true → afterText = true → ∀ w ∈ (written afterText due ms).head?, isBlank w.line = true) := by
  have hblank : isBlank ([] : Line) = true := rfl
  induction ms generalizing before afterText due with
  | nil => exact ⟨trivial, by simp [written]⟩
  | cons m rest ih =>
    cases hb : isBlank m.1 with
    | true =>
      rw [written_blank rest _ _ hb]
      cases hp : m.2 with
      | true =>
        have hrest : Along Shaped (some ⟨m.1, some m⟩) (written false due rest) :=
          (ih due (by simp [hasText, hb])).1
        exact ⟨⟨shaped_copy _ _ hp, hrest⟩, by simp [hb]⟩
      | false =>
        cases afterText with
        | false =>
          obtain ⟨hrest, -⟩ := ih due h
          exact ⟨hrest, by simp⟩
        | true =>
          obtain ⟨b, rfl, hbt⟩ := (Option.any_eq_true _ _).1 h
          have hrest : Along Shaped (some ⟨[], none⟩) (written false due rest) := (ih due rfl).1
          exact ⟨⟨shaped_separator _ (by simpa [hasText] using hbt), hrest⟩, by simp [separator, hblank]⟩
    | false =>
      have htext : isBlank (image m rest.head?) = false := isBlank_image _ hb
      obtain ⟨hrest, hnext⟩ := ih (isHeading m) (show (some (⟨image m rest.head?, some m⟩ : WrittenLine)).any
        (fun b => hasText b.line) = true by simp [hasText, htext])
      rw [written_text rest _ _ hb]
      cases hgap : (due || isHeading m) && afterText with
      | true =>
        rw [Bool.and_eq_true] at hgap
        obtain ⟨hapart, rfl⟩ := hgap
        obtain ⟨b, rfl, hbt⟩ := (Option.any_eq_true _ _).1 h
        rw [if_pos hapart]
        refine ⟨⟨shaped_separator _ (by simpa [hasText] using hbt), shaped_image _ hb fun hh => ?_, hrest⟩,
          by simp [separator, hblank]⟩
        exact ⟨by simp [hblank], hnext hh rfl⟩
      | false =>
        have hnone : (if due || isHeading m then separator afterText else []) = [] := by
          cases hx : due || isHeading m <;> simp_all [separator]
        rw [hnone, List.nil_append]
        refine ⟨⟨shaped_image _ hb fun hh => ⟨?_, hnext hh rfl⟩, hrest⟩, fun hd ha => ?_⟩
        · simp only [hh, Bool.or_true, Bool.true_and] at hgap
          subst hgap
          simpa [Option.any_eq_false, hasText] using h
        · simp [hd, ha] at hgap

theorem along_writtenFor (ms : List MarkedLine) : Along Shaped none (writtenFor ms) :=
  (along_written ms false rfl).1.mono (fun _ _ _ h => h.of_last) (List.rdropWhile_prefix _ _)

theorem filterMap_source_written (ms : List MarkedLine) (afterText due : Bool) :
    (written afterText due ms).filterMap WrittenLine.source = ms.filter fun m => m.2 || hasText m.1 := by
  have hs (b : Bool) : (separator b).filterMap WrittenLine.source = [] := by cases b <;> rfl
  induction ms generalizing afterText due with
  | nil => rfl
  | cons m rest ih =>
    cases hb : isBlank m.1 with
    | true =>
      rw [written_blank rest _ _ hb, List.filterMap_append, ih]
      cases hp : m.2 <;> simp [hasText, hb, hp, hs]
    | false =>
      rw [written_text rest _ _ hb, List.filterMap_append, List.filterMap_cons, ih]
      cases due || isHeading m <;> simp [hasText, hb, hs]

/-- The lines that are written stem from lines of the text in order, and from all that hold text. -/
theorem sources_writtenFor (ms : List MarkedLine) :
    ((writtenFor ms).filterMap WrittenLine.source).Sublist ms ∧
      (ms.filter fun m => hasText m.1).Sublist ((writtenFor ms).filterMap WrittenLine.source) := by
  constructor
  · have hall : ((written false false ms).filterMap WrittenLine.source).Sublist ms := by
      rw [filterMap_source_written]
      exact List.filter_sublist
    exact ((List.rdropWhile_prefix _ _).sublist.filterMap _).trans hall
  · have hsources : (ms.filter fun m => hasText m.1) =
        ((writtenFor ms).filter fun w => hasText w.line).filterMap WrittenLine.source := by
      have h := forall₂_writtenFor ms
      generalize (ms.filter fun m => hasText m.1) = front, (writtenFor ms).filter _ = ws at h
      induction h with
      | nil => rfl
      | cons h _ ih => rw [List.filterMap_cons_some h.1, ← ih]
    rw [hsources]
    exact List.filter_sublist.filterMap _

theorem endsInText_canonicalBy (protects : Nat → Bool) (text : List Char) :
    EndsInText (canonicalBy protects text) := by
  have hl := lines_canonicalBy protects text
  obtain hnil | ⟨front, last, he⟩ :=
    List.eq_nil_or_concat (writtenFor (markBy protects (unixNewlines text)))
  · rw [hnil] at hl
    left
    rw [← joinLines_lines (canonicalBy protects text), hl]
    rfl
  · rw [List.concat_eq_append] at he
    refine .inr ⟨front.map WrittenLine.line, last.line, by simp [hl, he], ?_⟩
    have hkept : (writtenFor (markBy protects (unixNewlines text))).rdropWhile (fun w => isBlank w.line) =
        writtenFor (markBy protects (unixNewlines text)) := List.rdropWhile_idempotent _ _
    have h := List.rdropWhile_eq_self_iff.1 hkept (by simp [he])
    simpa [he] using h

/-- A layout is empty or ends in a line with text, and each of its lines is well placed, whatever lines are
protected. It has a line for each line with text, in order, and other lines only for protected lines between
them and to separate. -/
theorem layout_shaped (text : String) :
    (∀ protects, EndsInText (canonicalBy protects text.toList) ∧ ∃ out : List WrittenLine,
      lines (canonicalBy protects text.toList) = out.map WrittenLine.line ++ [[]] ∧
      (out.filterMap WrittenLine.source).Sublist (markBy protects (unixNewlines text.toList)) ∧
      ((markBy protects (unixNewlines text.toList)).filter fun m => hasText m.1).Sublist
        (out.filterMap WrittenLine.source) ∧
      ∀ front here back, out = front ++ here :: back → Shaped front.getLast? here back.head?) ∧
    (canonicalize text).toList = canonicalBy (verbatimLines text.toList) text.toList := by
  refine ⟨fun protects => ⟨endsInText_canonicalBy protects _, _, lines_canonicalBy protects _,
    (sources_writtenFor _).1, (sources_writtenFor _).2, ?_⟩, canonicalize_eq_canonicalBy text⟩
  have h := (along_iff none _).1 (along_writtenFor (markBy protects (unixNewlines text.toList)))
  simpa using h

end ComponentDocs.Layout
