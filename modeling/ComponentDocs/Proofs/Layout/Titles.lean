import ComponentDocs.Proofs.Layout.Fixed
/-! Headings that start with number signs, by the rule of Markdown, next to the spelling that the layout gives them.
The rule knows spaces and tabs only. The layout takes every blank for one, and so finds headings where there are none
and takes more from the ends of a title than it should. -/
namespace ComponentDocs.Layout
open Text

section Content
variable (p : Char → Bool)

def strip (cs : List Char) : List Char := (cs.dropWhile p).rdropWhile p

def unsigned (cs : List Char) : List Char := cs.rdropWhile (· == '#')

/-- The number signs at the end of a text are all of it, or follow a character of a kind. -/
def isClosed (cs : List Char) : Bool := (unsigned cs).length < cs.length && (unsigned cs).getLast?.all p

/-- What a heading says: the text after its first number signs without the characters of a kind at its ends and
without a closing run of number signs. -/
def content (text : List Char) : List Char :=
  let title := strip p text
  strip p (if isClosed p title then unsigned title else title)

variable {p} {q : Char → Bool}

theorem dropWhile_dropWhile (h : ∀ c, p c = true → q c = true) (cs : List Char) :
    (cs.dropWhile p).dropWhile q = cs.dropWhile q := by
  induction cs with
  | nil => rfl
  | cons c cs ih =>
    cases hc : p c with
    | true => rw [List.dropWhile_cons_of_pos hc, ih, List.dropWhile_cons_of_pos (h c hc)]
    | false => rw [List.dropWhile_cons_of_neg (by simp [hc])]

theorem rdropWhile_rdropWhile (h : ∀ c, p c = true → q c = true) (cs : List Char) :
    (cs.rdropWhile p).rdropWhile q = cs.rdropWhile q := by
  simp only [List.rdropWhile, List.reverse_reverse, dropWhile_dropWhile h]

theorem rdropWhile_cons (c : Char) (cs : List Char) :
    (c :: cs).rdropWhile p = if (c :: cs).all p then [] else c :: cs.rdropWhile p := by
  rw [List.rdropWhile, List.reverse_cons, List.dropWhile_append]
  cases h : cs.all p with
  | true =>
    have hnil : cs.reverse.dropWhile p = [] := List.dropWhile_eq_nil_iff.2 (by simpa using h)
    have hself : cs.rdropWhile p = [] := by rw [List.rdropWhile, hnil, List.reverse_nil]
    cases hc : p c <;> simp [hnil, hself, h, hc]
  | false =>
    have hne : cs.reverse.dropWhile p ≠ [] := by
      intro hn
      rw [List.dropWhile_eq_nil_iff] at hn
      simp only [List.mem_reverse] at hn
      rw [List.all_eq_true.2 hn] at h
      cases h
    simp [hne, h, List.rdropWhile]

/-- The two ends of a text do not meet, unless nothing is left. -/
theorem dropWhile_rdropWhile (cs : List Char) : (cs.rdropWhile p).dropWhile p = strip p cs := by
  induction cs with
  | nil => rfl
  | cons c cs ih =>
    rw [rdropWhile_cons, strip]
    cases hc : p c with
    | false => simp [hc, rdropWhile_cons]
    | true =>
      rw [List.dropWhile_cons_of_pos hc, ← strip, ← ih]
      cases h : cs.all p with
      | true =>
        rw [List.rdropWhile_eq_nil_iff.2 (List.all_eq_true.1 h)]
        simp [hc, h]
      | false => simp [hc, h]

theorem strip_strip (h : ∀ c, p c = true → q c = true) (cs : List Char) : strip q (strip p cs) = strip q cs := by
  calc strip q (strip p cs)
      = (((cs.dropWhile p).rdropWhile p).rdropWhile q).dropWhile q := (dropWhile_rdropWhile _).symm
    _ = strip q (cs.dropWhile p) := by rw [rdropWhile_rdropWhile h, dropWhile_rdropWhile]
    _ = strip q cs := by rw [strip, dropWhile_dropWhile h, strip]

theorem strip_infixOf (cs : List Char) : strip p cs <:+: cs :=
  (List.rdropWhile_prefix p _).isInfix.trans (List.dropWhile_suffix p).isInfix

theorem unsigned_prefixOf (cs : List Char) : unsigned cs <+: cs := List.rdropWhile_prefix _ _

theorem content_infixOf (cs : List Char) : content p cs <:+: cs := by
  unfold content
  refine (strip_infixOf _).trans ?_
  split
  · exact (unsigned_prefixOf _).isInfix.trans (strip_infixOf cs)
  · exact strip_infixOf cs

theorem strip_content (cs : List Char) : strip p (content p cs) = content p cs := strip_strip (fun _ => id) _

theorem content_of_isClosed {cs : List Char} (h : isClosed p (strip p cs) = true) :
    content p cs = strip p (unsigned (strip p cs)) := by
  simp [content, h]

theorem content_of_not_isClosed {cs : List Char} (h : isClosed p (strip p cs) = false) : content p cs = strip p cs := by
  simp only [content, h, Bool.false_eq_true, if_false]
  exact strip_strip (fun _ => id) cs

/-- A text is what a heading says if it has nothing to strip and no run of number signs that would close it. -/
theorem content_eq_self_iff (cs : List Char) : content p cs = cs ↔ strip p cs = cs ∧ isClosed p cs = false := by
  constructor
  · intro h
    have hstrip : strip p cs = cs := by
      rw [← h]
      exact strip_content cs
    refine ⟨hstrip, Bool.eq_false_iff.2 fun hclosed => ?_⟩
    have he := content_of_isClosed (hstrip.symm ▸ hclosed)
    rw [h, hstrip] at he
    have hle := (strip_infixOf (p := p) (unsigned cs)).length_le
    simp only [isClosed, Bool.and_eq_true, decide_eq_true_eq] at hclosed
    rw [← he] at hle
    omega
  · rintro ⟨hstrip, hclosed⟩
    rw [content_of_not_isClosed (by rwa [hstrip]), hstrip]

theorem unsigned_append_signs {front : List Char} (n : Nat) (h : ∀ c ∈ front.getLast?, c ≠ '#') :
    unsigned (front ++ List.replicate n '#') = front := by
  induction n with
  | zero =>
    rw [List.replicate_zero, List.append_nil]
    refine List.rdropWhile_eq_self_iff.2 fun hne => ?_
    simpa using h _ (List.getLast?_eq_some_getLast hne)
  | succ n ih =>
    rw [List.replicate_succ', ← List.append_assoc]
    exact (List.rdropWhile_concat_pos _ _ _ rfl).trans ih

theorem isClosed_iff (hp : p '#' = false) (cs : List Char) : isClosed p cs = true ↔
    ∃ front n, cs = front ++ List.replicate (n + 1) '#' ∧ ∀ c ∈ front.getLast?, p c = true := by
  constructor
  · intro h
    simp only [isClosed, Bool.and_eq_true, decide_eq_true_eq, Option.all_eq_true] at h
    have hsplit : unsigned cs ++ cs.rtakeWhile (· == '#') = cs := List.rdropWhile_append_rtakeWhile
    have hsigns : ∀ c ∈ cs.rtakeWhile (· == '#'), c = '#' := fun c hc => by
      simpa using List.mem_rtakeWhile_imp hc
    refine ⟨unsigned cs, (cs.rtakeWhile (· == '#')).length - 1, ?_, h.2⟩
    conv_lhs => rw [← hsplit, List.eq_replicate_of_mem hsigns]
    have hlength := congrArg List.length hsplit
    rw [List.length_append] at hlength
    rw [show (cs.rtakeWhile (· == '#')).length - 1 + 1 = (cs.rtakeWhile (· == '#')).length by omega]
  · rintro ⟨front, n, rfl, h⟩
    have hfront : ∀ c ∈ front.getLast?, c ≠ '#' := by
      rintro c hc rfl
      rw [h _ hc] at hp
      cases hp
    simpa [isClosed, unsigned_append_signs _ hfront, Option.all_eq_true] using h

theorem isClosed_mono (h : ∀ c, p c = true → q c = true) {cs : List Char} (hclosed : isClosed p cs = true) :
    isClosed q cs = true := by
  simp only [isClosed, Bool.and_eq_true, Option.all_eq_true] at hclosed ⊢
  exact ⟨hclosed.1, fun c hc => h c (hclosed.2 c hc)⟩

theorem strip_append_signs (hp : p '#' = false) (front : List Char) (n : Nat) :
    strip p (front ++ List.replicate (n + 1) '#') = front.dropWhile p ++ List.replicate (n + 1) '#' := by
  have hstart : (front ++ List.replicate (n + 1) '#').dropWhile p =
      front.dropWhile p ++ List.replicate (n + 1) '#' := by
    rw [List.dropWhile_append]
    cases hd : front.dropWhile p with
    | nil => simp [List.replicate_succ, hp]
    | cons c cs => rfl
  rw [strip, hstart, List.replicate_succ', ← List.append_assoc, List.rdropWhile_concat_neg _ _ _ (by simp [hp])]

theorem mem_getLast?_of_suffix {c : Char} {cs ds : List Char} (h : cs <:+ ds) (hc : c ∈ cs.getLast?) :
    c ∈ ds.getLast? := by
  obtain ⟨before, rfl⟩ := h
  rw [List.getLast?_append, Option.mem_def.1 hc]
  rfl

end Content

section Titles

theorem trimEnd_eq_rdropWhile (cs : List Char) : trimEnd cs = cs.rdropWhile isBlankChar := by
  induction cs with
  | nil => rfl
  | cons c cs ih =>
    rw [rdropWhile_cons]
    cases h : (c :: cs).all isBlankChar with
    | true => rw [if_pos rfl, trimEnd_eq_nil_iff, isBlank, h]
    | false =>
      have hne : trimEnd (c :: cs) ≠ [] := by rw [Ne, trimEnd_eq_nil_iff, isBlank, h]; exact Bool.false_ne_true
      rw [if_neg Bool.false_ne_true, ← ih]
      rw [trimEnd] at hne ⊢
      cases ht : trimEnd cs with
      | nil =>
        rw [ht] at hne
        cases hc : isBlankChar c <;> simp_all
      | cons d ds => rfl

theorem trim_eq_strip (cs : List Char) : trim cs = strip isBlankChar cs := trimEnd_eq_rdropWhile _

theorem dropWhile_eq_self_of_prefix {p : Char → Bool} {cs ds : List Char} (h : cs <+: ds) (hd : ds.dropWhile p = ds) :
    cs.dropWhile p = cs := by
  cases cs with
  | nil => rfl
  | cons c cs =>
    obtain ⟨rest, rfl⟩ := h
    have hc : ¬ p c = true := by simpa using List.dropWhile_eq_self_iff.1 hd (by simp)
    rw [List.dropWhile_cons_of_neg hc]

/-- The layout reads a title by the rule of Markdown, with all blanks in the place of spaces and tabs. -/
theorem headingTitle_eq_content (text : List Char) : headingTitle text = content isBlankChar text := by
  change (if isClosed isBlankChar (trim text) = true then trimEnd (unsigned (trim text)) else trim text) = _
  rw [trim_eq_strip]
  cases h : isClosed isBlankChar (strip isBlankChar text) with
  | false => rw [content_of_not_isClosed h, if_neg Bool.false_ne_true]
  | true =>
    have hstart : (strip isBlankChar text).dropWhile isBlankChar = strip isBlankChar text := by
      rw [← dropWhile_rdropWhile, dropWhile_dropWhile fun _ => id]
    have hsame := dropWhile_eq_self_of_prefix (unsigned_prefixOf _) hstart
    rw [content_of_isClosed h, if_pos rfl, trimEnd_eq_rdropWhile, strip.eq_1 _ (unsigned _), hsame]

theorem isGap_sign : isGap '#' = false := by decide

theorem isBlankChar_sign : isBlankChar '#' = false := by decide

theorem strip_gap (cs : List Char) : strip isBlankChar (strip isGap cs) = strip isBlankChar cs :=
  strip_strip (fun _ => isBlankChar_of_isGap) cs

/-- Where the closing run follows a space or a tab, the layout takes the same run for one. -/
theorem headingTitle_of_isClosed {text : List Char} (h : isClosed isGap (strip isGap text) = true) :
    headingTitle text = strip isBlankChar (content isGap text) ∧
      isClosed isGap (strip isBlankChar text) = true := by
  obtain ⟨front, n, he, hlast⟩ := (isClosed_iff isGap_sign _).1 h
  have hlast' : ∀ c ∈ (front.dropWhile isBlankChar).getLast?, isGap c = true := fun c hc =>
    hlast c (mem_getLast?_of_suffix (List.dropWhile_suffix _) hc)
  have hsign {cs : List Char} (hcs : ∀ c ∈ cs.getLast?, isGap c = true) : ∀ c ∈ cs.getLast?, c ≠ '#' := by
    rintro c hc rfl
    exact absurd (hcs _ hc) (by decide)
  have htitle : strip isBlankChar text = front.dropWhile isBlankChar ++ List.replicate (n + 1) '#' := by
    rw [← strip_gap, he, strip_append_signs isBlankChar_sign]
  have hclosed : isClosed isGap (strip isBlankChar text) = true :=
    (isClosed_iff isGap_sign _).2 ⟨_, n, htitle, hlast'⟩
  refine ⟨?_, hclosed⟩
  calc headingTitle text
      = strip isBlankChar (unsigned (strip isBlankChar text)) := by
        rw [headingTitle_eq_content, content_of_isClosed (isClosed_mono (fun _ => isBlankChar_of_isGap) hclosed)]
    _ = strip isBlankChar front := by
        rw [htitle, unsigned_append_signs _ (hsign hlast'), strip, dropWhile_dropWhile fun _ => id, ← strip]
    _ = strip isBlankChar (content isGap text) := by
        rw [content_of_isClosed h, he, unsigned_append_signs _ (hsign hlast), strip_gap]

/-- Where no run closes the title, its spaces and tabs go and the layout may take more from what is left. -/
theorem headingTitle_of_not_isClosed {text : List Char} (h : isClosed isGap (strip isGap text) = false) :
    headingTitle text = content isBlankChar (content isGap text) ∧
      strip isBlankChar (content isGap text) = strip isBlankChar text := by
  have htitle : strip isBlankChar (content isGap text) = strip isBlankChar text := by
    rw [content_of_not_isClosed h, strip_gap]
  exact ⟨by rw [headingTitle_eq_content, content, content, htitle], htitle⟩

/-- The layout keeps what a heading says if no other blank is at its ends, nothing is left of it that reads as a
closing run, and no run follows another blank that the layout takes for a closing one. -/
structure KeepsTitle (text : List Char) : Prop where
  stripped : strip isBlankChar (content isGap text) = content isGap text
  not_closed : isClosed isGap (content isGap text) = false
  closed : isClosed isBlankChar (strip isBlankChar text) = true → isClosed isGap (strip isBlankChar text) = true

theorem headingTitle_infixOf (text : List Char) : headingTitle text <:+: content isGap text := by
  cases h : isClosed isGap (strip isGap text) with
  | true =>
    rw [(headingTitle_of_isClosed h).1]
    exact strip_infixOf _
  | false =>
    rw [(headingTitle_of_not_isClosed h).1]
    exact content_infixOf _

theorem headingTitle_eq_content_gap_iff (text : List Char) : headingTitle text = content isGap text ↔
    strip isBlankChar (content isGap text) = content isGap text ∧
      (isClosed isBlankChar (strip isBlankChar text) = true → isClosed isGap (strip isBlankChar text) = true) := by
  cases h : isClosed isGap (strip isGap text) with
  | true =>
    obtain ⟨htitle, hclosed⟩ := headingTitle_of_isClosed h
    simp [htitle, hclosed]
  | false =>
    obtain ⟨htitle, hstrip⟩ := headingTitle_of_not_isClosed h
    rw [htitle, content_eq_self_iff, ← hstrip]
    refine and_congr_right fun hs => ?_
    rw [hs, content_of_not_isClosed h, h]
    simp

theorem content_headingTitle_eq_iff (text : List Char) :
    content isGap (headingTitle text) = content isGap text ↔ KeepsTitle text := by
  have hsplit : content isGap (headingTitle text) = content isGap text ↔
      headingTitle text = content isGap text ∧ content isGap (content isGap text) = content isGap text := by
    constructor
    · intro h
      have htitle : headingTitle text = content isGap text := by
        refine (headingTitle_infixOf text).eq_of_length (le_antisymm (headingTitle_infixOf text).length_le ?_)
        rw [← h]
        exact (content_infixOf _).length_le
      rw [htitle] at h
      exact ⟨htitle, h⟩
    · rintro ⟨htitle, h⟩
      rw [htitle, h]
  rw [hsplit, headingTitle_eq_content_gap_iff, content_eq_self_iff]
  constructor
  · rintro ⟨⟨hs, hc⟩, -, hn⟩
    exact ⟨hs, hn, hc⟩
  · rintro ⟨hs, hn, hc⟩
    exact ⟨⟨hs, hc⟩, strip_content text, hn⟩

end Titles

/-- An unindented heading: one to six number signs and then the end of the line or a character of a kind. The rule of
Markdown is that of spaces and tabs. -/
structure OpensHeading (p : Char → Bool) (line : Line) (level : Nat) (text : List Char) : Prop where
  line_eq : line = List.replicate level '#' ++ text
  level_pos : 1 ≤ level
  level_le : level ≤ 6
  apart : ∀ c ∈ text.head?, p c = true

section Opening
variable {p : Char → Bool} {line text : List Char} {level : Nat}

theorem OpensHeading.mono {q : Char → Bool} (hq : ∀ c, p c = true → q c = true) (h : OpensHeading p line level text) :
    OpensHeading q line level text :=
  { h with apart := fun c hc => hq c (h.apart c hc) }

theorem OpensHeading.takeWhile_eq (hp : p '#' = false) (h : OpensHeading p line level text) :
    line.takeWhile (· == '#') = List.replicate level '#' := by
  rw [h.line_eq, List.takeWhile_append_of_pos fun c hc => by simpa using List.eq_of_mem_replicate hc]
  cases text with
  | nil => simp
  | cons c rest =>
    have hc : c ≠ '#' := by
      rintro rfl
      rw [h.apart _ rfl] at hp
      cases hp
    rw [List.takeWhile_cons_of_neg (by simpa using hc), List.append_nil]

theorem heading?_eq_some_iff {heading : Line} : heading? line = some heading ↔
    ∃ level text, OpensHeading isBlankChar line level text ∧ heading = spellHeading level (headingTitle text) := by
  constructor
  · intro h
    unfold heading? at h
    dsimp only at h
    split at h
    swap
    · cases h
    next hc =>
    simp only [Bool.and_eq_true, decide_eq_true_eq, Option.all_eq_true] at hc
    obtain ⟨⟨hpos, hle⟩, hapart⟩ := hc
    refine ⟨_, _, ⟨?_, hpos, hle, hapart⟩, (Option.some.inj h).symm⟩
    have hsigns : line.takeWhile (· == '#') = List.replicate (line.takeWhile (· == '#')).length '#' :=
      List.eq_replicate_of_mem fun c hc => by simpa using List.mem_takeWhile_imp hc
    have htake : line.takeWhile (· == '#') = line.take (line.takeWhile (· == '#')).length :=
      List.prefix_iff_eq_take.1 (List.takeWhile_prefix _)
    rw [hsigns.symm.trans htake, List.take_append_drop]
  · rintro ⟨level, text, h, rfl⟩
    have hsigns := h.takeWhile_eq isBlankChar_sign
    have hdrop : line.drop level = text := by rw [h.line_eq]; simp
    have hall : text.head?.all isBlankChar = true := (Option.all_eq_true ..).2 h.apart
    simp [heading?, hsigns, hdrop, hall, h.level_pos, h.level_le]

theorem opensHeading_spellHeading (hpos : 1 ≤ level) (hle : level ≤ 6) (title : List Char) :
    OpensHeading isGap (spellHeading level title) level (if title.isEmpty then [] else ' ' :: title) := by
  refine ⟨rfl, hpos, hle, fun c hc => ?_⟩
  cases title with
  | nil => simp at hc
  | cons d ds =>
    obtain rfl : ' ' = c := by simpa using hc
    decide

theorem content_spelled (title : List Char) :
    content isGap (if title.isEmpty then [] else ' ' :: title) = content isGap title := by
  cases title with
  | nil => rfl
  | cons d ds =>
    have hstrip : strip isGap (' ' :: d :: ds) = strip isGap (d :: ds) := by
      rw [strip, List.dropWhile_cons_of_pos (by decide), ← strip]
    simp [content, hstrip]

end Opening

/-- The layout finds a heading where Markdown does, and where other blanks come after the number signs. It spells a
heading of the same level, which says the same exactly if the layout keeps the title. -/
theorem heading?_opensHeading (line : Line) :
    ((heading? line).isSome = true ↔ (∃ level text, OpensHeading isGap line level text) ∨
      ∃ level c text, OpensHeading isBlankChar line level (c :: text) ∧ isGap c = false) ∧
    ∀ heading ∈ heading? line, ∃ level text title, OpensHeading isBlankChar line level text ∧
      OpensHeading isGap heading level title ∧ (content isGap title = content isGap text ↔ KeepsTitle text) := by
  refine ⟨?_, fun heading h => ?_⟩
  · rw [Option.isSome_iff_exists]
    constructor
    · rintro ⟨heading, h⟩
      obtain ⟨level, text, hopens, -⟩ := heading?_eq_some_iff.1 h
      cases text with
      | nil => exact .inl ⟨level, [], { hopens with apart := by simp }⟩
      | cons c text =>
        cases hc : isGap c with
        | true => exact .inl ⟨level, c :: text, { hopens with apart := by simpa using hc }⟩
        | false => exact .inr ⟨level, c, text, hopens, hc⟩
    · rintro (⟨level, text, h⟩ | ⟨level, c, text, h, -⟩)
      · exact ⟨_, heading?_eq_some_iff.2 ⟨level, text, h.mono fun _ => isBlankChar_of_isGap, rfl⟩⟩
      · exact ⟨_, heading?_eq_some_iff.2 ⟨level, c :: text, h, rfl⟩⟩
  · obtain ⟨level, text, hopens, rfl⟩ := heading?_eq_some_iff.1 h
    refine ⟨level, text, _, hopens, opensHeading_spellHeading hopens.level_pos hopens.level_le _, ?_⟩
    rw [content_spelled]
    exact content_headingTitle_eq_iff text

/-- A no-break space after the number sign makes a heading of running text, and of two runs of number signs at the
end of a heading the first comes to be one that closes it. -/
theorem heading?_not_markdown :
    ((heading? ['#', '\u00A0', 'x']).isSome = true ∧
      ¬ ∃ level text, OpensHeading isGap ['#', '\u00A0', 'x'] level text) ∧
    heading? "# a # #".toList = some "# a #".toList ∧
      content isGap " a # #".toList = "a #".toList ∧ content isGap " a #".toList = "a".toList := by
  refine ⟨⟨by decide, ?_⟩, by decide, by decide, by decide⟩
  rintro ⟨level, text, h⟩
  have hlevel : 1 = level := by simpa using congrArg List.length (h.takeWhile_eq isGap_sign)
  subst hlevel
  obtain rfl : ['\u00A0', 'x'] = text := (List.cons.inj h.line_eq).2
  exact absurd (h.apart _ rfl) (by decide)

end ComponentDocs.Layout
