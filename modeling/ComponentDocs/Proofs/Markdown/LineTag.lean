import ComponentDocs.Proofs.Markdown.Line
/-! Tags and tables on a line. The text behind its line feed does not count for them either. -/
namespace ComponentDocs.Markdown

variable {cs : List Char}

theorem isPrefixOf_append (name : List Char) (hname : '\n' ∉ name) (h : '\n' ∈ cs) (v : List Char) :
    name.isPrefixOf (cs ++ v) = name.isPrefixOf cs := by
  induction name generalizing cs with
  | nil => rw [List.isPrefixOf, List.isPrefixOf]
  | cons d name ih =>
    rw [List.mem_cons, not_or] at hname
    cases cs with
    | nil => cases h
    | cons c cs =>
      rw [List.cons_append, List.isPrefixOf, List.isPrefixOf]
      cases hd : d == c with
      | false => rfl
      | true =>
        obtain rfl := eq_of_beq hd
        rw [ih hname.2 (mem_of_mem_cons h (Ne.symm hname.1))]

theorem opens_append (name : List Char) (hname : '\n' ∉ name) (h : '\n' ∈ cs) (v : List Char) :
    sectionEnd?.opens (cs ++ v) name = sectionEnd?.opens cs name := by
  unfold sectionEnd?.opens
  by_cases hmem : '\n' ∈ cs.take name.length
  · have hother {ds : List Char} (hds : '\n' ∈ ds) : (ds.map Char.toLower == name) = false := by
      rw [beq_eq_false_iff_ne]
      rintro rfl
      exact hname (List.mem_map_of_mem (f := Char.toLower) hds)
    have hmem' : '\n' ∈ (cs ++ v).take name.length := by
      rw [List.take_append]
      exact List.mem_append_left _ hmem
    rw [hother hmem, hother hmem', Bool.false_and, Bool.false_and]
  · rw [← List.take_append_drop name.length cs, List.mem_append] at h
    have hdrop := h.resolve_left hmem
    have hle : name.length ≤ cs.length := by
      by_contra hlong
      rw [List.drop_eq_nil_of_le (by omega)] at hdrop
      cases hdrop
    rw [List.take_append_of_le_length hle, List.drop_append_of_le_length hle, head?_append hdrop]

theorem sectionEnd?_append (h : '\n' ∈ cs) (v : List Char) : sectionEnd? (cs ++ v) = sectionEnd? cs := by
  unfold sectionEnd?
  simp only [List.find?, opens_append "pre".toList (by decide) h, opens_append "style".toList (by decide) h,
    opens_append "script".toList (by decide) h, opens_append "textarea".toList (by decide) h,
    isPrefixOf_append "!--".toList (by decide) h, isPrefixOf_append "?".toList (by decide) h,
    isPrefixOf_append "![CDATA[".toList (by decide) h]
  split
  · rfl
  · split
    · rfl
    · rcases cs with _ | ⟨c, _ | ⟨d, cs⟩⟩
      · cases h
      · obtain rfl : '\n' = c := by simpa using h
        rfl
      · by_cases hc : c = '!'
        · rw [hc]
          rfl
        · simp [hc]

theorem startsBlockTag_append (h : '\n' ∈ cs) (v : List Char) : startsBlockTag (cs ++ v) = startsBlockTag cs := by
  have hslash : run '/' ((cs ++ v).take 1) = run '/' (cs.take 1) ∧
      (cs ++ v).drop (run '/' (cs.take 1)) = cs.drop (run '/' (cs.take 1)) ++ v ∧
      '\n' ∈ cs.drop (run '/' (cs.take 1)) := by
    cases cs with
    | nil => cases h
    | cons c cs =>
      by_cases hc : c = '/'
      · subst hc
        exact ⟨rfl, rfl, mem_of_mem_cons h (by decide)⟩
      · simpa [run, hc] using h
  obtain ⟨hrun, hdrop, htag⟩ := hslash
  unfold startsBlockTag
  dsimp only
  rw [hrun, hdrop]
  generalize cs.drop _ = tag at htag
  have hname := takeWhile_append (p := isAsciiAlphanum) (by decide) htag v
  have hrest := mem_dropWhile (p := isAsciiAlphanum) (by decide) htag
  have hafter := dropWhile_append (p := isAsciiAlphanum) (by decide) htag v
  rw [← drop_takeWhile, ← drop_takeWhile, hname] at hafter
  rw [← drop_takeWhile] at hrest
  rw [hname, hafter]
  generalize tag.drop _ = ds at hrest
  rcases ds with _ | ⟨d, _ | ⟨e, ds⟩⟩
  · cases hrest
  · obtain rfl : '\n' = d := by simpa using hrest
    rfl
  · by_cases hd : d = '/'
    · by_cases he : e = '>' <;> simp [hd, he]
    · simp [hd]

theorem interruptsWithHtml_append (h : '\n' ∈ cs) (v : List Char) :
    interruptsWithHtml (cs ++ v) = interruptsWithHtml cs := by
  rw [interruptsWithHtml, interruptsWithHtml, sectionEnd?_append h, startsBlockTag_append h]

/-- A scanner that looks at a line at most, and gives back what is left. -/
structure OnLine (f : List Char → Option (List Char)) : Prop where
  append {cs : List Char} (h : '\n' ∈ cs) (v : List Char) : f (cs ++ v) = (f cs).map (· ++ v)
  rest {cs : List Char} (h : '\n' ∈ cs) : ∀ r ∈ f cs, '\n' ∈ r ∧ r.length ≤ cs.length

theorem OnLine.bind {f g : List Char → Option (List Char)} (hf : OnLine f) (hg : OnLine g) :
    OnLine fun cs => (f cs).bind g where
  append {cs} h v := by
    rw [hf.append h]
    cases hr : f cs with
    | none => rfl
    | some r => exact hg.append (hf.rest h r hr).1 v
  rest h s hs := by
    obtain ⟨r, hr, hs⟩ := Option.bind_eq_some_iff.1 hs
    obtain ⟨hmem, hle⟩ := hf.rest h r hr
    obtain ⟨hmem', hle'⟩ := hg.rest hmem s hs
    exact ⟨hmem', hle'.trans hle⟩

theorem onLine_dropWhile {p : Char → Bool} (hp : p '\n' = false) : OnLine fun cs => some (cs.dropWhile p) where
  append h v := by
    rw [dropWhile_append hp h, Option.map_some]
  rest h r hr := by
    cases hr
    exact ⟨mem_dropWhile hp h, (List.dropWhile_suffix p).length_le⟩

theorem onLine_tail {p : Char → Bool} (hp : p '\n' = false) {f : List Char → Option (List Char)} (hf : OnLine f) :
    OnLine fun cs => match cs with
      | [] => none
      | c :: cs => if p c then f cs else none where
  append {cs} h v := by
    cases cs with
    | nil => cases h
    | cons c cs =>
      dsimp only [List.cons_append]
      cases hc : p c with
      | false => rfl
      | true => exact hf.append (mem_of_mem_cons h (by rintro rfl; simp [hp] at hc)) v
  rest {cs} h r hr := by
    cases cs with
    | nil => cases h
    | cons c cs =>
      dsimp only at hr
      cases hc : p c with
      | false => simp [hc] at hr
      | true =>
        rw [hc, if_pos rfl] at hr
        obtain ⟨hmem, hle⟩ := hf.rest (mem_of_mem_cons h (by rintro rfl; simp [hp] at hc)) r hr
        exact ⟨hmem, hle.trans (Nat.le_succ _)⟩

theorem gap?_none {fuel : Nat} (h : cs.length < fuel) : gap? none fuel cs =
    if (cs.dropWhile isSpace).head?.any isEol then none else some (cs.dropWhile isSpace) := by
  induction fuel generalizing cs with
  | zero => cases h
  | succ fuel ih =>
    cases cs with
    | nil => rfl
    | cons c cs =>
      have hspace (hc : isEol c = true) : isSpace c = false := by
        simp only [isEol, Bool.or_eq_true, beq_iff_eq] at hc
        rcases hc with rfl | rfl <;> decide
      rw [gap?]
      split
      · next hc => simp [hspace hc, hc]
      · next hc =>
        split
        · next hs =>
          rw [ih (by simpa using h)]
          simp [hs]
        · next hs => simp [hs, hc]

theorem onLine_dropGap? : OnLine (dropGap? none) where
  append {cs} h v := by
    rw [dropGap?, gap?_none (Nat.lt_succ_self _), dropGap?, gap?_none (Nat.lt_succ_self _),
      dropWhile_append (by decide) h, head?_append (mem_dropWhile (by decide) h), apply_ite (Option.map _)]
    rfl
  rest h r hr := by
    rw [dropGap?, gap?_none (Nat.lt_succ_self _)] at hr
    split at hr
    · cases hr
    · exact (onLine_dropWhile (by decide)).rest h r hr

theorem onLine_afterAttributeName? : OnLine afterAttributeName? := by
  have htail := onLine_tail (p := fun c => isAsciiAlpha c || c == '_' || c == ':') (by decide)
    (onLine_dropWhile (p := fun d => isAsciiAlphanum d || d == '_' || d == '.' || d == ':' || d == '-') (by decide))
  have heq : afterAttributeName? = fun cs => match cs with
      | [] => none
      | c :: cs => if isAsciiAlpha c || c == '_' || c == ':' then
          some (cs.dropWhile fun d => isAsciiAlphanum d || d == '_' || d == '.' || d == ':' || d == '-') else none := by
    funext cs
    cases cs <;> rfl
  exact heq ▸ htail

theorem onLine_afterQuoted? {quote : Char} (hquote : quote ≠ '\n') :
    OnLine fun cs => afterQuoted? none quote (cs.length + 1) cs := by
  have hfuel {fuel fuel' : Nat} {cs : List Char} (v : List Char) (h : '\n' ∈ cs) (h₁ : cs.length < fuel)
      (h₂ : cs.length < fuel') : afterQuoted? none quote fuel (cs ++ v) =
        (afterQuoted? none quote fuel' cs).map (· ++ v) ∧
          ∀ r ∈ afterQuoted? none quote fuel' cs, '\n' ∈ r ∧ r.length ≤ cs.length := by
    induction cs generalizing fuel fuel' with
    | nil => cases h
    | cons c cs ih =>
      obtain _ | fuel := fuel
      · cases h₁
      obtain _ | fuel' := fuel'
      · cases h₂
      rw [List.cons_append, afterQuoted?, afterQuoted?]
      split
      · next hc =>
        obtain rfl := eq_of_beq hc
        refine ⟨rfl, fun r hr => ?_⟩
        cases hr
        exact ⟨mem_of_mem_cons h hquote, Nat.le_succ _⟩
      · split
        · exact ⟨rfl, by simp⟩
        · next hc =>
          have hrest : '\n' ∈ cs := mem_of_mem_cons h (by rintro rfl; exact hc rfl)
          refine (ih hrest (by simpa using h₁) (by simpa using h₂)).imp_right fun hmem r hr => ?_
          exact (hmem r hr).imp_right fun hle => hle.trans (Nat.le_succ _)
  exact ⟨fun h v => (hfuel v h (by simp) (Nat.lt_succ_self _)).1,
    fun h => (hfuel [] h (Nat.lt_succ_self _) (Nat.lt_succ_self _)).2⟩

theorem onLine_afterAttributeValue? : OnLine (afterAttributeValue? none) where
  append {cs} h v := by
    cases cs with
    | nil => cases h
    | cons c cs =>
      rw [List.cons_append, afterAttributeValue?, afterAttributeValue?, ← List.cons_append]
      split
      · next hc =>
        have hne : c ≠ '\n' := by rintro rfl; exact absurd hc (by decide)
        exact (onLine_afterQuoted? hne).append (mem_of_mem_cons h hne) v
      · split
        · exact (onLine_dropWhile (by decide)).append h v
        · rfl
  rest {cs} h r hr := by
    cases cs with
    | nil => cases h
    | cons c cs =>
      rw [afterAttributeValue?] at hr
      split at hr
      · next hc =>
        have hne : c ≠ '\n' := by rintro rfl; exact absurd hc (by decide)
        exact ((onLine_afterQuoted? hne).rest (mem_of_mem_cons h hne) r hr).imp_right
          fun hle => hle.trans (Nat.le_succ _)
      · split at hr
        · exact (onLine_dropWhile (by decide)).rest h r hr
        · cases hr

/-- A value, if one follows, and else what came before. -/
theorem afterAttribute?_eq (cs : List Char) : afterAttribute? none cs =
    (afterAttributeName? cs).bind fun named => (dropGap? none named).bind fun next =>
      if next.head? = some '=' then (dropGap? none next.tail).bind (afterAttributeValue? none) else some named := by
  rw [afterAttribute?]
  refine congrArg _ (funext fun named => congrArg _ (funext fun next => ?_))
  rcases next with _ | ⟨c, next⟩
  · rfl
  · by_cases hc : c = '='
    · subst hc
      rfl
    · simp [hc]

theorem onLine_afterAttribute? : OnLine (afterAttribute? none) := by
  have hvalue : OnLine fun cs => (dropGap? none cs).bind (afterAttributeValue? none) :=
    onLine_dropGap?.bind onLine_afterAttributeValue?
  have hrest : OnLine fun named => (dropGap? none named).bind fun next =>
      if next.head? = some '=' then (dropGap? none next.tail).bind (afterAttributeValue? none) else some named := by
    refine ⟨fun {named} h v => ?_, fun {named} h r hr => ?_⟩
    · rw [onLine_dropGap?.append h]
      cases hn : dropGap? none named with
      | none => rfl
      | some next =>
        have hmem := (onLine_dropGap?.rest h next hn).1
        simp only [Option.map_some, Option.bind_some, head?_append hmem]
        split
        · next hc =>
          obtain ⟨next, rfl⟩ := List.head?_eq_some_iff.1 hc
          exact hvalue.append (mem_of_mem_cons hmem (by decide)) v
        · rfl
    · obtain ⟨next, hn, hr⟩ := Option.bind_eq_some_iff.1 hr
      obtain ⟨hmem, hle⟩ := onLine_dropGap?.rest h next hn
      split at hr
      · next hc =>
        obtain ⟨next, rfl⟩ := List.head?_eq_some_iff.1 hc
        refine (hvalue.rest (mem_of_mem_cons hmem (by decide)) r hr).imp_right fun hr => hr.trans ?_
        exact (Nat.le_succ _).trans hle
      · cases hr
        exact ⟨h, le_rfl⟩
  have hbind := onLine_afterAttributeName?.bind hrest
  rwa [← funext afterAttribute?_eq] at hbind

theorem onLine_afterAttributes? : OnLine fun cs => afterAttributes? none (cs.length + 1) cs := by
  have hfuel {fuel fuel' : Nat} {cs : List Char} (v : List Char) (h : '\n' ∈ cs) (h₁ : cs.length < fuel)
      (h₂ : cs.length < fuel') : afterAttributes? none fuel (cs ++ v) =
        (afterAttributes? none fuel' cs).map (· ++ v) ∧
          ∀ r ∈ afterAttributes? none fuel' cs, '\n' ∈ r ∧ r.length ≤ cs.length := by
    induction fuel generalizing fuel' cs with
    | zero => cases h₁
    | succ fuel ih =>
      obtain _ | fuel' := fuel'
      · cases h₂
      rw [afterAttributes?, afterAttributes?, onLine_dropGap?.append h]
      cases hn : dropGap? none cs with
      | none => exact ⟨rfl, by simp⟩
      | some next =>
        obtain ⟨hmem, hle⟩ := onLine_dropGap?.rest h next hn
        obtain ⟨c, after, rfl⟩ := List.exists_cons_of_ne_nil (List.ne_nil_of_mem hmem)
        simp only [Option.map_some, Option.bind_some, List.cons_append]
        have hlength : ((c :: (after ++ v)).length == (cs ++ v).length) = ((c :: after).length == cs.length) := by
          rw [Bool.eq_iff_iff, beq_iff_eq, beq_iff_eq]
          simp
          omega
        rw [hlength]
        split
        · refine ⟨rfl, fun r hr => ?_⟩
          cases hr
          exact ⟨hmem, hle⟩
        · split
          · exact ⟨rfl, by simp⟩
          · next hshort =>
            have hless : (c :: after).length < cs.length := hle.lt_of_ne (by simpa using hshort)
            have happend := onLine_afterAttribute?.append hmem v
            rw [List.cons_append] at happend
            rw [happend]
            cases ha : afterAttribute? none (c :: after) with
            | none => exact ⟨rfl, by simp⟩
            | some last =>
              obtain ⟨hlast, hlen⟩ := onLine_afterAttribute?.rest hmem last ha
              refine (ih hlast (by omega) (by omega)).imp_right fun hrest r hr => ?_
              exact (hrest r hr).imp_right fun hr => hr.trans (hlen.trans hle)
  exact ⟨fun h v => (hfuel v h (by simp) (Nat.lt_succ_self _)).1,
    fun h => (hfuel [] h (Nat.lt_succ_self _) (Nat.lt_succ_self _)).2⟩

theorem onLine_ite {c : Char} (hc : c ≠ '\n') {f g : List Char → Option (List Char)} (hf : OnLine f) (hg : OnLine g) :
    OnLine fun cs => if cs.head? = some c then f cs.tail else g cs where
  append {cs} h v := by
    rw [head?_append h]
    split
    · next hhead =>
      obtain ⟨cs, rfl⟩ := List.head?_eq_some_iff.1 hhead
      exact hf.append (mem_of_mem_cons h hc) v
    · exact hg.append h v
  rest {cs} h r hr := by
    split at hr
    · next hhead =>
      obtain ⟨cs, rfl⟩ := List.head?_eq_some_iff.1 hhead
      exact (hf.rest (mem_of_mem_cons h hc) r hr).imp_right fun hle => hle.trans (Nat.le_succ _)
    · exact hg.rest h r hr

theorem onLine_some : OnLine some := ⟨fun _ _ => rfl, fun h _ hr => Option.some.inj hr ▸ ⟨h, le_rfl⟩⟩

theorem onLine_afterName? : OnLine afterTag?.afterName? := by
  have htail := onLine_tail (p := isAsciiAlpha) (by decide)
    (onLine_dropWhile (p := fun d => isAsciiAlphanum d || d == '-') (by decide))
  refine (funext fun cs => ?_ : afterTag?.afterName? = _) ▸ htail
  cases cs <;> rfl

theorem onLine_close? : OnLine afterTag?.close? := by
  have htail := onLine_ite (c := '>') (by decide) onLine_some
    (⟨fun _ _ => rfl, by simp⟩ : OnLine fun _ => none)
  refine (funext fun cs => ?_ : afterTag?.close? = _) ▸ htail
  rcases cs with _ | ⟨c, cs⟩
  · rfl
  · by_cases hc : c = '>'
    · subst hc
      rfl
    · simp [afterTag?.close?, hc]

theorem afterTag?_eq (cs : List Char) : afterTag? none cs =
    if cs.head? = some '/' then (afterTag?.afterName? cs.tail).bind fun next => afterTag?.close? (next.dropWhile isSpace)
    else (afterTag?.afterName? cs).bind fun next => (afterAttributes? none (next.length + 1) next).bind fun next =>
      if next.head? = some '/' then afterTag?.close? next.tail else afterTag?.close? next := by
  unfold afterTag?
  split
  · rfl
  · next hother =>
    have hslash : ¬ cs.head? = some '/' := fun hhead => hother cs.tail (List.eq_cons_of_mem_head? hhead)
    rw [if_neg hslash]
    refine congrArg _ (funext fun named => congrArg _ (funext fun next => ?_))
    split
    · rfl
    · next hother =>
      have hslash : ¬ next.head? = some '/' := fun hhead => hother next.tail (List.eq_cons_of_mem_head? hhead)
      rw [if_neg hslash]

theorem onLine_afterTag? : OnLine (afterTag? none) := by
  have hclosing := onLine_afterName?.bind ((onLine_dropWhile (p := isSpace) (by decide)).bind onLine_close?)
  have hopening := onLine_afterName?.bind
    (onLine_afterAttributes?.bind (onLine_ite (c := '/') (by decide) onLine_close? onLine_close?))
  exact (funext afterTag?_eq : afterTag? none = _) ▸ onLine_ite (c := '/') (by decide) hclosing hopening

theorem isLoneTag_append (h : '\n' ∈ cs) (v : List Char) : isLoneTag (cs ++ v) = isLoneTag cs := by
  rw [isLoneTag, isLoneTag, onLine_afterTag?.append h]
  cases hr : afterTag? none cs with
  | none => rfl
  | some r => exact congrArg Option.isSome (blankLine?_append (onLine_afterTag?.rest h r hr).1 v)

theorem cellCount_append (h : '\n' ∈ cs) (n : Nat) {last : List Char} (hlast : '\n' ∈ last) (v : List Char) :
    cellCount (cs ++ v) n (last ++ v) = cellCount cs n last := by
  rw [cellCount, cellCount, dropWhile_append (by decide) h, head?_append (mem_dropWhile (by decide) h),
    blankLine?_append hlast]

theorem pipes_go_append (h : '\n' ∈ cs) (v : List Char) (n : Nat) (last last' : List Char) :
    (pipes.go n last' (cs ++ v)).1 = (pipes.go n last cs).1 ∧
      ((pipes.go n last cs).1 = n ∧ (pipes.go n last cs).2 = last ∧ (pipes.go n last' (cs ++ v)).2 = last' ∨
        n < (pipes.go n last cs).1 ∧ '\n' ∈ (pipes.go n last cs).2 ∧
          (pipes.go n last' (cs ++ v)).2 = (pipes.go n last cs).2 ++ v) := by
  fun_induction pipes.go n last cs generalizing last' with
  | case1 => cases h
  | case2 n last d cs hd ih =>
    have hcs := mem_of_mem_cons (mem_of_mem_cons h (by decide)) (by rintro rfl; exact absurd hd (by decide))
    simpa [pipes.go, hd] using ih hcs last'
  | case3 n last d cs hd ih => simpa [pipes.go, hd] using ih (mem_of_mem_cons h (by decide)) last'
  | case4 n last c cs hplain hc =>
    have hslash : c ≠ '\\' := by rintro rfl; exact absurd hc (by decide)
    simp [pipes.go, hslash, hc]
  | case5 n last c cs hplain hc hpipe ih =>
    obtain rfl : c = '|' := eq_of_beq hpipe
    have hcs := mem_of_mem_cons h (by decide)
    obtain ⟨hcount, hlast⟩ := ih hcs (cs ++ v)
    have hgo : pipes.go n last' ('|' :: cs ++ v) = pipes.go (n + 1) (cs ++ v) (cs ++ v) := rfl
    rw [hgo]
    refine ⟨hcount, .inr ?_⟩
    rcases hlast with ⟨he, hlast, hlast'⟩ | ⟨hless, hlast⟩
    · exact ⟨by omega, by rwa [hlast], by rw [hlast, hlast']⟩
    · exact ⟨by omega, hlast⟩
  | case6 n last c cs hplain hc hpipe ih =>
    have hcs : '\n' ∈ cs := mem_of_mem_cons h (by rintro rfl; exact hc rfl)
    have hslash : c ≠ '\\' := by
      rintro rfl
      obtain ⟨d, ds, rfl⟩ := List.exists_cons_of_ne_nil (List.ne_nil_of_mem hcs)
      exact hplain d ds rfl rfl
    simpa [pipes.go, hslash, hc, hpipe] using ih hcs last'

theorem pipes_append (h : '\n' ∈ cs) (v : List Char) : (pipes (cs ++ v)).1 = (pipes cs).1 ∧
    ((pipes cs).1 ≠ 0 → cellCount (cs ++ v) (pipes cs).1 (pipes (cs ++ v)).2 = cellCount cs (pipes cs).1 (pipes cs).2) := by
  obtain ⟨hcount, hlast⟩ := pipes_go_append h v 0 [] []
  refine ⟨hcount, fun hne => ?_⟩
  rcases hlast with ⟨he, -⟩ | ⟨-, hmem, hlast⟩
  · exact absurd he hne
  · exact (congrArg (cellCount _ _) hlast).trans (cellCount_append h _ hmem v)

theorem delimiterRest_append (columns : Nat) (fresh : Bool) (length : Nat) (h : '\n' ∈ cs) (v : List Char) :
    delimiterRest columns fresh length (cs ++ v) = delimiterRest columns fresh length cs := by
  induction cs generalizing columns fresh length with
  | nil => cases h
  | cons c cs ih =>
    have hrest (hc : ¬ isEol c = true) : '\n' ∈ cs := mem_of_mem_cons h (by rintro rfl; exact hc rfl)
    rw [List.cons_append, delimiterRest, delimiterRest, ← List.cons_append, eol?_append h]
    split
    · rfl
    · next hc => simp only [ih _ _ _ (hrest hc)]

theorem delimiterIndent_go_append (h : '\n' ∈ cs) (v : List Char) (i offset spaces : Nat) :
    delimiterIndent.go i offset spaces (cs ++ v) = delimiterIndent.go i offset spaces cs ∧
      ((delimiterIndent.go i offset spaces cs).1 = offset ∨
        ∃ k, (delimiterIndent.go i offset spaces cs).1 = i + k ∧ '\n' ∉ cs.take k) := by
  induction cs generalizing i offset spaces with
  | nil => cases h
  | cons c cs ih =>
    have hfurther (hc : c ≠ '\n') (spaces : Nat) :
        delimiterIndent.go (i + 1) i spaces (cs ++ v) = delimiterIndent.go (i + 1) i spaces cs ∧
          ∃ k, (delimiterIndent.go (i + 1) i spaces cs).1 = i + k ∧ '\n' ∉ (c :: cs).take k := by
      obtain ⟨heq, he | ⟨k, he, hk⟩⟩ := ih (mem_of_mem_cons h hc) (i + 1) i spaces
      · exact ⟨heq, 0, he, by simp⟩
      · exact ⟨heq, k + 1, by omega, by simp [hc.symm, hk]⟩
    rw [List.cons_append, delimiterIndent.go, delimiterIndent.go]
    split
    · next hc =>
      split
      · exact ⟨rfl, .inl rfl⟩
      · exact (hfurther (by rintro rfl; exact absurd hc (by decide)) _).imp_right .inr
    · split
      · next hc =>
        dsimp only
        split
        · exact ⟨rfl, .inl rfl⟩
        · exact (hfurther (by rintro rfl; exact absurd hc (by decide)) _).imp_right .inr
      · exact ⟨rfl, .inl rfl⟩

theorem newline_not_mem_delimiterIndent (h : '\n' ∈ cs) : '\n' ∉ cs.take (delimiterIndent cs).1 := by
  rcases (delimiterIndent_go_append h [] 0 0 0).2 with he | ⟨k, he, hk⟩
  · simp [delimiterIndent, he]
  · rwa [delimiterIndent, he, Nat.zero_add]

theorem delimiterRow?_append (h : '\n' ∈ cs) (v : List Char) : delimiterRow? (cs ++ v) = delimiterRow? cs := by
  obtain ⟨heq, -⟩ := delimiterIndent_go_append h v 0 0 0
  have hmem : '\n' ∈ cs.drop (delimiterIndent.go 0 0 0 cs).1 := by
    have hall := h
    rw [← List.take_append_drop (delimiterIndent.go 0 0 0 cs).1 cs, List.mem_append] at hall
    exact hall.resolve_left (newline_not_mem_delimiterIndent h)
  have hle : (delimiterIndent.go 0 0 0 cs).1 ≤ cs.length := by
    by_contra hlong
    rw [List.drop_eq_nil_of_le (by omega)] at hmem
    cases hmem
  rw [delimiterRow?, delimiterRow?, delimiterIndent, delimiterIndent, heq]
  dsimp only
  rw [List.drop_append_of_le_length hle]
  generalize cs.drop _ = ds at hmem
  cases ds with
  | nil => cases hmem
  | cons c ds =>
    simp only [List.cons_append]
    split
    · rfl
    · by_cases hc : c = '|'
      · subst hc
        simp only [beq_self_eq_true, if_true, delimiterRest_append _ _ _ (mem_of_mem_cons hmem (by decide))]
      · have happend := delimiterRest_append 0 true (delimiterIndent.go 0 0 0 cs).1 hmem v
        rw [List.cons_append] at happend
        simp only [beq_eq_false_iff_ne.2 hc, Bool.false_eq_true, if_false, happend]

end ComponentDocs.Markdown
