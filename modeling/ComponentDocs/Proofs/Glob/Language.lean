import ComponentDocs.Glob.Match
import Mathlib.Tactic
/-! What a glob stands for, as a language of bytes. The marks of the matcher are the texts that have been reached, and
a token takes each of them on by what it stands for. -/
namespace ComponentDocs.Glob

mutual

/-- The texts that a token stands for. -/
inductive Token.Fits : Token → List UInt8 → Prop
  | literal (c : Char) : Token.Fits (.literal c) (String.utf8EncodeChar c)
  | one {b : UInt8} (h : isNotSlash b = true) : Token.Fits .one [b]
  | run {s : List UInt8} (h : ∀ b ∈ s, isNotSlash b = true) : Token.Fits .run s
  | anyFront_nil : Token.Fits .anyFront []
  | anyFront (s : List UInt8) : Token.Fits .anyFront (s ++ [slash])
  | anyBack (s : List UInt8) : Token.Fits .anyBack (slash :: s)
  | anyBetween_slash : Token.Fits .anyBetween [slash]
  | anyBetween (s : List UInt8) : Token.Fits .anyBetween (slash :: s ++ [slash])
  | oneOf {negated : Bool} {ranges : List (Char × Char)} {b : UInt8}
    (h : ((ranges.any fun r => inRange r b) != negated) = true) : Token.Fits (.oneOf negated ranges) [b]
  | choice {branches : List (List Token)} {ts : List Token} {s : List UInt8} (hm : ts ∈ branches)
    (hv : isVoid ts = false) (h : AllFit ts s) : Token.Fits (.choice branches) s
  /-- Branches without an effect count only if there are no others. -/
  | void {branches : List (List Token)} (h : areVoid branches = true) : Token.Fits (.choice branches) []

/-- The texts that tokens stand for one after the other. -/
inductive AllFit : List Token → List UInt8 → Prop
  | nil : AllFit [] []
  | cons {t : Token} {ts : List Token} {a b : List UInt8} (h : t.Fits a) (rest : AllFit ts b) :
    AllFit (t :: ts) (a ++ b)

end

namespace Marks
variable {text : List UInt8} {marks marks' marks'' : Marks} {L M : List UInt8 → Prop}

/-- A part of the text, from its start, at the end of which there is a mark. -/
def Reaches (text : List UInt8) (marks : Marks) (front : List UInt8) : Prop :=
  front <+: text ∧ marks[front.length]? = some true

/-- The marks after some texts of a language: what was reached before is taken on by a text that fits. -/
structure Moves (text : List UInt8) (L : List UInt8 → Prop) (marks marks' : Marks) : Prop where
  length : marks'.length = text.length + 1
  reaches_iff : ∀ s, Reaches text marks' s ↔
    s <+: text ∧ ∃ front mid, s = front ++ mid ∧ Reaches text marks front ∧ L mid

theorem reaches_start {s : List UInt8} : Reaches text (start text) s ↔ s = [] := by
  cases s with
  | nil => simp [Reaches, start]
  | cons b s => simp [Reaches, start, List.getElem?_replicate]

theorem prefix_of_append {front mid : List UInt8} (h : front ++ mid <+: text) : front <+: text :=
  (List.prefix_append front mid).trans h

theorem getElem?_of_concat {s : List UInt8} {b : UInt8} (h : s ++ [b] <+: text) : text[s.length]? = some b := by
  obtain ⟨rest, rfl⟩ := h
  simp

namespace Moves

theorem congr (h : Moves text L marks marks') (hL : ∀ s, L s ↔ M s) : Moves text M marks marks' :=
  ⟨h.length, fun s => by rw [h.reaches_iff s]; simp only [hL]⟩

theorem nil (hm : marks.length = text.length + 1) : Moves text (· = []) marks marks := by
  refine ⟨hm, fun s => ?_⟩
  constructor
  · intro h
    exact ⟨h.1, s, [], by simp, h, rfl⟩
  · rintro ⟨-, front, _, rfl, h, rfl⟩
    simpa using h

theorem append (h : Moves text L marks marks') (h' : Moves text M marks' marks'') :
    Moves text (fun s => ∃ a b, s = a ++ b ∧ L a ∧ M b) marks marks'' := by
  refine ⟨h'.length, fun s => ?_⟩
  rw [h'.reaches_iff]
  constructor
  · rintro ⟨hs, middle, b, rfl, hmiddle, hb⟩
    obtain ⟨-, front, a, rfl, hfront, ha⟩ := (h.reaches_iff middle).1 hmiddle
    exact ⟨hs, front, a ++ b, by simp, hfront, a, b, rfl, ha, hb⟩
  · rintro ⟨hs, front, _, rfl, hfront, a, b, rfl, ha, hb⟩
    rw [← List.append_assoc] at hs
    have hmiddle := (h.reaches_iff (front ++ a)).2 ⟨prefix_of_append hs, front, a, rfl, hfront, ha⟩
    exact ⟨by simpa using hs, front ++ a, b, by simp, hmiddle, hb⟩

theorem union (h : Moves text L marks marks') (h' : Moves text M marks marks'') :
    Moves text (fun s => L s ∨ M s) marks (marks'.union marks'') := by
  have hunion (s : List UInt8) : Reaches text (marks'.union marks'') s ↔
      Reaches text marks' s ∨ Reaches text marks'' s := by
    have hlen := h.length
    have hlen' := h'.length
    simp only [Reaches, Marks.union, List.getElem?_zipWith]
    by_cases hs : s <+: text
    · have hle := hs.length_le
      rw [List.getElem?_eq_getElem (l := marks') (by omega), List.getElem?_eq_getElem (l := marks'') (by omega)]
      simp [hs]
    · simp [hs]
  refine ⟨by simp [Marks.union, h.length, h'.length], fun s => ?_⟩
  rw [hunion, h.reaches_iff, h'.reaches_iff]
  constructor
  · rintro (⟨hs, front, mid, rfl, hf, hL⟩ | ⟨hs, front, mid, rfl, hf, hM⟩)
    · exact ⟨hs, front, mid, rfl, hf, .inl hL⟩
    · exact ⟨hs, front, mid, rfl, hf, .inr hM⟩
  · rintro ⟨hs, front, mid, rfl, hf, hL | hM⟩
    · exact .inl ⟨hs, front, mid, rfl, hf, hL⟩
    · exact .inr ⟨hs, front, mid, rfl, hf, hM⟩

theorem step (hm : marks.length = text.length + 1) (p : UInt8 → Bool) :
    Moves text (fun s => ∃ b, s = [b] ∧ p b = true) marks (marks.step p text) := by
  refine ⟨by simp [Marks.step, hm], fun s => ?_⟩
  rcases List.eq_nil_or_concat s with rfl | ⟨front, b, rfl⟩
  · simp [Reaches, Marks.step]
  · rw [List.concat_eq_append]
    have hsplit :
        (∃ front' mid, front ++ [b] = front' ++ mid ∧ Reaches text marks front' ∧ ∃ c, mid = [c] ∧ p c = true) ↔
          Reaches text marks front ∧ p b = true := by
      constructor
      · rintro ⟨front', _, he, hf, c, rfl, hc⟩
        obtain ⟨rfl, hlast⟩ := List.append_inj' he rfl
        cases hlast
        exact ⟨hf, hc⟩
      · rintro ⟨hf, hb⟩
        exact ⟨front, [b], rfl, hf, b, rfl, hb⟩
    rw [hsplit]
    simp only [Reaches, Marks.step, List.length_append, List.length_singleton, List.getElem?_cons_succ,
      List.getElem?_zipWith]
    by_cases hs : front ++ [b] <+: text
    · rw [getElem?_of_concat hs]
      cases marks[front.length]? <;> simp [hs, prefix_of_append hs]
    · simp [hs]

end Moves

variable {p : UInt8 → Bool} {reached : Bool}

theorem length_go (hm : marks.length = text.length + 1) :
    (spread.go p reached text marks).length = text.length + 1 := by
  induction text generalizing marks reached with
  | nil => simpa [spread.go] using hm
  | cons c cs ih =>
    cases marks with
    | nil => cases hm
    | cons m ms => simp [spread.go, ih (by simpa using hm)]

theorem getElem?_go_zero : (spread.go p reached text marks)[0]? = marks[0]?.map (reached || ·) := by
  cases text with
  | nil => simp [spread.go]
  | cons c cs => cases marks <;> simp [spread.go]

/-- A place is reached if it is marked, or over a byte from the place before it. -/
theorem getElem?_go_succ (hm : marks.length = text.length + 1) (i : Nat) :
    (spread.go p reached text marks)[i + 1]? = some true ↔
      marks[i + 1]? = some true ∨
        ∃ b, text[i]? = some b ∧ p b = true ∧ (spread.go p reached text marks)[i]? = some true := by
  induction text generalizing marks reached i with
  | nil =>
    obtain ⟨m, rfl⟩ := List.length_eq_one_iff.1 hm
    simp [spread.go]
  | cons c cs ih =>
    cases marks with
    | nil => cases hm
    | cons m ms =>
      have hms : ms.length = cs.length + 1 := by simpa using hm
      rw [spread.go, List.getElem?_cons_succ, List.getElem?_cons_succ]
      cases i with
      | zero =>
        obtain ⟨first, rest, rfl⟩ := List.exists_cons_of_length_eq_add_one hms
        rw [getElem?_go_zero]
        cases first <;> simp [and_comm]
      | succ i => simpa using ih hms i

theorem Moves.spread (hm : marks.length = text.length + 1) (p : UInt8 → Bool) :
    Moves text (fun s => ∀ b ∈ s, p b = true) marks (marks.spread p text) := by
  refine ⟨length_go hm, fun s => ?_⟩
  induction s using List.reverseRecOn with
  | nil => simp [Reaches, Marks.spread, getElem?_go_zero]
  | append_singleton s b ih =>
    have hsplit : (∃ front mid, s ++ [b] = front ++ mid ∧ Reaches text marks front ∧ ∀ c ∈ mid, p c = true) ↔
        Reaches text marks (s ++ [b]) ∨
          p b = true ∧ ∃ front mid, s = front ++ mid ∧ Reaches text marks front ∧ ∀ c ∈ mid, p c = true := by
      constructor
      · rintro ⟨front, mid, he, hf, hall⟩
        rcases List.eq_nil_or_concat mid with rfl | ⟨mid, c, rfl⟩
        · exact .inl (by rwa [he, List.append_nil])
        · rw [List.concat_eq_append, ← List.append_assoc] at he
          obtain ⟨rfl, hlast⟩ := List.append_inj' he rfl
          cases hlast
          exact .inr ⟨hall b (by simp), front, mid, rfl, hf, fun c hc => hall c (by simp [hc])⟩
      · rintro (h | ⟨hb, front, mid, rfl, hf, hall⟩)
        · exact ⟨s ++ [b], [], by simp, h, by simp⟩
        · refine ⟨front, mid ++ [b], by simp, hf, fun c hc => ?_⟩
          rcases List.mem_append.1 hc with hc | hc
          · exact hall c hc
          · obtain rfl := List.mem_singleton.1 hc
            exact hb
    rw [hsplit]
    by_cases hs : s ++ [b] <+: text
    · have hbefore : Reaches text (marks.spread p text) s ↔ (marks.spread p text)[s.length]? = some true :=
        and_iff_right (prefix_of_append hs)
      rw [hbefore] at ih
      simp only [Reaches, Marks.spread, hs, true_and, List.length_append, List.length_singleton]
      rw [getElem?_go_succ hm, getElem?_of_concat hs, ← Marks.spread, ih]
      simp [prefix_of_append hs, Reaches]
    · simp [Reaches, hs]

theorem Moves.literal (hm : marks.length = text.length + 1) (bytes : List UInt8) :
    Moves text (· = bytes) marks (bytes.foldl (fun m b => m.step (· == b) text) marks) := by
  induction bytes generalizing marks with
  | nil => exact .nil hm
  | cons b bytes ih =>
    have hfirst := Moves.step hm (· == b)
    refine (hfirst.append (ih hfirst.length)).congr fun s => ?_
    simp

theorem atEnd_iff (hm : marks.length = text.length + 1) : marks.atEnd = true ↔ Reaches text marks text := by
  have hlast : marks.getLast? = marks[text.length]? := by rw [List.getLast?_eq_getElem?, hm, Nat.add_sub_cancel]
  rw [atEnd, hlast, Reaches]
  cases marks[text.length]? <;> simp

end Marks

section Fits
variable {s : List UInt8}

@[simp] theorem fits_literal_iff {c : Char} : (Token.literal c).Fits s ↔ s = String.utf8EncodeChar c :=
  ⟨fun h => by cases h; rfl, fun h => h ▸ .literal c⟩

@[simp] theorem fits_one_iff : Token.one.Fits s ↔ ∃ b, s = [b] ∧ isNotSlash b = true := by
  constructor
  · intro h
    cases h with
    | one h => exact ⟨_, rfl, h⟩
  · rintro ⟨b, rfl, h⟩
    exact .one h

@[simp] theorem fits_run_iff : Token.run.Fits s ↔ ∀ b ∈ s, isNotSlash b = true :=
  ⟨fun h => by cases h; assumption, .run⟩

@[simp] theorem fits_anyFront_iff : Token.anyFront.Fits s ↔ s = [] ∨ ∃ a, s = a ++ [slash] := by
  constructor
  · intro h
    cases h with
    | anyFront_nil => exact .inl rfl
    | anyFront a => exact .inr ⟨a, rfl⟩
  · rintro (rfl | ⟨a, rfl⟩)
    · exact .anyFront_nil
    · exact .anyFront a

@[simp] theorem fits_anyBack_iff : Token.anyBack.Fits s ↔ ∃ a, s = slash :: a := by
  constructor
  · intro h
    cases h with
    | anyBack a => exact ⟨a, rfl⟩
  · rintro ⟨a, rfl⟩
    exact .anyBack a

@[simp] theorem fits_anyBetween_iff : Token.anyBetween.Fits s ↔ s = [slash] ∨ ∃ a, s = slash :: a ++ [slash] := by
  constructor
  · intro h
    cases h with
    | anyBetween_slash => exact .inl rfl
    | anyBetween a => exact .inr ⟨a, rfl⟩
  · rintro (rfl | ⟨a, rfl⟩)
    · exact .anyBetween_slash
    · exact .anyBetween a

@[simp] theorem fits_oneOf_iff {negated : Bool} {ranges : List (Char × Char)} :
    (Token.oneOf negated ranges).Fits s ↔ ∃ b, s = [b] ∧ ((ranges.any fun r => inRange r b) != negated) = true := by
  constructor
  · intro h
    cases h with
    | oneOf h => exact ⟨_, rfl, h⟩
  · rintro ⟨b, rfl, h⟩
    exact .oneOf h

def AnyFits (branches : List (List Token)) (s : List UInt8) : Prop := ∃ ts ∈ branches, isVoid ts = false ∧ AllFit ts s

@[simp] theorem fits_choice_iff {branches : List (List Token)} :
    (Token.choice branches).Fits s ↔ AnyFits branches s ∨ areVoid branches = true ∧ s = [] := by
  constructor
  · intro h
    cases h with
    | choice hm hv h => exact .inl ⟨_, hm, hv, h⟩
    | void h => exact .inr ⟨h, rfl⟩
  · rintro (⟨ts, hm, hv, h⟩ | ⟨h, rfl⟩)
    · exact .choice hm hv h
    · exact .void h

@[simp] theorem allFit_nil_iff : AllFit [] s ↔ s = [] :=
  ⟨fun h => by cases h; rfl, fun h => h ▸ .nil⟩

@[simp] theorem allFit_cons_iff {t : Token} {ts : List Token} :
    AllFit (t :: ts) s ↔ ∃ a b, s = a ++ b ∧ t.Fits a ∧ AllFit ts b := by
  constructor
  · intro h
    cases h with
    | cons h rest => exact ⟨_, _, rfl, h, rest⟩
  · rintro ⟨a, b, rfl, h, rest⟩
    exact .cons h rest

theorem anyFits_cons_iff {ts : List Token} {branches : List (List Token)} :
    AnyFits (ts :: branches) s ↔ isVoid ts = false ∧ AllFit ts s ∨ AnyFits branches s := by
  simp [AnyFits]

theorem not_anyFits_of_areVoid {branches : List (List Token)} (h : areVoid branches = true) : ¬ AnyFits branches s := by
  induction branches with
  | nil => simp [AnyFits]
  | cons ts branches ih =>
    simp only [areVoid, Bool.and_eq_true] at h
    simp [anyFits_cons_iff, h.1, ih h.2]

end Fits

open Marks
variable {text : List UInt8} {marks : Marks}

theorem advanceAny_eq_none_iff {branches : List (List Token)} :
    advanceAny text branches marks = none ↔ areVoid branches = true := by
  induction branches with
  | nil => simp [advanceAny, areVoid]
  | cons ts branches ih =>
    cases hv : isVoid ts <;> simp [advanceAny, areVoid, hv, ih]

mutual

/-- A token takes the marks on by the texts that it stands for. -/
theorem moves_advance : (t : Token) → {marks : Marks} → marks.length = text.length + 1 →
    Moves text t.Fits marks (t.advance text marks)
  | .literal c, _, hm => (Moves.literal hm (String.utf8EncodeChar c)).congr fun _ => fits_literal_iff.symm
  | .one, _, hm => (Moves.step hm isNotSlash).congr fun _ => fits_one_iff.symm
  | .run, _, hm => (Moves.spread hm isNotSlash).congr fun _ => fits_run_iff.symm
  | .anyFront, _, hm => by
    have hslash := Moves.step hm (· == slash)
    have hany := Moves.spread hm fun _ => true
    have hdirectories := hany.append (Moves.step hany.length (· == slash))
    refine (((Moves.nil hm).union hslash).union hdirectories).congr fun s => ?_
    rw [fits_anyFront_iff]
    constructor
    · rintro ((rfl | ⟨b, rfl, hb⟩) | ⟨a, _, rfl, -, b, rfl, hb⟩)
      · exact .inl rfl
      · exact .inr ⟨[], by simpa using hb⟩
      · exact .inr ⟨a, by simpa using hb⟩
    · rintro (rfl | ⟨a, rfl⟩)
      · exact .inl (.inl rfl)
      · exact .inr ⟨a, [slash], rfl, by simp, slash, rfl, by simp⟩
  | .anyBack, _, hm => by
    have hslash := Moves.step hm (· == slash)
    refine (hslash.append (Moves.spread hslash.length fun _ => true)).congr fun s => ?_
    simp
  | .anyBetween, _, hm => by
    have hslash := Moves.step hm (· == slash)
    have hany := Moves.spread hslash.length fun _ => true
    have hdirectories := hslash.append (hany.append (Moves.step hany.length (· == slash)))
    refine (hslash.union hdirectories).congr fun s => ?_
    simp
  | .oneOf negated ranges, _, hm =>
    (Moves.step hm fun b => (ranges.any fun r => inRange r b) != negated).congr fun _ => fits_oneOf_iff.symm
  | .choice branches, marks, hm => by
    unfold Token.advance
    cases h : advanceAny text branches marks with
    | none =>
      have hv := advanceAny_eq_none_iff.1 h
      exact (Moves.nil hm).congr fun s => by simp [hv, not_anyFits_of_areVoid]
    | some reached =>
      have hv : areVoid branches = false := by
        rw [← Bool.not_eq_true]
        intro hvoid
        rw [advanceAny_eq_none_iff.2 hvoid] at h
        cases h
      exact (moves_advanceAny branches hm h).congr fun s => by simp [hv]

theorem moves_advanceAll : (ts : List Token) → {marks : Marks} → marks.length = text.length + 1 →
    Moves text (AllFit ts) marks (advanceAll text ts marks)
  | [], _, hm => (Moves.nil hm).congr fun _ => allFit_nil_iff.symm
  | t :: ts, _, hm => by
    have hfirst := moves_advance t hm
    exact (hfirst.append (moves_advanceAll ts hfirst.length)).congr fun _ => allFit_cons_iff.symm

theorem moves_advanceAny : (branches : List (List Token)) → {marks reached : Marks} →
    marks.length = text.length + 1 → advanceAny text branches marks = some reached →
      Moves text (AnyFits branches) marks reached
  | [], _, _, _, h => nomatch h
  | ts :: branches, marks, reached, hm, h => by
    have hall := moves_advanceAll ts hm
    have hrest {m : Marks} (hsome : advanceAny text branches marks = some m) : Moves text (AnyFits branches) marks m :=
      moves_advanceAny branches hm hsome
    unfold advanceAny at h
    cases hv : isVoid ts with
    | true => exact (hrest (by simpa [hv] using h)).congr fun s => by simp [anyFits_cons_iff, hv]
    | false =>
      rw [hv] at h
      cases hother : advanceAny text branches marks with
      | none =>
        have hnone := advanceAny_eq_none_iff.1 hother
        rw [hother] at h
        cases h
        exact hall.congr fun s => by simp [anyFits_cons_iff, hv, not_anyFits_of_areVoid hnone]
      | some m =>
        rw [hother] at h
        cases h
        exact (hall.union (hrest hother)).congr fun s => by simp [anyFits_cons_iff, hv]

end

/-- A glob matches the texts that its tokens stand for. Two stars alone match all others, too. -/
theorem matchesBytes_iff {g : Glob} : g.matchesBytes text = true ↔ g.tokens = [.anyFront] ∨ AllFit g.tokens text := by
  unfold matchesBytes
  split
  · next h => simp [h]
  · next hne =>
    have hstart : (start text).length = text.length + 1 := by simp [start]
    have hmoves := moves_advanceAll g.tokens hstart
    rw [atEnd_iff hmoves.length, hmoves.reaches_iff, or_iff_right (hne ·)]
    constructor
    · rintro ⟨-, front, mid, he, hf, hmid⟩
      obtain rfl := reaches_start.1 hf
      rwa [he]
    · intro h
      exact ⟨List.prefix_rfl, [], text, rfl, reaches_start.2 rfl, h⟩

end ComponentDocs.Glob
