import ComponentDocs.Text.Basic
import Mathlib.Tactic
import Mathlib.Tactic.Common
/-! Lines that are joined and taken apart again, and what writing carriage returns out of a text
takes from its lines. -/
namespace ComponentDocs.Text

theorem lines_newline (cs : List Char) : lines ('\n' :: cs) = [] :: lines cs := by
  simp [lines]

theorem lines_of_not_mem {l : Line} (h : '\n' ∉ l) : lines l = [l] := by
  induction l with
  | nil => rfl
  | cons c cs ih =>
    simp only [List.mem_cons, not_or] at h
    simp [lines, Ne.symm h.1, ih h.2]

theorem lines_append_newline_cons {l : Line} (h : '\n' ∉ l) (cs : List Char) :
    lines (l ++ '\n' :: cs) = l :: lines cs := by
  induction l with
  | nil => exact lines_newline cs
  | cons c l ih =>
    simp only [List.mem_cons, not_or] at h
    simp [lines, Ne.symm h.1, ih h.2]

theorem lines_joinLines {ls : List Line} (hne : ls ≠ []) (h : ∀ l ∈ ls, '\n' ∉ l) :
    lines (joinLines ls) = ls := by
  induction ls with
  | nil => exact absurd rfl hne
  | cons l ls ih =>
    cases ls with
    | nil => exact lines_of_not_mem (h l (by simp))
    | cons m ls =>
      rw [joinLines, lines_append_newline_cons (h l (by simp)),
        ih (by simp) fun k hk => h k (List.mem_cons_of_mem _ hk)]
      simp

theorem lines_append_newline_append (front cs : List Char) : lines (front ++ '\n' :: cs) = lines front ++ lines cs := by
  induction front with
  | nil => exact lines_newline cs
  | cons c front ih =>
    by_cases hc : c = '\n'
    · subst hc
      rw [List.cons_append, lines_newline, lines_newline, ih, List.cons_append]
    · cases hl : lines front with
      | nil => exact absurd hl (lines_ne_nil front)
      | cons l ls => simp [lines, hc, ih, hl]

theorem lines_append_newline (cs : List Char) : lines (cs ++ ['\n']) = lines cs ++ [[]] :=
  lines_append_newline_append cs []

theorem length_lines (cs : List Char) : (lines cs).length = cs.count '\n' + 1 := by
  induction cs with
  | nil => rfl
  | cons c cs ih =>
    by_cases hc : c = '\n'
    · rw [hc, lines_newline, List.length_cons, ih, List.count_cons_self]
    · cases hl : lines cs with
      | nil => exact absurd hl (lines_ne_nil cs)
      | cons l ls =>
        rw [hl] at ih
        simpa [lines, hc, hl] using ih

theorem head?_lines (cs : List Char) : (lines cs).head? = some (cs.takeWhile (· != '\n')) := by
  induction cs with
  | nil => rfl
  | cons c cs ih =>
    by_cases hc : c = '\n'
    · simp [lines, hc]
    · cases hl : lines cs with
      | nil => exact absurd hl (lines_ne_nil cs)
      | cons l ls =>
        rw [hl, List.head?_cons, Option.some.injEq] at ih
        simp [lines, hc, hl, ih]

def lineChars (cs : List Char) : Nat := ((lines cs).map List.length).sum

theorem lineChars_newline (cs : List Char) : lineChars ('\n' :: cs) = lineChars cs := by
  simp [lineChars, lines_newline]

theorem lineChars_cons {c : Char} (hc : c ≠ '\n') (cs : List Char) :
    lineChars (c :: cs) = lineChars cs + 1 := by
  unfold lineChars
  cases hl : lines cs with
  | nil => exact absurd hl (lines_ne_nil cs)
  | cons l ls =>
    simp [lines, hc, hl]
    omega

theorem lineChars_unixNewlines_le (cs : List Char) : lineChars (unixNewlines cs) ≤ lineChars cs := by
  fun_induction unixNewlines cs with
  | case1 cs ih =>
    rw [lineChars_newline, lineChars_cons (by decide), lineChars_newline]
    omega
  | case2 c cs _ ih =>
    by_cases hc : c = '\n'
    · subst hc
      rwa [lineChars_newline, lineChars_newline]
    · rw [lineChars_cons hc, lineChars_cons hc]
      omega
  | case3 => exact le_rfl

/-- A text keeps its carriage returns exactly if none of them comes before a line feed. -/
theorem unixNewlines_eq_self_iff (cs : List Char) : unixNewlines cs = cs ↔ ¬ ['\r', '\n'] <:+: cs := by
  fun_induction unixNewlines cs with
  | case1 cs ih =>
    have hi : ['\r', '\n'] <:+: '\r' :: '\n' :: cs := ⟨[], cs, rfl⟩
    simp [hi]
  | case2 c cs hn ih =>
    have hp : ¬ ['\r', '\n'] <+: c :: cs := by
      rintro ⟨ds, hd⟩
      simp only [List.cons_append, List.nil_append, List.cons.injEq] at hd
      exact hn ds hd.1.symm hd.2.symm
    rw [List.cons.injEq, List.infix_cons_iff, ih]
    simp [hp]
  | case3 => simp

theorem getLast?_unixNewlines (cs : List Char) : (unixNewlines cs).getLast? = cs.getLast? := by
  fun_induction unixNewlines cs with
  | case1 cs ih => simp [List.getLast?_cons, ih]
  | case2 c cs _ ih => simp [List.getLast?_cons, ih]
  | case3 => rfl

theorem unixNewlines_cons {c : Char} {cs : List Char} (h : c = '\r' → cs.head? ≠ some '\n') :
    unixNewlines (c :: cs) = c :: unixNewlines cs := by
  rw [unixNewlines]
  rintro rest rfl rfl
  exact h rfl rfl

/-- A carriage return at the end goes with the line feed that comes after it. -/
theorem unixNewlines_append {front : List Char} (h : front.getLast? ≠ some '\r') (text : List Char) :
    unixNewlines (front ++ text) = unixNewlines front ++ unixNewlines text := by
  have htail {c : Char} {cs : List Char} (h : (c :: cs).getLast? ≠ some '\r') : cs.getLast? ≠ some '\r' := by
    rintro he
    rw [List.getLast?_cons, he] at h
    exact h rfl
  fun_induction unixNewlines front with
  | case1 cs ih =>
    rw [List.cons_append, List.cons_append, unixNewlines, ih (htail (htail h)), List.cons_append]
  | case2 c cs hother ih =>
    rw [List.cons_append, unixNewlines_cons, ih (htail h), List.cons_append]
    rintro rfl hhead
    rcases cs with _ | ⟨d, cs⟩
    · exact h rfl
    · obtain rfl : d = '\n' := by simpa using hhead
      exact hother cs rfl rfl
  | case3 => rfl

theorem unixNewlines_append_of_not_mem {front : List Char} (h : '\r' ∉ front) (text : List Char) :
    unixNewlines (front ++ text) = front ++ unixNewlines text := by
  have hlast : front.getLast? ≠ some '\r' := fun hl => h (List.mem_of_getLast? hl)
  rw [unixNewlines_append hlast, (unixNewlines_eq_self_iff front).2 fun hi => h (hi.subset (by simp))]

theorem lineChars_unixNewlines_lt {cs : List Char} (h : ['\r', '\n'] <:+: cs) :
    lineChars (unixNewlines cs) < lineChars cs := by
  fun_induction unixNewlines cs with
  | case1 cs ih =>
    have := lineChars_unixNewlines_le cs
    rw [lineChars_newline, lineChars_cons (by decide), lineChars_newline]
    omega
  | case2 c cs hn ih =>
    have ht : ['\r', '\n'] <:+: cs := by
      rcases List.infix_cons_iff.1 h with ⟨ds, hd⟩ | ht
      · simp only [List.cons_append, List.nil_append, List.cons.injEq] at hd
        exact absurd hd.2.symm (hn ds hd.1.symm)
      · exact ht
    by_cases hc : c = '\n'
    · subst hc
      rw [lineChars_newline, lineChars_newline]
      exact ih ht
    · rw [lineChars_cons hc, lineChars_cons hc]
      have := ih ht
      omega
  | case3 => simp at h

/-! Lists each of whose elements fits between the one before it and the one after it. -/

variable {α : Type} {P : Option α → α → Option α → Prop}

/-- Each element of a list fits between its neighbours. `before` stands before the list. -/
def Along (P : Option α → α → Option α → Prop) (before : Option α) : List α → Prop
  | [] => True
  | a :: rest => P before a rest.head? ∧ Along P (some a) rest

theorem along_iff (before : Option α) (l : List α) :
    Along P before l ↔ ∀ front a back, l = front ++ a :: back → P (front.getLast?.or before) a back.head? := by
  induction l generalizing before with
  | nil => simp [Along]
  | cons x rest ih =>
    have hlast (front : List α) : (x :: front).getLast?.or before = front.getLast?.or (some x) := by
      rw [List.getLast?_cons, Option.some_or, Option.or_some]
    rw [Along, ih]
    constructor
    · rintro ⟨hx, hrest⟩ front a back he
      cases front with
      | nil =>
        obtain ⟨rfl, rfl⟩ := List.cons.inj he
        exact hx
      | cons y front =>
        obtain ⟨rfl, rfl⟩ := List.cons.inj he
        rw [hlast]
        exact hrest front a back rfl
    · intro h
      refine ⟨h [] x rest rfl, fun front a back he => ?_⟩
      rw [← hlast]
      exact h (x :: front) a back (by rw [he]; rfl)

/-- What fits before an element may end a list. -/
theorem Along.mono {before : Option α} {l k : List α} (h : Along P before l)
    (hP : ∀ b a after, P b a after → P b a none) (hk : k <+: l) : Along P before k := by
  induction k generalizing before l with
  | nil => trivial
  | cons a k ih =>
    obtain ⟨rest, rfl⟩ := hk
    obtain ⟨ha, hrest⟩ := h
    refine ⟨?_, ih hrest (List.prefix_append k rest)⟩
    cases k with
    | nil => exact hP _ _ _ ha
    | cons => exact ha

end ComponentDocs.Text

/-! The bytes of a text by which its ASCII characters are found. They have one byte each, which is in no other
character, so that a text of bytes is cut at them where the text of characters is. -/
namespace ComponentDocs.Text
open String (utf8EncodeChar)

variable {c d : Char} {cs : List Char}

/-- The one byte of an ASCII character. -/
def byte (c : Char) : UInt8 := UInt8.ofNat c.toNat

theorem toNat_byte (hc : c.toNat < 128) : (byte c).toNat = c.toNat := by
  rw [byte, UInt8.toNat_ofNat']
  omega

theorem byte_injective (hc : c.toNat < 128) (hd : d.toNat < 128) (h : byte c = byte d) : c = d := by
  apply Char.toNat_inj.1
  rw [← toNat_byte hc, ← toNat_byte hd, h]

theorem utf8EncodeChar_ascii (hc : c.toNat < 128) : utf8EncodeChar c = [byte c] := by
  have hle : c.val.toNat ≤ 127 := Nat.le_of_lt_succ hc
  unfold utf8EncodeChar
  dsimp only
  rw [if_pos hle]
  rfl

theorem utf8EncodeChar_ofUInt8 {b : UInt8} (h : b.toNat < 128) : utf8EncodeChar (Char.ofUInt8 b) = [b] := by
  have hc : (Char.ofUInt8 b).toNat = b.toNat := UInt8.toNat_toUInt32 b
  rw [utf8EncodeChar_ascii (by omega), byte, hc, UInt8.ofNat_toNat]

theorem isAlpha_iff :
    c.isAlpha = true ↔ 97 ≤ c.toNat ∧ c.toNat ≤ 122 ∨ 65 ≤ c.toNat ∧ c.toNat ≤ 90 := by
  have hranges : c.isAlpha =
      (decide ('A'.val ≤ c.val ∧ c.val ≤ 'Z'.val) || decide ('a'.val ≤ c.val) && decide (c.val ≤ 'z'.val)) := rfl
  rw [hranges]
  simp [UInt32.le_iff_toNat_le, or_comm]

theorem le_of_mem_utf8EncodeChar (hc : 128 ≤ c.toNat) {b : UInt8} (hb : b ∈ utf8EncodeChar c) : 128 ≤ b.toNat := by
  have hv : 128 ≤ c.val.toNat := hc
  have hmax : c.val.toNat < 0x110000 := by
    rcases c.valid with h | h <;> omega
  unfold utf8EncodeChar at hb
  generalize c.val.toNat = v at *
  dsimp only at hb
  split_ifs at hb
  · omega
  all_goals
    simp only [List.mem_cons, List.not_mem_nil, or_false] at hb
    rcases hb with rfl | rfl | rfl | rfl <;> rw [UInt8.toNat_ofNat'] <;> omega

theorem eq_of_mem_utf8EncodeChar (hc : c.toNat < 128) (h : byte c ∈ utf8EncodeChar d) : d = c := by
  have hd : d.toNat < 128 := by
    by_contra hno
    have hle := le_of_mem_utf8EncodeChar (by omega) h
    rw [toNat_byte hc] at hle
    omega
  rw [utf8EncodeChar_ascii hd, List.mem_singleton] at h
  exact (byte_injective hc hd h).symm

theorem byte_mem_iff (hc : c.toNat < 128) : byte c ∈ cs.flatMap utf8EncodeChar ↔ c ∈ cs := by
  rw [List.mem_flatMap]
  constructor
  · rintro ⟨d, hd, h⟩
    exact eq_of_mem_utf8EncodeChar hc h ▸ hd
  · intro h
    exact ⟨c, h, by simp [utf8EncodeChar_ascii hc]⟩

/-- A text whose bytes begin with those of an ASCII character begins with it. -/
theorem exists_cons_of_flatMap (hc : c.toNat < 128) {rest : List UInt8}
    (h : cs.flatMap utf8EncodeChar = utf8EncodeChar c ++ rest) :
    ∃ back, cs = c :: back ∧ back.flatMap utf8EncodeChar = rest := by
  rw [utf8EncodeChar_ascii hc] at h
  cases cs with
  | nil => simp at h
  | cons d back =>
    rw [List.flatMap_cons] at h
    have hfirst := congrArg List.head? h
    rw [List.head?_append_of_ne_nil _ String.utf8EncodeChar_ne_nil, List.singleton_append, List.head?_cons] at hfirst
    obtain rfl : d = c := eq_of_mem_utf8EncodeChar hc (List.mem_of_head? hfirst)
    rw [utf8EncodeChar_ascii hc] at h
    exact ⟨back, rfl, by simpa using h⟩

theorem exists_concat_of_flatMap (hc : c.toNat < 128) {rest : List UInt8}
    (h : cs.flatMap utf8EncodeChar = rest ++ utf8EncodeChar c) :
    ∃ front, cs = front ++ [c] ∧ front.flatMap utf8EncodeChar = rest := by
  rw [utf8EncodeChar_ascii hc] at h
  rcases List.eq_nil_or_concat cs with rfl | ⟨front, d, rfl⟩
  · simp at h
  · rw [List.concat_eq_append, List.flatMap_append, List.flatMap_singleton] at h
    have hlast := congrArg List.getLast? h
    rw [List.getLast?_append_of_ne_nil _ String.utf8EncodeChar_ne_nil, List.getLast?_concat] at hlast
    obtain rfl : d = c := eq_of_mem_utf8EncodeChar hc (List.mem_of_getLast? hlast)
    rw [utf8EncodeChar_ascii hc] at h
    exact ⟨front, by simp, by simpa using h⟩

theorem exists_append_of_flatMap {ext : List Char} (hext : ∀ c ∈ ext, c.toNat < 128) {rest : List UInt8}
    (h : cs.flatMap utf8EncodeChar = rest ++ ext.flatMap utf8EncodeChar) :
    ∃ front, cs = front ++ ext ∧ front.flatMap utf8EncodeChar = rest := by
  induction ext using List.reverseRecOn generalizing cs with
  | nil => exact ⟨cs, by simp, by simpa using h⟩
  | append_singleton ext c ih =>
    rw [List.flatMap_append, List.flatMap_singleton, ← List.append_assoc] at h
    obtain ⟨front, rfl, hfront⟩ := exists_concat_of_flatMap (hext c (by simp)) h
    obtain ⟨front, rfl, hrest⟩ := ih (fun d hd => hext d (by simp [hd])) hfront
    exact ⟨front, by simp, hrest⟩

end ComponentDocs.Text

/-! The order of texts by their characters is that of their bytes. -/
namespace ComponentDocs.Text

theorem cons_ofNat_lt {a b : Nat} {as bs : Bytes} (hb : b < 256) (hab : a ≤ b) (h : a = b → as < bs) :
    UInt8.ofNat a :: as < UInt8.ofNat b :: bs := by
  have ha : a < 256 := by omega
  rw [List.cons_lt_cons_iff, UInt8.lt_iff_toNat_lt, UInt8.toNat_ofNat_of_lt' ha, UInt8.toNat_ofNat_of_lt' hb]
  rcases Nat.lt_or_eq_of_le hab with hlt | rfl
  · exact .inl hlt
  · exact .inr ⟨rfl, h rfl⟩

/-- The bytes of a smaller character are smaller at the first byte where the two differ, so that it does
not matter what comes after them. -/
theorem utf8EncodeChar_append_lt {c d : Char} (h : c < d) (as bs : Bytes) :
    String.utf8EncodeChar c ++ as < String.utf8EncodeChar d ++ bs := by
  have hv : c.val.toNat < d.val.toNat := h
  have hd : d.val.toNat < 0x110000 := by
    rcases d.valid with h | h <;> omega
  unfold String.utf8EncodeChar
  generalize c.val.toNat = v at *
  generalize d.val.toNat = w at *
  dsimp only
  split_ifs
  all_goals try omega
  all_goals simp only [List.cons_append, List.nil_append]
  all_goals repeat' first
    | exact cons_ofNat_lt (by omega) (by omega) fun he => absurd he (by omega)
    | refine cons_ofNat_lt (by omega) (by omega) fun _ => ?_

theorem flatMap_utf8EncodeChar_lt {as bs : List Char} (h : as < bs) :
    as.flatMap String.utf8EncodeChar < bs.flatMap String.utf8EncodeChar := by
  induction h with
  | @nil b bs =>
    obtain ⟨x, xs, hx⟩ := List.exists_cons_of_ne_nil (String.utf8EncodeChar_ne_nil (c := b))
    rw [List.flatMap_nil, List.flatMap_cons, hx]
    exact List.Lex.nil
  | rel hab => exact utf8EncodeChar_append_lt hab _ _
  | @cons a as bs _ ih =>
    rw [List.flatMap_cons, List.flatMap_cons]
    induction String.utf8EncodeChar a with
    | nil => exact ih
    | cons b bytes ih' => exact List.Lex.cons ih'

theorem encode_lt_encode {a b : String} (h : a < b) : encode a < encode b := by
  have he (s : String) : encode s = s.toList.flatMap String.utf8EncodeChar := by
    rw [encode, String.toUTF8_eq_toByteArray, ← String.utf8Encode_toList, List.utf8Encode, List.data_toByteArray]
  rw [he, he]
  exact flatMap_utf8EncodeChar_lt (String.lt_iff.1 h)

end ComponentDocs.Text
