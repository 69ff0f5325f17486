import ComponentDocs.Text.Invisible
/-! Texts as lists of lines. Line feeds separate lines, so a text always has at
least one line, and joining the lines of a text gives the text back. -/
namespace ComponentDocs.Text

abbrev Line := List Char

def lines : List Char → List Line
  | [] => [[]]
  | c :: cs =>
    if c = '\n' then [] :: lines cs
    else match lines cs with
      | [] => [[c]]
      | l :: ls => (c :: l) :: ls

def joinLines : List Line → List Char
  | [] => []
  | [l] => l
  | l :: ls => l ++ '\n' :: joinLines ls

/-- Writes every carriage return directly before a line feed out of the text. -/
def unixNewlines : List Char → List Char
  | '\r' :: '\n' :: cs => '\n' :: unixNewlines cs
  | c :: cs => c :: unixNewlines cs
  | [] => []

theorem lines_ne_nil (cs : List Char) : lines cs ≠ [] := by
  cases cs with
  | nil => simp [lines]
  | cons c cs => unfold lines; split <;> (try split) <;> simp

theorem joinLines_lines (cs : List Char) : joinLines (lines cs) = cs := by
  induction cs with
  | nil => rfl
  | cons c cs ih =>
    unfold lines
    split
    · next h =>
      subst h
      have hne := lines_ne_nil cs
      cases hl : lines cs with
      | nil => exact absurd hl hne
      | cons l ls => rw [hl] at ih; simp [joinLines, ih]
    · cases hl : lines cs with
      | nil => exact absurd hl (lines_ne_nil cs)
      | cons l ls =>
        rw [hl] at ih
        cases ls with
        | nil => simpa [joinLines] using ih
        | cons m ms => simpa [joinLines] using ih

theorem not_mem_of_mem_lines {cs : List Char} {l : Line} (h : l ∈ lines cs) : '\n' ∉ l := by
  induction cs generalizing l with
  | nil => simp [lines] at h; simp [h]
  | cons c cs ih =>
    unfold lines at h
    split at h
    · rcases List.mem_cons.1 h with rfl | h
      · simp
      · exact ih h
    · next hc =>
      split at h
      · simp only [List.mem_singleton] at h
        subst h
        simpa using Ne.symm hc
      · next l' ls hl =>
        rcases List.mem_cons.1 h with rfl | h
        · have := ih (l := l') (by simp [hl])
          simpa using ⟨Ne.symm hc, this⟩
        · exact ih (by simp [hl, h])

/-! Blank characters: those with the Unicode property `White_Space`. -/

def isBlankChar (c : Char) : Bool :=
  let n := c.toNat
  (9 ≤ n && n ≤ 13) || n == 0x20 || n == 0x85 || n == 0xA0 || n == 0x1680 ||
  (0x2000 ≤ n && n ≤ 0x200A) || n == 0x2028 || n == 0x2029 || n == 0x202F ||
  n == 0x205F || n == 0x3000

def isBlank (cs : List Char) : Bool := cs.all isBlankChar

def trimStart (cs : List Char) : List Char := cs.dropWhile isBlankChar

def trimEnd : List Char → List Char
  | [] => []
  | c :: cs =>
    match trimEnd cs with
    | [] => if isBlankChar c then [] else [c]
    | kept => c :: kept

def trim (cs : List Char) : List Char := trimEnd (trimStart cs)

def blankTail (cs : List Char) : List Char := cs.drop (trimEnd cs).length

/-- The maximal runs of characters that are not blank. -/
def words (cs : List Char) : List (List Char) :=
  go [] cs
where
  go (word : List Char) : List Char → List (List Char)
    | [] => if word.isEmpty then [] else [word.reverse]
    | c :: cs =>
      if isBlankChar c then
        if word.isEmpty then go [] cs else word.reverse :: go [] cs
      else go (c :: word) cs

theorem trimEnd_eq_nil_iff {cs : List Char} : trimEnd cs = [] ↔ isBlank cs := by
  induction cs with
  | nil => simp [trimEnd, isBlank]
  | cons c cs ih =>
    simp only [isBlank, List.all_cons, Bool.and_eq_true] at ih ⊢
    cases h : trimEnd cs with
    | nil =>
      have hb := ih.1 h
      by_cases hc : isBlankChar c <;> simp [trimEnd, h, hc, hb]
    | cons d ds =>
      have hb : ¬ cs.all isBlankChar = true := fun hb => by simp [ih.2 hb] at h
      simp [trimEnd, h, hb]

theorem trimEnd_append_blankTail (cs : List Char) : trimEnd cs ++ blankTail cs = cs := by
  induction cs with
  | nil => rfl
  | cons c cs ih =>
    unfold blankTail at ih ⊢
    cases h : trimEnd cs with
    | nil => by_cases hc : isBlankChar c <;> simp [trimEnd, h, hc]
    | cons d ds =>
      rw [h] at ih
      simpa [trimEnd, h] using ih

/-! Decimal digits: the characters of category `Nd` of Unicode 16. -/

/-- The code points of the digits zero. The other nine digits of a script follow its zero. -/
def zeroDigits : List Nat :=
  [0x30, 0x660, 0x6F0, 0x7C0, 0x966, 0x9E6, 0xA66, 0xAE6, 0xB66, 0xBE6, 0xC66, 0xCE6, 0xD66,
   0xDE6, 0xE50, 0xED0, 0xF20, 0x1040, 0x1090, 0x17E0, 0x1810, 0x1946, 0x19D0, 0x1A80, 0x1A90,
   0x1B50, 0x1BB0, 0x1C40, 0x1C50, 0xA620, 0xA8D0, 0xA900, 0xA9D0, 0xA9F0, 0xAA50, 0xABF0,
   0xFF10, 0x104A0, 0x10D30, 0x10D40, 0x11066, 0x110F0, 0x11136, 0x111D0, 0x112F0, 0x11450,
   0x114D0, 0x11650, 0x116C0, 0x116D0, 0x116DA, 0x11730, 0x118E0, 0x11950, 0x11BF0, 0x11C50,
   0x11D50, 0x11DA0, 0x11F50, 0x16130, 0x16A60, 0x16AC0, 0x16B50, 0x16D70, 0x1CCF0, 0x1D7CE,
   0x1D7D8, 0x1D7E2, 0x1D7EC, 0x1D7F6, 0x1E140, 0x1E2F0, 0x1E4F0, 0x1E5F1, 0x1E950, 0x1FBF0]

def isDecimalDigit (c : Char) : Bool :=
  zeroDigits.any fun first => first ≤ c.toNat && c.toNat < first + 10

/-! Texts in double quotes, with escapes for what could not be told apart by eye. -/

def escaped (c : Char) : List Char :=
  if c == '\x00' then ['\\', '0']
  else if c == '\t' then ['\\', 't']
  else if c == '\r' then ['\\', 'r']
  else if c == '\n' then ['\\', 'n']
  else if c == '"' || c == '\\' then ['\\', c]
  else if isInvisible c then "\\u\x7b".toList ++ Nat.toDigits 16 c.toNat ++ ['}']
  else [c]

def quoted (s : String) : String := String.ofList ('"' :: s.toList.flatMap escaped ++ ['"'])

/-! Replacing a text inside of another. -/

/-- Writes `new` for every `old` in a text. Of two that overlap the first is replaced. -/
def replaceAll (old new : List Char) : List Char → List Char
  | [] => []
  | c :: cs =>
    if old.isPrefixOf (c :: cs) then new ++ replaceAll old new (cs.drop (old.length - 1))
    else c :: replaceAll old new cs
termination_by cs => cs.length
decreasing_by all_goals simp; try omega

end ComponentDocs.Text

/-! Texts as bytes, by UTF-8. -/
namespace ComponentDocs

abbrev Bytes := List UInt8

namespace Text

def encode (s : String) : Bytes := s.toUTF8.data.toList

def decode? (bytes : Bytes) : Option String := String.fromUTF8? ⟨bytes.toArray⟩

def tailRanges (first : UInt8) : Option (List (UInt8 × UInt8)) :=
  if first ≤ 0x7F then some []
  else if first < 0xC2 then none
  else if first ≤ 0xDF then some [(0x80, 0xBF)]
  else if first = 0xE0 then some [(0xA0, 0xBF), (0x80, 0xBF)]
  else if first = 0xED then some [(0x80, 0x9F), (0x80, 0xBF)]
  else if first ≤ 0xEF then some [(0x80, 0xBF), (0x80, 0xBF)]
  else if first = 0xF0 then some [(0x90, 0xBF), (0x80, 0xBF), (0x80, 0xBF)]
  else if first ≤ 0xF3 then some [(0x80, 0xBF), (0x80, 0xBF), (0x80, 0xBF)]
  else if first = 0xF4 then some [(0x80, 0x8F), (0x80, 0xBF), (0x80, 0xBF)]
  else none

/-- The bytes at the front that lie in the ranges, one in each, and what follows them. -/
def takeFitting : List (UInt8 × UInt8) → Bytes → Bytes × Bytes
  | (low, high) :: ranges, b :: bytes =>
    if low ≤ b ∧ b ≤ high then
      let (fitting, rest) := takeFitting ranges bytes
      (b :: fitting, rest)
    else ([], b :: bytes)
  | _, bytes => ([], bytes)

theorem takeFitting_length (ranges : List (UInt8 × UInt8)) (bytes : Bytes) :
    (takeFitting ranges bytes).2.length ≤ bytes.length := by
  induction bytes generalizing ranges with
  | nil => cases ranges <;> simp [takeFitting]
  | cons b bytes ih =>
    cases ranges with
    | nil => simp [takeFitting]
    | cons r ranges =>
      unfold takeFitting
      split
      · have := ih ranges
        simp only [List.length_cons]
        omega
      · simp

def character (first : UInt8) (tail : Bytes) : Char :=
  let lead := first.toNat % (match tail.length with
    | 0 => 128
    | 1 => 32
    | 2 => 16
    | _ => 8)
  Char.ofNat (tail.foldl (fun n b => 64 * n + b.toNat % 64) lead)

def replacement : Char := '\uFFFD'

private def decodeOnto (read : List Char) : Bytes → List Char
  | [] => read.reverse
  | b :: bytes =>
    match tailRanges b with
    | none => decodeOnto (replacement :: read) bytes
    | some ranges =>
      let tail := (takeFitting ranges bytes).1
      decodeOnto ((if tail.length = ranges.length then character b tail else replacement) :: read)
        (takeFitting ranges bytes).2
termination_by bytes => bytes.length
decreasing_by
  · simp
  · exact Nat.lt_succ_of_le (takeFitting_length ranges bytes)

/-- The text of some bytes, with one replacement for the longest part of a character that is not
complete, or for a byte that begins none. -/
def decodeLossy (bytes : Bytes) : String := String.ofList (decodeOnto [] bytes)

theorem fromUTF8?_toByteArray (s : String) : String.fromUTF8? s.toByteArray = some s := by
  unfold String.fromUTF8?
  split
  · simp [String.fromUTF8]
  · next h => exact absurd s.isValidUTF8 h

theorem decode?_encode (s : String) : decode? (encode s) = some s := by
  simpa [decode?, encode] using fromUTF8?_toByteArray s

theorem encode_of_decode? {bytes : Bytes} {s : String} (h : decode? bytes = some s) : encode s = bytes := by
  unfold decode? String.fromUTF8? at h
  split at h
  · obtain rfl := Option.some.inj h
    simp [encode, String.fromUTF8]
  · exact nomatch h

end Text

end ComponentDocs
