/-! Binary floating point numbers of double precision, read from a decimal and
shown by the fewest digits that tell them apart. All arithmetic is exact. -/
namespace ComponentDocs

inductive Double
  | nan
  | infinite (negative : Bool)
  | finite (negative : Bool) (mantissa : Nat) (exponent : Int)
deriving DecidableEq, Repr

namespace Double

def minExponent : Int := -1074

def maxExponent : Int := 971

private def scale (base : Nat) (e : Int) : Nat := base.pow e.toNat

/-- `num / den` to the nearest whole number, and to the even one of two that are as near. -/
def roundHalfEven (num den : Nat) : Nat :=
  let q := num / den
  let r := 2 * (num % den)
  if r < den || (r = den && q % 2 = 0) then q else q + 1

def nearest (negative : Bool) (num den : Nat) : Double :=
  if num = 0 then .finite negative 0 minExponent
  else
    let guess : Int := (num.log2 : Int) - den.log2 - 53
    let tooMany (e : Int) : Bool := Nat.pow 2 53 * scale 2 e * den ≤ num * scale 2 (-e)
    let e := if tooMany guess then guess + 1 else guess
    let e := if tooMany e then e + 1 else e
    let e := max e minExponent
    let m := roundHalfEven (num * scale 2 (-e)) (den * scale 2 e)
    let (m, e) := if m = Nat.pow 2 53 then (Nat.pow 2 52, e + 1) else (m, e)
    if maxExponent < e then .infinite negative else .finite negative m e

def ofDecimal (negative : Bool) (digits : Nat) (e : Int) : Double :=
  let size : Int := if digits = 0 then 0 else digits.log2
  if digits = 0 || e * 3 + size < -1200 then .finite negative 0 minExponent
  else if 400 < e then .infinite negative
  else nearest negative (digits * scale 10 e) (scale 10 (-e))

def mul : Double → Double → Double
  | .nan, _ | _, .nan => .nan
  | .infinite s, .infinite t => .infinite (s != t)
  | .infinite s, .finite t n _ | .finite t n _, .infinite s => if n = 0 then .nan else .infinite (s != t)
  | .finite s m e, .finite t n f => nearest (s != t) (m * n * scale 2 (e + f)) (scale 2 (-(e + f)))

def div : Double → Double → Double
  | .nan, _ | _, .nan => .nan
  | .infinite _, .infinite _ => .nan
  | .infinite s, .finite t _ _ => .infinite (s != t)
  | .finite s _ _, .infinite t => .finite (s != t) 0 minExponent
  | .finite s m e, .finite t n f =>
    if n = 0 then if m = 0 then .nan else .infinite (s != t)
    else nearest (s != t) (m * scale 2 (e - f)) (n * scale 2 (f - e))

def isZero : Double → Bool
  | .finite _ m _ => m = 0
  | _ => false

/-- The decimal closest to `num / den` among the multiples of `10 ^ e` for the greatest `e` that
has one between `low / den` and `high / den`. -/
private def shortest (low num high den : Nat) (closed : Bool) : Nat → Int → Nat × Int
  | 0, e => (0, e)
  | fuel + 1, e =>
    let unit := den * scale 10 e
    let up := scale 10 (-e)
    let q := num * up / unit
    let fits (d : Nat) : Bool :=
      let x := d * unit
      if closed then low * up ≤ x && x ≤ high * up else low * up < x && x < high * up
    match fits q, fits (q + 1) with
    | true, true =>
      let below := num * up - q * unit
      let above := (q + 1) * unit - num * up
      (if above < below then q + 1 else q, e)
    | true, false => (q, e)
    | false, true => (q + 1, e)
    | false, false => shortest low num high den closed fuel (e - 1)

/-- The decimal digits and the exponent of ten that show `mantissa * 2 ^ exponent`. -/
def digits (mantissa : Nat) (exponent : Int) : Nat × Int :=
  let up := 4 * scale 2 exponent
  let below := if mantissa = Nat.pow 2 52 && minExponent < exponent then 1 else 2
  let at4 := mantissa * up
  let step := up / 4
  shortest (at4 - below * step) at4 (at4 + 2 * step) (4 * scale 2 (-exponent))
    (mantissa % 2 = 0) 700 310

/-- Digits with a decimal point `e` places after the last one. -/
private def place (digits : List Char) (e : Int) : List Char :=
  match e with
  | .ofNat k => digits ++ List.replicate k '0' ++ ['.', '0']
  | .negSucc k =>
    let n := k + 1
    let padded := List.replicate (n + 1 - digits.length) '0' ++ digits
    padded.take (padded.length - n) ++ '.' :: padded.drop (padded.length - n)

private def scientific (digits : List Char) (e : Int) : List Char :=
  let power := e + (digits.length - 1 : Nat)
  let power := (if power < 0 then toString power else "+" ++ toString power).toList
  match digits with
  | [d] => d :: 'e' :: power
  | d :: ds => d :: '.' :: ds ++ 'e' :: power
  | [] => []

private def show' (layout : List Char → Int → List Char) : Double → String
  | .nan => "NaN"
  | .infinite negative => if negative then "-inf" else "inf"
  | .finite negative mantissa exponent =>
    let sign := if negative then "-" else ""
    if mantissa = 0 then sign ++ "0.0"
    else
      let (d, e) := digits mantissa exponent
      sign ++ String.ofList (layout (toString d).toList e)

protected def toString : Double → String := show' place

def compact : Double → String :=
  show' fun digits e =>
    let point := digits.length + e
    if -5 < point && point ≤ 16 then place digits e else scientific digits e

end Double

end ComponentDocs
