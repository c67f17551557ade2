import PolicyGates.Decimal.Shortest
/-!
# Written numbers

How a double is written in messages, in canonical texts and therefore under every hash: with
the digits of its shortest decimal, with all of them positional while the point is not too far
out, and with an exponent otherwise.  The two zeros are written alike.
-/
namespace PolicyGates.Decimal

/-- Where the written form changes.  The point of `0.d₁d₂… · 10^n` stands at `n`. -/
structure Layout where
  /-- The least position of the point that is written with leading zeros. -/
  leastPoint : Int
  /-- The greatest position of the point that is written without an exponent. -/
  greatestPoint : Int
  notANumber : String
  infinite : String

/-- Numbers from `10^-6` up to `10^21` are positional. -/
def Layout.standard : Layout := ⟨-5, 21, "NaN", "Infinity"⟩

def digitsOf (n : Nat) : List Char := Nat.toDigits 10 n

def dropZeros (ds : List Char) : List Char := (ds.reverse.dropWhile (· == '0')).reverse

/-- The digits `ds` with the point at `n`, where `ds` is not empty. -/
def Layout.place (l : Layout) (ds : List Char) (n : Int) : List Char :=
  if l.leastPoint ≤ n ∧ n ≤ l.greatestPoint then
    if n ≤ 0 then ['0', '.'] ++ List.replicate (-n).toNat '0' ++ ds
    else if ds.length ≤ n.toNat then ds ++ List.replicate (n.toNat - ds.length) '0'
    else ds.take n.toNat ++ '.' :: ds.drop n.toNat
  else
    let power := n - 1
    ds.take 1 ++ (if ds.length ≤ 1 then [] else '.' :: ds.drop 1)
      ++ ['e', if power < 0 then '-' else '+'] ++ digitsOf power.natAbs

def Layout.chars (l : Layout) (x : Float) : List Char :=
  match Binary.ofFloat? x with
  | none =>
    if x.isNaN then l.notANumber.toList
    else if x < 0 then '-' :: l.infinite.toList
    else l.infinite.toList
  | some b =>
    if b.mantissa = 0 then ['0']
    else
      let s := shortest b.mantissa b.exponent
      let ds := digitsOf s.digits
      let body := l.place (dropZeros ds) (s.exponent + ds.length)
      if b.negative then '-' :: body else body

def chars (x : Float) : List Char := Layout.standard.chars x

def text (x : Float) : String := String.ofList (chars x)

end PolicyGates.Decimal
