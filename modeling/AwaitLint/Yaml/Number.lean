/-!
# AwaitLint — numbers in YAML

Which texts are integers of 64 bits, and which are decimal fractions within the
range of a double. Underscores may stand among the digits.
-/

namespace AwaitLint.Yaml

/-! ## Integers -/

/-- The value of a digit of a base up to sixteen. -/
def digitValue (c : Char) : Nat :=
  if c.isDigit then c.toNat - '0'.toNat
  else if 'a' ≤ c && c ≤ 'f' then c.toNat - 'a'.toNat + 10
  else if 'A' ≤ c && c ≤ 'F' then c.toNat - 'A'.toNat + 10
  else 16

/-- The number with the given digits, at least one of them. -/
def ofDigits? (base : Nat) (digits : List Char) : Option Nat :=
  if digits.isEmpty || digits.any fun c => base ≤ digitValue c then none
  else some (digits.foldl (fun n c => base * n + digitValue c) 0)

/-- The size of an integer without a sign. A base other than ten is told by how
it starts. -/
def magnitude? : List Char → Option Nat
  | '0' :: 'x' :: ds | '0' :: 'X' :: ds => ofDigits? 16 ds
  | '0' :: 'o' :: ds | '0' :: 'O' :: ds => ofDigits? 8 ds
  | '0' :: 'b' :: ds | '0' :: 'B' :: ds => ofDigits? 2 ds
  | ['0'] => some 0
  | '0' :: ds => ofDigits? 8 ds
  | ds => ofDigits? 10 ds

/-- Whether the text, whose part after the sign is read by `size`, fits into 64
bits. Only a text without a sign may use all of them for its size. -/
def fits (size : List Char → Option Nat) : List Char → Bool
  | '-' :: ds => (size ds).any (· ≤ Nat.pow 2 63)
  | '+' :: ds => (size ds).any (· < Nat.pow 2 63)
  | ds => (size ds).any (· < Nat.pow 2 64)

/-- Whether the text is an integer of 64 bits. The sign of a binary or octal
number may also follow its mark. -/
def isInt (cs : List Char) : Bool :=
  let plain := cs.filter (· ≠ '_')
  fits magnitude? plain ||
    match plain with
    | '0' :: 'b' :: ds => fits (ofDigits? 2) ds
    | '0' :: 'o' :: ds => fits (ofDigits? 8) ds
    | _ => false

/-! ## Fractions -/

/-- A decimal number without its sign: `digits` times a power of ten. -/
structure Decimal where
  digits : List Char
  exponent : Int

/-- The text without a leading sign. -/
def withoutSign : List Char → List Char
  | '+' :: cs => cs
  | '-' :: cs => cs
  | cs => cs

/-- The power of ten that an optional exponent gives. -/
def exponent? : List Char → Option Int
  | [] => some 0
  | e :: cs =>
    if e ≠ 'e' && e ≠ 'E' then none
    else
      let size := (ofDigits? 10 (withoutSign cs)).map Int.ofNat
      if cs.head? = some '-' then size.map (- ·) else size

/-- The decimal number that a text without underscores spells. -/
def Decimal.read? (cs : List Char) : Option Decimal :=
  let body := withoutSign cs
  let whole := body.takeWhile Char.isDigit
  let (fraction, rest) := match body.dropWhile Char.isDigit with
    | '.' :: rest => (rest.takeWhile Char.isDigit, rest.dropWhile Char.isDigit)
    | rest => ([], rest)
  if whole.isEmpty && fraction.isEmpty then none
  else (exponent? rest).map fun e => ⟨whole ++ fraction, e - Int.ofNat fraction.length⟩

/-- The least number that rounds to a power beyond the doubles. -/
def overflow : Nat := Nat.pow 2 1024 - Nat.pow 2 970

/-- Whether a decimal number lies in the range of a double. Only numbers of
about the size of the bound have to be multiplied out. -/
def Decimal.inRange (d : Decimal) : Bool :=
  let digits := d.digits.dropWhile (· == '0')
  let order := Int.ofNat digits.length + d.exponent
  if digits.isEmpty || order < 300 then true
  else if 320 < order then false
  else
    let size := digits.foldl (fun n c => 10 * n + digitValue c) 0
    match d.exponent with
    | .ofNat e => size * Nat.pow 10 e < overflow
    | .negSucc e => size < overflow * Nat.pow 10 (e + 1)

/-- Whether every underscore stands between two digits. -/
def underscoresDivideDigits (afterDigit : Bool) : List Char → Bool
  | ['_'] => false
  | '_' :: c :: cs => afterDigit && c.isDigit && underscoresDivideDigits true cs
  | c :: cs => underscoresDivideDigits c.isDigit cs
  | [] => true

/-- Whether a text that starts with a digit or a sign is a fraction. -/
def isFloat (cs : List Char) : Bool :=
  (Decimal.read? (cs.filter (· ≠ '_'))).any Decimal.inRange

/-- Whether a text that starts with a point is a fraction. Its underscores stand
between digits. -/
def isPointFloat (cs : List Char) : Bool := underscoresDivideDigits false cs && isFloat cs

end AwaitLint.Yaml
