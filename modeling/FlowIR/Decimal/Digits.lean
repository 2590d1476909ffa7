/-!
# Decimal digits

A number is written with its most significant digit first and without leading zeros.
-/
namespace FlowIR.Decimal

abbrev Digit := Fin 10

def Digit.zero : Digit := ⟨0, by decide⟩

def Digit.char (digit : Digit) : Char := Char.ofNat ('0'.toNat + digit.val)

def Digit.ofChar? (c : Char) : Option Digit :=
  if within : '0'.toNat ≤ c.toNat ∧ c.toNat ≤ '9'.toNat then
    some ⟨c.toNat - '0'.toNat, by
      have : '0'.toNat = 48 := rfl
      have : '9'.toNat = 57 := rfl
      omega⟩
  else none

def digits (n : Nat) : List Digit :=
  if small : n < 10 then [⟨n, small⟩]
  else digits (n / 10) ++ [⟨n % 10, Nat.mod_lt n (by decide)⟩]

def value (ds : List Digit) : Nat := ds.foldl (fun acc digit => 10 * acc + digit.val) 0

def chars (ds : List Digit) : List Char := ds.map Digit.char

/-- The longest run of digits at the start of a text, and the rest. -/
def takeDigits : List Char → List Digit × List Char
  | [] => ([], [])
  | c :: rest =>
    match Digit.ofChar? c with
    | none => ([], c :: rest)
    | some digit => let (run, after) := takeDigits rest; (digit :: run, after)

end FlowIR.Decimal
