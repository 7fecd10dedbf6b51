/-!
Words of fixed width. A sum or a difference may leave its word: the program then stops, or goes on at the
other end of the word, depending on how it was built. A quotient without a value always stops it.
-/

-- powers are those of the core library, whatever else is imported
attribute [local instance (high)] instPowNat

namespace Cql.Word

/-- What becomes of a sum or a difference that leaves its word. -/
inductive Build where
  | checked | wrapping
  deriving DecidableEq, Repr

/-- The operation that has no result, so that the program stops. -/
inductive Breakdown where
  | sum | difference | quotient
  deriving DecidableEq, Repr

/-! ### Words of 64 bits with a sign -/

def InWord (i : Int) : Prop := -2 ^ (63 : Nat) ≤ i ∧ i < 2 ^ (63 : Nat)

instance (i : Int) : Decidable (InWord i) := inferInstanceAs (Decidable (_ ∧ _))

def add (build : Build) (a b : Int64) : Except Breakdown Int64 :=
  if build = .checked ∧ ¬ InWord (a.toInt + b.toInt) then .error .sum else .ok (a + b)

def sub (build : Build) (a b : Int64) : Except Breakdown Int64 :=
  if build = .checked ∧ ¬ InWord (a.toInt - b.toInt) then .error .difference else .ok (a - b)

/-- There is no quotient by zero, and none that leaves the word. -/
def divisible (a b : Int64) : Bool := b != 0 && !(a == Int64.minValue && b == -1)

/-- Rounded toward zero. -/
def div (a b : Int64) : Except Breakdown Int64 :=
  if divisible a b then .ok (a / b) else .error .quotient

/-- With the sign of the first number. -/
def rem (a b : Int64) : Except Breakdown Int64 :=
  if divisible a b then .ok (a % b) else .error .quotient

/-- A word of half the width and without a sign, if it has room for the number. -/
def narrow? (a : Int64) : Option UInt32 :=
  if 0 ≤ a.toInt ∧ a.toInt < 2 ^ (32 : Nat) then some (UInt32.ofNat a.toInt.toNat) else none

/-! ### Counters of 32 bits

They are counted with checks. -/

def up (n : UInt32) : Except Breakdown UInt32 :=
  if n.toNat + 1 < 2 ^ (32 : Nat) then .ok (n + 1) else .error .sum

def down (n : UInt32) : Except Breakdown UInt32 :=
  if n.toNat = 0 then .error .difference else .ok (n - 1)

end Cql.Word
