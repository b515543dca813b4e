import Reckoner.Number.Binary

/-!
# Terms

A term is a value of the calculator in simplest form: a rational whenever the value is known to be one, and otherwise
an expression over constants, powers and functions in which like summands and like factors have been merged.

Terms are compared by their *code*, a list of integers that spells the term from the outside inward.  Two terms are
the same exactly when their codes are.
-/

namespace Reckoner.Algebra

open Reckoner.Number

/-- Functions that can remain in a simplified term. -/
inductive NamedFunction
  | sine | cosine | tangent | logarithm | absolute | floor | ceiling | least | greatest | remainder | sign
  deriving DecidableEq, Repr

/-- Values in simplest form.  A `float` is a number rounded to `bits` significant bits, an `oscillation` the
    undetermined value of a sine at infinity, an `unknown` a function without a meaning applied to arguments. -/
inductive Term
  | rational (q : Rat)
  | float (x : Binary) (bits : Nat)
  | infinity (negative : Bool)
  | complexInfinity
  | undefined
  | oscillation
  | pi
  | e
  | symbol (name : String)
  | unknown (name : String) (arguments : List Term)
  | sum (terms : List Term)
  | product (factors : List Term)
  | power (base exponent : Term)
  | call (f : NamedFunction) (arguments : List Term)
  deriving Repr

instance : Inhabited Term := ⟨.undefined⟩

namespace Term

def zero : Term := .rational 0

def one : Term := .rational 1

def half : Term := .rational (1 / 2)

def minusOne : Term := .rational (-1)

def ofInt (m : Int) : Term := .rational m

/-- The imaginary unit, the square root of minus one. -/
def imaginaryUnit : Term := .power minusOne half

def rational? : Term → Option Rat
  | .rational q => some q
  | _ => none

/-- Whether a term is a rational or a rounded number. -/
def isNumber : Term → Bool
  | .rational _ => true
  | .float _ _ => true
  | _ => false

/-- The infinity with its sign, if the term is one. -/
def infinity? : Term → Option Bool
  | .infinity negative => some negative
  | _ => none

/-! ### Codes -/

def functionCode : NamedFunction → Int
  | .sine => 0
  | .cosine => 1
  | .tangent => 2
  | .logarithm => 3
  | .absolute => 4
  | .floor => 5
  | .ceiling => 6
  | .least => 7
  | .greatest => 8
  | .remainder => 9
  | .sign => 10

/-- The code of a name: its length and its characters. -/
def nameCode (name : String) : List Int := (name.length : Int) :: name.toList.map fun c => (c.toNat : Int)

mutual

def code : Term → List Int
  | .rational q => [0, q.num, q.den]
  | .float x bits => [1, x.mantissa, x.exponent, bits]
  | .infinity negative => [2, if negative then 1 else 0]
  | .complexInfinity => [3]
  | .undefined => [4]
  | .oscillation => [5]
  | .pi => [6]
  | .e => [7]
  | .symbol name => 8 :: nameCode name
  | .unknown name arguments => 9 :: nameCode name ++ (arguments.length : Int) :: codes arguments
  | .sum terms => 10 :: (terms.length : Int) :: codes terms
  | .product factors => 11 :: (factors.length : Int) :: codes factors
  | .power base exponent => 12 :: code base ++ code exponent
  | .call f arguments => 13 :: functionCode f :: (arguments.length : Int) :: codes arguments

/-- The codes of several terms, one after the other. -/
def codes : List Term → List Int
  | [] => []
  | t :: rest => code t ++ codes rest

end

def compareCodes : List Int → List Int → Ordering
  | [], [] => .eq
  | [], _ :: _ => .lt
  | _ :: _, [] => .gt
  | a :: s, b :: t => if a < b then .lt else if b < a then .gt else compareCodes s t

/-- The order in which summands and factors are written. -/
def compare (s t : Term) : Ordering := compareCodes s.code t.code

def same (s t : Term) : Bool := s.code == t.code

instance : BEq Term := ⟨same⟩

/-! ### What a term mentions -/

mutual

def unknowns : Term → List String
  | .symbol name => [name]
  | .unknown name arguments => name :: unknownsOf arguments
  | .sum terms => unknownsOf terms
  | .product factors => unknownsOf factors
  | .power base exponent => unknowns base ++ unknowns exponent
  | .call _ arguments => unknownsOf arguments
  | _ => []

/-- Names without a value that occur in one of the terms. -/
def unknownsOf : List Term → List String
  | [] => []
  | t :: rest => unknowns t ++ unknownsOf rest

end

mutual

/-- Whether an unsigned infinity or an undefined value occurs in the term. -/
def mentionsUndefined : Term → Bool
  | .complexInfinity => true
  | .undefined => true
  | .unknown _ arguments => anyUndefined arguments
  | .sum terms => anyUndefined terms
  | .product factors => anyUndefined factors
  | .power base exponent => mentionsUndefined base || mentionsUndefined exponent
  | .call _ arguments => anyUndefined arguments
  | _ => false

/-- Whether `mentionsUndefined` holds of one of the terms. -/
def anyUndefined : List Term → Bool
  | [] => false
  | t :: rest => mentionsUndefined t || anyUndefined rest

end

end Term

end Reckoner.Algebra
