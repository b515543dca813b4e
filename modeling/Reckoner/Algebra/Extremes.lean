import Reckoner.Algebra.Elementary

/-!
# Order and extremes

The order of real terms, and the least and the greatest of several terms.  The least of no terms is the positive
infinity and the greatest the negative one.  A number that is not real has no place in the order.
-/

namespace Reckoner.Algebra

open Reckoner.Number

namespace Term

/-- Whether a term has a place in the order: a real number or a signed infinity. -/
def isOrdered (t : Term) : Bool := t.infinity?.isSome || t.isReal

def order? (a b : Term) : Option Ordering :=
  match a, b with
  | .rational p, .rational q => some (if p < q then .lt else if q < p then .gt else .eq)
  | .float x _, .float y _ => some (x.compare y)
  | .infinity s, .infinity t => some (if s == t then .eq else if s then .lt else .gt)
  | .infinity s, _ => if b.isReal then some (if s then .lt else .gt) else none
  | _, .infinity s => if a.isReal then some (if s then .gt else .lt) else none
  | _, _ =>
    if a.code == b.code then (if a.isReal then some .eq else none)
    else (sub a b).sign?.map fun s => if s < 0 then .lt else if 0 < s then .gt else .eq

/-- The extreme of a nonempty list that the given ordering prefers; the earlier of two equal terms stays. -/
def extreme? (preferred : Ordering) (first : Term) (rest : List Term) : Option Term :=
  rest.foldlM (fun best t => (order? t best).map fun o => if o = preferred then t else best) first

/-- The extreme of several terms: `none` if one of them has no place in the order. -/
def extremeOf? (f : NamedFunction) (preferred : Ordering) (ofNone : Term) (ts : List Term) : Option Term :=
  if ts.any fun t => t.unknowns.isEmpty && !t.isOrdered then none
  else
    match ts with
    | [] => some ofNone
    | t :: rest => if ts.all isOrdered then extreme? preferred t rest else some (.call f ts)

def least? (ts : List Term) : Option Term := extremeOf? .least .lt (.infinity false) ts

def greatest? (ts : List Term) : Option Term := extremeOf? .greatest .gt (.infinity true) ts

end Term

end Reckoner.Algebra
