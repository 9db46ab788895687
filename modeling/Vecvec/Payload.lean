import Vecvec.Basic

/-!
# Payload — point metadata and the filter DSL

A payload is a JSON value attached to a point.  A filter is a boolean combination of conditions on
its top-level fields, evaluated per candidate during a search; a point without a payload is a
candidate too, whose every field is missing.

Doubles are compared as IEEE 754 has it, on their bit patterns.
-/

namespace Vecvec

/-- An `f64`, as its bit pattern. -/
abbrev F64 := BitVec 64

namespace F64

/-- The exponent is all ones and the fraction is not zero. -/
def isNaN (x : F64) : Bool := 0x7FF0000000000000#64 < x &&& 0x7FFFFFFFFFFFFFFF#64

/-- The order of the doubles that are numbers, as a map to the integers; the two zeros are one. -/
def ord (x : F64) : ℤ :=
  let magnitude : ℤ := (x &&& 0x7FFFFFFFFFFFFFFF#64).toNat
  if x.msb then -magnitude else magnitude

/-- `x < y` -/
def lt (x y : F64) : Bool := !x.isNaN && !y.isNaN && x.ord < y.ord

/-- `x <= y` -/
def le (x y : F64) : Bool := !x.isNaN && !y.isNaN && x.ord ≤ y.ord

/-- `x == y` -/
def eq (x y : F64) : Bool := !x.isNaN && !y.isNaN && x.ord == y.ord

/-- `n as f64`: the nearest double, the even one of two.  A fraction that rounds up to the next
power of two carries into the exponent. -/
def ofNat (n : ℕ) : F64 :=
  if n = 0 then 0
  else
    let e := n.log2
    let significand :=
      if e ≤ 52 then n * 2 ^ (52 - e)
      else
        let ulp := 2 ^ (e - 52)
        let q := n / ulp
        if ulp < 2 * (n % ulp) ∨ ulp = 2 * (n % ulp) ∧ q % 2 = 1 then q + 1 else q
    BitVec.ofNat 64 ((e + 1022) * 2 ^ 52 + significand)

/-- `n as f64` for a signed integer. -/
def ofInt (n : ℤ) : F64 := if n < 0 then ofNat n.natAbs ||| 0x8000000000000000#64
    else ofNat n.natAbs

end F64

/-! ## JSON values -/

namespace Number

/-- `Number == Number`: numbers of different kinds are different. -/
def eq : Number → Number → Bool
  | posInt m, posInt n => m == n
  | negInt m, negInt n => m == n
  | float x, float y => F64.eq x y
  | _, _ => false

/-- `as_f64`. -/
def asF64 : Number → F64
  | posInt n => F64.ofNat n
  | negInt n => F64.ofInt n
  | float x => x

end Number

namespace Payload

mutual

/-- `Value == Value`.  The fields of an object are in the order of their keys. -/
def eq : Payload → Payload → Bool
  | null, null => true
  | bool a, bool b => a == b
  | number m, number n => m.eq n
  | string s, string t => s == t
  | array ps, array qs => eqItems ps qs
  | object fs, object gs => eqFields fs gs
  | _, _ => false

/-- Equality of arrays. -/
def eqItems : List Payload → List Payload → Bool
  | [], [] => true
  | p :: ps, q :: qs => eq p q && eqItems ps qs
  | _, _ => false

/-- Equality of objects. -/
def eqFields : List (String × Payload) → List (String × Payload) → Bool
  | [], [] => true
  | (k, p) :: fs, (l, q) :: gs => k == l && eq p q && eqFields fs gs
  | _, _ => false

end

/-- `get`: a field of an object. -/
def get (p : Payload) (key : String) : Option Payload :=
  match p with
  | object fields => fields.lookup key
  | _ => none

/-- `as_f64`. -/
def asF64 : Payload → Option F64
  | number n => some n.asF64
  | _ => none

end Payload

/-! ## Filters -/

/-- A numeric range; any bound may be open. -/
structure Range where
  /-- Strictly greater than. -/
  gt : Option F64 := none
  /-- Greater than or equal. -/
  gte : Option F64 := none
  /-- Strictly less than. -/
  lt : Option F64 := none
  /-- Less than or equal. -/
  lte : Option F64 := none

/-- Whether a number lies in the range. -/
def Range.contains (r : Range) (n : F64) : Bool :=
  r.gt.all (fun b => b.lt n) && r.gte.all (fun b => b.le n) &&
    r.lt.all (fun b => n.lt b) && r.lte.all fun b => n.le b

/-- A condition on one payload field. -/
structure Condition where
  /-- The field's name. -/
  key : String
  /-- The value it has to equal (`r#match`). -/
  match' : Option Payload := none
  /-- The range it has to lie in. -/
  range : Option Range := none

/-- Whether a payload meets the condition. -/
def Condition.eval (c : Condition) (payload : Option Payload) : Bool :=
  let value := payload.bind fun p => p.get c.key
  c.match'.all (fun expected => value.any fun v => v.eq expected) &&
    c.range.all fun range => (value.bind Payload.asF64).any range.contains

/-- A boolean combination of conditions. -/
structure Filter where
  /-- All must match. -/
  must : List Condition := []
  /-- At least one must match, if there are any. -/
  should : List Condition := []
  /-- None may match. -/
  mustNot : List Condition := []

/-- Whether the filter passes a payload, or the lack of one. -/
def Filter.eval (f : Filter) (payload : Option Payload) : Bool :=
  if f.must.any fun c => !c.eval payload then false
  else if f.mustNot.any fun c => c.eval payload then false
  else if !f.should.isEmpty && !f.should.any fun c => c.eval payload then false
  else true

/-- A filter, and the payloads to evaluate it against. -/
structure FilterQuery where
  /-- The filter. -/
  filter : Filter
  /-- The payloads. -/
  payloads : PayloadMap

/-- Whether a point passes the filter. -/
def FilterQuery.matches (q : FilterQuery) (global : GlobalId) : Bool :=
  q.filter.eval (q.payloads global)

end Vecvec
