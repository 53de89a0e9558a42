import Cutout.Binary64
/-! Sums and products without rounding: what rounding takes from a result is kept as a number of its
own, and a value is held as a list of numbers whose sum is meant. Nothing is lost as long as no
result leaves the range of the format. -/
namespace Cutout

namespace Binary64

def twoSum (a b : Binary64) : Binary64 × Binary64 :=
  let x := a.add b
  let fromB := x.sub a
  let fromA := x.sub fromB
  (x, (a.sub fromA).add (b.sub fromB))

def differenceRest (a b x : Binary64) : Binary64 :=
  let fromB := a.sub x
  let fromA := x.add fromB
  (a.sub fromA).add (fromB.sub b)

def twoDifference (a b : Binary64) : Binary64 × Binary64 :=
  let x := a.sub b
  (x, differenceRest a b x)

def splitter : Binary64 := ofNat (1 <<< 27 + 1)

def halves (a : Binary64) : Binary64 × Binary64 :=
  let c := splitter.mul a
  let upper := c.sub (c.sub a)
  (upper, a.sub upper)

def twoProduct (a b : Binary64) : Binary64 × Binary64 :=
  let x := a.mul b
  let (a1, a0) := halves a
  let (b1, b0) := halves b
  let rest := ((x.sub (a1.mul b1)).sub (a0.mul b1)).sub (a1.mul b0)
  (x, (a0.mul b0).sub rest)

end Binary64

abbrev Expansion := List Binary64

namespace Expansion

def ofProducts (a b c d : Binary64) : Expansion :=
  let (p1, p0) := a.twoProduct b
  let (q1, q0) := c.twoProduct d
  let (low, x0) := p0.twoDifference q0
  let (high, middle) := p1.twoSum low
  let (low, x1) := middle.twoDifference q1
  let (x3, x2) := high.twoSum low
  [x0, x1, x2, x3]

def rounded (e : Expansion) : Binary64 := e.foldl Binary64.add .zero

def isSmaller (a b : Binary64) : Bool := a.lt b == a.neg.lt b

def collect (done : Expansion) (sum : Binary64) : List Binary64 → Expansion
  | [] => (if sum.same .zero && !done.isEmpty then done else sum :: done).reverse
  | x :: xs =>
    let (sum, rest) := sum.twoSum x
    collect (if rest.same .zero then done else rest :: done) sum xs

def add (e f : Expansion) : Expansion :=
  match List.merge e f isSmaller with
  | [] => []
  | x :: xs => collect [] x xs

def leading (e : Expansion) : Binary64 := e.getLast?.getD .zero

end Expansion
end Cutout
