/-!
# Logic — Polynomial

The polynomial of a Boolean function over the two-element field.  The coefficient at index `i`
belongs to the conjunction of those arguments `k` for which bit `k` of `i` is set, and the
function is the exclusive or of the conjunctions whose coefficient is true.

* `polynomial` turns outputs, in row order, into coefficients by one pass for each bit of the
  index (`addAlong`).  It is its own inverse, and is defined at every length.
* `degree?` is the greatest number of arguments in a conjunction of the polynomial.
-/

namespace PropBench

/-- One pass: each entry whose index has bit `k` set is added to by the entry at the index
without that bit. -/
def addAlong (entries : Array Bool) (k : Nat) : Array Bool :=
  entries.mapIdx fun i b =>
    if i.testBit k then b ^^ entries.getD (i ^^^ (1 <<< k)) false else b

/-- The coefficients of the polynomial with the given outputs. -/
def polynomial (outputs : Array Bool) : Array Bool :=
  (List.range (outputs.size.log2 + 1)).foldl addAlong outputs

/-- The number of bits set in an index. -/
def weight (i : Nat) : Nat :=
  ((List.range (i.log2 + 1)).filter i.testBit).length

/-- The greatest weight of an index with a true coefficient. -/
def degree? (coefficients : Array Bool) : Option Nat :=
  (((List.range coefficients.size).filter fun i => coefficients.getD i false).map weight).max?

end PropBench
