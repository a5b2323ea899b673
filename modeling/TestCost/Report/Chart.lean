import TestCost.Report.Settings

/-!
# Charts

Bars and histograms made of characters. A bar shares its columns out among
slices in proportion to their values: a slice ends at the column nearest to
where the sum of the values up to it falls. A histogram has equal buckets
and one bar for each; a value belongs to the first bucket whose upper end
it does not exceed, and a value above all of them is not shown.
-/

namespace TestCost

namespace Chart

/-- The column, out of `width`, at which a share of a total ends. -/
def columnOf (share total width : Nat) : Nat :=
  (floatOfCount share *
    floatOfCount width / floatOfCount total).round.toUInt64.toNat

/-- The characters of slices; `drawn` columns are filled and the values in
front sum up to `before`. -/
def slicesFrom (width total before drawn : Nat) : List (Char × Nat) → List Char
  | [] => []
  | (marker, value) :: slices =>
    let stop := columnOf (before + value) total width
    List.replicate (stop - drawn) marker
      ++ slicesFrom width total (before + value) (max drawn stop) slices

/-- A bar of `width` columns; blank when there is nothing to share. -/
def bar (width : Nat) (slices : List (Char × Nat)) : String :=
  let sum := total (slices.map Prod.snd)
  String.ofList (if sum = 0 then List.replicate width ' '
    else slicesFrom width sum 0 0 slices)

/-- The larger number; what is not a number does not count. -/
def larger (a b : Float) : Float :=
  if a.isNaN then b else if b.isNaN then a else if a < b then b else a

/-- The number without its fraction. -/
def whole (x : Float) : Float := if x < 0 then x.ceil else x.floor

/-- A histogram of equal buckets from `min` up to `max`. -/
structure Histogram where
  /-- Columns of a bar. -/
  width : Nat
  /-- Number of buckets. -/
  height : Nat
  marker : Char
  min : Float
  /-- The upper end; the largest value when there is none. -/
  max : Option Float

namespace Histogram

/-- The upper end, a whole number not below the lower end. -/
def upper (h : Histogram) (values : List Float) : Float :=
  larger (whole (h.max.getD (values.foldl larger 0))) h.min

/-- Upper ends of `count` buckets of a size above `start`. -/
def ends (start size : Float) : (count : Nat) → List Float
  | 0 => []
  | count + 1 => (start + size) :: ends (start + size) size count

/-- How many values fall into each bucket. -/
def counts (h : Histogram) (values : List Float) : List Nat :=
  let size := (h.upper values - h.min) / floatOfCount h.height
  let buckets := ends h.min size h.height
  let chosen := values.filterMap fun value => buckets.findIdx? fun stop =>
    decide (stop ≥ value)
  (List.range h.height).map fun i => chosen.count i

/-- The middle of a bucket without its fraction. -/
def middle (h : Histogram) (size : Float) (index : Nat) : Int :=
  (h.min + size * floatOfCount index + size / 2).toInt64.toInt

/-- A row with the scale and one row for each bucket. -/
def rows (h : Histogram) (values : List Float) : List String :=
  let size := (h.upper values - h.min) / floatOfCount h.height
  let counts := h.counts values
  let most := counts.foldl Nat.max 0
  let row (entry : Nat × Nat) : String :=
    Text.rightAligned 6 (toString (h.middle size entry.2)) ++ " |"
      ++ bar h.width [(h.marker, entry.1), (' ', most - entry.1)] ++ ":"
      ++ Text.rightAligned 6 (toString entry.1)
  (Text.rightAligned 8 "0" ++ " " ++ Text.rightAligned h.width (toString most))
    :: counts.zipIdx.map row

end Histogram

end Chart

end TestCost
