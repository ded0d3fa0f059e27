import BootableRecovery.Lib.Text
import BootableRecovery.Otautil.RangeSet

namespace BootableRecovery.Otautil
open Lib

def intMax : ℕ := 2 ^ 31 - 1

namespace RangeSet

/-- The constructor from pairs; a pair that `PushBack` refuses clears the whole set. -/
def ofPairs (pairs : List Range) : Option RangeSet := pairs.foldlM pushBack empty

section text
variable (parseUint : Text → ℕ → Option ℕ)

def parsePairs : List Text → Option (List Range)
  | [] => some []
  | [_] => none
  | first :: second :: pieces =>
    match parseUint first intMax, parseUint second intMax with
    | some first, some second => (parsePairs pieces).map fun pairs => (first, second) :: pairs
    | _, _ => none

/-- `Parse`, with the library's `ParseUint` of a text up to a maximum. -/
def parse (rangeText : Text) : Option RangeSet :=
  let pieces := rangeText.splitOn ','
  if pieces.length < 3 then none
  else
    match parseUint (pieces.headD []) intMax with
    | none => none
    | some num =>
      if num = 0 then none
      else if num % 2 ≠ 0 then none
      else if num ≠ pieces.length - 1 then none
      else (parsePairs parseUint pieces.tail).bind ofPairs

end text

def toText (s : RangeSet) : Text :=
  if s.ranges = [] then []
  else decimal (s.ranges.length * 2) ++
    s.ranges.flatMap fun r => ',' :: (decimal r.1 ++ ',' :: decimal r.2)

theorem foldlM_pushBack_ranges (pairs : List Range) {s t : RangeSet}
    (h : pairs.foldlM pushBack s = some t) : t.ranges = s.ranges ++ pairs := by
  induction pairs generalizing s with
  | nil =>
    cases h
    exact (List.append_nil _).symm
  | cons r pairs ih =>
    rw [List.foldlM_cons, Option.bind_eq_bind, Option.bind_eq_some_iff] at h
    obtain ⟨u, hu, hrest⟩ := h
    have hranges : u.ranges = s.ranges ++ [r] := by
      unfold pushBack at hu
      split_ifs at hu
      cases hu
      rfl
    rw [ih hrest, hranges, List.append_assoc, List.singleton_append]

theorem ofPairs_ranges {pairs : List Range} {s : RangeSet} (h : ofPairs pairs = some s) :
    s.ranges = pairs := foldlM_pushBack_ranges pairs h

variable {parseUint : Text → ℕ → Option ℕ}

theorem parsePairs_length {pieces : List Text} {pairs : List Range}
    (h : parsePairs parseUint pieces = some pairs) : 2 * pairs.length = pieces.length := by
  induction pieces using parsePairs.induct parseUint generalizing pairs with
  | case1 =>
    cases h
    rfl
  | case2 => cases h
  | case3 a b pieces first second hfirst hsecond ih =>
    rw [parsePairs, hfirst, hsecond] at h
    obtain ⟨rest, hrest, rfl⟩ := Option.map_eq_some_iff.mp h
    have := ih hrest
    simp only [List.length_cons]
    omega
  | case4 a b pieces hbad =>
    rw [parsePairs] at h
    split at h
    · exact absurd ‹_› (hbad _ _ ‹_›)
    · cases h

/-- What parses is not empty. -/
theorem parse_ranges_ne_nil {rangeText : Text} {s : RangeSet}
    (h : parse parseUint rangeText = some s) : s.ranges ≠ [] := by
  simp only [parse] at h
  split_ifs at h with hshort
  split at h
  · cases h
  split_ifs at h with hzero hodd hnum
  obtain ⟨pairs, hpairs, hs⟩ := Option.bind_eq_some_iff.mp h
  have hlen := parsePairs_length hpairs
  rw [List.length_tail] at hlen
  intro hnil
  rw [ofPairs_ranges hs] at hnil
  rw [hnil, List.length_nil] at hlen
  omega

theorem parse_blocks_pos {rangeText : Text} {s : RangeSet}
    (h : parse parseUint rangeText = some s) : 0 < s.blocks :=
  s.blocks_pos_of_ranges (parse_ranges_ne_nil h)

end RangeSet

end BootableRecovery.Otautil
