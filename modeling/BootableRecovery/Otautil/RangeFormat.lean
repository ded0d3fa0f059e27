import BootableRecovery.Otautil.RangeText

namespace BootableRecovery.Otautil
open Lib

/-! The text of a range set, and the fields that the class keeps. -/

/-- The fields `ranges_` and `blocks_`, as they are stored. -/
@[ext] structure RangeFields where
  ranges : List Range
  blocks : ℕ
deriving DecidableEq

namespace RangeFields

/-- `Clear`; the default constructor gives the same. -/
def clear : RangeFields := ⟨[], 0⟩

def pushBack (s : RangeFields) (r : Range) : Bool × RangeFields :=
  if r.1 ≥ r.2 then (false, s)
  else
    let sz := r.2 - r.1
    if s.blocks ≥ sizeMax - sz then (false, s)
    else (true, ⟨s.ranges ++ [r], u64 (s.blocks + sz)⟩)

def pushPairs : List Range → RangeFields → RangeFields
  | [], s => s
  | r :: rs, s => if (s.pushBack r).1 then pushPairs rs (s.pushBack r).2 else clear

/-- The constructor from pairs. -/
def ofPairs (pairs : List Range) : RangeFields := pushPairs pairs clear

/-- `Parse` returns the empty set on errors. -/
def parse (parseUint : Text → ℕ → Option ℕ) (rangeText : Text) : RangeFields :=
  let pieces := rangeText.splitOn ','
  if pieces.length < 3 then clear
  else
    match parseUint (pieces.headD []) intMax with
    | none => clear
    | some num =>
      if num = 0 then clear
      else if num % 2 ≠ 0 then clear
      else if num ≠ pieces.length - 1 then clear
      else
        match RangeSet.parsePairs parseUint pieces.tail with
        | none => clear
        | some pairs => ofPairs pairs

end RangeFields

namespace RangeSet

def fields (s : RangeSet) : RangeFields := ⟨s.ranges, s.blocks⟩

@[simp] theorem fields_ranges (s : RangeSet) : s.fields.ranges = s.ranges := rfl

@[simp] theorem fields_blocks (s : RangeSet) : s.fields.blocks = s.blocks := rfl

@[simp] theorem fields_empty : empty.fields = RangeFields.clear := rfl

theorem blocks_lt (s : RangeSet) : s.blocks < sizeMax := s.bounded

theorem fields_pushBack (s : RangeSet) (r : Range) :
    s.fields.pushBack r = ((s.pushBack r).isSome, ((s.pushBack r).getD s).fields) := by
  have hs := s.blocks_lt
  by_cases hr : r.1 < r.2
  · by_cases hb : s.blocks + (r.2 - r.1) < sizeMax
    · have hsum : u64 (s.blocks + (r.2 - r.1)) = s.blocks + (r.2 - r.1) := by
        apply u64_of_lt
        unfold sizeMax at hb
        omega
      have hroom : ¬sizeMax - (r.2 - r.1) ≤ s.blocks := by omega
      obtain ⟨t, ht, hranges⟩ := pushBack_of_lt s r hr hb
      have hblocks : t.blocks = s.blocks + (r.2 - r.1) := by
        rw [blocks, pushBack_expand ht, List.length_append, List.length_range', expand_length]
      simp [RangeFields.pushBack, hr, hroom, hsum, ht, fields, hranges, hblocks]
    · have hfull : sizeMax - (r.2 - r.1) ≤ s.blocks := by omega
      simp [RangeFields.pushBack, pushBack, hb, hfull]
  · simp [RangeFields.pushBack, pushBack, hr]

theorem fields_pushPairs (pairs : List Range) (s : RangeSet) :
    RangeFields.pushPairs pairs s.fields =
      ((pairs.foldlM pushBack s).elim RangeFields.clear fields) := by
  induction pairs generalizing s with
  | nil => rfl
  | cons r pairs ih =>
    rw [RangeFields.pushPairs, fields_pushBack, List.foldlM_cons]
    cases h : s.pushBack r with
    | none => rfl
    | some t => exact ih t

/-- The constructor's fields are those of the set it builds, and none of a set that it refuses. -/
theorem fields_ofPairs (pairs : List Range) :
    RangeFields.ofPairs pairs = (ofPairs pairs).elim RangeFields.clear fields :=
  fields_pushPairs pairs empty

section format
variable {parseUint : Text → ℕ → Option ℕ}

theorem fields_parse (text : Text) :
    RangeFields.parse parseUint text = (parse parseUint text).elim RangeFields.clear fields := by
  simp only [RangeFields.parse, parse]
  by_cases hshort : (text.splitOn ',').length < 3
  · rw [if_pos hshort, if_pos hshort]
    rfl
  rw [if_neg hshort, if_neg hshort]
  cases parseUint ((text.splitOn ',').headD []) intMax with
  | none => rfl
  | some num =>
    dsimp only
    split_ifs
    · rfl
    · rfl
    · rfl
    · cases parsePairs parseUint (text.splitOn ',').tail with
      | none => rfl
      | some pairs => exact fields_ofPairs pairs

/-- What the words of a text say: how many numbers follow, and the ends of the ranges in order. -/
def Spells (parseUint : Text → ℕ → Option ℕ) (text : Text) (rs : List Range) : Prop :=
  rs ≠ [] ∧ ∃ head words, text.splitOn ',' = head :: words ∧
    parseUint head intMax = some (2 * rs.length) ∧
    words.map (fun word => parseUint word intMax) = rs.flatMap fun r => [some r.1, some r.2]

theorem parsePairs_eq_some {pieces : List Text} {pairs : List Range} :
    parsePairs parseUint pieces = some pairs ↔
      pieces.map (fun word => parseUint word intMax) =
        pairs.flatMap fun r => [some r.1, some r.2] := by
  induction pieces using parsePairs.induct parseUint generalizing pairs with
  | case1 =>
    cases pairs with
    | nil => simp [parsePairs]
    | cons r pairs => simp [parsePairs]
  | case2 word =>
    cases pairs with
    | nil => simp [parsePairs]
    | cons r pairs => simp [parsePairs]
  | case3 a b pieces first second hfirst hsecond ih =>
    cases pairs with
    | nil => simp [parsePairs, hfirst, hsecond]
    | cons r pairs =>
      simp only [parsePairs, hfirst, hsecond, Option.map_eq_some_iff, List.cons.injEq,
        List.map_cons, List.flatMap_cons, List.cons_append, List.nil_append, Option.some.injEq,
        ← ih, exists_eq_right_right, Prod.ext_iff]
      tauto
  | case4 a b pieces hbad =>
    have hnone : parsePairs parseUint (a :: b :: pieces) = none := by
      rw [parsePairs]
      split
      · exact absurd ‹_› (hbad _ _ ‹_›)
      · rfl
    rw [hnone]
    refine ⟨fun h => absurd h (Option.some_ne_none pairs).symm, fun h => ?_⟩
    cases pairs with
    | nil => simp at h
    | cons r pairs =>
      simp only [List.map_cons, List.flatMap_cons, List.cons_append, List.nil_append,
        List.cons.injEq] at h
      exact absurd h.2.1 (hbad _ _ h.1)

theorem foldlM_pushBack_iff {pairs : List Range} {s t : RangeSet} :
    pairs.foldlM pushBack s = some t ↔ t.ranges = s.ranges ++ pairs := by
  refine ⟨foldlM_pushBack_ranges pairs, fun h => ?_⟩
  induction pairs generalizing s with
  | nil =>
    rw [List.append_nil] at h
    exact congrArg some (RangeSet.ext h.symm)
  | cons r pairs ih =>
    have hr : r.1 < r.2 := t.proper r (by simp [h])
    have hb : s.blocks + (r.2 - r.1) < sizeMax := by
      have ht := t.bounded
      simp only [h, expandRanges_append, expandRanges_cons, List.length_append,
        List.length_range'] at ht
      simp only [blocks, expand]
      omega
    obtain ⟨u, hu, hranges⟩ := pushBack_of_lt s r hr hb
    rw [List.foldlM_cons, hu]
    apply ih
    rw [h, hranges, List.append_assoc, List.singleton_append]

theorem ofPairs_eq_some {pairs : List Range} {s : RangeSet} :
    ofPairs pairs = some s ↔ s.ranges = pairs := foldlM_pushBack_iff

/-- `Parse` accepts what spells the ranges of a set, and nothing else. -/
theorem parse_eq_some {text : Text} {s : RangeSet} :
    parse parseUint text = some s ↔ Spells parseUint text s.ranges := by
  obtain ⟨head, words, hsplit⟩ := List.exists_cons_of_ne_nil (List.splitOn_ne_nil ',' text)
  simp only [parse, Spells, hsplit, List.headD_cons, List.tail_cons, List.length_cons,
    List.cons.injEq]
  constructor
  · intro h
    split_ifs at h with hshort
    split at h
    case h_1 => cases h
    case h_2 num hnum =>
      split_ifs at h with hzero hodd hcount
      obtain ⟨pairs, hpairs, hs⟩ := Option.bind_eq_some_iff.mp h
      rw [ofPairs_eq_some.mp hs]
      have hlen := parsePairs_length hpairs
      refine ⟨?_, head, words, ⟨rfl, rfl⟩, ?_, parsePairs_eq_some.mp hpairs⟩
      · rintro rfl
        rw [List.length_nil] at hlen
        omega
      · rw [hnum, hlen]
        congr 1
        omega
  · rintro ⟨hne, _, _, ⟨rfl, rfl⟩, hhead, hwords⟩
    have hpairs := parsePairs_eq_some.mpr hwords
    have hlen := parsePairs_length hpairs
    have hpos := List.length_pos_iff.mpr hne
    rw [if_neg (by omega), hhead]
    dsimp only
    rw [if_neg (by omega), if_neg (by omega), if_neg (by omega), hpairs]
    exact ofPairs_eq_some.mpr rfl

theorem spells_ends {text : Text} {rs : List Range} (h : Spells parseUint text rs)
    (hmax : ∀ word maximum n, parseUint word maximum = some n → n ≤ maximum) :
    ∀ r ∈ rs, r.2 ≤ intMax := by
  obtain ⟨-, head, words, -, -, hwords⟩ := h
  intro r hr
  have hmem : some r.2 ∈ rs.flatMap fun r => [some r.1, some r.2] :=
    List.mem_flatMap.mpr ⟨r, hr, List.mem_cons_of_mem _ List.mem_cons_self⟩
  rw [← hwords] at hmem
  obtain ⟨word, -, hword⟩ := List.mem_map.mp hmem
  exact hmax _ _ _ hword

theorem expandRanges_length_le {rs : List Range} {bound : ℕ} (h : ∀ r ∈ rs, r.2 ≤ bound) :
    (expandRanges rs).length ≤ rs.length * bound := by
  induction rs with
  | nil => exact Nat.zero_le _
  | cons r rs ih =>
    have hr := h r List.mem_cons_self
    have hrest := ih fun q hq => h q (List.mem_cons_of_mem r hq)
    rw [expandRanges_cons, List.length_append, List.length_range', List.length_cons, Nat.succ_mul]
    omega

/-- As many ranges as a text can announce never have too many blocks in all. -/
theorem exists_rangeSet {rs : List Range} (hproper : ∀ r ∈ rs, r.1 < r.2)
    (hends : ∀ r ∈ rs, r.2 ≤ intMax) (hlen : 2 * rs.length ≤ intMax) :
    ∃ s : RangeSet, s.ranges = rs := by
  refine ⟨⟨rs, hproper, (expandRanges_length_le hends).trans_lt ?_⟩, rfl⟩
  calc rs.length * intMax ≤ intMax * intMax := Nat.mul_le_mul_right _ (by omega)
    _ < sizeMax := by decide

theorem splitOn_pairs (words : List Text) (head : Text) (h : ∀ word ∈ head :: words, ',' ∉ word) :
    (head ++ words.flatMap fun word => ',' :: word).splitOn ',' = head :: words := by
  induction words generalizing head with
  | nil =>
    rw [List.flatMap_nil, List.append_nil,
      List.splitOn_eq_singleton (h head List.mem_cons_self)]
  | cons word words ih =>
    rw [List.flatMap_cons, List.cons_append,
      List.splitOn_append_cons_self_of_not_mem (h head List.mem_cons_self),
      ih word fun w hw => h w (List.mem_cons_of_mem head hw)]

theorem comma_not_mem_decimal (n : ℕ) : ',' ∉ decimal n := fun h =>
  absurd (isDigit_of_mem_decimal h) (by decide)

theorem splitOn_toText {s : RangeSet} (hs : s.ranges ≠ []) :
    s.toText.splitOn ',' = decimal (s.ranges.length * 2) ::
      s.ranges.flatMap fun r => [decimal r.1, decimal r.2] := by
  have htext : s.toText = decimal (s.ranges.length * 2) ++
      (s.ranges.flatMap fun r => [decimal r.1, decimal r.2]).flatMap fun word => ',' :: word := by
    rw [toText, if_neg hs, List.flatMap_assoc]
    simp
  rw [htext]
  apply splitOn_pairs
  intro word hword
  simp only [List.mem_cons, List.mem_flatMap, List.not_mem_nil, or_false] at hword
  obtain rfl | ⟨r, -, rfl | rfl⟩ := hword
  all_goals exact comma_not_mem_decimal _

theorem spells_toText {s : RangeSet} (hs : s.ranges ≠ []) (hlen : 2 * s.ranges.length ≤ intMax)
    (hends : ∀ r ∈ s.ranges, r.2 ≤ intMax)
    (hdecimal : ∀ n maximum, n ≤ maximum → parseUint (decimal n) maximum = some n) :
    Spells parseUint s.toText s.ranges := by
  refine ⟨hs, _, _, splitOn_toText hs, ?_, ?_⟩
  · rw [Nat.mul_comm]
    exact hdecimal _ _ hlen
  · rw [List.map_flatMap]
    refine List.flatMap_congr fun r hr => ?_
    have hlt := s.proper r hr
    have hend := hends r hr
    simp [hdecimal r.1 intMax (by omega), hdecimal r.2 intMax hend]

theorem toText_injective : Function.Injective toText := by
  have hnil : ∀ {s t : RangeSet}, s.toText = t.toText → s.ranges = [] → t.ranges = [] := by
    intro s t h hs
    by_contra ht
    rw [toText, if_pos hs, toText, if_neg ht] at h
    exact decimal_ne_nil _ (List.append_eq_nil_iff.mp h.symm).1
  intro s t h
  apply RangeSet.ext
  by_cases hs : s.ranges = []
  · rw [hs, hnil h hs]
  have ht : t.ranges ≠ [] := fun ht => hs (hnil h.symm ht)
  have hwords := splitOn_toText hs
  rw [h, splitOn_toText ht] at hwords
  have hpairs := (List.cons.inj hwords).2
  clear hwords h hs ht
  generalize s.ranges = rs at hpairs ⊢
  generalize t.ranges = qs at hpairs
  -- the words of a range are its two ends
  induction rs generalizing qs with
  | nil =>
    cases qs with
    | nil => rfl
    | cons q qs => simp at hpairs
  | cons r rs ih =>
    cases qs with
    | nil => simp at hpairs
    | cons q qs =>
      simp only [List.flatMap_cons, List.cons_append, List.nil_append, List.cons.injEq] at hpairs
      rw [ih qs hpairs.2.2, Prod.ext (decimal_injective hpairs.1) (decimal_injective hpairs.2.1)]

end format

end RangeSet

/-- The fields of the sets that the class's functions make. -/
inductive RangeFields.Built (parseUint : Text → ℕ → Option ℕ) : RangeFields → Prop
  | clear : Built parseUint .clear
  | ofPairs (pairs : List Range) : Built parseUint (.ofPairs pairs)
  | parse (rangeText : Text) : Built parseUint (.parse parseUint rangeText)
  | pushBack {s : RangeFields} (r : Range) : Built parseUint s → Built parseUint (s.pushBack r).2

theorem RangeFields.Built.exists_fields {parseUint : Text → ℕ → Option ℕ} {f : RangeFields}
    (h : Built parseUint f) : ∃ s : RangeSet, f = s.fields := by
  have helim : ∀ o : Option RangeSet, ∃ s : RangeSet,
      o.elim RangeFields.clear RangeSet.fields = s.fields := by
    intro o
    cases o with
    | none => exact ⟨.empty, rfl⟩
    | some s => exact ⟨s, rfl⟩
  induction h with
  | clear => exact ⟨.empty, rfl⟩
  | ofPairs pairs =>
    rw [RangeSet.fields_ofPairs]
    exact helim _
  | parse rangeText =>
    rw [RangeSet.fields_parse]
    exact helim _
  | pushBack r _ ih =>
    obtain ⟨s, rfl⟩ := ih
    rw [RangeSet.fields_pushBack]
    exact ⟨_, rfl⟩

theorem expandRanges_length (rs : List Range) :
    (expandRanges rs).length = (rs.map fun r => r.2 - r.1).sum := by
  simp [expandRanges, List.length_flatMap]

namespace RangeSet

/-- `Parse` with a `ParseUint` that keeps its maximum and reads decimal numbers: what it accepts,
that texts of sets are read back and are one for each set, and the number of blocks. -/
theorem rangeText_format (parseUint : Text → ℕ → Option ℕ)
    (hmax : ∀ word maximum n, parseUint word maximum = some n → n ≤ maximum)
    (hdecimal : ∀ n maximum, n ≤ maximum → parseUint (decimal n) maximum = some n) :
    (∀ text rs, (∃ s, parse parseUint text = some s ∧ s.ranges = rs) ↔
      Spells parseUint text rs ∧ ∀ r ∈ rs, r.1 < r.2 ∧ r.2 ≤ intMax) ∧
    (∀ text s, parse parseUint text = some s → parse parseUint s.toText = some s) ∧
    (∀ s t : RangeSet, s.toText = t.toText ↔ s = t) ∧
    ∀ f, RangeFields.Built parseUint f → f.blocks = (f.ranges.map fun r => r.2 - r.1).sum := by
  have hcount : ∀ {text : Text} {rs : List Range}, Spells parseUint text rs →
      2 * rs.length ≤ intMax := by
    rintro text rs ⟨-, head, words, -, hhead, -⟩
    exact hmax _ _ _ hhead
  refine ⟨fun text rs => ⟨?_, ?_⟩, fun text s h => ?_, fun s t => toText_injective.eq_iff, ?_⟩
  · rintro ⟨s, hs, rfl⟩
    have hspells := parse_eq_some.mp hs
    exact ⟨hspells, fun r hr => ⟨s.proper r hr, spells_ends hspells hmax r hr⟩⟩
  · rintro ⟨hspells, hranges⟩
    obtain ⟨s, rfl⟩ := exists_rangeSet (fun r hr => (hranges r hr).1)
      (fun r hr => (hranges r hr).2) (hcount hspells)
    exact ⟨s, parse_eq_some.mpr hspells, rfl⟩
  · have hspells := parse_eq_some.mp h
    exact parse_eq_some.mpr (spells_toText hspells.1 (hcount hspells)
      (spells_ends hspells hmax) hdecimal)
  · intro f hf
    obtain ⟨s, rfl⟩ := hf.exists_fields
    exact expandRanges_length s.ranges

/-- The value of a word of decimal digits. -/
def decimalOnly (word : Text) (maximum : ℕ) : Option ℕ :=
  if word ≠ [] ∧ word.all Char.isDigit then
    (some (Nat.ofDigitChars 10 word 0)).filter (· ≤ maximum)
  else none

def hexValue (c : Char) : Option ℕ :=
  if c.isDigit then some (c.toNat - '0'.toNat)
  else if 'a' ≤ c ∧ c ≤ 'f' then some (c.toNat - 'a'.toNat + 10)
  else if 'A' ≤ c ∧ c ≤ 'F' then some (c.toNat - 'A'.toNat + 10)
  else none

/-- The value of a decimal or hexadecimal number. -/
def decimalOrHex (word : Text) (maximum : ℕ) : Option ℕ :=
  match word with
  | '0' :: 'x' :: digit :: digits =>
    ((digit :: digits).foldlM (fun value c => (hexValue c).map (16 * value + ·)) 0).filter
      (· ≤ maximum)
  | _ => decimalOnly word maximum

theorem decimalOrHex_le (word : Text) (maximum n : ℕ) (h : decimalOrHex word maximum = some n) :
    n ≤ maximum := by
  have hfilter : ∀ {o : Option ℕ}, o.filter (· ≤ maximum) = some n → n ≤ maximum := by
    intro o ho
    simpa using (Option.filter_eq_some_iff.mp ho).2
  unfold decimalOrHex at h
  split at h
  · exact hfilter h
  · unfold decimalOnly at h
    split_ifs at h
    exact hfilter h

theorem decimalOrHex_decimal (n maximum : ℕ) (h : n ≤ maximum) :
    decimalOrHex (decimal n) maximum = some n := by
  have hdigits : ∀ c ∈ decimal n, c.isDigit = true := fun c hc => isDigit_of_mem_decimal hc
  have honly : decimalOnly (decimal n) maximum = some n := by
    have hvalue : Nat.ofDigitChars 10 (decimal n) 0 = n :=
      Nat.ofDigitChars_toDigits (by decide) (by decide)
    rw [decimalOnly, if_pos ⟨decimal_ne_nil n, List.all_eq_true.mpr hdigits⟩, hvalue]
    simpa using h
  unfold decimalOrHex
  split
  · rename_i digit digits heq
    -- a printed number has no `x`
    have hx := hdigits 'x' (by rw [heq]; simp)
    exact absurd hx (by decide)
  · exact honly

theorem rangeText_format_decimalOrHex :
    (∀ text rs, (∃ s, parse decimalOrHex text = some s ∧ s.ranges = rs) ↔
      Spells decimalOrHex text rs ∧ ∀ r ∈ rs, r.1 < r.2 ∧ r.2 ≤ intMax) ∧
    (∀ text s, parse decimalOrHex text = some s → parse decimalOrHex s.toText = some s) ∧
    (∀ s t : RangeSet, s.toText = t.toText ↔ s = t) ∧
    ∀ f, RangeFields.Built decimalOrHex f → f.blocks = (f.ranges.map fun r => r.2 - r.1).sum :=
  rangeText_format decimalOrHex decimalOrHex_le decimalOrHex_decimal

/-- `2,0x1,2` is not written in decimal numbers, and is accepted. -/
theorem not_onlyDecimal : ¬∀ text s, parse decimalOrHex text = some s →
    Spells decimalOnly text s.ranges := by
  intro hall
  have hparse : (parse decimalOrHex "2,0x1,2".toList).map ranges = some [(1, 2)] := by decide
  obtain ⟨s, hs, -⟩ := Option.map_eq_some_iff.mp hparse
  have hdecimal : parse decimalOnly "2,0x1,2".toList = some s := parse_eq_some.mpr (hall _ s hs)
  have hnone : (parse decimalOnly "2,0x1,2".toList).map ranges = none := by decide
  rw [hdecimal] at hnone
  cases hnone

end RangeSet
end BootableRecovery.Otautil
