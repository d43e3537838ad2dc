import Mathlib.Data.List.GetD
import Mathlib.Data.List.Range
import Mathlib.Data.BitVec
import Mathlib.Algebra.Order.BigOperators.Group.List
import Mathlib.Algebra.Order.Ring.Nat
import AetherOptExt.Lib.Text

/-! # CPU sets and their textual form (`cpuset.rs`)

`CpuSet` is the kernel's 1024-bit affinity mask: sixteen 64-bit words.  `parseCpuRanges`
reads a list such as `0-3,6`, `toRangeString` prints one, and `ensureCpusetDir` creates the
cpuset directory named by the printed form.

Creating a directory is an effect of the operating system.  A `DirCall` records one call of
`create_cpuset_dir`, and its outcome is a parameter `mk : DirCall → Bool` of the functions
that make such calls; these return the calls they made next to their result.

A CPU set denotes a set of CPU numbers through `isSet`; two sets with the same members are
equal (`CpuSet.ext_isSet`), `or` is union and `count` vanishes on the empty set only. -/

namespace AetherOptExt

/-- `CPU_SETSIZE`: the number of CPUs a mask can hold. -/
abbrev cpuSetsize : ℕ := 1024
/-- `CPU_WORD_BITS`. -/
abbrev cpuWordBits : ℕ := 64
/-- `CPU_WORDS`. -/
abbrev cpuWords : ℕ := cpuSetsize / cpuWordBits

/-- An affinity mask. -/
structure CpuSet where
  bits : List (BitVec 64)
  size : bits.length = cpuWords
deriving DecidableEq

namespace CpuSet

/-- The empty mask. -/
def new : CpuSet := ⟨List.replicate cpuWords 0, by simp⟩

/-- The word that holds CPU `cpu`. -/
def word (s : CpuSet) (cpu : ℕ) : BitVec 64 := s.bits.getD (cpu / cpuWordBits) 0

def set (s : CpuSet) (cpu : ℕ) : CpuSet :=
  if cpu < cpuSetsize then
    ⟨s.bits.modify (cpu / cpuWordBits) (· ||| 1#64 <<< (cpu % cpuWordBits)), by simp [s.size]⟩
  else s

def isSet (s : CpuSet) (cpu : ℕ) : Bool :=
  cpu < cpuSetsize && s.word cpu &&& 1#64 <<< (cpu % cpuWordBits) != 0

/-- `u64::count_ones`. -/
def countOnes (w : BitVec 64) : ℕ := (List.range cpuWordBits).countP w.getLsbD

def count (s : CpuSet) : ℕ := (s.bits.map countOnes).sum

def or (s t : CpuSet) : CpuSet :=
  ⟨List.zipWith (· ||| ·) s.bits t.bits, by simp [s.size, t.size]⟩

/-! ### Members -/

theorem and_shift_ne_zero (w : BitVec 64) {i : ℕ} (h : i < 64) :
    (w &&& 1#64 <<< i != 0) = w.getLsbD i := by
  have key : w &&& 1#64 <<< i = if w.getLsbD i then 1#64 <<< i else 0#64 := by
    ext j hj
    by_cases e : j = i
    · subst e
      cases hb : w.getLsbD j
      · simpa [BitVec.getElem_shiftLeft, BitVec.getLsbD_eq_getElem hj] using hb
      · simpa [BitVec.getElem_shiftLeft, BitVec.getLsbD_eq_getElem hj] using hb
    · cases hb : w.getLsbD i
      · simp only [Bool.false_eq_true, if_false]
        simp [BitVec.getElem_shiftLeft]
        omega
      · simp only [if_true, BitVec.getElem_and]
        simp [BitVec.getElem_shiftLeft]
        omega
  have hne : (1#64 <<< i) ≠ 0#64 := by
    intro h0
    have := congrArg (fun v : BitVec 64 => v.getLsbD i) h0
    simp [h] at this
  rw [key]
  cases w.getLsbD i <;> simp [hne]

theorem isSet_eq (s : CpuSet) (i : ℕ) :
    s.isSet i = (decide (i < cpuSetsize) && (s.word i).getLsbD (i % 64)) := by
  unfold isSet
  rw [and_shift_ne_zero _ (Nat.mod_lt _ (by decide))]

theorem isSet_lt {s : CpuSet} {i : ℕ} (h : s.isSet i = true) : i < cpuSetsize := by
  rw [isSet_eq, Bool.and_eq_true, decide_eq_true_eq] at h
  exact h.1

/-- Masks are determined by their members. -/
theorem ext_isSet {s t : CpuSet} (h : ∀ i, i < cpuSetsize → s.isSet i = t.isSet i) : s = t := by
  obtain ⟨a, ha⟩ := s
  obtain ⟨b, hb⟩ := t
  congr 1
  apply List.ext_getElem (ha.trans hb.symm)
  intro k hk hk'
  apply BitVec.eq_of_getLsbD_eq
  intro j hj
  have hlt : k * 64 + j < cpuSetsize := by
    have : k < 16 := lt_of_lt_of_eq hk ha
    show k * 64 + j < 1024
    omega
  have hd : (k * 64 + j) / 64 = k := by omega
  have hm : (k * 64 + j) % 64 = j := by omega
  have := h (k * 64 + j) hlt
  simp only [isSet_eq, hlt, decide_true, Bool.true_and, word, cpuWordBits, hd, hm,
    List.getD_eq_getElem _ _ hk, List.getD_eq_getElem _ _ hk'] at this
  exact this

@[simp] theorem isSet_new (i : ℕ) : new.isSet i = false := by
  have hw : new.word i = 0 := by
    unfold word new
    rcases Nat.lt_or_ge (i / cpuWordBits) cpuWords with h | h
    · rw [List.getD_eq_getElem _ _ (by simpa using h), List.getElem_replicate]
    · rw [List.getD_eq_default _ _ (by simpa using h)]
  rw [isSet_eq, hw]
  simp

theorem isSet_or (s t : CpuSet) (i : ℕ) : (s.or t).isSet i = (s.isSet i || t.isSet i) := by
  simp only [isSet_eq]
  by_cases h : i < cpuSetsize
  · have hw : i / 64 < 16 := by
      have : i < 1024 := h
      omega
    have hs : i / 64 < s.bits.length := by rw [s.size]; exact hw
    have ht : i / 64 < t.bits.length := by rw [t.size]; exact hw
    have hz : i / 64 < (List.zipWith (· ||| ·) s.bits t.bits).length := by
      rw [List.length_zipWith, s.size, t.size]; exact hw
    simp only [h, decide_true, Bool.true_and, word, or, cpuWordBits]
    rw [List.getD_eq_getElem _ _ hs, List.getD_eq_getElem _ _ ht, List.getD_eq_getElem _ _ hz]
    simp
  · simp [h]

theorem isSet_set (s : CpuSet) (c i : ℕ) :
    (s.set c).isSet i = (s.isSet i || (decide (i = c) && decide (c < cpuSetsize))) := by
  unfold set
  split_ifs with hc
  · simp only [isSet_eq]
    by_cases h : i < cpuSetsize
    · have hw : i / 64 < s.bits.length := by
        rw [s.size]
        have : i < 1024 := h
        show i / 64 < 16
        omega
      have hw' : i / 64 < (s.bits.modify (c / 64) (· ||| 1#64 <<< (c % 64))).length := by simpa using hw
      simp only [h, decide_true, Bool.true_and, word, hc, Bool.and_true, cpuWordBits]
      rw [List.getD_eq_getElem _ _ hw, List.getD_eq_getElem _ _ hw', List.getElem_modify]
      have hm : i % 64 < 64 := Nat.mod_lt _ (by decide)
      by_cases hq : c / 64 = i / 64
      · have hiff : (i = c) ↔ (i % 64 = c % 64) := by omega
        have hdec : decide (i = c) = decide (i % 64 = c % 64) := decide_eq_decide.mpr hiff
        simp only [hq, if_true, BitVec.getLsbD_or, hdec]
        congr 1
        have hcm : c % 64 < 64 := Nat.mod_lt _ (by decide)
        simp only [BitVec.getLsbD_shiftLeft, hm, decide_true, Bool.true_and]
        by_cases hlt : i % 64 < c % 64
        · have : i % 64 ≠ c % 64 := by omega
          simp [hlt, this]
        · have hiff' : (i % 64 - c % 64 = 0) ↔ (i % 64 = c % 64) := by omega
          simp [hlt, BitVec.getLsbD_one, hiff']
      · have hne : ¬ i = c := fun e => hq (by rw [e])
        simp [hq, hne]
    · have hne : i ≠ c := fun e => h (e ▸ hc)
      simp [h, hne]
  · simp [hc]

theorem countOnes_eq_zero {w : BitVec 64} : countOnes w = 0 ↔ w = 0 := by
  unfold countOnes
  rw [List.countP_eq_zero]
  constructor
  · intro h
    apply BitVec.eq_of_getLsbD_eq
    intro i hi
    simpa using h i (List.mem_range.mpr hi)
  · rintro rfl i _
    simp

theorem count_eq_zero {s : CpuSet} : s.count = 0 ↔ s = new := by
  unfold count
  rw [List.sum_eq_zero_iff]
  constructor
  · intro h
    obtain ⟨b, hb⟩ := s
    congr 1
    refine List.eq_replicate_iff.mpr ⟨hb, fun w hw => ?_⟩
    exact countOnes_eq_zero.mp (h _ (List.mem_map_of_mem hw))
  · rintro rfl x hx
    obtain ⟨w, hw, rfl⟩ := List.mem_map.mp hx
    exact countOnes_eq_zero.mpr (List.eq_of_mem_replicate hw)

/-- A mask with a member is not empty. -/
theorem ne_new_iff {s : CpuSet} : s ≠ new ↔ ∃ i, s.isSet i = true := by
  constructor
  · intro h
    by_contra hne
    push Not at hne
    exact h (ext_isSet fun i _ => by simp [Bool.eq_false_iff.mpr (hne i)])
  · rintro ⟨i, hi⟩ rfl
    simp at hi

theorem new_or (s : CpuSet) : new.or s = s := by
  apply ext_isSet
  intro i _
  rw [isSet_or, isSet_new, Bool.false_or]

/-- Every CPU of the one set is in the other. -/
instance : HasSubset CpuSet := ⟨fun s t => ∀ i, s.isSet i = true → t.isSet i = true⟩

theorem or_eq_left {s t : CpuSet} : s.or t = s ↔ t ⊆ s := by
  constructor
  · intro h i hi
    rw [← h, isSet_or, hi, Bool.or_true]
  · intro h
    apply ext_isSet
    intro i _
    rw [isSet_or, Bool.eq_iff_iff, Bool.or_eq_true]
    exact ⟨fun hi => hi.elim id (h i), .inl⟩

theorem subset_new {s : CpuSet} : s ⊆ new ↔ s = new := by
  rw [← or_eq_left, new_or]

theorem or_eq_new {s t : CpuSet} : s.or t = new ↔ s = new ∧ t = new := by
  constructor
  · intro h
    have hs : s = new := subset_new.mp fun i hi => by rw [← h, isSet_or, hi, Bool.true_or]
    refine ⟨hs, ?_⟩
    rw [hs, new_or] at h
    exact h
  · rintro ⟨rfl, rfl⟩
    exact new_or new

/-! ### Printing -/

/-- The state of the printer: the text so far, the open run and whether the text is empty. -/
structure RangeAcc where
  result : Str
  start : Option ℕ
  stop : Option ℕ
  first : Bool

/-- `usize` as decimal text. -/
def decimal (n : ℕ) : Str := Nat.toDigits 10 n

/-- `push_range`: append the open run, if there is one. -/
def pushRange (a : RangeAcc) : RangeAcc :=
  match a.start, a.stop with
  | some lo, some hi =>
      let sep : Str := if a.first then [] else [',']
      let run : Str := if lo == hi then decimal lo else decimal lo ++ '-' :: decimal hi
      { a with result := a.result ++ sep ++ run, first := false }
  | _, _ => a

/-- One bit of a non-zero word. -/
def rangeBit (base : ℕ) (w : BitVec 64) (a : RangeAcc) (bit : ℕ) : RangeAcc :=
  if w &&& 1#64 <<< bit != 0 then
    let cpu := base + bit
    match a.start with
    | none => { a with start := some cpu, stop := some cpu }
    | some _ =>
        if a.stop.any (fun e => cpu == e + 1) then { a with stop := some cpu }
        else { pushRange a with start := some cpu, stop := some cpu }
  else a

/-- One word: an all-zero word closes the open run. -/
def rangeWord (a : RangeAcc) (iw : BitVec 64 × ℕ) : RangeAcc :=
  if iw.1 == 0 then
    if a.start.isSome then { pushRange a with start := none, stop := none } else a
  else (List.range cpuWordBits).foldl (rangeBit (iw.2 * cpuWordBits) iw.1) a

/-- `to_range_string`. -/
def toRangeString (s : CpuSet) : Str :=
  (pushRange (s.bits.zipIdx.foldl rangeWord ⟨[], none, none, true⟩)).result

end CpuSet

/-! ### Parsing -/

/-- `usize::MAX` on a 64-bit target. -/
def usizeMax : ℕ := 2 ^ 64 - 1

/-- `str::parse::<usize>`: an optional `+`, then digits, within range. -/
def parseUsize (s : Str) : Option ℕ :=
  let ds := match s with
    | '+' :: rest => rest
    | _ => s
  if ds.isEmpty || !ds.all Char.isDigit then none
  else
    let n := ds.foldl (fun n c => 10 * n + (c.toNat - 48)) 0
    if n ≤ usizeMax then some n else none

/-- The bounds a part of the list denotes; `none` when the part is skipped. -/
def partRange (part : Str) : Option (ℕ × ℕ) :=
  match part.findIdx? (· == '-') with
  | some pos =>
      let a := (parseUsize (part.take pos)).getD usizeMax
      let b := (parseUsize (part.drop (pos + 1))).getD a
      if a = usizeMax then none else if b < a then some (b, a) else some (a, b)
  | none =>
      let a := (parseUsize part).getD usizeMax
      if a = usizeMax then none else some (a, a)

/-- The loop `for i in lo..=hi.min(CPU_SETSIZE - 1)`. -/
def setRange (present : Option CpuSet) (set : CpuSet) (lo hi : ℕ) : CpuSet :=
  (List.range' lo (min hi (cpuSetsize - 1) + 1 - lo)).foldl
    (fun set i => if present.all (fun p => p.isSet i) then set.set i else set) set

/-- One part of the list. -/
def parsePart (present : Option CpuSet) (set : CpuSet) (part : Str) : CpuSet :=
  let part := Str.trim part
  if part.isEmpty then set
  else match partRange part with
    | none => set
    | some (lo, hi) => setRange present set lo hi

/-- `parse_cpu_ranges`. -/
def parseCpuRanges (spec : Str) (present : Option CpuSet) : CpuSet :=
  if spec.isEmpty then CpuSet.new
  else (spec.splitOn ',').foldl (parsePart present) CpuSet.new

/-- `from_range`. -/
def fromRange (spec : Str) : CpuSet := parseCpuRanges spec none

/-! ### Topology and cpuset directories -/

/-- What rule processing reads of `CpuTopology`. -/
structure CpuTopology where
  presentCpus : CpuSet
  memsStr : Str
  cpusetEnabled : Bool

/-- One call of `create_cpuset_dir(path, cpus, mems)`. -/
structure DirCall where
  path : Str
  cpus : Str
  mems : Str
deriving DecidableEq

/-- `base_cpuset()` after `set_base_cpuset("AppOpt")`. -/
def baseCpuset : Str := "/dev/cpuset/AppOpt".toList

/-- The call that creates the sub-directory `dirName` of the base cpuset. -/
def subdirCall (dirName : Str) (topo : CpuTopology) : DirCall :=
  ⟨baseCpuset ++ '/' :: dirName, dirName, topo.memsStr⟩

/-- `ensure_cpuset_dir`: the directory's name, empty when cpusets are off or the creation
fails, and the calls made. -/
def ensureCpusetDir (mk : DirCall → Bool) (cpus : CpuSet) (topo : CpuTopology) :
    Str × List DirCall :=
  if !topo.cpusetEnabled then ([], [])
  else
    let dirName := cpus.toRangeString
    let call := subdirCall dirName topo
    (if mk call then dirName else [], [call])

end AetherOptExt
