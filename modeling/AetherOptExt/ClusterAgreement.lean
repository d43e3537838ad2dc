import AetherOptExt.CpuListGrammar
import AetherOptExt.CpuListPrinters
import Mathlib.Data.List.ReduceOption
import Mathlib.Order.Bounds.Basic

/-! # The two cluster detectors

`detect` and `detectCoreTypes` read the same directory.  On well-formed files they read the same
clusters from it (`filterMap_policyCluster`, `filterMap_coreCluster`).  `detectCoreTypes` joins
the clusters that have the same frequency, so its layers are all CPUs of the lowest and of the
highest frequency (`detectCoreTypes_extremes`).  `detect` joins them only in its second method:
from the directory it takes the first and the last cluster in the order of frequency.  The two
agree exactly when a single policy has the highest frequency and a single one the lowest
(`detect_agrees_iff`). -/

namespace AetherOptExt

open Str CpuSet

/-! ### The directory -/

/-- The files of a policy directory.  `cells` is what stands between the spaces of the CPU list,
`none` between two spaces in a row. -/
structure Policy where
  name : Str
  before : Str
  cells : List (Option Numeral)
  after : Str
  freqBefore : Str
  freq : Numeral
  freqAfter : Str
  name_policy : isPolicy name = true
  before_blank : Blank before
  cells_small : ∀ n ∈ cells.reduceOption, n.value < cpuSetsize
  after_blank : Blank after
  freqBefore_blank : Blank freqBefore
  freq_pos : 0 < freq.value
  freq_small : freq.value ≤ usizeMax
  freqAfter_blank : Blank freqAfter

namespace Policy

/-- The text of a cell. -/
def cellText : Option Numeral → Str
  | none => []
  | some n => n.digits

/-- The CPU list without the white space around it. -/
def listText (p : Policy) : Str := [' '].intercalate (p.cells.map cellText)

/-- The two files. -/
def entry (p : Policy) : CpufreqEntry where
  name := p.name
  relatedCpus := some (p.before ++ p.listText ++ p.after)
  cpuinfoMaxFreq := some (p.freqBefore ++ p.freq.digits ++ p.freqAfter)

/-- The CPUs of the list. -/
def cpus (p : Policy) : List ℕ := p.cells.reduceOption.map Numeral.value

/-- The cluster, when there are CPUs. -/
def cluster (p : Policy) : Option Cluster := if p.cpus.isEmpty then none else some (p.freq.value, p.cpus)

end Policy

/-- One entry of the directory. -/
inductive Listed where
  | policy (p : Policy)
  | other (e : CpufreqEntry) (noPolicy : isPolicy e.name = false)

/-- The files of an entry. -/
def Listed.entry : Listed → CpufreqEntry
  | policy p => p.entry
  | other e _ => e

/-- The cluster of an entry. -/
def Listed.cluster : Listed → Option Cluster
  | policy p => p.cluster
  | other .. => none

/-- The clusters of the directory. -/
def clusters (ls : List Listed) : List Cluster := ls.filterMap Listed.cluster

/-! ### Reading a policy -/

namespace Policy

variable (p : Policy)

theorem cellText_notMem {c : Char} (hc : c.isDigit = false) : ∀ cell, c ∉ cellText cell
  | none => List.not_mem_nil
  | some n => n.notMem hc

/-- The cells that are not empty. -/
theorem filter_cellText : ∀ cells : List (Option Numeral),
    (cells.map cellText).filter (fun w => !w.isEmpty) = cells.reduceOption.map Numeral.digits
  | [] => rfl
  | none :: cells => by
      rw [List.map_cons, List.reduceOption_cons_of_none, ← filter_cellText cells]
      rfl
  | some n :: cells => by
      have hn : n.digits.isEmpty = false := List.isEmpty_eq_false_iff.mpr n.nonempty
      rw [List.map_cons, List.reduceOption_cons_of_some, List.map_cons, ← filter_cellText cells]
      exact List.filter_cons_of_pos (by simp [cellText, hn])

/-- The list consists of digits and spaces. -/
theorem eq_space_of_mem_listText {c : Char} (hc : c ∈ p.listText) (hd : c.isDigit = false) : c = ' ' := by
  cases eq_or_exists_of_mem_intercalate hc with
  | inl h => exact h
  | inr h =>
      obtain ⟨l, hl, hcl⟩ := h
      obtain ⟨cell, -, rfl⟩ := List.mem_map.mp hl
      exact absurd hcl (cellText_notMem hd cell)

/-- Splitting at characters that are no digits, the space among them, reads the CPU list. -/
theorem words_listText {q : Char → Bool} (hspace : q ' ' = true) (hdigit : ∀ c, c.isDigit = true → q c = false) :
    words q p.listText = p.cells.reduceOption.map Numeral.digits := by
  unfold listText
  rw [words_intercalate hspace, filter_cellText]
  intro l hl c hc
  obtain ⟨cell, -, rfl⟩ := List.mem_map.mp hl
  refine hdigit c ?_
  by_contra h
  exact cellText_notMem (Bool.eq_false_iff.mpr h) cell hc

theorem value_le_usizeMax {n : Numeral} (hn : n ∈ p.cells.reduceOption) : n.value ≤ usizeMax :=
  (p.cells_small n hn).le.trans (by decide)

theorem parse_freq : parseUsize (trim (p.freqBefore ++ p.freq.digits ++ p.freqAfter)) = some p.freq.value := by
  rw [trim_padded p.freqBefore_blank p.freqAfter_blank, trim_of_forall fun c hc => p.freq.not_isWhitespace hc,
    parseUsize_numeral p.freq p.freq_small]

end Policy

theorem relatedPart_numeral (n : Numeral) (h : n.value ≤ usizeMax) : relatedPart n.digits = [n.value] := by
  have hn : n.digits.isEmpty = false := List.isEmpty_eq_false_iff.mpr n.nonempty
  unfold relatedPart
  simp only [trim_of_forall fun c hc => n.not_isWhitespace hc, hn, Bool.false_eq_true, if_false, findIdx_dash,
    parseUsize_numeral n h, Option.toList_some]

/-- What `detect` reads of a policy. -/
theorem policyCluster_policy (p : Policy) : policyCluster p.entry = p.cluster := by
  have hspace : ∀ c ∈ p.listText, isWhitespace c = true → (c == ',' || c == ' ') = true := by
    intro c hc hw
    have hd : c.isDigit = false := by
      by_contra h
      rw [not_isWhitespace_of_isDigit (Bool.not_eq_false _ ▸ h)] at hw
      cases hw
    rw [p.eq_space_of_mem_listText hc hd]
    rfl
  have hwords : words (fun c => c == ',' || c == ' ') (trim (p.before ++ p.listText ++ p.after)) =
      p.cells.reduceOption.map Numeral.digits := by
    rw [trim_padded p.before_blank p.after_blank, words_trim hspace]
    refine p.words_listText rfl fun c hc => ?_
    rw [Bool.or_eq_false_iff, beq_eq_false_iff_ne, beq_eq_false_iff_ne]
    constructor
    · rintro rfl
      cases hc
    · rintro rfl
      cases hc
  have hcpus : ((trim (p.before ++ p.listText ++ p.after)).splitOnP (fun c => c == ',' || c == ' ')).flatMap
      relatedPart = p.cpus := by
    rw [flatMap_splitOnP rfl, hwords, List.flatMap_map, List.flatMap_congr fun n hn =>
      relatedPart_numeral n (p.value_le_usizeMax hn)]
    exact List.map_eq_flatMap.symm
  unfold policyCluster
  simp only [Policy.entry, p.name_policy, Bool.not_true, Bool.false_eq_true, if_false, Option.bind_eq_bind,
    Option.bind_some, p.parse_freq, hcpus]
  rfl

/-- What `detect_core_types` reads of a policy. -/
theorem coreCluster_policy (p : Policy) : coreCluster p.entry = p.cluster := by
  have hpos : (p.freq.value == 0) = false := beq_eq_false_iff_ne.mpr p.freq_pos.ne'
  have hwords : splitWhitespace (p.before ++ p.listText ++ p.after) = p.cells.reduceOption.map Numeral.digits := by
    show words isWhitespace _ = _
    rw [words_append_separators p.after_blank, words_separators_append p.before_blank]
    exact p.words_listText rfl fun c hc => not_isWhitespace_of_isDigit hc
  have hcpus : (splitWhitespace (p.before ++ p.listText ++ p.after)).filterMap parseUsize = p.cpus := by
    rw [hwords, List.filterMap_map]
    show p.cells.reduceOption.filterMap (fun n => parseUsize n.digits) = _
    rw [List.filterMap_congr fun n hn => parseUsize_numeral n (p.value_le_usizeMax hn)]
    rw [List.filterMap_eq_map']
    rfl
  unfold coreCluster
  simp only [Policy.entry, p.name_policy, Bool.not_true, Bool.false_eq_true, if_false, Option.bind_some, p.parse_freq,
    Option.getD_some, hpos, Option.map_some, hcpus]
  rfl

theorem not_isPolicy_policyCluster {e : CpufreqEntry} (h : isPolicy e.name = false) : policyCluster e = none := by
  unfold policyCluster
  rw [h]
  rfl

theorem not_isPolicy_coreCluster {e : CpufreqEntry} (h : isPolicy e.name = false) : coreCluster e = none := by
  unfold coreCluster
  rw [h]
  rfl

theorem filterMap_policyCluster (ls : List Listed) : (ls.map Listed.entry).filterMap policyCluster = clusters ls := by
  rw [List.filterMap_map]
  refine List.filterMap_congr fun l _ => ?_
  cases l with
  | policy p => exact policyCluster_policy p
  | other e h => exact not_isPolicy_policyCluster h

theorem filterMap_coreCluster (ls : List Listed) : (ls.map Listed.entry).filterMap coreCluster = clusters ls := by
  rw [List.filterMap_map]
  refine List.filterMap_congr fun l _ => ?_
  cases l with
  | policy p => exact coreCluster_policy p
  | other e h => exact not_isPolicy_coreCluster h

/-- A cluster has CPUs, all of them below 1024. -/
theorem mem_clusters {ls : List Listed} {c : Cluster} (h : c ∈ clusters ls) : c.2 ≠ [] ∧ ∀ i ∈ c.2, i < cpuSetsize := by
  obtain ⟨l, -, hl⟩ := List.mem_filterMap.mp h
  cases l with
  | other e h => cases hl
  | policy p =>
      have hl : (if p.cpus.isEmpty then none else some (p.freq.value, p.cpus)) = some c := hl
      split_ifs at hl with hne
      obtain rfl := Option.some.inj hl
      refine ⟨fun h => hne (List.isEmpty_iff.mpr h), fun i hi => ?_⟩
      obtain ⟨n, hn, rfl⟩ := List.mem_map.mp hi
      exact p.cells_small n hn

/-! ### Groups -/

/-- A CPU is in a cluster with the frequency. -/
def HasCpu (cs : List Cluster) (f i : ℕ) : Prop := ∃ c ∈ cs, c.1 = f ∧ i ∈ c.2

theorem hasCpu_cons {c : Cluster} {cs : List Cluster} {f i : ℕ} :
    HasCpu (c :: cs) f i ↔ (c.1 = f ∧ i ∈ c.2) ∨ HasCpu cs f i := by
  simp [HasCpu]

theorem hasCpu_addToGroup {f k i : ℕ} {cpus : List ℕ} : ∀ {gs : List Cluster},
    HasCpu (addToGroup f cpus gs) k i ↔ HasCpu gs k i ∨ (f = k ∧ i ∈ cpus)
  | [] => by simp [addToGroup, HasCpu]
  | g :: gs => by
      rw [addToGroup]
      split_ifs with h
      · have hg : g.1 = f := beq_iff_eq.mp h
        rw [hasCpu_cons, hasCpu_cons, List.mem_append, hg]
        tauto
      · rw [hasCpu_cons, hasCpu_cons, hasCpu_addToGroup, or_assoc]

theorem mem_freq_addToGroup {f k : ℕ} {cpus : List ℕ} : ∀ {gs : List Cluster},
    k ∈ (addToGroup f cpus gs).map Prod.fst ↔ k ∈ gs.map Prod.fst ∨ k = f
  | [] => by simp [addToGroup]
  | g :: gs => by
      rw [addToGroup]
      split_ifs with h
      · have hg : g.1 = f := beq_iff_eq.mp h
        simp only [List.map_cons, List.mem_cons, hg]
        tauto
      · rw [List.map_cons, List.map_cons, List.mem_cons, List.mem_cons, mem_freq_addToGroup, or_assoc]

theorem nodup_addToGroup {f : ℕ} {cpus : List ℕ} : ∀ {gs : List Cluster}, (gs.map Prod.fst).Nodup →
    ((addToGroup f cpus gs).map Prod.fst).Nodup
  | [], _ => List.nodup_singleton f
  | g :: gs, hn => by
      rw [addToGroup]
      split_ifs with h
      · exact hn
      · obtain ⟨hg, hn⟩ := List.nodup_cons.mp hn
        refine List.nodup_cons.mpr ⟨?_, nodup_addToGroup hn⟩
        rw [mem_freq_addToGroup]
        rintro (hmem | hf)
        · exact hg hmem
        · exact h (beq_iff_eq.mpr hf)

/-- Clusters with distinct frequencies that have the same CPUs as `cs`, frequency by frequency. -/
structure Grouped (cs groups : List Cluster) : Prop where
  nodup : (groups.map Prod.fst).Nodup
  freq : ∀ f, f ∈ groups.map Prod.fst ↔ f ∈ cs.map Prod.fst
  cpus : ∀ f i, HasCpu groups f i ↔ HasCpu cs f i

theorem Grouped.add {cs groups : List Cluster} (h : Grouped cs groups) (c : Cluster) :
    Grouped (c :: cs) (addToGroup c.1 c.2 groups) where
  nodup := nodup_addToGroup h.nodup
  freq f := by rw [mem_freq_addToGroup, h.freq, List.map_cons, List.mem_cons, or_comm]
  cpus f i := by rw [hasCpu_addToGroup, h.cpus, hasCpu_cons, or_comm]

theorem Grouped.perm {cs cs' groups groups' : List Cluster} (h : Grouped cs groups) (hcs : cs.Perm cs')
    (hgroups : groups.Perm groups') : Grouped cs' groups' where
  nodup := (hgroups.map Prod.fst).nodup_iff.mp h.nodup
  freq f := by rw [← (hgroups.map Prod.fst).mem_iff, h.freq, (hcs.map Prod.fst).mem_iff]
  cpus f i := by
    have hiff := h.cpus f i
    unfold HasCpu at hiff ⊢
    simpa only [hgroups.mem_iff, hcs.mem_iff] using hiff

theorem Grouped.foldl : ∀ (cs : List Cluster) {done groups : List Cluster}, Grouped done groups →
    Grouped (cs ++ done) (cs.foldl (fun groups c => addToGroup c.1 c.2 groups) groups)
  | [], _, _, h => h
  | c :: cs, _, _, h => (Grouped.foldl cs (h.add c)).perm List.perm_middle (List.Perm.refl _)

/-- The CPUs of a group. -/
theorem Grouped.mem_cpus {cs groups : List Cluster} (h : Grouped cs groups) {g : Cluster} (hg : g ∈ groups) (i : ℕ) :
    i ∈ g.2 ↔ HasCpu cs g.1 i := by
  rw [← h.cpus]
  constructor
  · exact fun hi => ⟨g, hg, rfl, hi⟩
  · rintro ⟨g', hg', hfreq, hi⟩
    obtain rfl := List.inj_on_of_nodup_map h.nodup hg' hg hfreq
    exact hi

/-! ### First and last -/

theorem two_le_length {α : Type*} {l : List α} {a b : α} (ha : a ∈ l) (hb : b ∈ l) (h : a ≠ b) : 2 ≤ l.length := by
  match l with
  | [] => exact absurd ha List.not_mem_nil
  | [c] => exact absurd ((List.mem_singleton.mp ha).trans (List.mem_singleton.mp hb).symm) h
  | _ :: _ :: l => exact Nat.le_add_left 2 l.length

theorem exists_ends {α : Type*} {l : List α} (h : 2 ≤ l.length) : ∃ a mid b, l = a :: (mid ++ [b]) := by
  match l with
  | a :: c :: l =>
      refine ⟨a, (c :: l).dropLast, (c :: l).getLast (List.cons_ne_nil c l), ?_⟩
      rw [List.dropLast_append_getLast]

/-- In an ordered list nothing is before the first or after the last. -/
theorem le_ends {α : Type*} {R : α → α → Prop} (hrefl : ∀ a, R a a) {a b : α} {mid : List α}
    (h : (a :: (mid ++ [b])).Pairwise R) : ∀ c ∈ a :: (mid ++ [b]), R a c ∧ R c b := by
  obtain ⟨hfirst, hrest⟩ := List.pairwise_cons.mp h
  obtain ⟨-, -, hlast⟩ := List.pairwise_append.mp hrest
  intro c hc
  cases List.mem_cons.mp hc with
  | inl hc =>
      subst hc
      exact ⟨hrefl c, hfirst b (List.mem_append_right mid List.mem_cons_self)⟩
  | inr hc =>
      refine ⟨hfirst c hc, ?_⟩
      cases List.mem_append.mp hc with
      | inl hc => exact hlast c hc b List.mem_cons_self
      | inr hc => exact List.mem_singleton.mp hc ▸ hrefl b

/-- Sorting a list brings a least member to the front and a greatest one to the end. -/
theorem exists_insertionSort_ends {α : Type*} {R : α → α → Prop} [DecidableRel R] [Std.Total R] [IsTrans α R]
    {l : List α} (h : 2 ≤ l.length) :
    ∃ a mid b, l.insertionSort R = a :: (mid ++ [b]) ∧ ∀ c ∈ l, R a c ∧ R c b := by
  have hperm := List.perm_insertionSort R l
  have hpair := List.pairwise_insertionSort R l
  obtain ⟨a, mid, b, hends⟩ := exists_ends (h.trans hperm.length_eq.ge)
  refine ⟨a, mid, b, hends, fun c hc => ?_⟩
  have hmem := hperm.mem_iff.mpr hc
  rw [hends] at hpair hmem
  exact le_ends (fun d => (total_of R d d).elim id id) hpair c hmem

/-- The groups between the first and the last belong to the middle layer. -/
theorem foldl_addLayer_mid {n : ℕ} : ∀ (gs : List Cluster) {k : ℕ} (acc : CoreTypes), 0 < k → k + gs.length < n →
    (gs.zipIdx k).foldl (addLayer n) acc = { acc with pCore := gs.foldl (fun s g => s.setAll g.2) acc.pCore }
  | [], _, _, _, _ => rfl
  | g :: gs, k, acc, hk, hn => by
      rw [List.length_cons] at hn
      have hstep : addLayer n acc (g, k) = { acc with pCore := acc.pCore.setAll g.2 } := by
        have h₁ : k ≠ 0 := by omega
        have h₂ : k ≠ n - 1 := by omega
        unfold addLayer
        rw [if_neg h₁, if_neg h₂]
      rw [List.zipIdx_cons, List.foldl_cons, hstep, foldl_addLayer_mid gs _ (Nat.succ_pos k) (by omega)]
      rfl

theorem foldl_addLayer (first last : Cluster) (mid : List Cluster) :
    (first :: (mid ++ [last])).zipIdx.foldl (addLayer (first :: (mid ++ [last])).length) ⟨new, new, new⟩ =
      ⟨new.setAll first.2, mid.foldl (fun s g => s.setAll g.2) new, new.setAll last.2⟩ := by
  have hlen : (first :: (mid ++ [last])).length = mid.length + 2 := by simp
  have hfirst : ∀ acc, addLayer (mid.length + 2) acc (first, 0) = { acc with eCore := acc.eCore.setAll first.2 } :=
    fun acc => rfl
  have hlast : ∀ acc, addLayer (mid.length + 2) acc (last, mid.length + 1) =
      { acc with hpCore := acc.hpCore.setAll last.2 } := by
    intro acc
    have h₁ : mid.length + 1 ≠ 0 := Nat.succ_ne_zero mid.length
    have h₂ : mid.length + 1 = mid.length + 2 - 1 := rfl
    unfold addLayer
    rw [if_neg h₁, if_pos h₂]
  rw [hlen, List.zipIdx_cons, List.foldl_cons, hfirst, List.zipIdx_append, List.foldl_append,
    foldl_addLayer_mid mid _ Nat.one_pos (by omega), List.zipIdx_singleton, List.foldl_cons, List.foldl_nil,
    Nat.zero_add, Nat.add_comm 1, hlast]

/-! ### What the detectors find -/

section

variable {ls : List Listed} {r : CpuSysfs}

/-- The groups of the clusters, as `detectCoreTypes` makes them. -/
theorem grouped_foldl (cs : List Cluster) :
    Grouped cs (cs.foldl (fun groups c => addToGroup c.1 c.2 groups) []) := by
  have hnil : Grouped [] [] := ⟨List.nodup_nil, fun _ => Iff.rfl, fun _ _ => Iff.rfl⟩
  have hfold := Grouped.foldl cs hnil
  rwa [List.append_nil] at hfold

/-- The first and the last layer are the groups of the lowest and of the highest frequency. -/
theorem detectCoreTypes_ends (hdir : r.cpufreq = some (ls.map Listed.entry))
    (hdistinct : ∃ a ∈ clusters ls, ∃ b ∈ clusters ls, a.1 ≠ b.1) :
    ∃ groups, Grouped (clusters ls) groups ∧ ∃ first ∈ groups, ∃ last ∈ groups,
      (∀ g ∈ groups, first.1 ≤ g.1 ∧ g.1 ≤ last.1) ∧
      (detectCoreTypes r).eCore = new.setAll first.2 ∧ (detectCoreTypes r).hpCore = new.setAll last.2 := by
  have hgrouped := grouped_foldl (clusters ls)
  have hcore : detectCoreTypes r =
      let groups := (clusters ls).foldl (fun groups c => addToGroup c.1 c.2 groups) []
      let sorted := groups.insertionSort (fun a b => a.1 ≤ b.1)
      sorted.zipIdx.foldl (addLayer sorted.length) ⟨new, new, new⟩ := by
    unfold detectCoreTypes
    rw [hdir, Option.getD_some, filterMap_coreCluster]
  generalize (clusters ls).foldl (fun groups c => addToGroup c.1 c.2 groups) [] = groups at hgrouped hcore
  have hlen : 2 ≤ groups.length := by
    obtain ⟨a, ha, b, hb, hne⟩ := hdistinct
    rw [← List.length_map Prod.fst]
    exact two_le_length ((hgrouped.freq _).mpr (List.mem_map_of_mem ha))
      ((hgrouped.freq _).mpr (List.mem_map_of_mem hb)) hne
  obtain ⟨first, mid, last, hends, hle⟩ := exists_insertionSort_ends (R := fun a b : Cluster => a.1 ≤ b.1) hlen
  have hmem : ∀ g, g ∈ first :: (mid ++ [last]) → g ∈ groups := by
    intro g hg
    rw [← hends] at hg
    exact (List.mem_insertionSort _).mp hg
  dsimp only at hcore
  rw [hends, foldl_addLayer] at hcore
  refine ⟨groups, hgrouped, first, hmem _ List.mem_cons_self, last, ?_, hle, ?_, ?_⟩
  · exact hmem _ (List.mem_cons_of_mem _ (List.mem_append_right _ List.mem_cons_self))
  · rw [hcore]
  · rw [hcore]

/-- They are all CPUs of these frequencies. -/
theorem detectCoreTypes_extremes (hdir : r.cpufreq = some (ls.map Listed.entry))
    (hdistinct : ∃ a ∈ clusters ls, ∃ b ∈ clusters ls, a.1 ≠ b.1) :
    ∃ lo hi, IsLeast {f | f ∈ (clusters ls).map Prod.fst} lo ∧ IsGreatest {f | f ∈ (clusters ls).map Prod.fst} hi ∧
      (∀ i, (detectCoreTypes r).eCore.isSet i = true ↔ HasCpu (clusters ls) lo i) ∧
      (∀ i, (detectCoreTypes r).hpCore.isSet i = true ↔ HasCpu (clusters ls) hi i) := by
  obtain ⟨groups, hgrouped, first, hfirst, last, hlast, hle, he, hhp⟩ := detectCoreTypes_ends hdir hdistinct
  have hset : ∀ g ∈ groups, ∀ i, (new.setAll g.2).isSet i = true ↔ HasCpu (clusters ls) g.1 i := by
    intro g hg i
    rw [isSet_new_setAll, hgrouped.mem_cpus hg]
    refine and_iff_left_of_imp ?_
    rintro ⟨c, hc, -, hi⟩
    exact (mem_clusters hc).2 i hi
  have hfreq : ∀ f ∈ (clusters ls).map Prod.fst, first.1 ≤ f ∧ f ≤ last.1 := by
    intro f hf
    obtain ⟨g, hg, rfl⟩ := List.mem_map.mp ((hgrouped.freq f).mpr hf)
    exact hle g hg
  refine ⟨first.1, last.1, ⟨?_, fun f hf => (hfreq f hf).1⟩, ⟨?_, fun f hf => (hfreq f hf).2⟩, ?_, ?_⟩
  · exact (hgrouped.freq _).mp (List.mem_map_of_mem hfirst)
  · exact (hgrouped.freq _).mp (List.mem_map_of_mem hlast)
  · rw [he]
    exact hset first hfirst
  · rw [hhp]
    exact hset last hlast

theorem splitOffline_of_two_le {present : Str} {cls : List Cluster} (h : 2 ≤ cls.length) :
    splitOffline present cls = cls := by
  have hlen : decide (cls.length < 2) = false := decide_eq_false (not_lt.mpr h)
  unfold splitOffline
  cases cls with
  | nil => rfl
  | cons c rest => simp only [hlen, Bool.false_and, Bool.false_eq_true, if_false]

/-- `detect` prints one cluster of the highest and one of the lowest frequency. -/
theorem detect_ends (hdir : r.cpufreq = some (ls.map Listed.entry))
    (hdistinct : ∃ a ∈ clusters ls, ∃ b ∈ clusters ls, a.1 ≠ b.1) :
    ∃ top mid bottom, (clusters ls).Perm (top :: (mid ++ [bottom])) ∧
      (∀ c ∈ clusters ls, bottom.1 ≤ c.1 ∧ c.1 ≤ top.1) ∧
      (detect r).big = fmtCpus top.2 ∧ (detect r).little = fmtCpus bottom.2 := by
  have hlen : 2 ≤ (clusters ls).length := by
    obtain ⟨a, ha, b, hb, hne⟩ := hdistinct
    exact two_le_length ha hb fun h => hne (congrArg Prod.fst h)
  obtain ⟨top, mid, bottom, hends, hle⟩ := exists_insertionSort_ends (R := fun a b : Cluster => b.1 ≤ a.1) hlen
  have hperm := List.perm_insertionSort (fun a b : Cluster => b.1 ≤ a.1) (clusters ls)
  have hdetect : detect r = Detected.ofClusters (top :: (mid ++ [bottom])) := by
    unfold detect
    simp only [hdir, Option.getD_some, filterMap_policyCluster, not_lt.mpr hlen, if_false, hends]
    exact congrArg Detected.ofClusters (splitOffline_of_two_le (by simp))
  rw [hends] at hperm
  refine ⟨top, mid, bottom, hperm.symm, fun c hc => (hle c hc).symm, ?_, ?_⟩
  · rw [hdetect]
    rfl
  · rw [hdetect]
    simp [Detected.ofClusters]

end

/-! ### Agreement -/

/-- A cluster printed alone denotes all CPUs of its frequency when no other has the frequency. -/
theorem fromRange_eq_iff_lone {cs rest : List Cluster} {c : Cluster} {s : CpuSet} (hperm : cs.Perm (c :: rest))
    (hdisjoint : cs.Pairwise (fun a b => a.2.Disjoint b.2))
    (hcpus : ∀ d ∈ cs, d.2 ≠ [] ∧ ∀ i ∈ d.2, i < cpuSetsize) (hs : ∀ i, s.isSet i = true ↔ HasCpu cs c.1 i) :
    fromRange (fmtCpus c.2) = s ↔ cs.countP (fun d => d.1 == c.1) = 1 := by
  have hmem : ∀ d, d ∈ cs ↔ d = c ∨ d ∈ rest := fun d => by rw [hperm.mem_iff, List.mem_cons]
  have hc := hcpus c ((hmem c).mpr (.inl rfl))
  have hrest : ∀ d ∈ rest, c.2.Disjoint d.2 := by
    have hpair := hperm.pairwise hdisjoint fun {a b} (h : a.2.Disjoint b.2) => h.symm
    exact (List.pairwise_cons.mp hpair).1
  have hcount : cs.countP (fun d => d.1 == c.1) = 1 ↔ ∀ d ∈ rest, d.1 ≠ c.1 := by
    rw [hperm.countP_eq, List.countP_cons, if_pos (beq_self_eq_true c.1), Nat.add_eq_right, List.countP_eq_zero]
    simp only [beq_iff_eq, ne_eq]
  rw [fromRange_fmtCpus hc.1 hc.2, hcount]
  constructor
  · rintro rfl d hd hfreq
    obtain ⟨i, hi⟩ := List.exists_mem_of_ne_nil d.2 (hcpus d ((hmem d).mpr (.inr hd))).1
    have hset : (new.setAll c.2).isSet i = true := (hs i).mpr ⟨d, (hmem d).mpr (.inr hd), hfreq, hi⟩
    exact hrest d hd (isSet_new_setAll.mp hset).1 hi
  · intro hlone
    apply ext_isSet
    intro i hi
    rw [Bool.eq_iff_iff, isSet_new_setAll, hs]
    constructor
    · exact fun h => ⟨c, (hmem c).mpr (.inl rfl), rfl, h.1⟩
    · rintro ⟨d, hd, hfreq, hid⟩
      cases (hmem d).mp hd with
      | inl h => exact ⟨h ▸ hid, hi⟩
      | inr h => exact absurd hfreq (hlone d h)

/-- **The two detectors agree exactly when one policy has the highest and one the lowest
frequency.** -/
theorem detect_agrees_iff (ls : List Listed) (r : CpuSysfs) (hdir : r.cpufreq = some (ls.map Listed.entry))
    (hdisjoint : (clusters ls).Pairwise (fun a b => a.2.Disjoint b.2))
    (hdistinct : ∃ a ∈ clusters ls, ∃ b ∈ clusters ls, a.1 ≠ b.1) :
    ∃ lo hi, IsLeast {f | f ∈ (clusters ls).map Prod.fst} lo ∧ IsGreatest {f | f ∈ (clusters ls).map Prod.fst} hi ∧
      (∀ i, (detectCoreTypes r).eCore.isSet i = true ↔ HasCpu (clusters ls) lo i) ∧
      (∀ i, (detectCoreTypes r).hpCore.isSet i = true ↔ HasCpu (clusters ls) hi i) ∧
      (fromRange (detect r).big = (detectCoreTypes r).hpCore ↔ (clusters ls).countP (fun c => c.1 == hi) = 1) ∧
      (fromRange (detect r).little = (detectCoreTypes r).eCore ↔ (clusters ls).countP (fun c => c.1 == lo) = 1) := by
  obtain ⟨lo, hi, hlo, hhi, he, hhp⟩ := detectCoreTypes_extremes hdir hdistinct
  obtain ⟨top, mid, bottom, hperm, hle, hbig, hlittle⟩ := detect_ends hdir hdistinct
  have hfreq : ∀ f ∈ (clusters ls).map Prod.fst, bottom.1 ≤ f ∧ f ≤ top.1 := by
    intro f hf
    obtain ⟨c, hc, rfl⟩ := List.mem_map.mp hf
    exact hle c hc
  have htop : hi = top.1 := by
    have hmem : top ∈ clusters ls := hperm.mem_iff.mpr List.mem_cons_self
    exact hhi.unique ⟨List.mem_map_of_mem hmem, fun f hf => (hfreq f hf).2⟩
  have hperm' : (clusters ls).Perm (bottom :: (top :: mid)) := by
    refine hperm.trans ?_
    rw [← List.cons_append]
    exact List.perm_append_singleton bottom (top :: mid)
  have hbottom : lo = bottom.1 := by
    have hmem : bottom ∈ clusters ls := hperm'.mem_iff.mpr List.mem_cons_self
    exact hlo.unique ⟨List.mem_map_of_mem hmem, fun f hf => (hfreq f hf).1⟩
  have hcpus : ∀ c ∈ clusters ls, c.2 ≠ [] ∧ ∀ i ∈ c.2, i < cpuSetsize := fun c hc => mem_clusters hc
  refine ⟨lo, hi, hlo, hhi, he, hhp, ?_, ?_⟩
  · rw [hbig, htop]
    exact fromRange_eq_iff_lone hperm hdisjoint hcpus (htop ▸ hhp)
  · rw [hlittle, hbottom]
    exact fromRange_eq_iff_lone hperm' hdisjoint hcpus (hbottom ▸ he)

/-! ### Two directories -/

/-- The files of a policy as the kernel writes them. -/
def Policy.written (first : ℕ) (cpus : List ℕ) (freq : ℕ) (hcpus : ∀ i ∈ cpus, i < cpuSetsize) (hpos : 0 < freq)
    (hsmall : freq ≤ usizeMax) : Policy where
  name := "policy".toList ++ CpuSet.decimal first
  before := []
  cells := cpus.map (fun i => some (Numeral.ofNat i))
  after := ['\n']
  freqBefore := []
  freq := .ofNat freq
  freqAfter := ['\n']
  name_policy := List.isPrefixOf_iff_prefix.mpr (List.prefix_append _ _)
  before_blank _ hc := absurd hc List.not_mem_nil
  cells_small n hn := by
    obtain ⟨i, hi, he⟩ := List.mem_map.mp (List.reduceOption_mem_iff.mp hn)
    rw [← Option.some.inj he, Numeral.value_ofNat]
    exact hcpus i hi
  after_blank := by decide
  freqBefore_blank _ hc := absurd hc List.not_mem_nil
  freq_pos := by rwa [Numeral.value_ofNat]
  freq_small := by rwa [Numeral.value_ofNat]
  freqAfter_blank := by decide

/-- A device with a policy for each frequency. -/
def twoClusters : List Listed :=
  [.policy (.written 4 [4, 5, 6, 7] 2400000 (by decide) (by decide) (by decide)),
    .other ⟨"boost".toList, none, none⟩ (by decide),
    .policy (.written 0 [0, 1, 2, 3] 1800000 (by decide) (by decide) (by decide))]

/-- A device with two policies of the highest frequency. -/
def twinPolicies : List Listed :=
  [.policy (.written 0 [0, 1, 2, 3] 1800000 (by decide) (by decide) (by decide)),
    .policy (.written 4 [4, 5] 2400000 (by decide) (by decide) (by decide)),
    .policy (.written 6 [6, 7] 2400000 (by decide) (by decide) (by decide))]

/-- What is read on a device with these policies. -/
def sysfsOf (ls : List Listed) : CpuSysfs := ⟨some (ls.map Listed.entry), fun _ => none, none⟩

theorem detect_agrees_two_clusters :
    fromRange (detect (sysfsOf twoClusters)).big = (detectCoreTypes (sysfsOf twoClusters)).hpCore ∧
      fromRange (detect (sysfsOf twoClusters)).little = (detectCoreTypes (sysfsOf twoClusters)).eCore := by
  have hclusters : clusters twoClusters = [(2400000, [4, 5, 6, 7]), (1800000, [0, 1, 2, 3])] := by decide +kernel
  obtain ⟨lo, hi, hlo, hhi, -, -, hbig, hlittle⟩ := detect_agrees_iff twoClusters (sysfsOf twoClusters) rfl
    (by simp [hclusters]) (by simp [hclusters])
  rw [hclusters] at hlo hhi hbig hlittle
  have hlo : lo = 1800000 := hlo.unique ⟨by decide, fun f hf => by simp at hf; omega⟩
  have hhi : hi = 2400000 := hhi.unique ⟨by decide, fun f hf => by simp at hf; omega⟩
  exact ⟨hbig.mpr (by rw [hhi]; rfl), hlittle.mpr (by rw [hlo]; rfl)⟩

theorem detect_one_of_two_policies :
    (clusters twinPolicies).Pairwise (fun a b => a.2.Disjoint b.2) ∧
      (∃ a ∈ clusters twinPolicies, ∃ b ∈ clusters twinPolicies, a.1 ≠ b.1) ∧
      (detect (sysfsOf twinPolicies)).big = "4-5".toList ∧
      (detectCoreTypes (sysfsOf twinPolicies)).hpCore = new.setAll [4, 5, 6, 7] ∧
      fromRange (detect (sysfsOf twinPolicies)).big ≠ (detectCoreTypes (sysfsOf twinPolicies)).hpCore := by
  have hclusters : clusters twinPolicies = [(1800000, [0, 1, 2, 3]), (2400000, [4, 5]), (2400000, [6, 7])] := by
    decide +kernel
  refine ⟨by simp [hclusters], by simp [hclusters], ?_, ?_, ?_⟩ <;> decide +kernel

end AetherOptExt
