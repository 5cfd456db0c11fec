import MulticoreSim.Coherence.LlsCache
import Mathlib.Data.Int.CardIntervalMod

/-! # How much the shared cache holds

Messages carry byte addresses, and the shared cache takes its set from what it
is handed. Consecutive blocks of memory therefore fall into some of its sets only.
-/

namespace Coherence

/-- `schedule_data_response` for one block after the other. -/
def scheduleAll (s : Settings) (target : BlockId → NodeId) (blocks : List BlockId)
    (x : DirectoryController × CoherenceStats) : DirectoryController × CoherenceStats :=
  blocks.foldl (fun x b => x.1.scheduleDataResponse s x.2 b (target b)) x

/-- Consecutive blocks of memory, as messages carry them. -/
def consecutive (s : Settings) (first n : Nat) : List BlockId :=
  (List.range n).map fun i => (first + i) <<< s.blockSizeLog2

section

variable {s : Settings} {target : BlockId → NodeId} {d : DirectoryController} {st : CoherenceStats}
  {x : DirectoryController × CoherenceStats} {b : BlockId} {blocks : List BlockId}

theorem scheduleAll_snoc (blocks : List BlockId) (b : BlockId) :
    scheduleAll s target (blocks ++ [b]) x =
      (scheduleAll s target blocks x).1.scheduleDataResponse s (scheduleAll s target blocks x).2 b
        (target b) := by
  simp [scheduleAll]

/-! ## One response -/

/-- What a response does to the shared cache, and what it counts. -/
inductive Looked (c : LlsCache) (st : CoherenceStats) (b : BlockId) (c' : LlsCache) (st' : CoherenceStats) :
    Prop where
  | hit (mem : b ∈ c.sets (b % c.numSets)) (hits : st'.llsHits = st.llsHits + 1)
      (evictions : st'.llsEvictions = st.llsEvictions)
      (kept : ∀ j y, y ∈ c'.sets j ↔ y ∈ c.sets j)
  | install (new : b ∉ c.sets (b % c.numSets)) (room : (c.sets (b % c.numSets)).length < c.assoc)
      (hits : st'.llsHits = st.llsHits) (evictions : st'.llsEvictions = st.llsEvictions)
      (sets : c'.sets = Function.update c.sets (b % c.numSets) (b :: c.sets (b % c.numSets)))
  | evict (new : b ∉ c.sets (b % c.numSets)) (full : c.assoc ≤ (c.sets (b % c.numSets)).length)
      (evictions : st'.llsEvictions = st.llsEvictions + 1)

theorem looked (mode : s.cacheMode = .sharedLls) (enabled : 0 < d.lls.numSets)
    (st : CoherenceStats) (b : BlockId) (t : NodeId) :
    Looked d.lls st b (d.scheduleDataResponse s st b t).1.lls (d.scheduleDataResponse s st b t).2 := by
  simp only [DirectoryController.scheduleDataResponse, mode, LlsCache.access, enabled.ne', if_false]
  by_cases mem : b ∈ d.lls.sets (b % d.lls.numSets)
  · simp only [mem, if_true]
    refine .hit mem rfl rfl fun j y => ?_
    simp only [DirectoryController.latch, Function.update_apply]
    split
    · next own =>
        subst own
        by_cases eq : y = b
        · subst eq
          simp [mem]
        · simp [eq, List.mem_erase_of_ne eq]
    · rfl
  · by_cases full : d.lls.assoc ≤ (d.lls.sets (b % d.lls.numSets)).length
    · simp only [mem, full, if_false, if_true]
      exact .evict mem full rfl
    · simp only [mem, full, if_false]
      exact .install mem (Nat.lt_of_not_le full) rfl rfl rfl

theorem schedule_geometry (t : NodeId) :
    (d.scheduleDataResponse s st b t).1.lls.numSets = d.lls.numSets ∧
      (d.scheduleDataResponse s st b t).1.lls.assoc = d.lls.assoc := by
  obtain ⟨assoc, numSets⟩ := LlsCache.access_geometry d.lls b
  unfold DirectoryController.scheduleDataResponse
  cases s.cacheMode with
  | privateL2 => exact ⟨rfl, rfl⟩
  | sharedLls =>
      simp only
      split <;> exact ⟨numSets, assoc⟩

/-! ## A list of responses -/

theorem scheduleAll_geometry (s : Settings) (target : BlockId → NodeId)
    (x : DirectoryController × CoherenceStats) (blocks : List BlockId) :
    (scheduleAll s target blocks x).1.lls.numSets = x.1.lls.numSets ∧
      (scheduleAll s target blocks x).1.lls.assoc = x.1.lls.assoc := by
  induction blocks using List.reverseRecOn with
  | nil => exact ⟨rfl, rfl⟩
  | append_singleton blocks b ih =>
      rw [scheduleAll_snoc]
      exact ⟨(schedule_geometry _).1.trans ih.1, (schedule_geometry _).2.trans ih.2⟩

/-- Evictions are never taken back. -/
theorem evictions_le (mode : s.cacheMode = .sharedLls) (target : BlockId → NodeId)
    (x : DirectoryController × CoherenceStats) (enabled : 0 < x.1.lls.numSets)
    (blocks : List BlockId) : x.2.llsEvictions ≤ (scheduleAll s target blocks x).2.llsEvictions := by
  induction blocks using List.reverseRecOn with
  | nil => exact Nat.le_refl _
  | append_singleton blocks b ih =>
      rw [scheduleAll_snoc]
      apply ih.trans
      have enabled : 0 < (scheduleAll s target blocks x).1.lls.numSets := by
        rwa [(scheduleAll_geometry _ _ _ blocks).1]
      cases looked mode enabled (scheduleAll s target blocks x).2 b (target b) with
      | hit _ _ same | install _ _ _ same => exact same.ge
      | evict _ _ more => exact more ▸ Nat.le_succ _

/-- No set is asked for more blocks than it has ways. -/
def Fits (numSets assoc : Nat) (blocks : List BlockId) : Prop :=
  ∀ j, (blocks.filter (· % numSets = j)).length ≤ assoc

theorem Fits.of_snoc {numSets assoc : Nat} (fits : Fits numSets assoc (blocks ++ [b])) :
    Fits numSets assoc blocks := by
  intro j
  have whole := fits j
  rw [List.filter_append, List.length_append] at whole
  omega

/-- Distinct blocks that the sets have ways for stay, and nothing is evicted. Others are. -/
theorem scheduleAll_fresh (mode : s.cacheMode = .sharedLls) (target : BlockId → NodeId)
    (x : DirectoryController × CoherenceStats) (blocks : List BlockId) (enabled : 0 < x.1.lls.numSets)
    (empty : ∀ j, x.1.lls.sets j = []) (none : x.2.llsEvictions = 0) (distinct : blocks.Nodup) :
    (Fits x.1.lls.numSets x.1.lls.assoc blocks → (scheduleAll s target blocks x).2.llsEvictions = 0 ∧
      ∀ j, (scheduleAll s target blocks x).1.lls.sets j =
        (blocks.filter (· % x.1.lls.numSets = j)).reverse) ∧
    (¬Fits x.1.lls.numSets x.1.lls.assoc blocks → (scheduleAll s target blocks x).2.llsEvictions ≠ 0) := by
  induction blocks using List.reverseRecOn with
  | nil => exact ⟨fun _ => ⟨none, empty⟩, fun crowded => absurd (fun _ => Nat.zero_le _) crowded⟩
  | append_singleton blocks b ih =>
      obtain ⟨distinct, new⟩ : blocks.Nodup ∧ b ∉ blocks := by
        rw [List.nodup_append] at distinct
        exact ⟨distinct.1, fun mem => distinct.2.2 b mem b List.mem_cons_self rfl⟩
      obtain ⟨fit, crowded⟩ := ih distinct
      obtain ⟨numSets, assoc⟩ := scheduleAll_geometry s target x blocks
      have last := looked mode
        (numSets ▸ enabled : 0 < (scheduleAll s target blocks x).1.lls.numSets)
        (scheduleAll s target blocks x).2 b (target b)
      have more := evictions_le mode target (scheduleAll s target blocks x)
        (numSets ▸ enabled) [b]
      rw [scheduleAll_snoc]
      have counts (j : Nat) : ((blocks ++ [b]).filter (· % x.1.lls.numSets = j)).length =
          (blocks.filter (· % x.1.lls.numSets = j)).length +
            if b % x.1.lls.numSets = j then 1 else 0 := by
        rw [List.filter_append, List.length_append]
        by_cases own : b % x.1.lls.numSets = j <;> simp [own]
      constructor
      · intro fits
        obtain ⟨quiet, sets⟩ := fit fits.of_snoc
        have own := fits (b % x.1.lls.numSets)
        rw [counts, if_pos rfl] at own
        have set := sets (b % x.1.lls.numSets)
        rw [← numSets] at own set
        cases last with
        | hit mem =>
            rw [set] at mem
            simp only [List.mem_reverse, List.mem_filter] at mem
            exact absurd mem.1 new
        | evict _ full =>
            rw [set, List.length_reverse] at full
            omega
        | install _ _ _ same placed =>
            refine ⟨same.trans quiet, fun j => ?_⟩
            rw [placed, List.filter_append, List.reverse_append]
            by_cases eq : j = b % x.1.lls.numSets
            · subst eq
              rw [numSets, Function.update_self, ← numSets, set]
              simp [numSets]
            · rw [numSets, Function.update_of_ne eq, sets j]
              simp [Ne.symm eq]
      · intro crowd
        by_cases fits : Fits x.1.lls.numSets x.1.lls.assoc blocks
        · obtain ⟨-, sets⟩ := fit fits
          obtain ⟨j, excess⟩ : ∃ j, x.1.lls.assoc <
              ((blocks ++ [b]).filter (· % x.1.lls.numSets = j)).length := by
            simpa [Fits] using crowd
          have bound := fits j
          have own : b % x.1.lls.numSets = j := by
            by_contra other
            rw [counts, if_neg other] at excess
            omega
          subst own
          rw [counts, if_pos rfl] at excess
          have set := sets (b % x.1.lls.numSets)
          rw [← numSets] at excess bound set
          cases last with
          | hit mem =>
              rw [set] at mem
              simp only [List.mem_reverse, List.mem_filter] at mem
              exact absurd mem.1 new
          | install _ room =>
              rw [set, List.length_reverse, assoc] at room
              omega
          | evict _ _ counted =>
              rw [counted]
              exact Nat.succ_ne_zero _
        · have before := crowded fits
          intro none
          exact before (Nat.le_zero.mp (none ▸ more))

/-- Blocks that are there all hit, and stay. -/
theorem scheduleAll_hits (mode : s.cacheMode = .sharedLls) (target : BlockId → NodeId)
    (x : DirectoryController × CoherenceStats) (enabled : 0 < x.1.lls.numSets)
    (blocks : List BlockId) (resident : ∀ b ∈ blocks, b ∈ x.1.lls.sets (b % x.1.lls.numSets)) :
    (scheduleAll s target blocks x).2.llsHits = x.2.llsHits + blocks.length ∧
      (scheduleAll s target blocks x).2.llsEvictions = x.2.llsEvictions ∧
      ∀ j y, y ∈ (scheduleAll s target blocks x).1.lls.sets j ↔ y ∈ x.1.lls.sets j := by
  induction blocks using List.reverseRecOn with
  | nil => exact ⟨rfl, rfl, fun _ _ => Iff.rfl⟩
  | append_singleton blocks b ih =>
      obtain ⟨hits, evictions, kept⟩ := ih fun b mem => resident b (List.mem_append_left _ mem)
      obtain ⟨numSets, -⟩ := scheduleAll_geometry s target x blocks
      have here : b ∈ (scheduleAll s target blocks x).1.lls.sets
          (b % (scheduleAll s target blocks x).1.lls.numSets) := by
        rw [numSets, kept]
        exact resident b (List.mem_append_right _ List.mem_cons_self)
      rw [scheduleAll_snoc]
      cases looked mode
        (numSets ▸ enabled : 0 < (scheduleAll s target blocks x).1.lls.numSets)
        (scheduleAll s target blocks x).2 b (target b) with
      | install new | evict new => exact absurd here new
      | hit _ more same stay =>
          refine ⟨?_, same.trans evictions, fun j y => (stay j y).trans (kept j y)⟩
          rw [more, hits, List.length_append]
          rfl

/-! ## Consecutive blocks -/

/-- The sets that consecutive blocks fall into, one after the other and again. -/
def setsUsed (s : Settings) (numSets : Nat) : Nat := numSets / Nat.gcd numSets (2 ^ s.blockSizeLog2)

theorem setsUsed_pos {numSets : Nat} (enabled : 0 < numSets) : 0 < setsUsed s numSets :=
  Nat.div_pos (Nat.gcd_le_left _ enabled) (Nat.gcd_pos_of_pos_left _ enabled)

/-- Two blocks fall into one set where their numbers agree modulo `setsUsed`. -/
theorem same_set {numSets : Nat} (enabled : 0 < numSets) (first i j : Nat) :
    ((first + i) <<< s.blockSizeLog2) % numSets = ((first + j) <<< s.blockSizeLog2) % numSets ↔
      i ≡ j [MOD setsUsed s numSets] := by
  rw [Nat.shiftLeft_eq, Nat.shiftLeft_eq, Nat.mul_comm, Nat.mul_comm (first + j)]
  constructor
  · intro same
    exact (Nat.ModEq.cancel_left_div_gcd enabled same).add_left_cancel' first
  · intro same
    have scaled := (same.add_left first).mul_left' (2 ^ s.blockSizeLog2)
    refine scaled.of_dvd ?_
    obtain ⟨part, whole⟩ := Nat.gcd_dvd_right numSets (2 ^ s.blockSizeLog2)
    obtain ⟨used, all⟩ := Nat.gcd_dvd_left numSets (2 ^ s.blockSizeLog2)
    have some : 0 < Nat.gcd numSets (2 ^ s.blockSizeLog2) := Nat.gcd_pos_of_pos_left _ enabled
    have count : setsUsed s numSets = used := by
      unfold setsUsed
      exact Nat.div_eq_of_eq_mul_right some all
    exact ⟨part, by rw [count]; calc
      2 ^ s.blockSizeLog2 * used = Nat.gcd numSets (2 ^ s.blockSizeLog2) * used * part := by
        rw [Nat.mul_right_comm, ← whole]
      _ = numSets * part := by rw [← all]⟩

theorem nodup_consecutive (first n : Nat) : (consecutive s first n).Nodup := by
  refine List.nodup_range.map ?_
  intro i j same
  have same : (first + i) <<< s.blockSizeLog2 = (first + j) <<< s.blockSizeLog2 := same
  rw [Nat.shiftLeft_eq, Nat.shiftLeft_eq] at same
  have := Nat.eq_of_mul_eq_mul_right (Nat.two_pow_pos _) same
  omega

theorem countP_range (p : Nat → Prop) [DecidablePred p] (n : Nat) :
    (List.range n).countP (fun i => decide (p i)) = Nat.count p n := by
  induction n with
  | zero => rfl
  | succ n ih =>
      rw [List.range_succ, List.countP_append, ih, Nat.count_succ]
      by_cases here : p n <;> simp [here]

/-- How many of `n` consecutive blocks fall into the set of one of them. -/
theorem length_consecutive {numSets : Nat} (enabled : 0 < numSets) (first n i : Nat) :
    ((consecutive s first n).filter (· % numSets = ((first + i) <<< s.blockSizeLog2) % numSets)).length =
      n / setsUsed s numSets + if i % setsUsed s numSets < n % setsUsed s numSets then 1 else 0 := by
  rw [← List.countP_eq_length_filter, consecutive, List.countP_map,
    ← Nat.count_modEq_card n (setsUsed_pos enabled) i, ← countP_range]
  apply List.countP_congr
  intro j _
  simp only [Function.comp_apply, decide_eq_true_eq]
  exact same_set enabled first j i

/-- The sets have ways for `n` consecutive blocks where those that are used have. -/
theorem fits_consecutive {numSets : Nat} (enabled : 0 < numSets) (assoc first n : Nat) :
    Fits numSets assoc (consecutive s first n) ↔ n ≤ assoc * setsUsed s numSets := by
  have used := setsUsed_pos (s := s) enabled
  have split := Nat.div_add_mod n (setsUsed s numSets)
  have below := Nat.mod_lt n used
  constructor
  · intro fits
    have count := fits (((first + 0) <<< s.blockSizeLog2) % numSets)
    rw [length_consecutive enabled, Nat.zero_mod] at count
    by_cases whole : n % setsUsed s numSets = 0
    · calc
        n = setsUsed s numSets * (n / setsUsed s numSets) := by omega
        _ ≤ setsUsed s numSets * assoc := Nat.mul_le_mul_left _ (by omega)
        _ = assoc * setsUsed s numSets := Nat.mul_comm _ _
    · rw [if_pos (Nat.pos_of_ne_zero whole)] at count
      calc
        n ≤ setsUsed s numSets * (n / setsUsed s numSets + 1) := by
          rw [Nat.mul_add]
          omega
        _ ≤ setsUsed s numSets * assoc := Nat.mul_le_mul_left _ count
        _ = assoc * setsUsed s numSets := Nat.mul_comm _ _
  · intro le j
    by_cases hit : ∃ i, ((first + i) <<< s.blockSizeLog2) % numSets = j
    · obtain ⟨i, rfl⟩ := hit
      rw [length_consecutive enabled]
      rw [Nat.mul_comm] at le
      have most : n / setsUsed s numSets ≤ assoc := Nat.div_le_of_le_mul le
      split
      · next more =>
          have strict : n / setsUsed s numSets ≠ assoc := by
            rintro rfl
            omega
          omega
      · exact most
    · have none : (consecutive s first n).filter (· % numSets = j) = [] := by
        refine List.filter_eq_nil_iff.mpr fun b mem => ?_
        obtain ⟨i, -, rfl⟩ := List.mem_map.mp mem
        simpa using fun here => hit ⟨i, here⟩
      rw [none]
      exact Nat.zero_le _

/-- Once scheduled, consecutive blocks all hit and nothing is evicted: exactly where the sets
    they fall into have ways for them. -/
theorem lls_capacity_iff (s : Settings) (mode : s.cacheMode = .sharedLls) (numSets : Nat)
    (enabled : 0 < numSets) (ways : 0 < s.llsAssoc) (size : s.llsBlocks = numSets * s.llsAssoc)
    (target : BlockId → NodeId) (first n : Nat) :
    let blocks := consecutive s first n
    let x := scheduleAll s target blocks (DirectoryController.make s, {})
    let y := scheduleAll s target blocks x
    (y.2.llsHits = x.2.llsHits + n ∧ y.2.llsEvictions = 0) ↔
      n ≤ s.llsAssoc * (numSets / Nat.gcd numSets (2 ^ s.blockSizeLog2)) := by
  intro blocks x y
  have some : s.llsBlocks ≠ 0 := size ▸ (Nat.mul_pos enabled ways).ne'
  have made : (DirectoryController.make s).lls = { assoc := s.llsAssoc, numSets := numSets } := by
    have sets : s.llsBlocks / s.llsAssoc = numSets := by
      rw [size]
      exact Nat.mul_div_cancel numSets ways
    simp only [DirectoryController.make, mode, LlsCache.build, some, ways.ne', or_self, if_false, sets]
  have enabled' : 0 < (DirectoryController.make s).lls.numSets := by rwa [made]
  have fresh := scheduleAll_fresh mode target (DirectoryController.make s, {}) blocks enabled'
    (fun j => by rw [made]) rfl (nodup_consecutive first n)
  rw [made] at fresh
  have geometry : x.1.lls.numSets = numSets := by
    rw [(scheduleAll_geometry _ _ _ blocks).1, made]
  have more : x.2.llsEvictions ≤ y.2.llsEvictions := evictions_le mode target x (geometry ▸ enabled) blocks
  rw [← setsUsed, ← fits_consecutive enabled]
  constructor
  · rintro ⟨-, none⟩
    by_contra crowded
    exact fresh.2 crowded (Nat.le_zero.mp (more.trans none.le))
  · intro fits
    obtain ⟨quiet, sets⟩ := fresh.1 fits
    obtain ⟨hits, evictions, -⟩ := scheduleAll_hits mode target x
      (geometry ▸ enabled) blocks (by
        intro b mem
        rw [sets, geometry]
        simpa using mem)
    have length : blocks.length = n := by simp [blocks, consecutive]
    exact ⟨by rw [← length]; exact hits, evictions.trans quiet⟩

/-- Four sets of one way, and blocks of 64 bytes. -/
def llsSettings : Settings := { cacheMode := .sharedLls, llsBlocks := 4, llsAssoc := 1 }

/-- Three sets of two ways, which five consecutive blocks spread over. -/
theorem lls_capacity_odd :
    let s := { llsSettings with llsBlocks := 6, llsAssoc := 2 }
    let blocks := consecutive s 7 5
    let x := scheduleAll s (fun _ => 0) blocks (DirectoryController.make s, {})
    let y := scheduleAll s (fun _ => 0) blocks x
    y.2.llsHits = x.2.llsHits + 5 ∧ y.2.llsEvictions = 0 :=
  (lls_capacity_iff { llsSettings with llsBlocks := 6, llsAssoc := 2 } rfl 3 (by decide) (by decide) rfl
    (fun _ => 0) 7 5).mpr (by decide)

/-- Blocks 0 and 64 fall into the same of four sets, so that each takes the other's place. -/
theorem lls_capacity_two :
    let blocks := consecutive llsSettings 0 2
    let x := scheduleAll llsSettings (fun _ => 0) blocks (DirectoryController.make llsSettings, {})
    let y := scheduleAll llsSettings (fun _ => 0) blocks x
    2 ≤ llsSettings.llsBlocks ∧ y.2.llsHits = x.2.llsHits ∧ y.2.llsEvictions = 3 := by
  decide

end

end Coherence
