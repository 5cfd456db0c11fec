import MulticoreSim.Memory.WriteBack

/-! # Two write-back levels over the main memory

The hierarchy of the cache mode: L1 over an L2 with a prefetcher over the main
memory. The log lists what each level was asked, so that a store can be followed
down: it is dirty in L1, then in L2, then written to the main memory.
-/

namespace Memory

inductive Event where
  /-- A request of the trace, logged once L1 has served it. -/
  | l1 (req : MemReq)
  | l2 (req : MemReq)
  | memory (req : MemReq)
  deriving DecidableEq, Repr

/-- The main memory, with the log. -/
def Below.dram : Below where
  State := MainMemory × List Event
  access := fun (m, log) req =>
    some (((m.access req).1, log ++ [.memory req]), (m.access req).2, false, [])

/-- What L1 has below it. `peerAbove` is L1 as the L2 prefetcher sees it. -/
structure Lower where
  l2 : Cache
  prefetcher : Option Prefetcher
  peerAbove : Cache
  memory : MainMemory
  log : List Event

def Lower.access (lo : Lower) (req : MemReq) : Lower × AccessResult :=
  let (r, prefetcher, result) := lo.l2.accessPrefetching (β := .dram) lo.prefetcher
    (some lo.peerAbove) (lo.memory, lo.log ++ [.l2 req]) req
  ({ lo with l2 := r.cache, prefetcher, memory := r.below.1, log := r.below.2 }, result)

def Below.level2 : Below where
  State := Lower
  access := fun lo req =>
    some ((lo.access req).1, (lo.access req).2,
      (lo.access req).2.latency = coherenceSuspendedLatency, [])

structure Hierarchy where
  l1 : Cache
  lower : Lower

namespace Hierarchy

def build (cfg1 cfg2 : Config) (prefetcher : Option Prefetcher) (latency : Nat) : Hierarchy :=
  let l1 := Cache.build cfg1
  { l1, lower := ⟨Cache.build cfg2, prefetcher, l1, { latency }, []⟩ }

def access (h : Hierarchy) (req : MemReq) : Hierarchy :=
  let r := (h.l1.access (β := .level2) { h.lower with peerAbove := h.l1 } req).1
  { l1 := r.cache, lower := { r.below with log := r.below.log ++ [.l1 req] } }

def run (h : Hierarchy) (reqs : List MemReq) : Hierarchy := reqs.foldl access h

end Hierarchy

/-! ## Following a store -/

/-- How far the last store to a block has come: its line is in L1, was written to L2,
    or was written to the main memory after that. -/
inductive Whereabouts where
  | unwritten | l1 | l2 | memory
  deriving DecidableEq, Repr

/-- Follow the last store to the L1 block of `a`. -/
def Whereabouts.next (b1 b2 a : Nat) (at_ : Whereabouts) : Event → Whereabouts
  | .l1 req => if req.op = .write ∧ req.addr >>> b1 = a >>> b1 then .l1 else at_
  | .l2 req => if at_ = .l1 ∧ req.op = .write ∧ req.addr >>> b1 = a >>> b1 then .l2 else at_
  | .memory req =>
      if at_ = .l2 ∧ req.op = .write ∧ req.addr >>> b2 = a >>> b2 then .memory else at_

def whereabouts (b1 b2 a : Nat) (log : List Event) : Whereabouts :=
  log.foldl (Whereabouts.next b1 b2 a) .unwritten

/-- The line that holds an address is dirty. -/
def Cache.DirtyAt (c : Cache) (a : Nat) : Prop := c.Dirty (c.getBlockAddr a)

instance (c : Cache) (X : Nat) : Decidable (c.Dirty X) :=
  inferInstanceAs (Decidable (∃ line ∈ c.set X, _))

instance (c : Cache) (a : Nat) : Decidable (c.DirtyAt a) :=
  inferInstanceAs (Decidable (c.Dirty _))

/-! ## L2 over the main memory -/

theorem Below.answers_dram : Cache.Answers .dram := fun _ _ => rfl

theorem Below.answers_level2 : Cache.Answers .level2 := fun _ _ => rfl

/-- The requests write the block back. -/
def WritesBack (cfg : Config) (X : Nat) (reqs : List MemReq) : Prop :=
  ∃ req ∈ reqs, req.op = .write ∧ req.addr >>> cfg.b = X

/-- A change of L2 that writes to the main memory what stops being dirty. -/
structure Drains (c : Cache) (below : Below.dram.State) (c' : Cache) (below' : Below.dram.State) :
    Prop where
  cfg : c'.cfg = c.cfg
  indexed : c'.Indexed
  latency : below'.1.latency = below.1.latency
  balance : below'.1.stats.writes + c.stats.writebacks = below.1.stats.writes + c'.stats.writebacks
  written : ∃ reqs : List MemReq, below'.2 = below.2 ++ reqs.map .memory ∧
    ∀ X, c.Dirty X → c'.Dirty X ∨ WritesBack c.cfg X reqs

namespace Drains

variable {c c' c'' : Cache} {below below' below'' : Below.dram.State}

theorem of_same (reqs : List MemReq) (cfg : c'.cfg = c.cfg) (indexed : c'.Indexed)
    (memory : below'.1.latency = below.1.latency ∧ below'.1.stats.writes = below.1.stats.writes)
    (writebacks : c'.stats.writebacks = c.stats.writebacks)
    (log : below'.2 = below.2 ++ reqs.map .memory) (kept : ∀ X, c.Dirty X → c'.Dirty X) :
    Drains c below c' below' :=
  ⟨cfg, indexed, memory.1, by rw [memory.2, writebacks], reqs, log, fun X dirty => .inl (kept X dirty)⟩

theorem trans (first : Drains c below c' below') (second : Drains c' below' c'' below'') :
    Drains c below c'' below'' := by
  obtain ⟨reqs, log, kept⟩ := first.written
  obtain ⟨reqs', log', kept'⟩ := second.written
  refine ⟨second.cfg.trans first.cfg, second.indexed, second.latency.trans first.latency, ?_,
    reqs ++ reqs', ?_, fun X dirty => ?_⟩
  · have balance := first.balance
    have balance' := second.balance
    omega
  · rw [log', log, List.map_append, List.append_assoc]
  · have more : WritesBack c.cfg X reqs ∨ WritesBack c'.cfg X reqs' →
        WritesBack c.cfg X (reqs ++ reqs') := by
      rintro (⟨req, mem, writes⟩ | ⟨req, mem, writes⟩)
      · exact ⟨req, List.mem_append_left _ mem, writes⟩
      · exact ⟨req, List.mem_append_right _ mem, first.cfg ▸ writes⟩
    rcases kept X dirty with dirty | written
    · exact (kept' X dirty).imp_right fun written => more (.inr written)
    · exact .inr (more (.inl written))

/-- A spill over the main memory drains: a victim is written there. -/
theorem of_spill (cfg : c'.cfg = c.cfg) (indexed : c'.Indexed)
    (spill : Cache.Spill c below c' below') : Drains c below c' below' := by
  cases spill with
  | none same stats kept =>
      subst same
      exact of_same [] cfg indexed ⟨rfl, rfl⟩ (by rw [stats]) (by simp) kept
  | @victim V result suspended calls inWord down stats kept =>
      cases down
      refine ⟨cfg, indexed, rfl, ?_, [_], rfl, fun X dirty => ?_⟩
      · rw [stats]
        exact Nat.add_right_comm _ _ _
      · by_cases other : X = V
        · refine .inr ⟨_, List.mem_singleton_self _, rfl, ?_⟩
          subst other
          rw [shiftLeft64, Nat.mod_eq_of_lt inWord, Nat.shiftLeft_shiftRight]
        · exact .inl (kept X dirty other)

end Drains

namespace Cache

variable {c : Cache}

/-- An access of L2: what it drains, what it counts, and what it leaves dirty. -/
structure Drained (c : Cache) (below : Below.dram.State) (req : MemReq) (c' : Cache)
    (below' : Below.dram.State) : Prop where
  drains : Drains c below c' below'
  reads : c'.stats.reads = c.stats.reads + if req.op.isWrite then 0 else 1
  writes : c'.stats.writes = c.stats.writes + if req.op.isWrite then 1 else 0

theorem access_drained (writeBack : WriteBack c.cfg) (indexed : c.Indexed) {req : MemReq}
    (word : req.addr < 2 ^ 64) (below : Below.dram.State) :
    Drained c below req (c.access (β := .dram) below req).1.cache
      (c.access (β := .dram) below req).1.below ∧
    (req.op.isWrite = true →
      (c.access (β := .dram) below req).1.cache.Dirty (c.getBlockAddr req.addr)) := by
  obtain ⟨cfg, indexed', accessed⟩ :=
    access_spec (β := .dram) Below.answers_dram writeBack indexed word below
  generalize (c.access (β := .dram) below req).1 = r at cfg indexed' accessed ⊢
  cases accessed with
  | hit same lines counts writebacks written =>
      refine ⟨⟨.of_same [] cfg indexed' ?_ writebacks ?_ lines, counts.reads,
        counts.writes⟩, written⟩
      · rw [same]
        exact ⟨rfl, rfl⟩
      · rw [same]
        simp
  | suspended asked => simp [Below.dram] at asked
  | @filled mid sub calls c₁ asked same counts writebacks inserted =>
      -- The fetch reads the main memory, then the insertion may spill.
      cases asked
      have fetched : Drains c below c₁
          ((below.1.access (c.fetchReq req)).1, below.2 ++ [.memory (c.fetchReq req)]) :=
        .of_same [c.fetchReq req] same.cfg (same.indexed indexed) ⟨rfl, rfl⟩ writebacks rfl
          fun X dirty => same.dirty.mpr dirty
      obtain ⟨reads, writes, -⟩ := inserted.spill.counts
      exact ⟨⟨fetched.trans (.of_spill inserted.cfg inserted.indexed inserted.spill),
        reads.trans counts.reads, writes.trans counts.writes⟩, inserted.fresh⟩

/-- What an access of L2 answers is its hit latency, or that and the memory's. -/
theorem access_latency (writeBack : WriteBack c.cfg) (below : Below.dram.State) (req : MemReq) :
    (c.access (β := .dram) below req).2.latency = c.cfg.hitLatency % 2 ^ 32 ∨
      (c.access (β := .dram) below req).2.latency =
        (c.cfg.hitLatency + below.1.latency) % 2 ^ 32 := by
  have wbwa : ∀ c₁ : Cache, c₁.cfg = c.cfg →
      (c₁.accessWbwa (β := .dram) below req).2.latency = c.cfg.hitLatency % 2 ^ 32 ∨
        (c₁.accessWbwa (β := .dram) below req).2.latency =
          (c.cfg.hitLatency + below.1.latency) % 2 ^ 32 := by
    intro c₁ same
    unfold accessWbwa
    dsimp only
    split
    · rw [if_neg (by simp [same, writeBack.plain]), ← same]
      exact .inl rfl
    · rw [← same]
      exact .inr rfl
  simp only [access, bump, writeBack.wbwa]
  exact wbwa _ rfl

theorem shiftLeft64_predict {cache : Cache} {peer : Option Cache} {missed addr : Nat}
    {row : Option MarkovRow} (predicted : Markov.predict cache peer missed row = some addr) :
    addr < 2 ^ 64 := by
  unfold Markov.predict at predicted
  split at predicted
  · dsimp only at predicted
    split at predicted
    · cases predicted
      exact shiftLeft64_lt _ _
    · cases predicted
  · cases predicted

theorem plusOneMiss_lt {cache : Cache} {peer : Option Cache} {missed addr : Nat}
    (found : Prefetcher.plusOneMiss cache peer missed = some addr) : addr < 2 ^ 64 := by
  unfold Prefetcher.plusOneMiss at found
  dsimp only at found
  split at found
  · cases found
  · cases found
    exact shiftLeft64_lt _ _

/-- A prefetcher asks for 64-bit addresses. -/
theorem onMiss_lt {pf : Prefetcher} {cache : Cache} {peer : Option Cache} {demand : MemReq}
    {addr : Nat} (found : (pf.onMiss cache peer demand).2 = some addr) : addr < 2 ^ 64 := by
  cases pf with
  | plusOne => exact plusOneMiss_lt found
  | markov m =>
      simp only [Prefetcher.onMiss, Prefetcher.markovMiss, Prod.map_snd, id] at found
      split at found
      · cases found
      · exact shiftLeft64_predict found
  | hybrid m =>
      simp only [Prefetcher.onMiss, Prefetcher.hybridMiss, Prod.map_snd, id] at found
      split at found
      · exact plusOneMiss_lt found
      · dsimp only at found
        split at found
        · exact shiftLeft64_predict found
        · exact plusOneMiss_lt found

theorem issuePrefetch_drains (writeBack : WriteBack c.cfg) (indexed : c.Indexed) {addr : Nat}
    (word : addr < 2 ^ 64) (below : Below.dram.State) :
    Drains c below (c.issuePrefetch (β := .dram) below addr).cache
        (c.issuePrefetch (β := .dram) below addr).below ∧
      (c.issuePrefetch (β := .dram) below addr).cache.stats.reads = c.stats.reads ∧
      (c.issuePrefetch (β := .dram) below addr).cache.stats.writes = c.stats.writes := by
  unfold issuePrefetch
  split
  · exact ⟨.of_same [] rfl indexed ⟨rfl, rfl⟩ rfl (by simp) fun _ => id, rfl, rfl⟩
  · have inserted := insert_spec (β := .dram) Below.answers_dram writeBack indexed
      (inWord_block word) below false true
    generalize c.insertNewBlock (β := .dram) below false (c.getBlockAddr addr) true = r at inserted ⊢
    dsimp only
    have counted := sameLines_bump r.cache fun st => { st with
      prefetchesIssued := st.prefetchesIssued + 1 }
    have bumped : Drains r.cache r.below (r.cache.bump _) r.below :=
      .of_same [] rfl (counted.indexed inserted.indexed) ⟨rfl, rfl⟩ rfl (by simp)
        fun X dirty => counted.dirty.mpr dirty
    obtain ⟨reads, writes, -⟩ := inserted.spill.counts
    exact ⟨(Drains.of_spill inserted.cfg inserted.indexed inserted.spill).trans bumped, reads, writes⟩

end Cache

namespace Lower

variable {lo : Lower}

/-- The memory traffic of an L2 access, and where it leaves what was dirty or written. -/
structure Accessed (lo : Lower) (req : MemReq) (lo' : Lower) : Prop where
  cfg : lo'.l2.cfg = lo.l2.cfg
  indexed : lo'.l2.Indexed
  latency : lo'.memory.latency = lo.memory.latency
  balance : lo'.memory.stats.writes + lo.l2.stats.writebacks =
    lo.memory.stats.writes + lo'.l2.stats.writebacks
  reads : lo'.l2.stats.reads = lo.l2.stats.reads + if req.op.isWrite then 0 else 1
  writes : lo'.l2.stats.writes = lo.l2.stats.writes + if req.op.isWrite then 1 else 0
  written : ∃ reqs : List MemReq, lo'.log = lo.log ++ .l2 req :: reqs.map .memory ∧
    ∀ X, lo.l2.Dirty X ∨ (req.op = .write ∧ X = lo.l2.getBlockAddr req.addr) →
      lo'.l2.Dirty X ∨ WritesBack lo.l2.cfg X reqs

theorem access_spec (writeBack : Cache.WriteBack lo.l2.cfg) (indexed : lo.l2.Indexed) {req : MemReq}
    (word : req.addr < 2 ^ 64) : Accessed lo req (lo.access req).1 := by
  have demand := Cache.access_drained writeBack indexed word (lo.memory, lo.log ++ [.l2 req])
  unfold access Cache.accessPrefetching
  dsimp only
  generalize Cache.access (β := .dram) lo.l2 (lo.memory, lo.log ++ [.l2 req]) req = answer
    at demand ⊢
  -- Whatever the prefetcher does drains after that.
  have done : ∀ (r : Cache.Result .dram) (lo' : Lower),
      Drains answer.1.cache answer.1.below r.cache r.below →
      r.cache.stats.reads = answer.1.cache.stats.reads →
      r.cache.stats.writes = answer.1.cache.stats.writes →
      lo'.l2 = r.cache → lo'.memory = r.below.1 → lo'.log = r.below.2 → Accessed lo req lo' := by
    rintro r ⟨_, _, _, _, _⟩ drains reads writes rfl rfl rfl
    obtain ⟨⟨first, reads₁, writes₁⟩, written₁⟩ := demand
    have whole := first.trans drains
    obtain ⟨reqs₁, log₁, kept₁⟩ := first.written
    obtain ⟨reqs₂, log₂, kept₂⟩ := drains.written
    refine ⟨whole.cfg, whole.indexed, whole.latency, whole.balance, reads.trans reads₁,
      writes.trans writes₁, reqs₁ ++ reqs₂, ?_, ?_⟩
    · dsimp only
      rw [log₂, log₁]
      simp
    · have later : ∀ X, WritesBack lo.l2.cfg X reqs₁ ∨ WritesBack lo.l2.cfg X reqs₂ →
          WritesBack lo.l2.cfg X (reqs₁ ++ reqs₂) := by
        rintro X (⟨w, mem, writes⟩ | ⟨w, mem, writes⟩)
        · exact ⟨w, List.mem_append_left _ mem, writes⟩
        · exact ⟨w, List.mem_append_right _ mem, writes⟩
      have second := fun X dirty => (kept₂ X dirty).imp_right fun written =>
        later X (.inr (first.cfg ▸ written))
      rintro X (dirty | ⟨write, rfl⟩)
      · rcases kept₁ X dirty with dirty | written
        · exact second X dirty
        · exact .inr (later X (.inl written))
      · exact second _ (written₁ (by simp [Op.isWrite, write]))
  have still : Drains answer.1.cache answer.1.below answer.1.cache answer.1.below :=
    .of_same [] rfl demand.1.drains.indexed ⟨rfl, rfl⟩ rfl (by simp) fun _ => id
  split
  · exact done answer.1 _ still rfl rfl rfl rfl rfl
  · split
    · split
      · exact done answer.1 _ still rfl rfl rfl rfl rfl
      · next found =>
          have writeBack' : Cache.WriteBack answer.1.cache.cfg := demand.1.drains.cfg ▸ writeBack
          obtain ⟨drains, reads, writes⟩ := Cache.issuePrefetch_drains writeBack'
            demand.1.drains.indexed (Cache.onMiss_lt (congrArg Prod.snd found)) answer.1.below
          exact done (Cache.issuePrefetch (β := .dram) _ _ _) _ drains reads writes rfl rfl rfl
    · exact done answer.1 _ still rfl rfl rfl rfl rfl

/-- A non-negative latency of an `int` is not taken for the sentinel. -/
theorem never_suspends (writeBack : Cache.WriteBack lo.l2.cfg) (hit : lo.l2.cfg.hitLatency < 2 ^ 31)
    (memory : lo.memory.latency < 2 ^ 31) (req : MemReq) :
    (lo.access req).2.latency ≠ coherenceSuspendedLatency := by
  have answer := Cache.access_latency writeBack (lo.memory, lo.log ++ [.l2 req]) req
  have same : (lo.access req).2 =
      (lo.l2.access (β := .dram) (lo.memory, lo.log ++ [.l2 req]) req).2 := by
    unfold access Cache.accessPrefetching
    dsimp only
    split
    · rfl
    · split
      · split <;> rfl
      · rfl
  rw [same]
  unfold coherenceSuspendedLatency
  dsimp only at answer
  omega

theorem not_suspended {lo' : Lower} {req : MemReq} {sub : AccessResult} {calls : List SinkCall}
    (writeBack : Cache.WriteBack lo.l2.cfg) (hit : lo.l2.cfg.hitLatency < 2 ^ 31)
    (memory : lo.memory.latency < 2 ^ 31)
    (asked : Below.level2.access lo req = some (lo', sub, true, calls)) : False := by
  simp only [Below.level2, Option.some.injEq, Prod.mk.injEq, decide_eq_true_eq] at asked
  exact never_suspends writeBack hit memory req asked.2.2.1

end Lower

/-! ## The last store -/

/-- Where the last store of those that are done has come, its line is still dirty. -/
def Kept (l1 l2 : Cache) (done : List MemReq) (a : Nat) : Whereabouts → Prop
  | .unwritten => ∀ req ∈ done, ¬ (req.op = .write ∧ req.addr >>> l1.cfg.b = a >>> l1.cfg.b)
  | .l1 => l1.DirtyAt a
  | .l2 => l2.DirtyAt a
  | .memory => True

/-- The L2 block of the address holds the start of its L1 block. -/
def StartsIn (cfg1 cfg2 : Config) (a : Nat) : Prop :=
  (a >>> cfg1.b) <<< cfg1.b >>> cfg2.b = a >>> cfg2.b

theorem startsIn_of_le {cfg1 cfg2 : Config} (le : cfg1.b ≤ cfg2.b) (a : Nat) :
    StartsIn cfg1 cfg2 a := by
  obtain ⟨n, split⟩ := Nat.exists_eq_add_of_le le
  unfold StartsIn
  rw [split, Nat.shiftRight_add, Nat.shiftLeft_shiftRight, Nat.shiftRight_add]

namespace Whereabouts

variable {b1 b2 a : Nat}

theorem next_memory_other {at_ : Whereabouts} (other : at_ ≠ .l2) (reqs : List MemReq) :
    (reqs.map Event.memory).foldl (next b1 b2 a) at_ = at_ := by
  induction reqs with
  | nil => rfl
  | cons req rest ih =>
      rw [List.map_cons, List.foldl_cons, next, if_neg (fun h => other h.1)]
      exact ih

/-- What main memory is asked takes a store that is in L2 further if it writes the block. -/
theorem next_memory {at_ : Whereabouts} (reqs : List MemReq)
    (stays : at_ = .l2 ∨ at_ = .memory) :
    (reqs.map Event.memory).foldl (next b1 b2 a) at_ = .memory ∨
      (reqs.map Event.memory).foldl (next b1 b2 a) at_ = .l2 ∧
        ∀ req ∈ reqs, ¬ (req.op = .write ∧ req.addr >>> b2 = a >>> b2) := by
  induction reqs generalizing at_ with
  | nil => exact stays.elim (fun reached => .inr ⟨reached, by simp⟩) .inl
  | cons req rest ih =>
      rw [List.map_cons, List.foldl_cons]
      rcases stays with rfl | rfl
      · by_cases writes : req.op = .write ∧ req.addr >>> b2 = a >>> b2
        · rw [next, if_pos ⟨rfl, writes⟩, next_memory_other (by decide)]
          exact .inl rfl
        · rw [next, if_neg fun h => writes h.2]
          refine (ih (.inl rfl)).imp_right fun ⟨reached, others⟩ => ⟨reached, ?_⟩
          exact List.forall_mem_cons.mpr ⟨writes, others⟩
      · rw [next, if_neg (by simp), next_memory_other (by decide)]
        exact .inl rfl

end Whereabouts

/-- The last store to the address is not lost. -/
def Safe (l1 : Cache) (lo : Lower) (done : List MemReq) (a : Nat) : Prop :=
  Kept l1 lo.l2 done a (whereabouts l1.cfg.b lo.l2.cfg.b a lo.log)

namespace Safe

variable {l1 l1' : Cache} {lo lo' : Lower} {done : List MemReq} {a : Nat}

theorem grow (cfg : l1'.cfg = l1.cfg) (kept : l1.DirtyAt a → l1'.DirtyAt a)
    (safe : Safe l1 lo done a) : Safe l1' lo done a := by
  unfold Safe at safe ⊢
  rw [cfg]
  generalize whereabouts l1.cfg.b lo.l2.cfg.b a lo.log = reached at safe ⊢
  cases reached with
  | unwritten =>
      unfold Kept
      rw [cfg]
      exact safe
  | l1 => exact kept safe
  | l2 | memory => exact safe

theorem store {req : MemReq} (written : req.op = .write → l1.DirtyAt req.addr)
    (safe : Safe l1 lo done a) :
    Safe l1 { lo with log := lo.log ++ [.l1 req] } (done ++ [req]) a := by
  unfold Safe at safe ⊢
  dsimp only
  rw [whereabouts, List.foldl_append, List.foldl_cons, List.foldl_nil, Whereabouts.next]
  change Kept l1 lo.l2 done a (List.foldl _ _ lo.log) at safe
  generalize List.foldl (Whereabouts.next l1.cfg.b lo.l2.cfg.b a) .unwritten lo.log = reached
    at safe ⊢
  split
  · next writes =>
      have dirty := written writes.1
      unfold Cache.DirtyAt Cache.getBlockAddr at dirty
      rw [writes.2] at dirty
      exact dirty
  · next other =>
      cases reached with
      | unwritten =>
          intro earlier mem
          rcases List.mem_append.mp mem with mem | mem
          · exact safe earlier mem
          · rw [List.mem_singleton.mp mem]
            exact other
      | l1 | l2 | memory => exact safe

/-- An access of L2 leaves a store safe where it writes down what L1 gives up. -/
theorem access {req : MemReq} (cfg : l1'.cfg = l1.cfg) (accessed : Lower.Accessed lo req lo')
    (starts : req.op = .write → req.addr >>> l1.cfg.b = a >>> l1.cfg.b →
      req.addr >>> lo.l2.cfg.b = a >>> lo.l2.cfg.b)
    (kept : l1.DirtyAt a → l1'.DirtyAt a ∨
      (req.op = .write ∧ req.addr >>> l1.cfg.b = a >>> l1.cfg.b))
    (safe : Safe l1 lo done a) : Safe l1' lo' done a := by
  obtain ⟨reqs, log, written⟩ := accessed.written
  unfold Safe at safe ⊢
  rw [cfg, accessed.cfg, log, whereabouts, List.foldl_append, List.foldl_cons]
  change Kept l1 lo.l2 done a (List.foldl _ _ lo.log) at safe
  generalize List.foldl (Whereabouts.next l1.cfg.b lo.l2.cfg.b a) .unwritten lo.log = reached
    at safe ⊢
  -- A store that L2 now holds is dirty there, or is written to the main memory.
  have inL2 : lo.l2.DirtyAt a ∨ (req.op = .write ∧ a >>> lo.l2.cfg.b = req.addr >>> lo.l2.cfg.b) →
      Kept l1' lo'.l2 done a
        ((reqs.map Event.memory).foldl (Whereabouts.next l1.cfg.b lo.l2.cfg.b a) .l2) := by
    intro holds
    rcases Whereabouts.next_memory reqs (.inl rfl) with further | ⟨still, others⟩
    · rw [further]
      trivial
    · rw [still]
      rcases written _ holds with dirty | ⟨w, mem, op, addr⟩
      · unfold Kept Cache.DirtyAt Cache.getBlockAddr
        rw [accessed.cfg]
        exact dirty
      · exact absurd ⟨op, addr⟩ (others w mem)
  cases reached with
  | unwritten =>
      rw [Whereabouts.next, if_neg (by simp), Whereabouts.next_memory_other (by decide)]
      unfold Kept
      rw [cfg]
      exact safe
  | memory =>
      rw [Whereabouts.next, if_neg (by simp), Whereabouts.next_memory_other (by decide)]
      trivial
  | l2 =>
      rw [Whereabouts.next, if_neg (by simp)]
      exact inL2 (.inl safe)
  | l1 =>
      by_cases line : req.op = .write ∧ req.addr >>> l1.cfg.b = a >>> l1.cfg.b
      · rw [Whereabouts.next, if_pos ⟨rfl, line⟩]
        exact inL2 (.inr ⟨line.1, (starts line.1 line.2).symm⟩)
      · rw [Whereabouts.next, if_neg fun h => line h.2,
          Whereabouts.next_memory_other (by decide)]
        exact (kept safe).elim id fun down => absurd down line

end Safe

namespace Hierarchy

/-- Both levels are write-back caches, and no latency is the sentinel. -/
structure Proper (cfg1 cfg2 : Config) (latency : Nat) : Prop where
  l1 : Cache.WriteBack cfg1
  l2 : Cache.WriteBack cfg2
  hit : cfg2.hitLatency < 2 ^ 31
  memory : latency < 2 ^ 31

/-- The invariant, after the requests that are done. -/
structure Good (cfg1 cfg2 : Config) (latency : Nat) (done : List MemReq) (l1 : Cache) (lo : Lower) :
    Prop where
  sameCfg1 : l1.cfg = cfg1
  sameCfg2 : lo.l2.cfg = cfg2
  indexed1 : l1.Indexed
  indexed2 : lo.l2.Indexed
  latency : lo.memory.latency = latency
  memory : lo.memory.stats.writes = lo.l2.stats.writebacks
  writes : lo.l2.stats.writes = l1.stats.writebacks
  reads : lo.l2.stats.reads = l1.stats.misses
  safe : ∀ a, StartsIn cfg1 cfg2 a → Safe l1 lo done a

namespace Good

variable {cfg1 cfg2 : Config} {latency : Nat} {done : List MemReq} {l1 l1' : Cache} {lo lo' : Lower} {req : MemReq}

theorem fetch (proper : Proper cfg1 cfg2 latency) (good : Good cfg1 cfg2 latency done l1 lo)
    {sub : AccessResult} {suspended : Bool} {calls : List SinkCall}
    (asked : Below.level2.access lo (l1.fetchReq req) = some (lo', sub, suspended, calls))
    (same : Cache.SameLines l1 l1') (counts : Cache.Counts l1 l1' req 1)
    (writebacks : l1'.stats.writebacks = l1.stats.writebacks) : Good cfg1 cfg2 latency done l1' lo' := by
  have accessed := Lower.access_spec (good.sameCfg2 ▸ proper.l2) good.indexed2
    (show (l1.fetchReq req).addr < 2 ^ 64 from shiftLeft64_lt _ _)
  cases asked
  have balance := accessed.balance
  have memory := good.memory
  refine ⟨same.cfg.trans good.sameCfg1, accessed.cfg.trans good.sameCfg2, same.indexed good.indexed1,
    accessed.indexed, accessed.latency.trans good.latency, by omega, ?_, ?_, fun a starts => ?_⟩
  · rw [accessed.writes, writebacks, good.writes]
    rfl
  · rw [accessed.reads, counts.misses, good.reads]
    rfl
  · refine (good.safe a starts).access same.cfg accessed (by simp [Cache.fetchReq]) fun dirty => .inl ?_
    unfold Cache.DirtyAt Cache.getBlockAddr
    rw [same.cfg]
    exact same.dirty.mpr dirty

theorem spill (proper : Proper cfg1 cfg2 latency) (good : Good cfg1 cfg2 latency done l1 lo)
    (cfg : l1'.cfg = l1.cfg) (indexed : l1'.Indexed)
    (spill : Cache.Spill (β := .level2) l1 lo l1' lo') : Good cfg1 cfg2 latency done l1' lo' := by
  obtain ⟨-, -, misses⟩ := spill.counts
  have at_ : ∀ {a : Nat}, l1'.Dirty (l1.getBlockAddr a) → l1'.DirtyAt a := by
    intro a dirty
    unfold Cache.DirtyAt
    rwa [Cache.getBlockAddr, cfg]
  cases spill with
  | none same stats kept =>
      subst same
      exact ⟨cfg.trans good.sameCfg1, good.sameCfg2, indexed, good.indexed2, good.latency, good.memory,
        by rw [stats, good.writes], by rw [misses, good.reads],
        fun a starts => (good.safe a starts).grow cfg fun dirty => at_ (kept _ dirty)⟩
  | @victim V result suspended calls inWord down stats kept =>
      have accessed := Lower.access_spec (good.sameCfg2 ▸ proper.l2) good.indexed2
        (show ({ addr := shiftLeft64 V l1.cfg.b, op := .write } : MemReq).addr < 2 ^ 64 from
          shiftLeft64_lt _ _)
      cases down
      have balance := accessed.balance
      have memory := good.memory
      have addr : shiftLeft64 V l1.cfg.b = V <<< l1.cfg.b := Nat.mod_eq_of_lt inWord
      refine ⟨cfg.trans good.sameCfg1, accessed.cfg.trans good.sameCfg2, indexed, accessed.indexed,
        accessed.latency.trans good.latency, by omega, ?_, ?_, fun a starts => ?_⟩
      · rw [accessed.writes, stats, good.writes]
        rfl
      · rw [accessed.reads, misses, good.reads]
        rfl
      · refine (good.safe a starts).access cfg accessed (fun _ line => ?_) fun dirty => ?_
        · -- The victim's address is the start of the line.
          dsimp only at line ⊢
          rw [addr, Nat.shiftLeft_shiftRight] at line
          rw [addr, line, good.sameCfg1, good.sameCfg2]
          exact starts
        · by_cases other : l1.getBlockAddr a = V
          · refine .inr ⟨rfl, ?_⟩
            dsimp only
            rw [addr, Nat.shiftLeft_shiftRight]
            exact other.symm
          · exact .inl (at_ (kept _ dirty other))

theorem log (good : Good cfg1 cfg2 latency done l1 lo)
    (written : req.op = .write → l1.DirtyAt req.addr) :
    Good cfg1 cfg2 latency (done ++ [req]) l1 { lo with log := lo.log ++ [.l1 req] } :=
  { good with safe := fun a starts => (good.safe a starts).store written }

end Good

variable {cfg1 cfg2 : Config} {latency : Nat} {done : List MemReq} {h : Hierarchy}

theorem good_access (proper : Proper cfg1 cfg2 latency) (good : Good cfg1 cfg2 latency done h.l1 h.lower)
    {req : MemReq} (word : req.addr < 2 ^ 64) :
    Good cfg1 cfg2 latency (done ++ [req]) (h.access req).l1 (h.access req).lower := by
  have seen : Good cfg1 cfg2 latency done h.l1 { h.lower with peerAbove := h.l1 } :=
    ⟨good.sameCfg1, good.sameCfg2, good.indexed1, good.indexed2, good.latency, good.memory, good.writes,
      good.reads, good.safe⟩
  obtain ⟨cfg, indexed, accessed⟩ := Cache.access_spec (β := .level2) Below.answers_level2
    (good.sameCfg1 ▸ proper.l1) good.indexed1 word { h.lower with peerAbove := h.l1 }
  unfold access
  dsimp only
  generalize (h.l1.access (β := .level2) { h.lower with peerAbove := h.l1 } req).1 = r
    at cfg indexed accessed ⊢
  have at_ : r.cache.Dirty (h.l1.getBlockAddr req.addr) → r.cache.DirtyAt req.addr := by
    intro dirty
    unfold Cache.DirtyAt
    rwa [Cache.getBlockAddr, cfg]
  have write : req.op = .write → req.op.isWrite = true := fun write => by simp [Op.isWrite, write]
  cases accessed with
  | hit same lines counts writebacks written =>
      refine Good.log ?_ fun store => at_ (written (write store))
      rw [same]
      refine ⟨cfg.trans good.sameCfg1, good.sameCfg2, indexed, good.indexed2, good.latency,
        good.memory, good.writes.trans writebacks.symm, good.reads.trans counts.misses.symm, ?_⟩
      refine fun a starts => (seen.safe a starts).grow cfg fun dirty => ?_
      unfold Cache.DirtyAt
      rw [Cache.getBlockAddr, cfg]
      exact lines _ dirty
  | suspended asked =>
      exact (Lower.not_suspended (seen.sameCfg2 ▸ proper.l2) (seen.sameCfg2 ▸ proper.hit)
        (seen.latency ▸ proper.memory) asked).elim
  | filled asked same counts writebacks inserted =>
      exact ((seen.fetch proper asked same counts writebacks).spill proper inserted.cfg
        inserted.indexed inserted.spill).log fun store => at_ (inserted.fresh (write store))

theorem good_build (cfg1 cfg2 : Config) (prefetcher : Option Prefetcher) (latency : Nat) :
    Good cfg1 cfg2 latency [] (build cfg1 cfg2 prefetcher latency).l1
      (build cfg1 cfg2 prefetcher latency).lower :=
  ⟨rfl, rfl, fun _ _ => nofun, fun _ _ => nofun, rfl, rfl, rfl, rfl, fun _ _ _ => nofun⟩

theorem good_run (proper : Proper cfg1 cfg2 latency) {reqs : List MemReq}
    (good : Good cfg1 cfg2 latency done h.l1 h.lower) (words : ∀ req ∈ reqs, req.addr < 2 ^ 64) :
    Good cfg1 cfg2 latency (done ++ reqs) (h.run reqs).l1 (h.run reqs).lower := by
  induction reqs generalizing h done with
  | nil =>
      rw [List.append_nil]
      exact good
  | cons req rest ih =>
      obtain ⟨word, words⟩ := List.forall_mem_cons.mp words
      rw [List.append_cons]
      exact ih (good_access proper good word) words

/-- A stored block is dirty in L1 or in L2, or was written to the main memory after its
    line had left L1 for L2; and each level receives what the one above gives up. -/
theorem no_store_lost (cfg1 cfg2 : Config) (prefetcher : Option Prefetcher) (latency : Nat)
    (proper : Proper cfg1 cfg2 latency) (reqs : List MemReq)
    (words : ∀ req ∈ reqs, req.addr < 2 ^ 64) :
    (∀ a, StartsIn cfg1 cfg2 a →
      (∃ req ∈ reqs, req.op = .write ∧ req.addr >>> cfg1.b = a >>> cfg1.b) →
      ((build cfg1 cfg2 prefetcher latency).run reqs).l1.DirtyAt a ∨
        ((build cfg1 cfg2 prefetcher latency).run reqs).lower.l2.DirtyAt a ∨
        whereabouts cfg1.b cfg2.b a
          ((build cfg1 cfg2 prefetcher latency).run reqs).lower.log = .memory) ∧
      ((build cfg1 cfg2 prefetcher latency).run reqs).lower.memory.stats.writes =
        ((build cfg1 cfg2 prefetcher latency).run reqs).lower.l2.stats.writebacks ∧
      ((build cfg1 cfg2 prefetcher latency).run reqs).lower.l2.stats.writes =
        ((build cfg1 cfg2 prefetcher latency).run reqs).l1.stats.writebacks ∧
      ((build cfg1 cfg2 prefetcher latency).run reqs).lower.l2.stats.reads =
        ((build cfg1 cfg2 prefetcher latency).run reqs).l1.stats.misses := by
  have good := good_run proper (good_build cfg1 cfg2 prefetcher latency) words
  generalize (build cfg1 cfg2 prefetcher latency).run reqs = h at good ⊢
  refine ⟨fun a starts ⟨req, mem, store⟩ => ?_, good.memory, good.writes, good.reads⟩
  have safe := good.safe a starts
  unfold Safe at safe
  rw [good.sameCfg1, good.sameCfg2] at safe
  generalize whereabouts cfg1.b cfg2.b a h.lower.log = reached at safe ⊢
  cases reached with
  | unwritten =>
      unfold Kept at safe
      rw [good.sameCfg1] at safe
      exact absurd store (safe req mem)
  | l1 => exact .inl safe
  | l2 => exact .inr (.inl safe)
  | memory => exact .inr (.inr rfl)

/-- A store follows its line down to the main memory. -/
theorem no_store_lost_down :
    whereabouts 6 6 8 ((build { s := 0 } { c := 11, s := 0 } (some .plusOne) 100).run
        [{ addr := 8, op := .write }, { addr := 1024 }, { addr := 2048 }]).lower.log = .memory ∧
      (((build { s := 0 } { c := 11, s := 0 } (some .plusOne) 100).run
          [{ addr := 8, op := .write }, { addr := 1024 }, { addr := 2048 }]).l1.DirtyAt 8 ∨
        ((build { s := 0 } { c := 11, s := 0 } (some .plusOne) 100).run
          [{ addr := 8, op := .write }, { addr := 1024 }, { addr := 2048 }]).lower.l2.DirtyAt 8 ∨
        whereabouts 6 6 8 ((build { s := 0 } { c := 11, s := 0 } (some .plusOne) 100).run
          [{ addr := 8, op := .write }, { addr := 1024 }, { addr := 2048 }]).lower.log = .memory) :=
  ⟨by decide +kernel, (no_store_lost { s := 0 } { c := 11, s := 0 } (some .plusOne) 100
    ⟨⟨rfl, rfl⟩, ⟨rfl, rfl⟩, by decide, by decide⟩ _ (by decide)).1 8 rfl (by decide)⟩

/-- The addresses that were written in the main memory. -/
def writtenBack (log : List Event) : List Nat :=
  log.filterMap fun
    | .memory req => if req.op = .write then some req.addr else none
    | _ => none

/-- A lower level whose lines are the shorter ones takes only the start of a line. -/
def shortLines : Hierarchy :=
  (build { b := 7, s := 0 } { c := 11, s := 0 } none 100).run
    [{ addr := 64, op := .write }, { addr := 1088 }]

/-- A hit latency of `-1` in L2 makes a hit there look suspended to L1. -/
def sentinelLatency : Hierarchy :=
  (build { s := 0 } { c := 11, s := 0, hitLatency := 2 ^ 32 - 1 } none 100).run
    [{ addr := 64 }, { addr := 1088 }, { addr := 64, op := .write }]

/-- Address `a` was stored to, and the store is neither in a cache nor in the main memory. -/
def Lost (h : Hierarchy) (a : Nat) : Prop :=
  .l1 { addr := a, op := .write } ∈ h.lower.log ∧
    ¬ (h.l1.DirtyAt a ∨ h.lower.l2.DirtyAt a ∨ a >>> 6 ∈ (writtenBack h.lower.log).map (· >>> 6))

instance (h : Hierarchy) (a : Nat) : Decidable (h.Lost a) :=
  inferInstanceAs (Decidable (_ ∧ _))

theorem store_lost : shortLines.Lost 64 ∧ sentinelLatency.Lost 64 := by
  constructor
  · decide +kernel
  · decide +kernel

end Hierarchy

end Memory
